import FridaCore.Packages.HoistStep

/-!
# Runs of safe hoists

A pass of `try_hoist_any_package` goes through the tree breadth first and changes
it as it goes. Every node it tries is in the tree at that time, since only nodes
below one that has not been seen yet are ever dropped. So a run of safe hoists
keeps the tree closed but for what is waiting, and when a pass finds nothing more
to hoist, what was waiting has been merged or finds what it needs at the root.
-/

namespace FridaCore.Packages

open List Option Forest

open Semver

namespace Graph

/-- All that is not below the node stays in the tree with the parent it had, but
for one that may go to the node's parent; the node is taken out or goes up. -/
structure Frame (g g' : Graph) (x p : NodeId) : Prop where
  node : g'.node = g.node
  reach : ∀ y, g.Reach y → ¬ g.forest.Above x y → g'.Reach y
  parent : ∀ y, ¬ g.forest.Above x y → g'.parent y = g.parent y ∨ g'.parent y = some p
  self : ∀ a, g'.parent x = some a → g'.Reach x ∧ g.forest.Above a p
  sibling : ∀ k c, k ≠ g.name x → g.child? p k = some c → g'.child? p k = some c

variable {g : Graph} {x p q a dupe : NodeId}

theorem Frame.refl (hx : g.Reach x) (hp : g.parent x = some p) : Frame g g x p where
  node := rfl
  reach _ hy _ := hy
  parent _ _ := .inl rfl
  self a ha := by
    rw [hp] at ha
    cases ha
    exact ⟨hx, .refl⟩
  sibling _ _ _ hc := hc

section
variable (h : g.Tree) (hx : g.Reach x) (hp : g.parent x = some p)
include h hx hp

theorem Tree.move_frame (hq : g.parent p = some q)
    (hnone : ∀ a c, ¬ g.forest.Nearest (g.name x) q a c) : Frame g (g.apply (.move x p q)) x p := by
  have hfree : g.forest.child q (g.name x) = none := by
    cases hc : g.child? q (g.name x) with
    | none => exact hc
    | some c => exact absurd (.here hc) (hnone q c)
  have hreach : ∀ y, g.Reach y → (g.apply (.move x p q)).Reach y := by
    intro y hy
    rw [Reach, forest_move]
    exact reach_move h.rooted hx hp hq hfree hy
  have hparent : ∀ y, (g.apply (.move x p q)).parent y = if y = x then some q else g.parent y :=
    fun y => parent_setParent
  refine ⟨rfl, fun y hy _ => hreach y hy, fun y hyx => .inl ?_, fun a ha => ?_, fun k c hk hc => ?_⟩
  · rw [hparent, if_neg]
    rintro rfl
    exact hyx .refl
  · rw [hparent, if_pos rfl] at ha
    cases ha
    exact ⟨hreach x hx, .parent hq⟩
  · change (g.apply (.move x p q)).forest.child p k = some c
    rw [forest_move, child_move, if_neg fun heq => hk heq.2, if_neg fun heq => hk heq.2]
    exact hc

theorem Tree.swap_frame (hq : g.parent p = some q) (hn : g.forest.Nearest (g.name x) q a dupe)
    (hapart : ¬ g.forest.Above dupe p) : Frame g (g.apply (.swap x dupe p a)) x p := by
  have s := h.rivals hx hp hq hn
  have hreach : ∀ y, g.Reach y → (g.apply (.swap x dupe p a)).Reach y := by
    intro y hy
    rw [Reach, forest_swap]
    exact reach_swap s hapart hy
  have hparent : ∀ y, (g.apply (.swap x dupe p a)).parent y =
      if y = x then some a else if y = dupe then some p else g.parent y := by
    intro y
    change (g.apply (.swap x dupe p a)).forest.parent y = _
    rw [forest_swap, parent_swap]
  refine ⟨rfl, fun y hy _ => hreach y hy, fun y hyx => ?_, fun b hb => ?_, fun k c hk hc => ?_⟩
  · rw [hparent, if_neg fun heq : y = x => hyx (heq ▸ .refl)]
    split
    · exact .inr rfl
    · exact .inl rfl
  · rw [hparent, if_pos rfl] at hb
    cases hb
    exact ⟨hreach x hx, s.above.trans (.parent hq)⟩
  · change (g.apply (.swap x dupe p a)).forest.child p k = some c
    rw [forest_swap, child_swap, if_neg fun heq => hk heq.2, if_neg fun heq => hk heq.2]
    exact hc

theorem Tree.merge_frame (hq : g.parent p = some q) (hn : g.forest.Nearest (g.name x) q a dupe) :
    Frame g (g.apply (.merge x dupe p)) x p := by
  have s := h.rivals hx hp hq hn
  refine ⟨node_apply, fun y hy hyx => ?_, fun y hyx => .inl ?_, fun b hb => ?_, fun k c hk hc => ?_⟩
  · rw [Reach, h.forest_merge hx]
    exact reach_merge s hy hyx
  · change (g.apply (.merge x dupe p)).forest.parent y = g.forest.parent y
    rw [h.forest_merge hx]
    exact parent_merge_of_not_above s hyx
  · change (g.apply (.merge x dupe p)).forest.parent x = some b at hb
    rw [h.forest_merge hx, parent_merge, if_pos rfl] at hb
    cases hb
  · change (g.apply (.merge x dupe p)).forest.child p k = some c
    rw [h.forest_merge hx]
    refine child_merge_kept s hc ?_
    rintro rfl
    exact hk (h.rooted.linked p k c s.reach_p hc).2.symm

end

theorem Settled.frame [UnicharTables] (h : g.Settled waiting)
    (hx : g.Reach x) (hp : g.parent x = some p) (hdue : g.Due x hoist)
    (hsafe : SafeHoist waiting g hoist) : Frame g (g.apply hoist) x p := by
  cases hdue with
  | merge hp' hq hn =>
    rw [hp] at hp'
    cases hp'
    exact h.tree.merge_frame hx hp hq hn
  | swap hp' hq hn =>
    rw [hp] at hp'
    cases hp'
    refine h.tree.swap_frame hx hp hq hn fun habove => ?_
    have hfalse := hsafe.apart
    rw [h.tree.above_of_above (h.tree.rooted.parent hx hp).1 habove] at hfalse
    cases hfalse
  | move hp' hq hnone =>
    rw [hp] at hp'
    cases hp'
    exact h.tree.move_frame hx hp hq hnone

end Graph

/-- What has been seen is in the tree, and is below what has left the queue. -/
structure HoistPass.Underway (pass : HoistPass) : Prop where
  root : rootId ∈ pass.seen
  queue : ∀ x ∈ pass.queue, x ∈ pass.seen
  nodup : pass.queue.Nodup
  reach : ∀ x ∈ pass.seen, pass.graph.Reach x
  parent : ∀ x ∈ pass.seen, ∀ p, pass.graph.parent x = some p → p ∈ pass.seen ∧ p ∉ pass.queue

variable {pass pass' : HoistPass} {n c : NodeId}

theorem HoistPass.Underway.above (h : pass.Underway) (hy : y ∈ pass.seen ∧ y ∉ pass.queue)
    (ha : pass.graph.forest.Above a y) : a ∈ pass.seen ∧ a ∉ pass.queue := by
  induction ha with
  | refl => exact hy
  | up hp _ ih => exact ih (h.parent _ hy.1 _ hp)

theorem HoistPass.Underway.not_above (h : pass.Underway) (hc : c ∉ pass.seen)
    (hy : y ∈ pass.seen) : ¬ pass.graph.forest.Above c y := by
  intro ha
  cases ha with
  | refl => exact hc hy
  | up hp ha => exact hc (h.above (h.parent _ hy _ hp) ha).1

/-- What `hoistChildren` makes of a child. -/
def HoistPass.tried (pass : HoistPass) (c : NodeId) (hoist : Option Hoist) : HoistPass :=
  let g' := (hoist.map pass.graph.apply).getD pass.graph
  let steps := pass.steps ++ (hoist.map (HoistStep.mk pass.graph)).toList
  if (g'.parent c).isSome ∧ c ∉ pass.seen then
    ⟨g', insert c pass.seen, pass.queue ++ [c], steps⟩
  else { pass with graph := g', steps }

theorem hoistChildren_cons [UnicharTables] (hp : hoistChildren pass (c :: cs) = .ok pass') :
    ∃ hoist, pass.graph.nextHoist c = .ok hoist ∧
      hoistChildren (pass.tried c hoist) cs = .ok pass' := by
  obtain ⟨hoist, hnext, hp⟩ := bind_eq_ok hp
  refine ⟨hoist, hnext, ?_⟩
  rw [HoistPass.tried]
  simp only at hp
  split at hp
  · rename_i hcond
    rwa [if_pos hcond]
  · rename_i hcond
    rwa [if_neg hcond]

theorem HoistPass.tried_graph :
    (pass.tried c hoist).graph = (hoist.map pass.graph.apply).getD pass.graph := by
  simp only [HoistPass.tried]
  split <;> rfl

theorem HoistPass.tried_steps :
    (pass.tried c hoist).steps = pass.steps ++ (hoist.map (HoistStep.mk pass.graph)).toList := by
  simp only [HoistPass.tried]
  split <;> rfl

theorem mem_insert_append {seen : Finset NodeId} (hp : p ∈ seen ∧ p ∉ queue) (hc : c ∉ seen) :
    p ∈ insert c seen ∧ p ∉ queue ++ [c] := by
  refine ⟨Finset.mem_insert_of_mem hp.1, fun hmem => ?_⟩
  rcases mem_append.mp hmem with hmem | hmem
  · exact hp.2 hmem
  · exact hc (mem_singleton.mp hmem ▸ hp.1)

theorem HoistPass.Underway.tried (h : pass.Underway) (hn : n ∈ pass.seen ∧ n ∉ pass.queue)
    (hc : c ∉ pass.seen) (hf : pass.graph.Frame (pass.tried c hoist).graph c n) :
    (pass.tried c hoist).Underway := by
  rw [HoistPass.tried_graph] at hf
  rw [HoistPass.tried]
  generalize (hoist.map pass.graph.apply).getD pass.graph = g' at hf ⊢
  have hreach : ∀ x ∈ pass.seen, g'.Reach x := fun x hx =>
    hf.reach x (h.reach x hx) (h.not_above hc hx)
  have hparent : ∀ x ∈ pass.seen, ∀ p, g'.parent x = some p →
      p ∈ pass.seen ∧ p ∉ pass.queue := by
    intro x hx p hp
    rcases hf.parent x (h.not_above hc hx) with heq | heq
    · exact h.parent x hx p (heq ▸ hp)
    · rw [heq] at hp
      cases hp
      exact hn
  split
  · rename_i hsome
    obtain ⟨a, ha⟩ := isSome_iff_exists.mp hsome.1
    obtain ⟨hself, habove⟩ := hf.self a ha
    refine ⟨Finset.mem_insert_of_mem h.root, fun x hx => ?_, ?_, fun x hx => ?_, fun x hx p hp => ?_⟩
    · rcases mem_append.mp hx with hx | hx
      · exact Finset.mem_insert_of_mem (h.queue x hx)
      · exact mem_singleton.mp hx ▸ Finset.mem_insert_self ..
    · refine nodup_append.mpr ⟨h.nodup, nodup_singleton c, ?_⟩
      rintro x hx y hy rfl
      exact hc (mem_singleton.mp hy ▸ h.queue x hx)
    · rcases Finset.mem_insert.mp hx with rfl | hx
      · exact hself
      · exact hreach x hx
    · rcases Finset.mem_insert.mp hx with rfl | hx
      · rw [ha] at hp
        cases hp
        exact mem_insert_append (h.above hn habove) hc
      · exact mem_insert_append (hparent x hx p hp) hc
  · exact ⟨h.root, h.queue, h.nodup, hreach, hparent⟩

structure HoistPass.Pending (pass : HoistPass) (n : NodeId) (cs : List NodeId) : Prop where
  polled : n ∈ pass.seen ∧ n ∉ pass.queue
  child : ∀ c ∈ cs, pass.graph.child? n (pass.graph.name c) = some c ∧ c ∉ pass.seen
  names : (cs.map pass.graph.name).Nodup

theorem HoistPass.Pending.tried (h : pass.Pending n (c :: cs))
    (hf : pass.graph.Frame (pass.tried c hoist).graph c n) :
    (pass.tried c hoist).Pending n cs := by
  obtain ⟨hnot, hnames⟩ := nodup_cons.mp h.names
  have hc := (h.child c mem_cons_self).2
  have hne : ∀ c' ∈ cs, c' ≠ c := by
    rintro c' hc' rfl
    exact hnot (mem_map_of_mem hc')
  have hname : (pass.tried c hoist).graph.name = pass.graph.name := by
    funext x
    simp only [Graph.name, hf.node]
  refine ⟨?_, fun c' hc' => ?_, by rwa [hname]⟩
  · simp only [HoistPass.tried]
    split
    · exact mem_insert_append h.polled hc
    · exact h.polled
  · obtain ⟨hchild, hseen⟩ := h.child c' (mem_cons_of_mem _ hc')
    refine ⟨hname ▸ hf.sibling _ c' (fun heq => hnot (heq ▸ mem_map_of_mem hc')) hchild, ?_⟩
    simp only [HoistPass.tried]
    split
    · exact fun hmem => hseen ((Finset.mem_insert.mp hmem).resolve_left (hne c' hc'))
    · exact hseen

theorem HoistPass.Underway.poll (h : pass.Underway) (ht : pass.graph.Tree)
    (hq : pass.queue = n :: rest) :
    HoistPass.Underway { pass with queue := rest } ∧
      HoistPass.Pending { pass with queue := rest } n (pass.graph.childList n) := by
  have hseen : n ∈ pass.seen := h.queue n (hq ▸ mem_cons_self)
  have hreach := h.reach n hseen
  have hnodup := h.nodup
  rw [hq] at hnodup
  obtain ⟨hnot, hnodup⟩ := nodup_cons.mp hnodup
  have hsub : ∀ x ∈ rest, x ∈ pass.queue := fun x hx => hq ▸ mem_cons_of_mem _ hx
  refine ⟨⟨h.root, fun x hx => h.queue x (hsub x hx), hnodup, h.reach, fun x hx p hp => ?_⟩,
    ⟨hseen, hnot⟩, fun c hc => ?_, ht.names_nodup hreach⟩
  · obtain ⟨hp, hpq⟩ := h.parent x hx p hp
    exact ⟨hp, fun hmem => hpq (hsub p hmem)⟩
  · have hchild := (ht.mem_childList hreach).mp hc
    refine ⟨hchild, fun hmem => ?_⟩
    -- the parent of what has been seen has left the queue before
    have hparent := (ht.rooted.linked n _ c hreach hchild).1
    exact (h.parent c hmem n hparent).2 (hq ▸ mem_cons_self)

theorem underway_start (h : g.Tree) : HoistPass.Underway ⟨g, {rootId}, [rootId], []⟩ := by
  refine ⟨Finset.mem_singleton_self _, by simp, nodup_singleton _, ?_, ?_⟩
  · intro x hx
    rw [Finset.mem_singleton.mp hx]
    exact .root
  · intro x hx p hp
    rw [Finset.mem_singleton.mp hx] at hp
    cases h.rooted.root.symm.trans hp

def waitingAfterRun (waiting : Finset NodeId) (steps : List HoistStep) : Finset NodeId :=
  steps.foldl (fun waiting step => step.hoist.waitingAfter waiting) waiting

section
variable [UnicharTables] {waiting : Finset NodeId}

theorem safeRun_append : SafeRun waiting (l ++ l') ↔
    SafeRun waiting l ∧ SafeRun (waitingAfterRun waiting l) l' := by
  induction l generalizing waiting with
  | nil => simp [SafeRun, waitingAfterRun]
  | cons step l ih =>
    simp only [cons_append, SafeRun, ih, and_assoc]
    rfl

theorem hoistChildren_steps (hp : hoistChildren pass cs = .ok pass') :
    ∃ l, pass'.steps = pass.steps ++ l := by
  induction cs generalizing pass with
  | nil =>
    cases hp
    exact ⟨[], (append_nil _).symm⟩
  | cons c cs ih =>
    obtain ⟨hoist, -, hp⟩ := hoistChildren_cons hp
    obtain ⟨l, hl⟩ := ih hp
    exact ⟨_, by rw [hl, HoistPass.tried_steps, append_assoc]⟩

theorem hoistChildren_settled (hu : pass.Underway) (hs : pass.graph.Settled waiting)
    (hcs : pass.Pending n cs) (hp : hoistChildren pass cs = .ok pass')
    (hl : pass'.steps = pass.steps ++ l) (hsafe : SafeRun waiting l) :
    pass'.Underway ∧ pass'.graph.Settled (waitingAfterRun waiting l) := by
  induction cs generalizing pass waiting l with
  | nil =>
    cases hp
    cases self_eq_append_right.mp hl
    exact ⟨hu, hs⟩
  | cons c cs ih =>
    obtain ⟨hoist, hnext, hp⟩ := hoistChildren_cons hp
    obtain ⟨hchild, hseen⟩ := hcs.child c mem_cons_self
    have hreach : pass.graph.Reach c := (hu.reach n hcs.polled.1).child hchild
    have hparent := (hs.tree.rooted.linked n _ c (hu.reach n hcs.polled.1) hchild).1
    obtain ⟨l', hl'⟩ := hoistChildren_steps hp
    have hsplit : l = (hoist.map (HoistStep.mk pass.graph)).toList ++ l' := by
      rw [hl, HoistPass.tried_steps, append_assoc] at hl'
      exact append_cancel_left hl'
    subst hsplit
    obtain ⟨hfirst, hrest⟩ := safeRun_append.mp hsafe
    have hstep : pass.graph.Frame (pass.tried c hoist).graph c n ∧
        (pass.tried c hoist).graph.Settled
          (waitingAfterRun waiting (hoist.map (HoistStep.mk pass.graph)).toList) := by
      rw [HoistPass.tried_graph]
      cases hoist with
      | none => exact ⟨.refl hreach hparent, hs⟩
      | some hoist =>
        have hdue := Graph.nextHoist_due hnext
        exact ⟨hs.frame hreach hparent hdue hfirst.1, hs.apply hreach hdue hfirst.1⟩
    have hend := ih (hu.tried hcs.polled hseen hstep.1) hstep.2 (hcs.tried hstep.1) hp hl' hrest
    rwa [waitingAfterRun, foldl_append]

theorem hoistQueue_steps (hp : hoistQueue fuel pass = .ok pass') :
    ∃ l, pass'.steps = pass.steps ++ l := by
  induction fuel generalizing pass with
  | zero => cases hp
  | succ fuel ih =>
    simp only [hoistQueue] at hp
    split at hp
    · cases hp
      exact ⟨[], (append_nil _).symm⟩
    · obtain ⟨mid, hmid, hp⟩ := bind_eq_ok hp
      obtain ⟨l, hl⟩ := hoistChildren_steps hmid
      obtain ⟨l', hl'⟩ := ih hp
      exact ⟨l ++ l', by rw [hl', hl, append_assoc]⟩

theorem hoistQueue_settled (hu : pass.Underway) (hs : pass.graph.Settled waiting)
    (hp : hoistQueue fuel pass = .ok pass') (hl : pass'.steps = pass.steps ++ l)
    (hsafe : SafeRun waiting l) : pass'.graph.Settled (waitingAfterRun waiting l) := by
  induction fuel generalizing pass waiting l with
  | zero => cases hp
  | succ fuel ih =>
    simp only [hoistQueue] at hp
    split at hp
    · cases hp
      cases self_eq_append_right.mp hl
      exact hs
    · rename_i n queue hq
      obtain ⟨mid, hmid, hp⟩ := bind_eq_ok hp
      obtain ⟨l₁, hl₁⟩ := hoistChildren_steps hmid
      obtain ⟨l₂, hl₂⟩ := hoistQueue_steps hp
      have hsplit : l = l₁ ++ l₂ := by
        rw [hl, hl₁, append_assoc] at hl₂
        exact append_cancel_left hl₂
      subst hsplit
      obtain ⟨hfirst, hrest⟩ := safeRun_append.mp hsafe
      obtain ⟨hu', hpending⟩ := hu.poll hs.tree hq
      obtain ⟨humid, hsmid⟩ := hoistChildren_settled hu' hs hpending hmid hl₁ hfirst
      have hend := ih humid hsmid hp hl₂ hrest
      rwa [waitingAfterRun, foldl_append]

def Graph.Stuck (g : Graph) : Prop :=
  ∀ x k c, g.Reach x → g.child? x k = some c → g.nextHoist c = .ok none

/-- So far nothing could be hoisted, and the children of what has left the queue
have been seen. -/
def HoistPass.Quiet (pass : HoistPass) : Prop :=
  ∀ x ∈ pass.seen, x ∉ pass.queue → ∀ k c, pass.graph.child? x k = some c →
    c ∈ pass.seen ∧ pass.graph.nextHoist c = .ok none

theorem hoistChildren_quiet (hp : hoistChildren pass cs = .ok pass')
    (hl : pass'.steps = pass.steps) :
    pass'.graph = pass.graph ∧
      (∀ c ∈ cs, pass.graph.nextHoist c = .ok none ∧
        ((pass.graph.parent c).isSome → c ∈ pass'.seen)) ∧
      pass.seen ⊆ pass'.seen ∧
      ∀ x ∈ pass'.seen, x ∉ pass'.queue → x ∈ pass.seen ∧ x ∉ pass.queue := by
  induction cs generalizing pass with
  | nil =>
    cases hp
    exact ⟨rfl, by simp, Finset.Subset.refl _, fun x hx hq => ⟨hx, hq⟩⟩
  | cons c cs ih =>
    obtain ⟨hoist, hnext, hp⟩ := hoistChildren_cons hp
    obtain ⟨l, hl'⟩ := hoistChildren_steps hp
    rw [hl, HoistPass.tried_steps, append_assoc, self_eq_append_right,
      append_eq_nil_iff] at hl'
    obtain ⟨hnone, rfl⟩ := hl'
    cases hoist with
    | some hoist => cases hnone
    | none =>
      have hgraph : (pass.tried c none).graph = pass.graph := HoistPass.tried_graph
      have hsteps : (pass.tried c none).steps = pass.steps := by
        rw [HoistPass.tried_steps]
        simp
      obtain ⟨hgraph', hcs, hsub, hpolled⟩ := ih hp (hl.trans hsteps.symm)
      rw [hgraph] at hgraph' hcs
      have hseen : pass.seen ⊆ (pass.tried c none).seen := by
        simp only [HoistPass.tried]
        split
        · exact Finset.subset_insert _ _
        · exact Finset.Subset.refl _
      refine ⟨hgraph', forall_mem_cons.mpr ⟨⟨hnext, fun hsome => hsub ?_⟩, hcs⟩,
        hseen.trans hsub, fun x hx hq => ?_⟩
      · simp only [HoistPass.tried]
        split
        · exact Finset.mem_insert_self _ _
        · rename_i hcond
          by_contra hmem
          exact hcond ⟨hsome, hmem⟩
      · obtain ⟨hx, hq⟩ := hpolled x hx hq
        simp only [HoistPass.tried] at hx hq
        split at hx
        · rename_i hcond
          rw [if_pos hcond] at hq
          have hne : x ≠ c := fun heq => hq (by simp [heq])
          exact ⟨(Finset.mem_insert.mp hx).resolve_left hne, fun hmem => hq (by simp [hmem])⟩
        · rename_i hcond
          rw [if_neg hcond] at hq
          exact ⟨hx, hq⟩

theorem hoistQueue_quiet (hu : pass.Underway) (hs : pass.graph.Settled waiting)
    (hq : pass.Quiet) (hp : hoistQueue fuel pass = .ok pass') (hl : pass'.steps = pass.steps) :
    pass'.graph = pass.graph ∧ pass.graph.Stuck := by
  induction fuel generalizing pass with
  | zero => cases hp
  | succ fuel ih =>
    simp only [hoistQueue] at hp
    split at hp
    · rename_i hempty
      have heq := Except.ok.inj hp
      subst heq
      have hall : ∀ x, pass.graph.Reach x → x ∈ pass.seen := by
        intro x hx
        induction hx using Forest.Reach.rec with
        | root => exact hu.root
        | child y m z hy hz ih => exact (hq y ih (by simp [hempty]) m z hz).1
      exact ⟨rfl, fun x k c hx hc => (hq x (hall x hx) (by simp [hempty]) k c hc).2⟩
    · rename_i n rest hqueue
      obtain ⟨mid, hmid, hp⟩ := bind_eq_ok hp
      obtain ⟨l₁, hl₁⟩ := hoistChildren_steps hmid
      obtain ⟨l₂, hl₂⟩ := hoistQueue_steps hp
      have hnil : l₁ = [] := by
        rw [hl, hl₁, append_assoc, self_eq_append_right, append_eq_nil_iff] at hl₂
        exact hl₂.1
      subst hnil
      obtain ⟨hu', hpending⟩ := hu.poll hs.tree hqueue
      have hsteps : mid.steps = pass.steps := hl₁.trans (append_nil _)
      obtain ⟨hgraph, htried, hsub, hpolled⟩ := hoistChildren_quiet hmid hsteps
      obtain ⟨humid, hsmid⟩ := hoistChildren_settled hu' hs hpending hmid hl₁ trivial
      have hqmid : mid.Quiet := by
        intro x hx hxq k c hc
        obtain ⟨hx, hxq⟩ := hpolled x hx hxq
        rw [hgraph] at hc ⊢
        by_cases hxn : x = n
        · subst hxn
          obtain ⟨hnext, hin⟩ := htried c (Graph.mem_childList.mpr ⟨k, hc⟩)
          have hparent := (hs.tree.rooted.linked x k c (hu.reach x hx) hc).1
          exact ⟨hin (isSome_of_eq_some hparent), hnext⟩
        · have hxq : x ∉ pass.queue := by
            rw [hqueue, mem_cons, not_or]
            exact ⟨hxn, hxq⟩
          obtain ⟨hin, hnext⟩ := hq x hx hxq k c hc
          exact ⟨hsub hin, hnext⟩
      obtain ⟨hgraph', hstuck⟩ := ih humid hsmid hqmid hp (hl.trans hsteps.symm)
      exact ⟨hgraph'.trans hgraph, hgraph ▸ hstuck⟩

theorem hoistGraph_settled (hs : g.Settled waiting)
    (hh : hoistGraph passes g rootId = .ok (g', steps)) (hsafe : SafeRun waiting steps) :
    g'.Settled (waitingAfterRun waiting steps) ∧ g'.Stuck := by
  induction passes generalizing g waiting steps with
  | zero => cases hh
  | succ passes ih =>
    obtain ⟨pass, hpass, hh⟩ := bind_eq_ok hh
    have hu := underway_start hs.tree
    split at hh
    · rename_i hempty
      cases hh
      have hquiet : HoistPass.Quiet ⟨g, {rootId}, [rootId], []⟩ := by
        intro x hx hq
        exact absurd (Finset.mem_singleton.mp hx) (by simpa using hq)
      obtain ⟨hgraph, hstuck⟩ := hoistQueue_quiet hu hs hquiet hpass (isEmpty_iff.mp hempty)
      exact hgraph ▸ ⟨hs, hstuck⟩
    · obtain ⟨⟨g₁, rest⟩, hrest, hh⟩ := bind_eq_ok hh
      cases hh
      obtain ⟨hfirst, hrun⟩ := safeRun_append.mp hsafe
      have hs' := hoistQueue_settled hu hs hpass rfl hfirst
      obtain ⟨hend, hstuck⟩ := ih hs' hrest hrun
      refine ⟨?_, hstuck⟩
      rwa [waitingAfterRun, foldl_append]

namespace Graph

variable {g : Graph} {x y z p q a c : NodeId} {d : PackageDependency} {k : String}

theorem supplies_iff (hv : g.version c = .ok v) :
    g.supplies c d = true ↔ satisfiesRange v d.range = .ok true := by
  unfold version at hv
  unfold supplies
  cases hw : (g.node c).version with
  | none =>
    rw [hw] at hv
    cases hv
  | some w =>
    rw [hw] at hv
    cases hv
    exact decide_eq_true_iff

namespace Settled

theorem suits (h : g.Settled waiting) (hu : g.Undisputed k) (hx : g.Reach x)
    (hd : d ∈ (g.activeDeps x).values) (hk : d.name = k) (hz : g.Reach z) (hroot : z ≠ rootId)
    (hname : g.name z = k) : g.supplies z d = true := by
  -- somewhere in the tree the requirement is met by something of that name
  have hserved : ∀ y, g.Reach y → y ∉ waiting → d ∈ g.neededDeps y → g.supplies z d = true := by
    intro y hy hw hd
    obtain ⟨a, c, hn, hok⟩ := h.served y hy hw d hd
    obtain ⟨hc, hcroot, hcname, -⟩ := h.tree.found hy hn
    have hversion := hu.version c z hc hz hcroot hroot (hcname.trans hk) hname
    simpa only [supplies, hversion] using hok
  by_cases hrole : d.role = .peer
  · exact hu.suits x hx d hd hrole hk z hz hroot hname
  have hneed := mem_neededDeps.mpr ⟨hd, hrole⟩
  by_cases hw : x ∈ waiting
  · obtain ⟨y, hy, hyroot, hyw, hresolved⟩ := h.copy x hw hx
    have hsame := ((h.harmless x hw hx).consistent y hy hyroot (.inr hresolved)).2.2.2
    exact hserved y hy hyw (mem_neededDeps.mpr ⟨hsame ▸ hd, hrole⟩)
  · exact hserved x hx hw hneed

/-- When nothing can be hoisted, what has an undisputed name is below the root. -/
theorem parent_of_undisputed (h : g.Settled waiting) (hstuck : g.Stuck) (hu : g.Undisputed k)
    (hz : g.Reach z) (hroot : z ≠ rootId) (hname : g.name z = k) : g.parent z = some rootId := by
  obtain ⟨p, hp⟩ := h.tree.rooted.exists_parent hz hroot
  obtain ⟨hreach_p, hchild⟩ := h.tree.rooted.parent hz hp
  by_cases hproot : p = rootId
  · exact hproot ▸ hp
  obtain ⟨q, hq⟩ := h.tree.rooted.exists_parent hreach_p hproot
  obtain ⟨hreach_q, hchild_q⟩ := h.tree.rooted.parent hreach_p hq
  rcases nextHoist_none hp hq (hstuck p _ z hreach_p hchild) with
    ⟨anc, dupe, v, w, hn, hv, hw, hblocked⟩ | ⟨hnone, hblocked⟩
  · -- what is above has the same version, so it could be merged
    obtain ⟨hreach_d, hdroot, hdname, -⟩ := h.tree.found hreach_q hn
    have hversion := hu.version dupe z hreach_d hz hdroot hroot (hdname.trans hname) hname
    have hstr : v.str = w.str := by
      simp only [version, hversion] at hv
      simp only [version] at hw
      rw [hv] at hw
      rw [Except.ok.inj hw]
    obtain ⟨b, hb, hfalse⟩ := allUp_eq_false (hblocked hstr)
    obtain ⟨sib, hsib, hfalse⟩ := exists_of_allM_eq_false hfalse
    have hreach_b := h.tree.rooted.reach_of_above
      (h.tree.rooted.reach_of_above hreach_q hn.above) hb
    obtain ⟨m, hm⟩ := Graph.mem_childList.mp hsib
    have hreach_sib : g.Reach sib := hreach_b.child hm
    simp only [satisfiesSibling] at hfalse
    split at hfalse
    · cases hfalse
    split at hfalse
    · cases hfalse
    rename_i edge hedge
    obtain ⟨u, hu', hfalse⟩ := bind_eq_ok hfalse
    obtain ⟨hmem, hename⟩ := PackageDependencies.mem_values_of_get? hedge
    have hsuits : g.supplies ((g.child? sib (g.name z)).getD z) edge = true := by
      cases hc : g.child? sib (g.name z) with
      | none => exact h.suits hu hreach_sib hmem (hename.trans hname) hz hroot hname
      | some c =>
        obtain ⟨hreach_c, hcroot, hcname, -⟩ := h.tree.found hreach_sib (.here hc)
        exact h.suits hu hreach_sib hmem (hename.trans hname) hreach_c hcroot (hcname.trans hname)
    rw [supplies_iff hu', hfalse] at hsuits
    cases hsuits
  · rcases hblocked with hfalse | hfalse
    · simp only [satisfiesAncestor] at hfalse
      split at hfalse
      · cases hfalse
      rename_i need hneed
      obtain ⟨u, hu', hfalse⟩ := bind_eq_ok hfalse
      obtain ⟨hmem, hename⟩ := PackageDependencies.mem_values_of_get? hneed
      have hsuits := h.suits hu hreach_q hmem (hename.trans hname) hz hroot hname
      rw [supplies_iff hu', hfalse] at hsuits
      cases hsuits
    · rw [hu.peerless z hz hroot hname] at hfalse
      cases hfalse

theorem closed (h : g.Settled waiting) (hstuck : g.Stuck) : g.Closed := by
  intro x hx d hd
  refine h.tree.provides_of_serves hx ?_
  by_cases hw : x ∈ waiting
  · obtain ⟨y, hy, hyroot, hyw, hresolved⟩ := h.copy x hw hx
    have hharmless := h.harmless x hw hx
    obtain ⟨hname, -, -, hdeps⟩ := hharmless.consistent y hy hyroot (.inr hresolved)
    rcases hharmless.undisputed with hu | hu
    · -- both copies would be children of the root
      have hxroot : x ≠ rootId := by
        rintro rfl
        have hall : ∀ z, g.Reach z → z = rootId := by
          intro z hz
          induction hz using Forest.Reach.rec with
          | root => rfl
          | child z m c _ hc ih =>
            rw [ih] at hc
            cases (h.childless rootId hw hx m).symm.trans hc
        exact hyroot (hall y hy)
      have hchild := (h.tree.rooted.parent hx (h.parent_of_undisputed hstuck hu hx hxroot rfl)).2
      have hchild' := (h.tree.rooted.parent hy (h.parent_of_undisputed hstuck hu hy hyroot hname)).2
      rw [hname, hchild] at hchild'
      exact absurd (some.inj hchild' ▸ hw) hyw
    · have hd' : d ∈ g.neededDeps y := by
        rw [mem_neededDeps, hdeps, ← mem_neededDeps]
        exact hd
      obtain ⟨a, c, hn, -⟩ := h.served y hy hyw d hd'
      obtain ⟨hc, hcroot, hcname, -⟩ := h.tree.found hy hn
      have hparent := h.parent_of_undisputed hstuck (hu d hd) hc hcroot hcname
      obtain ⟨a', c', hn'⟩ := h.tree.rooted.exists_nearest (h.tree.rooted.parent hc hparent).2 hx
      rw [hcname] at hn'
      obtain ⟨hc', hcroot', hcname', -⟩ := h.tree.found hx hn'
      exact ⟨a', c', hn', h.suits (hu d hd) hx (mem_neededDeps.mp hd).1 rfl hc' hcroot' hcname'⟩
  · exact h.served x hx hw d hd

end Settled

end Graph

end

end FridaCore.Packages
