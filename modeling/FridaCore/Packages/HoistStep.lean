import FridaCore.Packages.Closure

/-!
# A safe hoist

One hoist that is due and safe keeps the tree closed but for what is waiting.
-/

namespace FridaCore.Packages

open List Option Forest Hoist

open Semver

namespace Graph

variable {g g' : Graph} {x y z p q a c dupe : NodeId} {d : PackageDependency} {k : String}
  {waiting waiting' : Finset NodeId} {hoist : Hoist}

theorem Tree.joins_of_joins (h : g.Tree) (hx : g.Reach x) (hy : g.Reach y)
    (hj : g.forest.Joins g.name x dupe p k y) : g.joins x dupe p k y = true := by
  simp only [joins, Bool.or_eq_true]
  rw [Forest.Joins, ← forest_unsetChild] at hj
  rcases hj with hv | ⟨c, hadopt, hleave, hv⟩
  · exact .inl (h.visits_of_visits rfl rfl hy hv)
  · have hleave : g.child? c k = none := hleave
    refine .inr (any_eq_true.mpr ⟨c, (h.mem_childList hx).mpr hadopt.1, ?_⟩)
    simp only [adopts, Bool.and_eq_true, decide_eq_true_eq, hleave, isNone_none, and_true]
    exact ⟨hadopt, h.visits_of_visits rfl rfl hy hv⟩

theorem waitingAfter_subset : hoist.waitingAfter waiting ⊆ waiting := by
  cases hoist with
  | merge =>
    simp only [waitingAfter]
    split
    · exact Finset.Subset.refl _
    · exact Finset.erase_subset _ _
  | swap | move => exact Finset.Subset.refl _

section
variable (h : g.Tree) (h' : g'.Tree) (hnode : g'.node = g.node)
  (hreach : ∀ y, g'.Reach y → g.Reach y)
include h h' hnode hreach

theorem Tree.neededDeps_eq (hx : g'.Reach x) : g'.neededDeps x = g.neededDeps x := by
  simp only [neededDeps, h.activeDeps_eq h' hnode (hreach x hx) hx]

theorem Consistent.carry (hc : g.Consistent x) (hx : g'.Reach x) : g'.Consistent x := by
  intro y hy hne
  rw [h.activeDeps_eq h' hnode (hreach y hy) hy, h.activeDeps_eq h' hnode (hreach x hx) hx]
  simp only [name, hnode]
  exact hc y (hreach y hy) hne

variable [UnicharTables]

theorem Undisputed.carry (hu : g.Undisputed k) : g'.Undisputed k := by
  have hname : g'.name = g.name := by
    funext x
    simp only [name, hnode]
  refine ⟨fun y z hy hz => ?_, fun y hy => ?_, fun y hy d hd hrole hk z hz => ?_⟩
  · rw [hname, hnode]
    exact hu.version y z (hreach y hy) (hreach z hz)
  · rw [hname, hnode]
    exact hu.peerless y (hreach y hy)
  · rw [h.activeDeps_eq h' hnode (hreach y hy) hy] at hd
    rw [hname, supplies_eq hnode]
    exact hu.suits y (hreach y hy) d hd hrole hk z (hreach z hz)

theorem Harmless.carry (hh : g.Harmless x) (hx : g'.Reach x) : g'.Harmless x := by
  refine ⟨hh.consistent.carry h h' hnode hreach hx, ?_⟩
  rw [h.neededDeps_eq h' hnode hreach hx]
  rcases hh.undisputed with hu | hu
  · left
    simpa only [name, hnode] using hu.carry h h' hnode hreach
  · exact .inr fun d hd => (hu d hd).carry h h' hnode hreach

end

variable [UnicharTables]

section
variable (h : g.Settled waiting)
include h

theorem Settled.carry (h' : g'.Tree) (hnode : g'.node = g.node)
    (hreach : ∀ y, g'.Reach y → g.Reach y) (hsub : waiting' ⊆ waiting)
    (hserved : ∀ y, g'.Reach y → y ∉ waiting' → ∀ d ∈ g.neededDeps y,
      g'.forest.Serves (fun c => g.supplies c d) d.name y)
    (hchildless : ∀ y ∈ waiting', g'.Reach y → ∀ k, g'.child? y k = none)
    (hcopy : ∀ y ∈ waiting', g'.Reach y → ∃ z,
      g'.Reach z ∧ z ≠ rootId ∧ z ∉ waiting' ∧ (g.node z).resolved = (g.node y).resolved) :
    g'.Settled waiting' where
  tree := h'
  parsed y v hy hroot hv := h.parsed y v (hreach y hy) hroot (hnode ▸ hv)
  served y hy hw d hd := by
    rw [h.tree.neededDeps_eq h' hnode hreach hy] at hd
    simpa only [supplies_eq hnode] using hserved y hy hw d hd
  childless := hchildless
  harmless y hw hy := (h.harmless y (hsub hw) (hreach y hy)).carry h.tree h' hnode hreach hy
  copy := by
    rw [hnode]
    exact hcopy

theorem Settled.not_waiting (hx : g.Reach x) (hc : g.child? x k = some c) : x ∉ waiting := by
  intro hw
  rw [h.childless x hw hx k] at hc
  cases hc

theorem Settled.move (hx : g.Reach x) (hp : g.parent x = some p) (hq : g.parent p = some q)
    (hnone : ∀ a c, ¬ g.forest.Nearest (g.name x) q a c) (hsafe : SafeMove waiting g x q) :
    (g.apply (.move x p q)).Settled waiting := by
  have hdue : g.Due x (.move x p q) := .move hp hq hnone
  have hreach := fun y => h.tree.reach_of_apply (y := y) hx hdue
  have hreach_p := (h.tree.rooted.parent hx hp).1
  refine h.carry (h.tree.apply hx hdue) node_apply hreach (Finset.Subset.refl _) ?_ ?_ ?_
  · intro y hy hw d hd
    rw [forest_move]
    refine move_serves h.tree.rooted hx hp hq hnone (hreach y hy)
      (h.served y (hreach y hy) hw d hd) fun hv hleave hk => ?_
    exact serves_of_provides (hsafe.left.apply h.tree (hreach y hy) hw hd hk
      (h.tree.leaves_of_visits (hreach y hy) hv hleave))
  · intro y hw hy k
    have hold := h.childless y hw (hreach y hy) k
    have hne : y ≠ q := by
      rintro rfl
      exact h.not_waiting (hreach y hy) (h.tree.rooted.parent hreach_p hq).2 hw
    change (g.apply (.move x p q)).forest.child y k = none
    rw [forest_move, child_move, if_neg fun heq => hne heq.1]
    split
    · rfl
    · exact hold
  · intro y hw hy
    obtain ⟨z, hz, hzw⟩ := h.copy y hw (hreach y hy)
    refine ⟨z, ?_, hzw⟩
    rw [Reach, forest_move]
    refine reach_move h.tree.rooted hx hp hq ?_ hz
    cases hc : g.child? q (g.name x) with
    | none => exact hc
    | some c => exact absurd (.here hc) (hnone q c)

theorem Settled.swap (hx : g.Reach x) (hp : g.parent x = some p) (hq : g.parent p = some q)
    (hn : g.forest.Nearest (g.name x) q a dupe) (hsafe : SafeSwap waiting g x dupe p a) :
    (g.apply (.swap x dupe p a)).Settled waiting := by
  have hdue : g.Due x (.swap x dupe p a) := .swap hp hq hn
  have hreach := fun y => h.tree.reach_of_apply (y := y) hx hdue
  have s := h.tree.rivals hx hp hq hn
  have hapart : ¬ g.forest.Above dupe p := by
    intro habove
    have hfalse := hsafe.apart
    rw [h.tree.above_of_above s.reach_p habove] at hfalse
    cases hfalse
  refine h.carry (h.tree.apply hx hdue) node_apply hreach (Finset.Subset.refl _) ?_ ?_ ?_
  · intro y hy hw d hd
    have hy := hreach y hy
    rw [forest_swap]
    refine swap_serves s hapart hy (h.served y hy hw d hd) ?_ ?_ ?_ ?_
    · intro hk hn
      exact hsafe.foundNode.apply h.tree hy hw hd hk ((h.tree.findProvider_iff hy).mpr ⟨_, hn⟩)
    · intro hk hn
      exact hsafe.foundDupe.apply h.tree hy hw hd hk ((h.tree.findProvider_iff hy).mpr ⟨_, hn⟩)
    · intro hv hleave hk
      exact serves_of_provides (hsafe.leftNode.apply h.tree hy hw hd hk
        (h.tree.leaves_of_visits hy hv hleave))
    · intro hv hleave hk
      exact serves_of_provides (hsafe.leftDupe.apply h.tree hy hw hd hk
        (h.tree.leaves_of_visits hy hv hleave))
  · intro y hw hy k
    have hold := h.childless y hw (hreach y hy) k
    have hnea : y ≠ a := by
      rintro rfl
      exact h.not_waiting (hreach y hy) s.child hw
    have hnep : y ≠ p := by
      rintro rfl
      exact h.not_waiting (hreach y hy) s.child_p hw
    change (g.apply (.swap x dupe p a)).forest.child y k = none
    rw [forest_swap, child_swap, if_neg fun heq => hnea heq.1, if_neg fun heq => hnep heq.1]
    exact hold
  · intro y hw hy
    obtain ⟨z, hz, hzw⟩ := h.copy y hw (hreach y hy)
    refine ⟨z, ?_, hzw⟩
    rw [Reach, forest_swap]
    exact reach_swap s hapart hz

theorem Settled.same_version (hx : g.Reach x) (hd : g.Reach dupe) (hxroot : x ≠ rootId)
    (hdroot : dupe ≠ rootId) (hv : g.version dupe = .ok v) (hw : g.version x = .ok w)
    (hstr : v.str = w.str) : (g.node dupe).version = (g.node x).version := by
  have hsome : ∀ y u, g.version y = .ok u → (g.node y).version = some u := by
    intro y u hu
    unfold version at hu
    split at hu
    · rename_i u' hu'
      cases hu
      exact hu'
    · cases hu
  rw [hsome _ _ hv, hsome _ _ hw,
    (h.parsed _ _ hd hdroot (hsome _ _ hv)).eq_of_str_eq
      (h.parsed _ _ hx hxroot (hsome _ _ hw)) hstr]

end

theorem merge_serves_of_mergedProvides (s : g.forest.Rivals rootId g.name x p q a dupe)
    (hm : g.mergedProvides x dupe p d = true) :
    (g.forest.merge g.name x dupe p).Serves (fun c => g.supplies c d) d.name dupe := by
  have hparent : g.parent dupe = some a := s.parent_d
  simp only [mergedProvides, hparent] at hm
  have hchild : (g.forest.merge g.name x dupe p).child dupe d.name =
      if dupe = p ∧ d.name = g.name x then none
      else (g.child? dupe d.name).or (g.child? x d.name) := by
    rw [child_merge, if_pos rfl]
  rw [← hchild] at hm
  refine merge_serves_target s (fun c hc => ?_) fun hleave => ?_
  · simpa only [hc] using hm
  · simp only [hleave] at hm
    exact serves_of_provides hm

theorem Settled.merge (h : g.Settled waiting) (hx : g.Reach x) (hp : g.parent x = some p)
    (hq : g.parent p = some q) (hn : g.forest.Nearest (g.name x) q a dupe)
    (hv : g.version dupe = .ok v) (hw : g.version x = .ok w) (hstr : v.str = w.str)
    (hsafe : SafeMerge waiting g x dupe p) :
    (g.apply (.merge x dupe p)).Settled ((merge x dupe p).waitingAfter waiting) := by
  have hdue : g.Due x (.merge x dupe p) := .merge hp hq hn hv hw hstr
  have hreach := fun y => h.tree.reach_of_apply (y := y) hx hdue
  have s := h.tree.rivals hx hp hq hn
  have hversion := h.same_version hx s.reach_d s.root_ne_x.symm s.root_ne_d.symm hv hw hstr
  have hreach' : ∀ y, g.Reach y → ¬ g.forest.Dropped x dupe y →
      (g.apply (.merge x dupe p)).Reach y := by
    intro y hy hdrop
    rw [Reach, h.tree.forest_merge hx]
    exact reach_merge_of_not_dropped s hy hdrop
  refine h.carry (h.tree.apply hx hdue) node_apply hreach waitingAfter_subset ?_ ?_ ?_
  · intro y hy hw' d hd
    have hyr := hreach y hy
    rw [Reach, h.tree.forest_merge hx] at hy
    rw [h.tree.forest_merge hx]
    have hjoined := fun hj => merge_serves_of_mergedProvides s
      (hsafe.joined.apply h.tree hyr hw' hd (h.tree.joins_of_joins hx hyr hj))
    by_cases hyw : y ∈ waiting
    · -- it was waiting until now, so it is the dupe and takes over what it needs
      have heq : y = dupe := by
        by_contra hne
        refine hw' ?_
        simp only [waitingAfter]
        split
        · exact hyw
        · exact Finset.mem_erase.mpr ⟨hne, hyw⟩
      subst heq
      exact hjoined (.inl .here)
    · refine merge_serves s hn hy (h.served y hyr hyw d hd) (fun hok => ?_) hjoined
      simpa only [supplies, hversion] using hok
  · intro y hw' hy k
    have hold := h.childless y (waitingAfter_subset hw') (hreach y hy) k
    change (g.apply (.merge x dupe p)).forest.child y k = none
    rw [h.tree.forest_merge hx, child_merge]
    split
    · rfl
    split
    · rename_i heq
      subst heq
      have hxw : x ∈ waiting := by
        by_contra hxw
        simp [waitingAfter, hxw] at hw'
      simp only [hold, h.childless x hxw hx k, or_none]
    · exact hold
  · intro y hw' hy
    obtain ⟨z, hz, hroot, hzw, hresolved⟩ := h.copy y (waitingAfter_subset hw') (hreach y hy)
    by_cases hzx : z = x
    · -- the complete copy is merged into another, which is complete from now on
      subst hzx
      have hconsistent := (h.harmless y (waitingAfter_subset hw') (hreach y hy)).consistent
      obtain ⟨hname, hversion', -⟩ := hconsistent z hz hroot (.inr hresolved)
      have hdupe : g.name dupe = g.name y := by rw [← hname]; exact s.key_d
      refine ⟨dupe, ?_, s.root_ne_d.symm, ?_,
        (hconsistent dupe s.reach_d s.root_ne_d.symm (.inl ⟨hdupe, hversion.trans hversion'⟩)).2.2.1⟩
      · rw [Reach, h.tree.forest_merge hx]
        exact reach_merge s s.reach_d s.not_above_x_d
      · simp [waitingAfter, hzw]
    · refine ⟨z, hreach' z hz ?_, hroot, fun hmem => hzw (waitingAfter_subset hmem), hresolved⟩
      rintro (heq | ⟨m, c, hc, hne, habove⟩)
      · exact hzx heq
      · have hmem : c ∈ g.childList x := Graph.mem_childList.mpr ⟨m, hc⟩
        have hname : g.name c = m := (h.tree.rooted.linked x m c hx hc).2
        refine hsafe.dropped c hmem ?_ z (h.tree.bound z hz) (h.tree.above_of_above hz habove) y
          (waitingAfter_subset hw') hresolved.symm
        rw [hname]
        exact ne_none_iff_isSome.mp hne

theorem Settled.apply (h : g.Settled waiting) (hx : g.Reach x) (hdue : g.Due x hoist)
    (hsafe : SafeHoist waiting g hoist) :
    (g.apply hoist).Settled (hoist.waitingAfter waiting) := by
  cases hdue with
  | merge hp hq hn hv hw hstr => exact h.merge hx hp hq hn hv hw hstr hsafe
  | swap hp hq hn => exact h.swap hx hp hq hn hsafe
  | move hp hq hnone => exact h.move hx hp hq hnone hsafe

end Graph

end FridaCore.Packages
