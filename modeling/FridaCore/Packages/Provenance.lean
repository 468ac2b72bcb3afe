import FridaCore.Packages.GraphLaws
import FridaCore.Packages.Install

/-!
# Where nodes come from

Whatever `install` does, the nodes of its trees are made from registry data or
from lockfile entries. `Sourced` says so for a graph, for any property of nodes
that all ways to make one establish, and is shown to hold through every pass.
Until hoisting starts, children and parents agree everywhere as well (`Grown`).
-/

namespace FridaCore.Packages

open List

variable {env : Env} {ok : PackageNode → Prop} {g g' : Graph}

/-- Nodes made from the registry's answers are fine. -/
structure Admits (env : Env) (ok : PackageNode → Prop) : Prop where
  node : ∀ name range data dep, env.fetch name range = .ok data → ok (data.toNode dep)
  subtreeRoot : ∀ name range data, env.fetch name range = .ok data → ok data.toSubtreeRoot

structure Sourced (ok : PackageNode → Prop) (g : Graph) : Prop where
  nonempty : rootId < g.size
  root : g.parent rootId = none
  node : ∀ x, x ≠ rootId → x < g.size → ok (g.node x)
  child : ∀ x k c, g.child? x k = some c → c ≠ rootId ∧ c < g.size
  parent : ∀ x p, g.parent x = some p → x ≠ rootId ∧ x < g.size ∧ p < g.size

section
variable (h : Sourced ok g)
include h

theorem Sourced.relink (hnode : g'.node = g.node) (hsize : g'.size = g.size)
    (hchild : ∀ x k c, g'.child? x k = some c → c ≠ rootId ∧ c < g.size)
    (hparent : ∀ x p, g'.parent x = some p → x ≠ rootId ∧ x < g.size ∧ p < g.size) :
    Sourced ok g' := by
  have hroot : g'.parent rootId = none := by
    cases hp : g'.parent rootId with
    | none => rfl
    | some p => exact absurd rfl (hparent _ p hp).1
  exact ⟨hsize ▸ h.nonempty, hroot, fun x hx hlt => hnode ▸ h.node x hx (hsize ▸ hlt),
    hsize ▸ hchild, hsize ▸ hparent⟩

theorem Sourced.setParent (hx : x ≠ rootId ∧ x < g.size) (hp : p < g.size) :
    Sourced ok (g.setParent x (some p)) := by
  refine h.relink rfl rfl h.child fun y q hq => ?_
  rw [Graph.parent_setParent] at hq
  split at hq
  · rename_i heq
    cases hq
    exact heq ▸ ⟨hx.1, hx.2, hp⟩
  · exact h.parent y q hq

theorem Sourced.unsetParent : Sourced ok (g.setParent x none) := by
  refine h.relink rfl rfl h.child fun y q hq => ?_
  rw [Graph.parent_setParent] at hq
  split at hq
  · cases hq
  · exact h.parent y q hq

theorem Sourced.setChild (hc : c ≠ rootId ∧ c < g.size) : Sourced ok (g.setChild x k c) := by
  refine h.relink rfl rfl (fun y m d hd => ?_) h.parent
  rw [Graph.child?_setChild] at hd
  split at hd
  · cases hd
    exact hc
  · exact h.child y m d hd

theorem Sourced.unsetChild : Sourced ok (g.unsetChild x k) := by
  refine h.relink rfl rfl (fun y m d hd => ?_) h.parent
  rw [Graph.child?_unsetChild] at hd
  split at hd
  · cases hd
  · exact h.child y m d hd

theorem Sourced.withMarks : Sourced ok { g with marked } :=
  h.relink rfl rfl h.child h.parent

theorem Sourced.create (hn : ok n) : Sourced ok (g.create n).1 := by
  have hroot : rootId ≠ g.size := h.nonempty.ne
  refine ⟨Nat.lt_succ_of_lt h.nonempty, ?_, ?_, ?_, ?_⟩
  · rw [Graph.parent_create, if_neg hroot, h.root]
  · intro x hx hlt
    rw [Graph.node_create]
    split
    · exact hn
    · rename_i hne
      exact h.node x hx (Nat.lt_of_le_of_ne (Nat.le_of_lt_succ hlt) hne)
  · intro x k c hc
    rw [Graph.child?_create] at hc
    split at hc
    · cases hc
    · exact ⟨(h.child x k c hc).1, Nat.lt_succ_of_lt (h.child x k c hc).2⟩
  · intro x p hp
    rw [Graph.parent_create] at hp
    split at hp
    · cases hp
    · obtain ⟨hx, hlt, hplt⟩ := h.parent x p hp
      exact ⟨hx, Nat.lt_succ_of_lt hlt, Nat.lt_succ_of_lt hplt⟩

theorem Sourced.mem_childList (hc : c ∈ g.childList x) : c ≠ rootId ∧ c < g.size := by
  obtain ⟨k, hk⟩ := Graph.mem_childList.mp hc
  exact h.child x k c hk

end

/-- A sourced graph in which every child is linked to its parent, which was
created before it. -/
structure Grown (ok : PackageNode → Prop) (g : Graph) : Prop where
  sourced : Sourced ok g
  linked : g.Linked
  ordered : ∀ x p, g.parent x = some p → p < x

section
variable (h : Grown ok g)
include h

theorem Grown.create (hn : ok n) : Grown ok (g.create n).1 where
  sourced := h.sourced.create hn
  linked := h.linked.create fun x k hc => (h.sourced.child x k _ hc).2.false
  ordered x p hp := by
    rw [Graph.parent_create] at hp
    split at hp
    · cases hp
    · exact h.ordered x p hp

theorem Grown.attach (hc : c < g.size) (hp : g.parent c = none) (hx : x < c) :
    Grown ok ((g.setChild x (g.name c) c).setParent c (some x)) where
  sourced :=
    have hc' : c ≠ rootId ∧ c < g.size := ⟨Nat.ne_zero_of_lt hx, hc⟩
    (h.sourced.setChild hc').setParent hc' (hx.trans hc)
  linked := h.linked.attach hp
  ordered y q hq := by
    rw [Graph.parent_setParent] at hq
    split at hq
    · rename_i heq
      cases hq
      exact heq ▸ hx
    · exact h.ordered y q hq

theorem Grown.detach (hp : g.parent x = some p) :
    Grown ok ((g.unsetChild p (g.name x)).setParent x none) where
  sourced := h.sourced.unsetChild.unsetParent
  linked := h.linked.detach hp
  ordered y q hq := by
    rw [Graph.parent_setParent] at hq
    split at hq
    · cases hq
    · exact h.ordered y q hq

theorem Grown.withMarks : Grown ok { g with marked } where
  __ := h
  sourced := h.sourced.withMarks

theorem Grown.createBelow (hn : ok n) (hname : n.name = some k) (hx : x < g.size) :
    Grown ok (((g.create n).1.setChild x k g.size).setParent g.size (some x)) := by
  have hnew : (g.create n).1.name g.size = k := by
    simp [Graph.name, Graph.node_create, hname]
  have hattached := (h.create hn).attach (Nat.lt_succ_self _) (by simp [Graph.parent_create]) hx
  rwa [hnew] at hattached

end

theorem Sourced.adopt (h : Sourced ok g) (ht : target < g.size)
    (hcs : ∀ c ∈ cs, c ≠ rootId ∧ c < g.size) :
    Sourced ok (Graph.adopt target g cs) := by
  induction cs generalizing g with
  | nil => exact h
  | cons c cs ih =>
    obtain ⟨hc, hcs⟩ := forall_mem_cons.mp hcs
    simp only [Graph.adopt]
    split
    · exact ih h ht hcs
    · exact ih ((h.setChild hc).setParent hc ht) ht hcs

theorem Sourced.nearest (h : Sourced ok g) (hx : x < g.size)
    (hn : g.forest.Nearest k x anc c) :
    anc < g.size := by
  induction hn with
  | here _ => exact hx
  | up _ hp _ ih => exact ih (h.parent _ _ hp).2.2

theorem Sourced.apply (h : Sourced ok g) (hdue : g.Due x hoist) :
    Sourced ok (g.apply hoist) := by
  cases hdue with
  | merge hp hg hn =>
    exact (h.adopt (h.child _ _ _ hn.child).2 fun c hc => h.mem_childList hc).unsetChild.unsetParent
  | swap hp hg hn =>
    obtain ⟨hx, hlt, hplt⟩ := h.parent _ _ hp
    have hdupe := h.child _ _ _ hn.child
    have hanc := h.nearest (h.parent _ _ hg).2.2 hn
    exact (((h.setChild hdupe).setParent hdupe hplt).setChild ⟨hx, hlt⟩).setParent ⟨hx, hlt⟩ hanc
  | move hp hg hn =>
    obtain ⟨hx, hlt, -⟩ := h.parent _ _ hp
    exact (h.unsetChild.setChild ⟨hx, hlt⟩).setParent ⟨hx, hlt⟩ (h.parent _ _ hg).2.2

/-! What every hoist that is due keeps, the passes of hoisting keep. -/
section
variable [UnicharTables] {P : Graph → Prop}
  (happly : ∀ {g x hoist}, P g → g.Due x hoist → P (g.apply hoist))
include happly

theorem hoistChildren_keeps {pass pass' : HoistPass} (h : P pass.graph)
    (hp : hoistChildren pass cs = .ok pass') : P pass'.graph := by
  induction cs generalizing pass with
  | nil =>
    cases hp
    exact h
  | cons c cs ih =>
    obtain ⟨hoist, hn, hp⟩ := bind_eq_ok hp
    have hg' : P ((hoist.map pass.graph.apply).getD pass.graph) := by
      cases hoist with
      | none => exact h
      | some hoist => exact happly h (Graph.nextHoist_due hn)
    simp only at hp
    split at hp
    · exact ih hg' hp
    · exact ih hg' hp

theorem hoistQueue_keeps {pass pass' : HoistPass} (h : P pass.graph)
    (hp : hoistQueue fuel pass = .ok pass') : P pass'.graph := by
  induction fuel generalizing pass with
  | zero => cases hp
  | succ fuel ih =>
    simp only [hoistQueue] at hp
    split at hp
    · cases hp
      exact h
    · rename_i n queue hq
      obtain ⟨mid, hmid, hp⟩ := bind_eq_ok hp
      have hstart : P { pass with queue }.graph := h
      exact ih (hoistChildren_keeps happly hstart hmid) hp

theorem hoistGraph_keeps (h : P g) (hh : hoistGraph passes g root = .ok (g', steps)) : P g' := by
  induction passes generalizing g steps with
  | zero => cases hh
  | succ passes ih =>
    obtain ⟨pass, hpass, hh⟩ := bind_eq_ok hh
    have hs := hoistQueue_keeps happly h hpass
    split at hh
    · cases hh
      exact hs
    · obtain ⟨⟨g₁, rest⟩, hrest, hh⟩ := bind_eq_ok hh
      cases hh
      exact ih hs hrest

end

/-- Nodes were added and those there were kept their description and parent. -/
structure Extends (g g' : Graph) : Prop where
  size : g.size ≤ g'.size
  node : ∀ x < g.size, g'.node x = g.node x
  parent : ∀ x < g.size, g'.parent x = g.parent x

theorem Extends.refl (g : Graph) : Extends g g := ⟨le_rfl, fun _ _ => rfl, fun _ _ => rfl⟩

theorem Extends.trans (h : Extends g₁ g₂) (h' : Extends g₂ g₃) : Extends g₁ g₃ where
  size := h.size.trans h'.size
  node x hx := (h'.node x (hx.trans_le h.size)).trans (h.node x hx)
  parent x hx := (h'.parent x (hx.trans_le h.size)).trans (h.parent x hx)

theorem create_extends : Extends g (g.create n).1 where
  size := Nat.le_succ _
  node x hx := by rw [Graph.node_create, if_neg (Nat.ne_of_lt hx)]
  parent x hx := by rw [Graph.parent_create, if_neg (Nat.ne_of_lt hx)]

@[simp] theorem addChildNode_snd : (addChildNode g host dep data).2 = g.size := rfl
@[simp] theorem addChildNode_size : (addChildNode g host dep data).1.size = g.size + 1 := rfl

theorem addChildNode_extends : Extends g (addChildNode g host dep data).1 where
  size := Nat.le_succ _
  node x hx := create_extends.node x hx
  parent x hx := by
    have hne : x ≠ g.size := Nat.ne_of_lt hx
    simp [addChildNode, Graph.parent_setParent, Graph.parent_create, hne]

theorem addChildNode_grown (h : Grown ok g) (hhost : host < g.size)
    (hn : ok (data.toNode dep)) : Grown ok (addChildNode g host dep data).1 :=
  h.createBelow hn rfl hhost

/-- Queued are dependencies of nodes there are. -/
structure Expansion.Grown (ok : PackageNode → Prop) (e : Expansion) : Prop where
  graph : Packages.Grown ok e.graph
  queue : ∀ item ∈ e.queue, item.host < e.graph.size

@[simp] theorem expand_graph {e : Expansion} :
    (e.expand item queue data).graph = (addChildNode e.graph item.host item.dep data).1 := by
  simp only [Expansion.expand]
  split <;> rfl

theorem mem_expand_queue {e : Expansion} (hi : i ∈ (e.expand item queue data).queue) :
    i ∈ queue ∨ i.host = e.graph.size := by
  simp only [Expansion.expand] at hi
  split at hi
  · exact .inl hi
  · rcases mem_append.mp hi with hi | hi
    · exact .inl hi
    · obtain ⟨d, -, rfl⟩ := mem_map.mp hi
      exact .inr rfl

theorem expand_grown {e : Expansion} (ha : Admits env ok) (h : e.Grown ok)
    (hq : e.queue = item :: queue) (hf : env.fetch item.dep.name item.dep.range = .ok data) :
    (e.expand item queue data).Grown ok := by
  have hitem := h.queue item (by simp [hq])
  have hg := addChildNode_grown h.graph hitem (ha.node _ _ _ item.dep hf)
  refine ⟨expand_graph ▸ hg, fun i hi => ?_⟩
  rw [expand_graph, addChildNode_size]
  rcases mem_expand_queue hi with hi | hhost
  · exact Nat.lt_succ_of_lt (h.queue i (by simp [hq, hi]))
  · exact hhost ▸ Nat.lt_succ_self _

theorem expandQueue_grown (ha : Admits env ok)
    (h : e.Grown ok) (he : expandQueue env.fetch turns e = .ok e') :
    e'.Grown ok ∧ Extends e.graph e'.graph := by
  induction turns generalizing e with
  | zero => cases he
  | succ turns ih =>
    simp only [expandQueue] at he
    split at he
    · cases he
      exact ⟨h, .refl _⟩
    · rename_i item queue hq
      obtain ⟨data, hf, he⟩ := bind_eq_ok he
      obtain ⟨h', hext⟩ := ih (expand_grown ha h hq hf) he
      exact ⟨h', .trans (expand_graph ▸ addChildNode_extends) hext⟩

theorem rootGraph_grown : Grown ok (rootGraph manifest) := by
  have hchild : ∀ x k, (rootGraph manifest).child? x k = none := by
    intro x k
    rw [rootGraph, Graph.child?_create]
    split <;> simp [Graph.child?]
  have hparent : ∀ x, (rootGraph manifest).parent x = none := by
    intro x
    rw [rootGraph, Graph.parent_create]
    split <;> rfl
  have hnone : ∀ x k c, (rootGraph manifest).child? x k ≠ some c := by simp [hchild]
  have horphan : ∀ x p, (rootGraph manifest).parent x ≠ some p := by simp [hparent]
  refine ⟨⟨Nat.zero_lt_one, rfl, ?_, ?_, ?_⟩, ?_, ?_⟩
  · exact fun x hx hlt => absurd (Nat.lt_one_iff.mp hlt) hx
  · exact fun x k c hc => absurd hc (hnone x k c)
  · exact fun x p hp => absurd hp (horphan x p)
  · exact fun x k c hc => absurd hc (hnone x k c)
  · exact fun x p hp => absurd hp (horphan x p)

theorem rootGraph_start (manifest : Manifest) : Expansion.Grown ok ⟨rootGraph manifest,
    ((rootGraph manifest).neededDeps rootId).map (DepQueueItem.mk rootId), ∅, []⟩ := by
  refine ⟨rootGraph_grown, fun item hitem => ?_⟩
  obtain ⟨d, -, rfl⟩ := mem_map.mp hitem
  exact Nat.zero_lt_one

theorem buildIdealGraph_grown (ha : Admits env ok)
    (he : buildIdealGraph env turns manifest = .ok e) : Grown ok e.graph :=
  (expandQueue_grown ha (rootGraph_start manifest) he).1.graph

theorem buildIdealSubtree_grown (ha : Admits env ok) (h : Grown ok g)
    (hb : buildIdealSubtree env turns g name spec = .ok (e, root)) :
    Grown ok e.graph ∧ Extends g e.graph ∧ root = g.size ∧ root < e.graph.size ∧
      e.graph.parent root = none ∧ e.graph.name root = name := by
  obtain ⟨data, hf, hb⟩ := bind_eq_ok hb
  obtain ⟨e', he, hb⟩ := bind_eq_ok hb
  cases hb
  have hg := h.create (ha.subtreeRoot _ _ _ hf)
  have hq : Expansion.Grown ok ⟨(g.create data.toSubtreeRoot).1,
      (((g.create data.toSubtreeRoot).1.neededDeps g.size).filter
        (·.role ≠ .development)).map (DepQueueItem.mk g.size), ∅, []⟩ := by
    refine ⟨hg, fun item hitem => ?_⟩
    obtain ⟨d, -, rfl⟩ := mem_map.mp hitem
    exact Nat.lt_succ_self _
  obtain ⟨hs, hext⟩ := expandQueue_grown ha hq he
  have hlt : g.size < (g.create data.toSubtreeRoot).1.size := Nat.lt_succ_self _
  refine ⟨hs.graph, create_extends.trans hext, rfl, hlt.trans_le hext.size, ?_, ?_⟩
  · exact (hext.parent _ hlt).trans (by simp [Graph.parent_create])
  · rw [Graph.name, hext.node _ hlt]
    simp [Graph.node_create, ResolvedPackageData.toSubtreeRoot, env.fetch_name _ _ _ hf]

theorem yankNodes_grown (h : Grown ok g) (hanchors : ∀ a ∈ anchors, a < g.size)
    (hy : Graph.yankNodes toUnlock g xs anchors = (g', anchors')) :
    Grown ok g' ∧ g'.size = g.size ∧ ∀ a ∈ anchors', a < g.size := by
  induction xs generalizing g anchors with
  | nil =>
    cases hy
    exact ⟨h, rfl, hanchors⟩
  | cons x xs ih =>
    simp only [Graph.yankNodes] at hy
    split at hy
    · exact ih h hanchors hy
    · rename_i p hp
      refine ih (g := (g.unsetChild p (g.name x)).setParent x none) (h.detach hp)
        (fun a ha => ?_) hy
      split at ha
      · exact hanchors a ha
      · rcases mem_append.mp ha with ha | ha
        · exact hanchors a ha
        · rw [mem_singleton.mp ha]
          exact (h.sourced.parent x p hp).2.2

section
variable (ha : Admits env ok)
include ha

theorem patchAnchor_grown (h : Grown ok g) (hx : anchor < g.size)
    (hp : patchAnchor env turns anchor g needed = .ok (g', steps)) :
    Grown ok g' ∧ g.size ≤ g'.size := by
  induction needed generalizing g steps with
  | nil =>
    cases hp
    exact ⟨h, le_rfl⟩
  | cons m needed ih =>
    obtain ⟨⟨e, root⟩, hb, hp⟩ := bind_eq_ok hp
    obtain ⟨⟨g₁, steps₁⟩, hrest, hp⟩ := bind_eq_ok hp
    cases hp
    obtain ⟨hs, hext, rfl, hlt, hparent, hname⟩ := buildIdealSubtree_grown ha h hb
    have hattached := hs.attach hlt hparent hx
    rw [hname] at hattached
    obtain ⟨h', hle⟩ := ih hattached (hx.trans hlt) hrest
    exact ⟨h', hext.size.trans hle⟩

theorem patchChunks_grown (h : Grown ok g)
    (hchunks : ∀ chunk ∈ chunks, chunk.1 < g.size)
    (hp : patchChunks env turns g chunks = .ok (g', steps)) : Grown ok g' := by
  induction chunks generalizing g steps with
  | nil =>
    cases hp
    exact h
  | cons chunk chunks ih =>
    obtain ⟨hchunk, hchunks⟩ := forall_mem_cons.mp hchunks
    obtain ⟨⟨g₁, steps₁⟩, hfirst, hp⟩ := bind_eq_ok hp
    obtain ⟨⟨g₂, steps₂⟩, hrest, hp⟩ := bind_eq_ok hp
    cases hp
    obtain ⟨h₁, hle⟩ := patchAnchor_grown ha h hchunk hfirst
    exact ih h₁ (fun c hc => (hchunks c hc).trans_le hle) hrest

theorem patchHoles_grown (h : Grown ok g)
    (hanchors : ∀ a ∈ anchors, a < g.size)
    (hp : patchHoles env turns g anchors manifest = .ok (g', steps)) : Grown ok g' := by
  obtain ⟨chunks, hchunks, hp⟩ := bind_eq_ok hp
  refine patchChunks_grown ha h (fun chunk hc => ?_) hp
  obtain ⟨a, hmem, hchunk⟩ := mem_of_mapM hchunks hc
  obtain ⟨needed, -, hchunk⟩ := bind_eq_ok hchunk
  cases hchunk
  exact hanchors a hmem

end

end FridaCore.Packages
