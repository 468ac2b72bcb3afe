import FridaCore.Packages.GraphLaws
import FridaCore.Packages.Resolve
import FridaCore.Support.Lists

/-!
# The tree of packages

What is in the tree below the root, as long as children and parents agree there.
Nodes that were taken out stay in the graph and may still point into the tree, so
only what can be reached from the root counts. Hoisting keeps the tree a tree.
-/

namespace FridaCore.Packages

open List Option Std.TreeMap Forest

namespace Graph

abbrev Reach (g : Graph) (x : NodeId) : Prop := g.forest.Reach rootId x

structure Tree (g : Graph) : Prop where
  rooted : g.forest.Rooted rootId g.name
  bound : ∀ x, g.Reach x → x < g.size

variable {g g' : Graph} {x y p q c d : NodeId}

theorem Tree.at_lt (h : g.Tree) (hx : g.forest.At rootId x n) : n < g.size := by
  have hlt := hx.lt_card h.rooted (s := Finset.range g.size) fun y hy =>
    Finset.mem_range.mpr (h.bound y hy)
  rwa [Finset.card_range] at hlt

theorem findProviderWithin_of_nearest (h : g.Tree) (hx : g.forest.At rootId x n) (hn : n < m)
    (hnear : g.forest.Nearest k x a c) : g.findProviderWithin k m x = .ok (some c) := by
  induction hnear generalizing n m with
  | @here x c hc =>
    obtain ⟨m, rfl⟩ := Nat.exists_eq_add_of_lt (Nat.zero_lt_of_lt hn)
    have hc : g.child? x k = some c := hc
    simp [findProviderWithin, hc]
  | @up x p a c hc hp _ ih =>
    obtain ⟨l, rfl, hl, -⟩ := h.rooted.at_parent hx hp
    obtain ⟨m, rfl⟩ := Nat.exists_eq_add_of_lt (Nat.zero_lt_of_lt hn)
    have hc : g.child? x k = none := hc
    have hp : g.parent x = some p := hp
    simp only [Nat.zero_add, findProviderWithin, hc, hp]
    exact ih hl (by omega)

theorem Tree.findProvider_iff (h : g.Tree) (hx : g.Reach x) :
    g.findProvider x k = .ok (some c) ↔ ∃ a, g.forest.Nearest k x a c := by
  constructor
  · exact findProviderWithin_some
  · rintro ⟨a, hn⟩
    obtain ⟨n, hx⟩ := hx
    exact findProviderWithin_of_nearest h hx ((h.at_lt hx).trans (Nat.lt_succ_self _)) hn

theorem Tree.parent_isNone (h : g.Tree) (hx : g.Reach x) :
    (g.parent x).isNone = decide (x = rootId) := by
  have hiff := h.rooted.parent_eq_none_iff hx
  rw [Bool.eq_iff_iff, isNone_iff_eq_none, decide_eq_true_iff]
  exact hiff

/-- The dependencies a node goes by stay the same as long as it is in the tree. -/
theorem Tree.activeDeps_eq (h : g.Tree) (h' : g'.Tree) (hnode : g'.node = g.node) (hx : g.Reach x)
    (hx' : g'.Reach x) : g'.activeDeps x = g.activeDeps x := by
  simp only [activeDeps, hnode, h.parent_isNone hx, h'.parent_isNone hx']

theorem mem_neededDeps {d : PackageDependency} :
    d ∈ g.neededDeps x ↔ d ∈ (g.activeDeps x).values ∧ d.role ≠ .peer := by
  simp [neededDeps]

/-- What a lookup in the tree finds is in the tree, has the name, and is not the root. -/
theorem Tree.found (h : g.Tree) (hx : g.Reach x) (hn : g.forest.Nearest k x a c) :
    g.Reach c ∧ c ≠ rootId ∧ g.name c = k ∧ g.parent c = some a := by
  have ha := h.rooted.reach_of_above hx hn.above
  obtain ⟨hparent, hname⟩ := h.rooted.linked a k c ha hn.child
  refine ⟨ha.child hn.child, ?_, hname, hparent⟩
  rintro rfl
  cases h.rooted.root.symm.trans hparent

theorem forest_setParent : (g.setParent x p').forest = g.forest.setParent x p' := by
  ext y
  · rfl
  · simp [Forest.setParent, parent_setParent]

theorem forest_setChild : (g.setChild x k c).forest = g.forest.setChild x k (some c) := by
  ext y m
  · simp [Forest.setChild, child?_setChild]
  · rfl

theorem forest_unsetChild : (g.unsetChild x k).forest = g.forest.setChild x k none := by
  ext y m
  · simp [Forest.setChild, child?_unsetChild]
  · rfl

@[simp] theorem node_adopt : (adopt target g cs).node = g.node := by
  induction cs generalizing g with
  | nil => rfl
  | cons c cs ih =>
    simp only [adopt]
    split
    · exact ih
    · exact ih

@[simp] theorem size_adopt : (adopt target g cs).size = g.size := by
  induction cs generalizing g with
  | nil => rfl
  | cons c cs ih =>
    simp only [adopt]
    split
    · exact ih
    · exact ih

theorem contains_children : (g.children x).contains k = (g.child? x k).isSome := by
  rw [contains_eq_isSome_getElem?, child?]

theorem child?_adopt : (adopt target g cs).child? y k =
    if y = target then (g.child? target k).or (cs.find? fun c => g.name c = k)
    else g.child? y k := by
  induction cs generalizing g with
  | nil =>
    simp only [adopt, find?_nil, or_none]
    split
    · rename_i heq
      rw [heq]
    · rfl
  | cons c cs ih =>
    simp only [adopt, contains_children]
    by_cases hk : g.name c = k
    · split
      · rename_i hsome
        obtain ⟨e, he⟩ := isSome_iff_exists.mp hsome
        rw [ih, ← hk, he, some_or, some_or]
      · rename_i hnone
        rw [not_isSome_iff_eq_none] at hnone
        rw [ih]
        by_cases hy : y = target
        · simp [child?_setChild, hk, hk ▸ hnone, hy]
        · simp [child?_setChild, hy]
    · split
      · rw [ih, find?_cons_of_neg (by simpa using hk)]
      · rw [ih, find?_cons_of_neg (by simpa using hk)]
        simp only [child?_setParent, child?_setChild, Ne.symm hk, and_false, if_false]
        rfl

theorem parent_adopt (hcs : (cs.map g.name).Nodup) : (adopt target g cs).parent y =
    if y ∈ cs ∧ g.child? target (g.name y) = none then some target else g.parent y := by
  induction cs generalizing g with
  | nil => simp [adopt]
  | cons c cs ih =>
    obtain ⟨hnot, hcs⟩ := nodup_cons.mp hcs
    have hname : ∀ y ∈ cs, g.name y ≠ g.name c := fun y hy heq => hnot (heq ▸ mem_map_of_mem hy)
    simp only [adopt, contains_children]
    split
    · rename_i hsome
      rw [ih hcs]
      by_cases hy : y = c
      · subst hy
        simp [ne_none_iff_isSome.mpr hsome]
      · simp [hy]
    · rename_i hnone
      rw [not_isSome_iff_eq_none] at hnone
      rw [ih (g := (g.setChild target (g.name c) c).setParent c (some target)) hcs, parent_setParent]
      by_cases hy : y = c
      · subst hy
        simp [hnone]
      · by_cases hmem : y ∈ cs
        · simp [hmem, hy, child?_setChild, hname y hmem]
        · simp [hmem, hy]

theorem Tree.mem_childList (h : g.Tree) (hx : g.Reach x) :
    c ∈ g.childList x ↔ g.child? x (g.name c) = some c := by
  rw [Graph.mem_childList]
  constructor
  · rintro ⟨k, hc⟩
    rwa [(h.rooted.linked x k c hx hc).2]
  · exact fun hc => ⟨_, hc⟩

theorem Tree.find?_childList (h : g.Tree) (hx : g.Reach x) :
    (g.childList x).find? (fun c => g.name c = k) = g.child? x k := by
  cases hc : g.child? x k with
  | none =>
    rw [find?_eq_none]
    intro c hmem hname
    rw [h.mem_childList hx, of_decide_eq_true hname, hc] at hmem
    cases hmem
  | some c =>
    have hname : g.name c = k := (h.rooted.linked x k c hx hc).2
    refine find?_eq_of_unique ((h.mem_childList hx).mpr (hname ▸ hc)) (by simpa using hname) ?_
    intro c' hmem hname'
    rw [h.mem_childList hx, of_decide_eq_true hname', hc] at hmem
    exact (some.inj hmem).symm

theorem Tree.names_nodup (h : g.Tree) (hx : g.Reach x) : ((g.childList x).map g.name).Nodup := by
  rw [childList, List.map_map]
  refine List.pairwise_map.mpr (distinct_keys_toList.imp_of_mem ?_)
  rintro ⟨k, c⟩ ⟨k', c'⟩ hc hc' hne heq
  have hk := (h.rooted.linked x k c hx (mem_toList_iff_getElem?_eq_some.mp hc)).2
  have hk' := (h.rooted.linked x k' c' hx (mem_toList_iff_getElem?_eq_some.mp hc')).2
  refine hne ?_
  simp only [Function.comp_apply] at heq
  simp [← hk, ← hk', heq]

theorem forest_move : (g.apply (.move x p q)).forest = g.forest.move g.name x p q := by
  rw [apply, forest_setParent, forest_setChild, forest_unsetChild, move]

theorem forest_swap : (g.apply (.swap x d p q)).forest = g.forest.swap g.name x d p q := by
  rw [apply, forest_setParent, forest_setChild, forest_setParent, forest_setChild, Forest.swap]

theorem Tree.forest_merge (h : g.Tree) (hx : g.Reach x) :
    (g.apply (.merge x d p)).forest = g.forest.merge g.name x d p := by
  ext y m
  · simp only [apply, mergeChildren, child?_setParent, child?_unsetChild, child?_adopt,
      h.find?_childList hx, child_merge]
  · simp only [apply, mergeChildren, parent_setParent, parent_unsetChild,
      parent_adopt (h.names_nodup hx), h.mem_childList hx, parent_merge]

@[simp] theorem node_apply : (g.apply hoist).node = g.node := by
  cases hoist with
  | merge => exact node_adopt
  | swap | move => rfl

@[simp] theorem size_apply : (g.apply hoist).size = g.size := by
  cases hoist with
  | merge => exact size_adopt
  | swap | move => rfl

@[simp] theorem name_apply : (g.apply hoist).name = g.name := by
  funext x
  simp [name]

theorem Tree.rivals (h : g.Tree) (hx : g.Reach x) (hp : g.parent x = some p)
    (hg : g.parent p = some q) (hn : g.forest.Nearest (g.name x) q a d) :
    g.forest.Rivals rootId g.name x p q a d :=
  ⟨h.rooted, hx, hp, hg, hn.above, hn.child⟩

theorem Tree.reach_of_apply (h : g.Tree) (hx : g.Reach x) (hdue : g.Due x hoist)
    (hy : (g.apply hoist).Reach y) : g.Reach y := by
  cases hdue with
  | merge hp hg hn =>
    rw [Reach, h.forest_merge hx] at hy
    exact (reach_of_merge (h.rivals hx hp hg hn) hy).1
  | swap hp hg hn =>
    rw [Reach, forest_swap] at hy
    exact reach_of_swap hx (h.rivals hx hp hg hn).reach_d hy
  | move hp hg hn =>
    rw [Reach, forest_move] at hy
    exact reach_of_move hx hy

theorem Tree.apply (h : g.Tree) (hx : g.Reach x) (hdue : g.Due x hoist) :
    (g.apply hoist).Tree := by
  refine ⟨?_, fun y hy => by rw [size_apply]; exact h.bound y (h.reach_of_apply hx hdue hy)⟩
  rw [name_apply]
  cases hdue with
  | merge hp hg hn =>
    rw [h.forest_merge hx]
    exact merge_rooted (h.rivals hx hp hg hn)
  | swap hp hg hn =>
    rw [forest_swap]
    exact swap_rooted (h.rivals hx hp hg hn)
  | move hp hg hn =>
    rw [forest_move]
    exact move_rooted h.rooted hx hp

/-- Whether a given graph is a tree can be checked node by node. -/
theorem tree_of_children (hroot : g.parent rootId = none) (hsize : rootId < g.size)
    (h : ∀ x < g.size, ∀ e ∈ (g.children x).toList,
      g.parent e.2 = some x ∧ g.name e.2 = e.1 ∧ e.2 < g.size) : g.Tree := by
  have hchild : ∀ x k c, x < g.size → g.child? x k = some c →
      g.parent c = some x ∧ g.name c = k ∧ c < g.size := fun x k c hx hc =>
    h x hx (k, c) (mem_toList_iff_getElem?_eq_some.mpr hc)
  have hbound : ∀ x, g.Reach x → x < g.size := by
    intro x hx
    induction hx using Forest.Reach.rec with
    | root => exact hsize
    | child x k c _ hc ih => exact (hchild x k c ih hc).2.2
  refine ⟨⟨hroot, fun x k c hx hc => ?_⟩, hbound⟩
  obtain ⟨hparent, hname, -⟩ := hchild x k c (hbound x hx) hc
  exact ⟨hparent, hname⟩

end Graph

end FridaCore.Packages
