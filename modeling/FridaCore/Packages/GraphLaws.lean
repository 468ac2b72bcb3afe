import FridaCore.Packages.Hoist
import FridaCore.Support.Surgery

/-!
# Laws of the package graph

How lookups see the operations of tree surgery, what walks along parents find,
and what a hoist that is due says about the graph.
-/

namespace FridaCore.Packages

open List Option Function

open Std (TreeMap)

namespace PackageDependencies

variable {deps : PackageDependencies}

theorem mem_values : d ∈ deps.values ↔ deps.get? d.name = some d := by
  simp only [values, get?, List.mem_map, Prod.exists, exists_eq_right]
  constructor
  · rintro ⟨name, h⟩
    have h' := TreeMap.mem_toList_iff_getElem?_eq_some.mp h
    rw [deps.named name d h']
    exact h'
  · intro h
    exact ⟨d.name, TreeMap.mem_toList_iff_getElem?_eq_some.mpr h⟩

theorem mem_values_of_get? (h : deps.get? name = some d) : d ∈ deps.values ∧ d.name = name := by
  have hname := deps.named name d h
  exact ⟨mem_values.mpr (hname ▸ h), hname⟩

theorem get?_filter : (deps.filter keep).get? name = (deps.get? name).filter keep := by
  simp only [get?, filter, TreeMap.getElem?_filter, pfilter_eq_filter]

theorem mem_values_filter : d ∈ (deps.filter keep).values ↔ d ∈ deps.values ∧ keep d = true := by
  rw [mem_values, mem_values, get?_filter, filter_eq_some_iff]

theorem mem_values_add (h : d' ∈ (deps.add d).values) : d' = d ∨ d' ∈ deps.values := by
  rw [mem_values, get?, add, TreeMap.getElem?_insert] at h
  split at h
  · exact .inl (some.inj h).symm
  · exact .inr (mem_values.mpr h)

end PackageDependencies

namespace Graph

abbrev forest (g : Graph) : Forest NodeId String := ⟨g.child?, g.parent⟩

inductive Due (g : Graph) (x : NodeId) : Hoist → Prop
  | merge : g.parent x = some p → g.parent p = some grand →
      g.forest.Nearest (g.name x) grand anc dupe → g.version dupe = .ok v → g.version x = .ok w →
      v.str = w.str → Due g x (.merge x dupe p)
  | swap : g.parent x = some p → g.parent p = some grand →
      g.forest.Nearest (g.name x) grand anc dupe → Due g x (.swap x dupe p anc)
  | move : g.parent x = some p → g.parent p = some grand →
      (∀ anc c, ¬ g.forest.Nearest (g.name x) grand anc c) → Due g x (.move x p grand)

variable {g g' : Graph} {x y p c : NodeId}

@[simp] theorem node_setParent : (g.setParent x p').node = g.node := rfl
@[simp] theorem child?_setParent : (g.setParent x p').child? = g.child? := rfl
@[simp] theorem size_setParent : (g.setParent x p').size = g.size := rfl
@[simp] theorem name_setParent : (g.setParent x p').name = g.name := rfl

@[simp] theorem node_setChild : (g.setChild x n c).node = g.node := rfl
@[simp] theorem parent_setChild : (g.setChild x n c).parent = g.parent := rfl
@[simp] theorem size_setChild : (g.setChild x n c).size = g.size := rfl
@[simp] theorem name_setChild : (g.setChild x n c).name = g.name := rfl

@[simp] theorem node_unsetChild : (g.unsetChild x n).node = g.node := rfl
@[simp] theorem parent_unsetChild : (g.unsetChild x n).parent = g.parent := rfl
@[simp] theorem size_unsetChild : (g.unsetChild x n).size = g.size := rfl
@[simp] theorem name_unsetChild : (g.unsetChild x n).name = g.name := rfl

theorem parent_setParent : (g.setParent x p').parent y = if y = x then p' else g.parent y := by
  simp [setParent, update_apply]

theorem child?_setChild :
    (g.setChild x n c).child? y m = if y = x ∧ m = n then some c else g.child? y m := by
  by_cases hy : y = x
  · subst hy
    by_cases hm : m = n
    · simp [child?, setChild, hm]
    · simp [child?, setChild, hm, TreeMap.getElem?_insert, Ne.symm hm]
  · simp [child?, setChild, hy]

theorem child?_unsetChild :
    (g.unsetChild x n).child? y m = if y = x ∧ m = n then none else g.child? y m := by
  by_cases hy : y = x
  · subst hy
    by_cases hm : m = n
    · simp [child?, unsetChild, hm]
    · simp [child?, unsetChild, hm, TreeMap.getElem?_erase, Ne.symm hm]
  · simp [child?, unsetChild, hy]

theorem node_create : (g.create n).1.node x = if x = g.size then n else g.node x := by
  simp [create, update_apply]

theorem parent_create : (g.create n).1.parent x = if x = g.size then none else g.parent x := by
  simp [create, update_apply]

theorem child?_create :
    (g.create n).1.child? x m = if x = g.size then none else g.child? x m := by
  by_cases h : x = g.size <;> simp [create, child?, h]

@[simp] theorem size_create : (g.create n).1.size = g.size + 1 := rfl
@[simp] theorem create_snd : (g.create n).2 = g.size := rfl

theorem mem_childList : c ∈ g.childList x ↔ ∃ n, g.child? x n = some c := by
  simp [childList, child?, TreeMap.mem_toList_iff_getElem?_eq_some]

def Linked (g : Graph) : Prop := ∀ x k c, g.child? x k = some c → g.parent c = some x ∧ g.name c = k

theorem Linked.create (h : g.Linked) (hfresh : ∀ x k, g.child? x k ≠ some g.size) :
    (g.create n).1.Linked := by
  intro x k c hc
  rw [child?_create] at hc
  split at hc
  · cases hc
  · have hne : c ≠ g.size := fun heq => hfresh x k (heq ▸ hc)
    simpa [parent_create, name, node_create, hne] using h x k c hc

theorem Linked.attach (h : g.Linked) (hc : g.parent c = none) :
    ((g.setChild x (g.name c) c).setParent c (some x)).Linked := by
  intro y k d hd
  simp only [child?_setParent, child?_setChild] at hd
  rw [parent_setParent, name_setParent, name_setChild]
  split at hd
  · rename_i heq
    cases hd
    exact ⟨by rw [if_pos rfl, heq.1], heq.2.symm⟩
  · have hne : d ≠ c := by
      rintro rfl
      rw [(h y k d hd).1] at hc
      cases hc
    rw [if_neg hne]
    exact h y k d hd

theorem Linked.detach (h : g.Linked) (hp : g.parent x = some p) :
    ((g.unsetChild p (g.name x)).setParent x none).Linked := by
  intro y k d hd
  simp only [child?_setParent, child?_unsetChild] at hd
  split at hd
  · cases hd
  · rename_i hneg
    rw [parent_setParent, name_setParent, name_unsetChild]
    have hne : d ≠ x := by
      rintro rfl
      obtain ⟨hy, hk⟩ := h y k d hd
      rw [hp] at hy
      exact hneg ⟨(some.inj hy).symm, hk.symm⟩
    rw [if_neg hne]
    exact h y k d hd

theorem Linked.childList_nodup (h : g.Linked) : (g.childList x).Nodup := by
  refine pairwise_map.mpr (TreeMap.distinct_keys_toList.imp_of_mem ?_)
  rintro ⟨k, c⟩ ⟨k', c'⟩ hc hc' hne heq
  have hk := (h x k c (TreeMap.mem_toList_iff_getElem?_eq_some.mp hc)).2
  have hk' := (h x k' c' (TreeMap.mem_toList_iff_getElem?_eq_some.mp hc')).2
  have heq : c = c' := heq
  rw [heq, hk'] at hk
  exact hne (by simp [hk])

theorem findProviderWithin_some (h : g.findProviderWithin k n x = .ok (some c)) :
    ∃ anc, g.forest.Nearest k x anc c := by
  induction n generalizing x with
  | zero => cases h
  | succ n ih =>
    simp only [findProviderWithin] at h
    split at h
    · rename_i hc
      cases h
      exact ⟨x, .here hc⟩
    · rename_i hc
      split at h
      · rename_i p hp
        obtain ⟨anc, hn⟩ := ih h
        exact ⟨anc, .up hc hp hn⟩
      · cases h

theorem findDupe_some (h : g.findDupe k n x = .ok (some (anc, c))) :
    g.forest.Nearest k x anc c := by
  induction n generalizing x with
  | zero => cases h
  | succ n ih =>
    simp only [findDupe] at h
    split at h
    · rename_i hc
      cases h
      exact .here hc
    · rename_i hc
      split at h
      · rename_i p hp
        exact .up hc hp (ih h)
      · cases h

theorem findDupe_none (h : g.findDupe k n x = .ok none) : ¬ g.forest.Nearest k x anc c := by
  induction n generalizing x with
  | zero => cases h
  | succ n ih =>
    simp only [findDupe] at h
    split at h
    · cases h
    · rename_i hc
      intro hn
      cases hn with
      | here hc' => cases hc.symm.trans hc'
      | up _ hp hn =>
        rw [show g.parent x = some _ from hp] at h
        exact ih h hn

theorem nextHoist_due [UnicharTables] (h : g.nextHoist x = .ok (some hoist)) :
    Due g x hoist := by
  unfold nextHoist at h
  split at h
  · cases h
  rename_i q hp
  split at h
  · cases h
  rename_i grand hg
  obtain ⟨found, hf, h⟩ := bind_eq_ok h
  split at h
  · have hn := findDupe_some hf
    obtain ⟨v, hv, h⟩ := bind_eq_ok h
    obtain ⟨w, hw, h⟩ := bind_eq_ok h
    split at h
    · rename_i hstr
      obtain ⟨b, -, h⟩ := bind_eq_ok h
      split at h
      · cases h
        exact .merge hp hg hn hv hw hstr
      · cases h
    · obtain ⟨breaks, -, h⟩ := bind_eq_ok h
      split at h
      · cases h
      obtain ⟨ancestors, -, h⟩ := bind_eq_ok h
      split at h
      · cases h
      obtain ⟨siblings, -, h⟩ := bind_eq_ok h
      split at h
      · cases h
      cases h
      exact .swap hp hg hn
  · obtain ⟨ancestor, -, h⟩ := bind_eq_ok h
    split at h
    · cases h
    obtain ⟨peers, -, h⟩ := bind_eq_ok h
    split at h
    · cases h
      exact .move hp hg fun _ _ => findDupe_none hf
    · cases h

theorem allUp_eq_false (h : g.allUp check n x = .ok false) :
    ∃ a, g.forest.Above a x ∧ check a = .ok false := by
  induction n generalizing x with
  | zero => cases h
  | succ n ih =>
    obtain ⟨b, hb, h⟩ := bind_eq_ok h
    cases b with
    | false => exact ⟨x, .refl, hb⟩
    | true =>
      simp only [Bool.not_true, Bool.false_eq_true, if_false] at h
      split at h
      · rename_i p hp
        obtain ⟨a, ha, hf⟩ := ih h
        exact ⟨a, .up hp ha, hf⟩
      · cases h

theorem nextHoist_none [UnicharTables] (hp : g.parent x = some p) (hq : g.parent p = some q)
    (h : g.nextHoist x = .ok none) :
    (∃ anc dupe v w, g.forest.Nearest (g.name x) q anc dupe ∧ g.version dupe = .ok v ∧
      g.version x = .ok w ∧ (v.str = w.str → g.satisfiesAllAncestorSiblings x anc = .ok false)) ∨
    (∀ anc c, ¬ g.forest.Nearest (g.name x) q anc c) ∧ (g.satisfiesAncestor x q = .ok false ∨
      g.ancestorSatisfiesDependencies q ((g.node x).dependencies.withRole .peer) = .ok false) := by
  simp only [nextHoist, hp, hq] at h
  obtain ⟨found, hf, h⟩ := bind_eq_ok h
  split at h
  · rename_i anc dupe
    obtain ⟨v, hv, h⟩ := bind_eq_ok h
    obtain ⟨w, hw, h⟩ := bind_eq_ok h
    refine .inl ⟨anc, dupe, v, w, findDupe_some hf, hv, hw, fun hstr => ?_⟩
    rw [if_pos hstr] at h
    obtain ⟨b, hb, h⟩ := bind_eq_ok h
    cases b with
    | false => exact hb
    | true => cases h
  · refine .inr ⟨fun _ _ => findDupe_none hf, ?_⟩
    obtain ⟨b, hb, h⟩ := bind_eq_ok h
    cases b with
    | false => exact .inl hb
    | true =>
      obtain ⟨b, hb, h⟩ := bind_eq_ok h
      cases b with
      | false => exact .inr hb
      | true => cases h

end Graph

end FridaCore.Packages
