import Mathlib

/-!
# Lists

What `lookup` finds in an association list, and what is left of a list when a key or a
position is removed.
-/

namespace FridaCore

open List

variable {l : List (α × β)} {k key : α} {v val : β}

theorem perm_cons_filter_ne [DecidableEq α] (hl : (l.map Prod.fst).Nodup) (h : (k, v) ∈ l) :
    l.Perm ((k, v) :: l.filter fun p => p.1 ≠ k) := by
  refine (perm_ext_iff_of_nodup hl.of_map ?_).mpr fun p => ?_
  · exact nodup_cons.mpr ⟨by simp, hl.of_map.filter _⟩
  · rw [mem_cons, mem_filter, decide_eq_true_eq]
    constructor
    · intro hp
      by_cases hk : p.1 = k
      · exact .inl (inj_on_of_nodup_map hl hp h hk)
      · exact .inr ⟨hp, hk⟩
    · rintro (rfl | ⟨hp, -⟩)
      · exact h
      · exact hp

theorem eraseIdx_perm {l : List α} (h : l[i]? = some a) : (a :: l.eraseIdx i).Perm l := by
  obtain ⟨hi, rfl⟩ := List.getElem?_eq_some_iff.mp h
  exact getElem_cons_eraseIdx_perm hi

theorem find?_eq_of_unique {l : List α} (ha : a ∈ l) (hp : p a = true)
    (honly : ∀ b ∈ l, p b = true → b = a) : l.find? p = some a := by
  cases hfound : l.find? p with
  | none => exact absurd hp (find?_eq_none.mp hfound a ha)
  | some b => rw [honly b (mem_of_find?_eq_some hfound) (find?_some hfound)]

theorem pairwise_or {R : α → α → Prop} {l : List α} (h : l.Pairwise R) (ha : a ∈ l) (hb : b ∈ l)
    (hne : a ≠ b) : R a b ∨ R b a := by
  have hsymm : Std.Symm fun a b => R a b ∨ R b a := ⟨fun _ _ => Or.symm⟩
  have hor : l.Pairwise fun a b => R a b ∨ R b a := h.imp Or.inl
  exact hor.forall ha hb hne

variable [BEq α] [LawfulBEq α]

theorem mem_of_lookup (h : l.lookup k = some v) : (k, v) ∈ l := by
  obtain ⟨before, after, rfl, -⟩ := lookup_eq_some_iff.mp h
  simp

theorem lookup_iff_mem (hl : (l.map Prod.fst).Nodup) : l.lookup k = some v ↔ (k, v) ∈ l := by
  refine ⟨mem_of_lookup, fun h => ?_⟩
  cases hfound : l.lookup k with
  | none =>
    have hne := lookup_eq_none_iff.mp hfound _ h
    simp at hne
  | some w =>
    have hsame := inj_on_of_nodup_map hl (mem_of_lookup hfound) h rfl
    rw [(Prod.mk.inj hsame).2]

variable [DecidableEq α]

theorem lookup_cons_ite :
    ((key, val) :: l).lookup k = if k = key then some val else l.lookup k := by
  by_cases h : k = key
  · simp [h]
  · rw [lookup_cons, beq_false_of_ne h, if_neg h]

theorem lookup_filter_ne (l : List (α × β)) :
    (l.filter fun p => p.1 ≠ key).lookup k = if k = key then none else l.lookup k := by
  induction l with
  | nil => simp
  | cons p l ih =>
    obtain ⟨key', val⟩ := p
    by_cases hkey : key' = key
    · rw [filter_cons_of_neg (by simp [hkey]), ih, lookup_cons_ite, hkey]
      by_cases hk : k = key <;> simp [hk]
    · rw [filter_cons_of_pos (by simp [hkey]), lookup_cons_ite, lookup_cons_ite, ih]
      by_cases hk : k = key'
      · rw [if_pos hk, if_pos hk, if_neg (hk ▸ hkey)]
      · rw [if_neg hk, if_neg hk]

end FridaCore
