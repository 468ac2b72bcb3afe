import Mathlib

/-!
# Following links

A partial successor function, followed for some number of steps. Among finitely many
places, following comes to an end if and only if no place is come back to.
-/

namespace FridaCore

open Option

variable {α : Type*} (next : α → Option α)

def follow : Nat → α → Option α
  | 0, a => some a
  | n + 1, a => (next a).bind (follow n)

def ComesBack (a : α) : Prop :=
  ∃ n b, follow next n a = some b ∧ ∃ m, follow next (m + 1) b = some b

variable {next} {a b : α} {m n : Nat}

theorem follow_add (m n : Nat) (a : α) :
    follow next (m + n) a = (follow next m a).bind (follow next n) := by
  induction m generalizing a with
  | zero => simp [follow]
  | succ m ih =>
    rw [Nat.succ_add, follow, follow, bind_assoc]
    exact bind_congr fun b _ => ih b

theorem follow_eq_none_of_le (h : follow next m a = none) (hmn : m ≤ n) :
    follow next n a = none := by
  obtain ⟨k, rfl⟩ := Nat.exists_eq_add_of_le hmn
  rw [follow_add, h, bind_none]

theorem follow_circle (h : follow next (m + 1) b = some b) (k : Nat) :
    follow next (k * (m + 1)) b = some b := by
  induction k with
  | zero => simp [follow]
  | succ k ih => rw [Nat.succ_mul, follow_add, ih, bind_some, h]

theorem ComesBack.follow_ne_none (h : ComesBack next a) (n : Nat) : follow next n a ≠ none := by
  obtain ⟨k, b, hb, m, hm⟩ := h
  intro hnone
  have hle : n ≤ k + n * (m + 1) :=
    (Nat.le_mul_of_pos_right n (Nat.succ_pos m)).trans (Nat.le_add_left _ k)
  have hend := follow_eq_none_of_le hnone hle
  rw [follow_add, hb, bind_some, follow_circle hm] at hend
  cases hend

/-- More steps than there are places lead to one that has been reached before. -/
theorem comesBack_of_bounded {a : Nat} {next : Nat → Option Nat} {bound : Nat}
    (hbound : ∀ n b, follow next n a = some b → b < bound)
    (h : ∀ n, follow next n a ≠ none) : ComesBack next a := by
  have hsome : ∀ n, ∃ b, follow next n a = some b := fun n => ne_none_iff_exists'.mp (h n)
  choose place hplace using hsome
  have hmaps : Set.MapsTo place (Finset.range (bound + 1)) (Finset.range bound) := by
    intro n _
    simpa using hbound n _ (hplace n)
  obtain ⟨i, hi, j, hj, hne, heq⟩ :=
    Finset.exists_ne_map_eq_of_card_lt_of_maps_to (by simp) hmaps
  wlog hij : i < j generalizing i j
  · exact this j hj i hi hne.symm heq.symm (lt_of_le_of_ne (Nat.le_of_not_lt hij) hne.symm)
  obtain ⟨m, rfl⟩ := Nat.exists_eq_add_of_lt hij
  refine ⟨i, place i, hplace i, m, ?_⟩
  have hstep := hplace (i + (m + 1))
  rw [follow_add, hplace i, bind_some] at hstep
  rw [hstep, heq]
  rfl

/-- Following links comes to an end if and only if no place is come back to. -/
theorem exists_follow_eq_none_iff {a : Nat} {next : Nat → Option Nat} {bound : Nat}
    (hbound : ∀ n b, follow next n a = some b → b < bound) :
    (∃ n, follow next n a = none) ↔ ¬ComesBack next a := by
  constructor
  · rintro ⟨n, hn⟩ hback
    exact hback.follow_ne_none n hn
  · intro hback
    by_contra hnone
    exact hback (comesBack_of_bounded hbound fun n hn => hnone ⟨n, hn⟩)

end FridaCore
