import Mathlib

/-!
# Bisection

Looking for the last position where a predicate holds, among positions where it holds up
to some point and not from there on.
-/

namespace FridaCore

/-- The positions from `lo` up to `hi` are left to look at; `best` is the last one found
so far. -/
def bisectLast (p : Nat → Bool) (lo hi : Nat) (best : Option Nat) : Option Nat :=
  if lo < hi then
    let mid := lo + (hi - 1 - lo) / 2
    if p mid then bisectLast p (mid + 1) hi (some mid) else bisectLast p lo mid best
  else best
termination_by hi - lo

/-- What is known of the best position: it is the one before `lo`, and nothing from `hi`
on will do. -/
structure Bisecting (p : Nat → Bool) (n lo hi : Nat) (best : Option Nat) : Prop where
  le : lo ≤ hi
  le_size : hi ≤ n
  below : ∀ i < lo, p i
  above : ∀ i < n, hi ≤ i → p i = false
  best_eq : best = if lo = 0 then none else some (lo - 1)

variable {p : Nat → Bool} {n lo hi : Nat} {best : Option Nat}

theorem Bisecting.bisectLast_eq (hp : ∀ i j, i ≤ j → j < n → p j → p i)
    (h : Bisecting p n lo hi best) :
    ∃ k ≤ n, (∀ i < n, p i = decide (i < k)) ∧
      bisectLast p lo hi best = if k = 0 then none else some (k - 1) := by
  fun_induction bisectLast p lo hi best with
  | case1 lo hi best hlt mid hmid ih =>
    have hmidlt : mid < hi := by omega
    refine ih ⟨hmidlt, h.le_size, fun i hi' => ?_, h.above, by simp⟩
    exact hp i mid (Nat.lt_succ_iff.mp hi') (Nat.lt_of_lt_of_le hmidlt h.le_size) hmid
  | case2 lo hi best hlt mid hmid ih =>
    have hle : lo ≤ mid := Nat.le_add_right _ _
    have hmidlt : mid < hi := by omega
    refine ih ⟨hle, Nat.le_trans (Nat.le_of_lt hmidlt) h.le_size, h.below, fun i hi' hge => ?_,
      h.best_eq⟩
    by_contra hpi
    exact hmid (hp mid i hge hi' (by simpa using hpi))
  | case3 lo hi best hge =>
    have heq : lo = hi := Nat.le_antisymm h.le (Nat.le_of_not_lt hge)
    refine ⟨lo, heq ▸ h.le_size, fun i hi' => ?_, h.best_eq⟩
    by_cases hilo : i < lo
    · simp [hilo, h.below i hilo]
    · simp [hilo, h.above i hi' (heq ▸ Nat.le_of_not_lt hilo)]

/-- The search among the first `n` positions finds where the predicate stops to hold. -/
theorem bisectLast_eq (hp : ∀ i j, i ≤ j → j < n → p j → p i) :
    ∃ k ≤ n, (∀ i < n, p i = decide (i < k)) ∧
      bisectLast p 0 n none = if k = 0 then none else some (k - 1) :=
  Bisecting.bisectLast_eq hp
    ⟨Nat.zero_le _, Nat.le_refl _, by simp, fun _ hi hge => absurd hi (Nat.not_lt_of_le hge), by simp⟩

end FridaCore
