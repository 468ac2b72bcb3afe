import Mathlib

/-!
# Computations that can fail

Inversion rules for `Except`: a computation that has a result has gone through
all its parts, and what each step of a loop keeps holds of its result.
-/

namespace FridaCore

open List

variable {ε : Type*} {α β : Type u}

theorem bind_eq_ok {x : Except ε α} {f : α → Except ε β} (h : x >>= f = .ok b) :
    ∃ a, x = .ok a ∧ f a = .ok b := by
  cases x with
  | error e => cases h
  | ok a => exact ⟨a, rfl, h⟩

theorem map_eq_ok {x : Except ε α} {f : α → β} (h : f <$> x = .ok b) :
    ∃ a, x = .ok a ∧ f a = b := by
  cases x with
  | error e => cases h
  | ok a =>
    cases h
    exact ⟨a, rfl, rfl⟩

theorem mem_of_mapM {f : α → Except ε β} {l : List α} (h : l.mapM f = .ok ys) (hy : y ∈ ys) :
    ∃ x ∈ l, f x = .ok y := by
  induction l generalizing ys with
  | nil =>
    cases h
    cases hy
  | cons x l ih =>
    rw [mapM_cons] at h
    obtain ⟨y', hy', h⟩ := bind_eq_ok h
    obtain ⟨ys', hys', h⟩ := bind_eq_ok h
    cases h
    rcases mem_cons.mp hy with rfl | hy
    · exact ⟨x, mem_cons_self, hy'⟩
    · obtain ⟨z, hz, hf⟩ := ih hys' hy
      exact ⟨z, mem_cons_of_mem _ hz, hf⟩

theorem exists_of_allM_eq_false {f : α → Except ε Bool} {l : List α} (h : l.allM f = .ok false) :
    ∃ a ∈ l, f a = .ok false := by
  induction l with
  | nil => cases h
  | cons a l ih =>
    obtain ⟨b, hb, h⟩ := bind_eq_ok h
    cases b with
    | true =>
      obtain ⟨a', ha', hf⟩ := ih h
      exact ⟨a', mem_cons_of_mem _ ha', hf⟩
    | false => exact ⟨a, mem_cons_self, hb⟩

theorem forM_eq_ok {f : α → Except ε PUnit} {l : List α} :
    l.forM f = .ok ⟨⟩ ↔ ∀ a ∈ l, f a = .ok ⟨⟩ := by
  induction l with
  | nil => simp [pure, Except.pure]
  | cons a l ih =>
    rw [forall_mem_cons, ← ih]
    change (f a >>= fun _ => l.forM f) = .ok ⟨⟩ ↔ _
    constructor
    · intro h
      obtain ⟨⟨⟩, ha, hl⟩ := bind_eq_ok h
      exact ⟨ha, hl⟩
    · rintro ⟨ha, hl⟩
      rw [ha]
      exact hl

end FridaCore
