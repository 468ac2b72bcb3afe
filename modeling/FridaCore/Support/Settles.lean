import Mathlib

/-!
# Computations with fuel

A computation that is given fuel settles on what it gives with enough of it. What does
not settle on a value gives none, however much fuel it gets.
-/

namespace FridaCore

open Option Function

variable {α β γ : Type} {f : Nat → Option α} {x : Option α}

structure Settles (f : Nat → Option α) (x : Option α) : Prop where
  sound : ∀ fuel a, f fuel = some a → x = some a
  enough : ∀ a, x = some a → ∃ least, ∀ fuel, least ≤ fuel → f fuel = some a

theorem Settles.exists_iff (h : Settles f x) : (∃ fuel, f fuel = some a) ↔ x = some a := by
  constructor
  · rintro ⟨fuel, hfuel⟩
    exact h.sound fuel a hfuel
  · intro hx
    obtain ⟨least, hleast⟩ := h.enough a hx
    exact ⟨least, hleast least (Nat.le_refl _)⟩

theorem Settles.const (x : Option α) : Settles (fun _ => x) x :=
  ⟨fun _ _ h => h, fun _ h => ⟨0, fun _ _ => h⟩⟩

theorem Settles.bind {g : α → Nat → Option β} (hf : Settles f x) (hg : ∀ a, Settles (g a) (y a)) :
    Settles (fun fuel => (f fuel).bind fun a => g a fuel) (x.bind y) := by
  constructor
  · intro fuel b h
    obtain ⟨a, ha, hb⟩ := bind_eq_some_iff.mp h
    exact bind_eq_some_iff.mpr ⟨a, hf.sound fuel a ha, (hg a).sound fuel b hb⟩
  · intro b h
    obtain ⟨a, ha, hb⟩ := bind_eq_some_iff.mp h
    obtain ⟨n, hn⟩ := hf.enough a ha
    obtain ⟨m, hm⟩ := (hg a).enough b hb
    refine ⟨max n m, fun fuel hfuel => ?_⟩
    rw [hn fuel (by omega), bind_some, hm fuel (by omega)]

theorem Settles.bind_some {g : α → Nat → Option β}
    (hf : Settles f (some a)) (hg : Settles (g a) y) :
    Settles (fun fuel => (f fuel).bind fun a => g a fuel) y := by
  constructor
  · intro fuel b h
    obtain ⟨a', ha', hb⟩ := Option.bind_eq_some_iff.mp h
    cases hf.sound fuel a' ha'
    exact hg.sound fuel b hb
  · intro b h
    obtain ⟨n, hn⟩ := hf.enough a rfl
    obtain ⟨m, hm⟩ := hg.enough b h
    refine ⟨max n m, fun fuel hfuel => ?_⟩
    rw [hn fuel (by omega), Option.bind_some, hm fuel (by omega)]

theorem Settles.map (hf : Settles f x) (g : α → β) :
    Settles (fun fuel => (f fuel).map g) (x.map g) := by
  simpa only [map_eq_bind, comp_def] using hf.bind fun a => .const (some (g a))

theorem Settles.succ (hf : Settles f x) (hzero : g 0 = none)
    (hsucc : ∀ fuel, g (fuel + 1) = f fuel) : Settles g x := by
  constructor
  · intro fuel a h
    cases fuel with
    | zero => rw [hzero] at h; cases h
    | succ fuel => exact hf.sound fuel a (hsucc fuel ▸ h)
  · intro a h
    obtain ⟨n, hn⟩ := hf.enough a h
    refine ⟨n + 1, fun fuel hfuel => ?_⟩
    cases fuel with
    | zero => omega
    | succ fuel => rw [hsucc, hn fuel (by omega)]

theorem Settles.mapM {f : Nat → α → Option γ}
    (h : List.Forall₂ (fun a b => Settles (fun fuel => f fuel a) (y b)) as bs) :
    Settles (fun fuel => as.mapM (f fuel)) (bs.mapM y) := by
  induction h with
  | nil => exact .const (some [])
  | cons hab _ ih =>
    simp only [List.mapM_cons, Option.bind_eq_bind, Option.pure_def]
    exact hab.bind fun c => ih.bind fun cs => .const (some (c :: cs))

end FridaCore
