import Mathlib

/-!
# Conditions on what a stateful computation comes to

`Meets m s Q E` says of `m`, started in `s`, that a result and the state it leaves meet `Q`,
and that an error and the state it leaves meet `E`.
-/

namespace FridaCore

variable {ε σ α β : Type} {m : EStateM ε σ α} {f : α → EStateM ε σ β} {s : σ}

def Meets (m : EStateM ε σ α) (s : σ) (Q : α → σ → Prop) (E : ε → σ → Prop) : Prop :=
  match m s with
  | .ok a t => Q a t
  | .error e t => E e t

theorem bind_of_ok (h : m s = .ok a t) : (m >>= f) s = f a t := by
  simp only [Bind.bind, EStateM.bind, h]

theorem bind_of_error (h : m s = .error e t) : (m >>= f) s = .error e t := by
  simp only [Bind.bind, EStateM.bind, h]

@[simp] theorem get_bind_apply {f : σ → EStateM ε σ β} : (get >>= f) s = f s s := rfl

@[simp] theorem modify_bind_apply {f : Unit → EStateM ε σ β} :
    (modify g >>= f) s = f () (g s) := rfl

@[simp] theorem pure_apply : (pure a : EStateM ε σ α) s = .ok a s := rfl

variable {Q Q' : α → σ → Prop} {R : β → σ → Prop} {E E' : ε → σ → Prop}

theorem meets_of_ok (h : m s = .ok a t) (hq : Q a t) : Meets m s Q E := by
  simpa only [Meets, h] using hq

theorem meets_of_error (h : m s = .error e t) (he : E e t) : Meets m s Q E := by
  simpa only [Meets, h] using he

theorem Meets.of_eq (h : m s = m' s') (h' : Meets m' s' Q E) :
    Meets m s Q E := by
  rwa [Meets, h]

theorem Meets.mono (h : Meets m s Q E) (hq : ∀ a t, Q a t → Q' a t)
    (he : ∀ e t, E e t → E' e t) : Meets m s Q' E' := by
  unfold Meets at h ⊢
  split at h
  · exact hq _ _ h
  · exact he _ _ h

theorem Meets.bind (h : Meets m s (fun a t => Meets (f a) t R E) E) : Meets (m >>= f) s R E := by
  simp only [Meets, Bind.bind, EStateM.bind] at h ⊢
  cases hm : m s with
  | ok a t | error e t => simpa only [hm] using h

end FridaCore
