import Mathlib

/-!
# Event-driven machines and their runs

A machine is a partial step function: an event that is not enabled ends the
run. `Always` says that a predicate holds in every state of a run and
`EachStep` that every step taken meets a condition on the state before it.
The rules below turn a fact about one step into a fact about whole runs.
-/

namespace FridaCore.Machine

open Option

variable {σ ε : Type*} (step : σ → ε → Option σ)

def exec : σ → List ε → Option σ
  | s, [] => some s
  | s, e :: es => (step s e).bind fun t => exec t es

/-- `P` holds in every state the run goes through, the first one included. -/
def Always (P : σ → Prop) : σ → List ε → Prop
  | s, [] => P s
  | s, e :: es => P s ∧ ∀ t, step s e = some t → Always P t es

/-- Every step the run takes meets `ok` in the state before it. -/
def EachStep (ok : σ → ε → Prop) : σ → List ε → Prop
  | _, [] => True
  | s, e :: es => ∀ t, step s e = some t → ok s e ∧ EachStep ok t es

variable {step} {I P : σ → Prop} {ok : σ → ε → Prop}

instance EachStep.decidable [∀ s e, Decidable (ok s e)] :
    (s : σ) → (es : List ε) → Decidable (EachStep step ok s es)
  | _, [] => .isTrue trivial
  | s, e :: es =>
    match h : step s e with
    | none => .isTrue (by simp [EachStep, h])
    | some t =>
      have := EachStep.decidable t es
      decidable_of_iff (ok s e ∧ EachStep step ok t es) (by simp [EachStep, h])

theorem Always.first (h : Always step P s es) : P s := by
  cases es with
  | nil => exact h
  | cons e es => exact h.1

theorem Always.mono (hpq : ∀ s, P s → Q s) (h : Always step P s es) :
    Always step Q s es := by
  induction es generalizing s with
  | nil => exact hpq s h
  | cons e es ih => exact ⟨hpq s h.1, fun t ht => ih (h.2 t ht)⟩

theorem Always.exec (h : Always step P s es) (he : exec step s es = some t) : P t := by
  induction es generalizing s with
  | nil =>
    obtain rfl : s = t := by simpa [Machine.exec] using he
    exact h
  | cons e es ih =>
    obtain ⟨u, hu, he⟩ := bind_eq_some_iff.mp he
    exact ih (h.2 u hu) he

theorem eachStep_of_forall (h : ∀ e ∈ es, ∀ s, ok s e) (s : σ) : EachStep step ok s es := by
  induction es generalizing s with
  | nil => trivial
  | cons e es ih =>
    obtain ⟨he, hes⟩ := List.forall_mem_cons.mp h
    exact fun t _ => ⟨he s, ih hes t⟩

theorem eachStep_true (s : σ) (es : List ε) : EachStep step (fun _ _ => True) s es :=
  eachStep_of_forall (fun _ _ _ => trivial) s

/-- The invariant rule: what every step meeting the condition preserves holds
in every state of a run whose steps all meet it. -/
theorem always_of_eachStep (hstep : ∀ s e t, I s → ok s e → step s e = some t → I t)
    (h0 : I s) (h : EachStep step ok s es) : Always step I s es := by
  induction es generalizing s with
  | nil => exact h0
  | cons e es ih => exact ⟨h0, fun t ht => ih (hstep s e t h0 (h t ht).1 ht) (h t ht).2⟩

/-- What every step from a state with the invariant does, every step of the run does. -/
theorem eachStep_of_invariant (hstep : ∀ s e t, I s → ok s e → step s e = some t → I t ∧ does s e)
    (h0 : I s) (h : EachStep step ok s es) : EachStep step does s es := by
  induction es generalizing s with
  | nil => trivial
  | cons e es ih =>
    intro t ht
    obtain ⟨hok, hrest⟩ := h t ht
    obtain ⟨hi, hdoes⟩ := hstep s e t h0 hok ht
    exact ⟨hdoes, ih hi hrest⟩

theorem always_of_step (hstep : ∀ s e t, I s → step s e = some t → I t) (h0 : I s) :
    Always step I s es :=
  always_of_eachStep (fun s e t hi _ => hstep s e t hi) h0 (eachStep_true s es)

/-- The run goes from `s` to `t` by `e`. -/
def Taken (step : σ → ε → Option σ) (s₀ : σ) (es : List ε) (s : σ) (e : ε) (t : σ) : Prop :=
  ∃ before after, es = before ++ e :: after ∧ exec step s₀ before = some s ∧ step s e = some t

theorem Taken.step_eq (h : Taken step s₀ es s e t) : step s e = some t := by
  obtain ⟨before, after, -, -, ht⟩ := h
  exact ht

theorem exec_append (a b : List ε) (s : σ) :
    exec step s (a ++ b) = (exec step s a).bind fun t => exec step t b := by
  induction a generalizing s with
  | nil => rfl
  | cons e a ih => simp [exec, ih, Option.bind_assoc]

theorem Taken.invariant (hstep : ∀ s e t, I s → step s e = some t → I t) (h0 : I s₀)
    (h : Taken step s₀ es s e t) : I s := by
  obtain ⟨before, after, -, hexec, -⟩ := h
  exact (always_of_step hstep h0).exec hexec

/-- What every step keeps, the steps that follow keep. -/
theorem Taken.kept (hstep : ∀ s e t, I s → step s e = some t → I t) (h : Taken step s₀ es s e t)
    (he : exec step s₀ es = some u) (hs : I s) : I u := by
  obtain ⟨before, after, rfl, hexec, ht⟩ := h
  rw [exec_append, hexec, Option.bind_some, exec, ht] at he
  exact (always_of_step hstep (hstep s e t hs ht)).exec he

/-- When the condition decides whether a step keeps `P`, runs that keep `P`
throughout are exactly the runs whose steps all meet the condition. The steps
may be limited to a domain, and the invariant may need `P` to go on. -/
theorem always_iff_eachStep_of
    (hstep : ∀ s e t, I s → P s → dom s e → step s e = some t → (P t ↔ ok s e) ∧ (P t → I t))
    (hi : I s) (hp : P s) (hdom : EachStep step dom s es) :
    Always step P s es ↔ EachStep step ok s es := by
  induction es generalizing s with
  | nil => exact ⟨fun _ => trivial, fun _ => hp⟩
  | cons e es ih =>
    cases ht : step s e with
    | none => simp [Always, EachStep, ht, hp]
    | some t =>
      obtain ⟨hiff, hinv⟩ := hstep s e t hi hp (hdom t ht).1 ht
      simp only [Always, EachStep, ht, some.injEq, forall_eq', hp, true_and]
      constructor
      · intro h
        have hp' := h.first
        exact ⟨hiff.mp hp', (ih (hinv hp') hp' (hdom t ht).2).mp h⟩
      · rintro ⟨hok, h⟩
        have hp' := hiff.mpr hok
        exact (ih (hinv hp') hp' (hdom t ht).2).mpr h

/-- A run keeps `I` as long as its steps meet the condition. The first step that does not makes
`D` hold, and it holds from then on. -/
theorem eachStep_or_of_exec {D : σ → Prop}
    (hstep : ∀ s e t, I s → ok s e → step s e = some t → I t)
    (hlate : ∀ s e t, I s → ¬ ok s e → step s e = some t → D t)
    (hdone : ∀ s e t, D s → step s e = some t → D t)
    (h0 : I s) (he : exec step s es = some t) :
    EachStep step ok s es ∧ I t ∨ ¬ EachStep step ok s es ∧ D t := by
  induction es generalizing s with
  | nil =>
    cases he
    exact .inl ⟨trivial, h0⟩
  | cons e es ih =>
    obtain ⟨u, hu, he⟩ := bind_eq_some_iff.mp he
    by_cases hok : ok s e
    · rcases ih (hstep s e u h0 hok hu) he with ⟨hall, ht⟩ | ⟨hnot, ht⟩
      · refine .inl ⟨fun v hv => ?_, ht⟩
        cases hu.symm.trans hv
        exact ⟨hok, hall⟩
      · exact .inr ⟨fun hall => hnot (hall u hu).2, ht⟩
    · have hdoomed : Always step D u es := always_of_step hdone (hlate s e u h0 hok hu)
      exact .inr ⟨fun hall => hok (hall u hu).1, hdoomed.exec he⟩

theorem always_iff_eachStep
    (hstep : ∀ s e t, I s → P s → step s e = some t → I t ∧ (P t ↔ ok s e))
    (hi : I s) (hp : P s) : Always step P s es ↔ EachStep step ok s es :=
  always_iff_eachStep_of
    (fun s e t hi hp _ ht => ⟨(hstep s e t hi hp ht).2, fun _ => (hstep s e t hi hp ht).1⟩)
    hi hp (eachStep_true s es)

end FridaCore.Machine
