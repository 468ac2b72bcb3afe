import FridaCore.Gdb.Breakpoints

/-!
# Going on from a breakpoint

`Client.continue` of `src/gdb.vala` takes out the breakpoint the target is stopped at, makes one
step and puts it back. When the stub refuses the step, nothing puts the breakpoint back.
-/

namespace FridaCore.Gdb.Continuing

open Machine

/-- What the stub makes of the commands of one call. A step tells which breakpoint the target is
at after it, by its position. -/
structure Answers where
  disable : Except Error Unit
  step : Except Error (Option Nat)
  enable : Except Error Unit

structure Client where
  debugger : Debugger
  breakpointException : Option Nat := none

namespace Client

/-- What throws leaves the client as it is then. -/
abbrev Outcome := Except (Error × Client) Client

def orThrow (c : Client) (result : Except Error Debugger) : Outcome :=
  match result with
  | .ok debugger => .ok { c with debugger }
  | .error e => .error (e, c)

def changeState (c : Client) (state : ClientState) : Client :=
  { c with debugger := { c.debugger with state } }

def checkStopped (c : Client) : Outcome :=
  c.orThrow (c.debugger.checkStopped.map fun _ => c.debugger)

/-- `_step_thread`. No one waits for the reply of a stub that refuses, so it ends the connection. -/
def stepThread (c : Client) (answer : Except Error (Option Nat)) : Outcome := do
  let c ← c.checkStopped
  match answer with
  | .ok breakpoint => return { c.changeState .stopped with breakpointException := breakpoint }
  | .error _ => throw (.transport "Connection closed while waiting for target to stop",
      c.changeState .closed)

/-- What `f` makes of the breakpoint at position `i`. -/
def onBreakpoint (c : Client) (i : Nat) (f : Debugger → Breakpoint → Except Error Debugger) :
    Outcome :=
  c.orThrow ((c.debugger.onObject i (f c.debugger)).getD (.ok c.debugger))

/-- `continue` -/
def continueTarget (c : Client) (a : Answers) : Outcome := do
  let c ← c.checkStopped
  match c.breakpointException with
  | none => return c.changeState .running
  | some i =>
    let c := { c with breakpointException := none }
    let c ← c.onBreakpoint i fun s bp => s.disable i bp a.disable
    let c ← c.stepThread a.step
    let c ← c.onBreakpoint i fun s bp => s.enable i bp a.enable
    let c ← c.checkStopped
    return c.changeState .running

inductive Event
  | stopped (breakpoint : Option Nat)
  | continued (a : Answers)

def step (c : Client) : Event → Option Client
  | .stopped breakpoint =>
    if c.debugger.state = .running then
      some { c.changeState .stopped with breakpointException := breakpoint }
    else none
  | .continued a =>
    match c.continueTarget a with
    | .ok t | .error (_, t) => some t

/-- The target is stopped at a breakpoint that is enabled, and that the stub has inserted. A call
that fails leaves no exception. -/
structure StoppedAt (c : Client) (i : Nat) (bp : Breakpoint) : Prop where
  state : c.debugger.state = .stopped
  exception : ∀ j ∈ c.breakpointException, j = i
  object : c.debugger.objects[i]? = some bp
  enabled : bp.state = .enabled
  inserted : bp.site ∈ c.debugger.inserted

/-- After a call the breakpoint is recorded as the stub has it. -/
def Recorded (c : Client) (e : Event) : Prop :=
  ∀ i bp a t, c.StoppedAt i bp → e = .continued a → c.step e = some t → ∃ state,
    t.debugger.objects[i]? = some { bp with state } ∧
      (state = .enabled ↔ bp.site ∈ t.debugger.inserted)

/-- After a call the breakpoint is inserted, unless the stub has refused to do so. -/
def Armed (c : Client) (e : Event) : Prop :=
  ∀ i bp a t, c.StoppedAt i bp → e = .continued a → c.step e = some t →
    (c.breakpointException.isSome → a.disable.isOk → a.step.isOk → a.enable.isOk) →
    bp.site ∈ t.debugger.inserted

/-- The step is not refused when the breakpoint has been taken out for it. -/
def Steps (c : Client) (e : Event) : Prop :=
  ∀ i bp a, c.StoppedAt i bp → e = .continued a →
    c.breakpointException.isSome → a.disable.isOk → a.step.isOk

variable {c t : Client} {a : Answers} {i : Nat} {bp : Breakpoint}

theorem checkStopped_eq (h : c.debugger.state = .stopped) : c.checkStopped = .ok c := by
  simp [checkStopped, orThrow, Debugger.checkStopped, h, Except.map]

theorem onBreakpoint_eq {f : Debugger → Breakpoint → Except Error Debugger}
    (h : c.debugger.objects[i]? = some bp) :
    c.onBreakpoint i f = c.orThrow (f c.debugger bp) := by
  simp [onBreakpoint, Debugger.onObject, h]

theorem setDisabled_getElem (h : c.StoppedAt i bp) :
    (c.debugger.setDisabled i bp).objects[i]? = some { bp with state := .disabled } := by
  have hlt := (List.getElem?_eq_some_iff.mp h.object).1
  simp [Debugger.setDisabled, hlt]

/-- A call leaves the breakpoint disabled just when it has been taken out and not put back. -/
theorem StoppedAt.continued (h : c.StoppedAt i bp) (ht : c.step (.continued a) = some t) :
    ∃ state, t.debugger.objects[i]? = some { bp with state } ∧
      (state = .enabled ↔ bp.site ∈ t.debugger.inserted) ∧
      (state = .enabled ↔ (c.breakpointException.isSome → a.disable.isOk →
        a.step.isOk ∧ a.enable.isOk)) := by
  have hkept : c.debugger.objects[i]? = some { bp with state := .enabled } := by
    rw [← h.enabled]
    exact h.object
  rw [step, continueTarget, checkStopped_eq h.state] at ht
  simp only [bind, Except.bind] at ht
  cases hexception : c.breakpointException with
  | none =>
    rw [hexception] at ht
    cases ht
    exact ⟨.enabled, hkept, by simpa [changeState] using h.inserted, by simp⟩
  | some j =>
    obtain rfl : j = i := h.exception j hexception
    simp only [hexception] at ht
    rw [onBreakpoint_eq (by exact h.object), Debugger.disable, if_neg (not_not_intro h.enabled)]
      at ht
    cases hdisable : a.disable with
    | error e =>
      rw [hdisable] at ht
      cases ht
      exact ⟨.enabled, hkept, by simpa using h.inserted, by simp [Except.isOk, Except.toBool]⟩
    | ok _ =>
      rw [hdisable] at ht
      dsimp only [Except.map, orThrow] at ht
      rw [stepThread, checkStopped_eq (by exact h.state)] at ht
      cases hstep : a.step with
      | error e =>
        rw [hstep] at ht
        cases ht
        exact ⟨.disabled, setDisabled_getElem h, by simp [changeState, Debugger.setDisabled],
          by simp [Except.isOk, Except.toBool]⟩
      | ok next =>
        rw [hstep] at ht
        simp only [bind, Except.bind, pure, Except.pure] at ht
        rw [onBreakpoint_eq (by exact setDisabled_getElem h), Debugger.enable] at ht
        cases henable : a.enable with
        | error e =>
          rw [henable] at ht
          cases ht
          exact ⟨.disabled, setDisabled_getElem h, by simp [changeState, Debugger.setDisabled],
            by simp [Except.isOk, Except.toBool]⟩
        | ok _ =>
          rw [henable] at ht
          cases ht
          have hlt := (List.getElem?_eq_some_iff.mp (setDisabled_getElem h)).1
          exact ⟨.enabled, List.getElem?_set_self hlt, by simp [changeState, Debugger.setEnabled],
            by simp [Except.isOk, Except.toBool]⟩

theorem exists_step_continued (c : Client) (a : Answers) : ∃ t, c.step (.continued a) = some t := by
  rw [step]
  split <;> exact ⟨_, rfl⟩

theorem armed_eq_steps : Armed = Steps := by
  ext c e
  constructor
  · rintro h i bp a hc rfl hexception hdisable
    by_contra hstep
    obtain ⟨t, ht⟩ := c.exists_step_continued a
    obtain ⟨state, -, hinserted, henabled⟩ := hc.continued ht
    have harmed := h i bp a t hc rfl ht fun _ _ hs => (hstep hs).elim
    exact hstep (henabled.mp (hinserted.mpr harmed) hexception hdisable).1
  · rintro h i bp a t hc rfl ht henable
    obtain ⟨state, -, hinserted, henabled⟩ := hc.continued ht
    refine hinserted.mp (henabled.mpr fun hexception hdisable => ?_)
    have hstep := h i bp a hc rfl hexception hdisable
    exact ⟨hstep, henable hexception hdisable hstep⟩

/-- The record is right after every call, and the breakpoint is in place when no step has been
refused. -/
theorem armed_iff_steps (c : Client) (es : List Event) :
    EachStep step Recorded c es ∧ (EachStep step Armed c es ↔ EachStep step Steps c es) := by
  rw [armed_eq_steps]
  refine ⟨?_, Iff.rfl⟩
  refine eachStep_of_invariant (I := fun _ => True) (fun c e t _ _ _ => ⟨trivial, ?_⟩) trivial
    (eachStep_true c es)
  rintro i bp a t hc rfl ht
  obtain ⟨state, hobject, hinserted, -⟩ := hc.continued ht
  exact ⟨state, hobject, hinserted⟩

/-- The stub takes the breakpoint out and refuses to step. -/
theorem refused_step_disarms :
    let site : Site := ⟨.soft, 4096, 4⟩
    let c : Client := ⟨{ objects := [{ site, state := .enabled }], inserted := {site} }, some 0⟩
    let a : Answers := ⟨.ok (), .error (.notSupported "E01"), .ok ()⟩
    c.StoppedAt 0 { site, state := .enabled } ∧
      ∃ t, c.step (.continued a) = some t ∧ site ∉ t.debugger.inserted := by
  refine ⟨⟨rfl, by simp, rfl, rfl, by simp⟩, _, rfl, ?_⟩
  decide

end Client
end FridaCore.Gdb.Continuing
