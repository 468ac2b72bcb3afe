import FridaCore.Error
import FridaCore.Support.Except
import FridaCore.Support.Machine

/-!
# Breakpoints

`Breakpoint` and its bookkeeping in `Client`, of `src/gdb.vala`. The client has one
breakpoint for an address, while `add_breakpoint` makes a new object at each call. The
stub keeps what has been inserted and ignores a repeated `Z` or `z`.

The map and the stub tell which breakpoints there are for as long as operations keep
off what another breakpoint at the same address relies on (`Apart`).
-/

namespace FridaCore.Gdb

open List Option Function

/-- `Breakpoint.Kind` -/
inductive Kind
  | soft
  | hard
  | write
  | read
  | access
  deriving DecidableEq, Repr

/-- What `Z` and `z` name. -/
structure Site where
  kind : Kind
  address : UInt64
  size : Nat
  deriving DecidableEq, Repr

inductive BreakpointState
  | disabled
  | enabled
  deriving DecidableEq, Repr

structure Breakpoint where
  site : Site
  state : BreakpointState := .disabled
  /-- Whether `remove` has gone through. No method sees this. -/
  removed : Bool := false
  deriving DecidableEq, Repr

inductive ClientState
  | stopped
  | running
  | stopping
  | closed
  deriving DecidableEq, Repr

structure Debugger where
  state : ClientState := .stopped
  objects : List Breakpoint := []
  /-- `breakpoints` of the client, with objects by their position. -/
  breakpoints : UInt64 → Option Nat := fun _ => none
  /-- What the stub has inserted. -/
  inserted : Finset Site := ∅

namespace Debugger

def checkStopped (s : Debugger) : Except Error Unit :=
  match s.state with
  | .stopped => .ok ()
  | .running => .error (.invalidOperation
      "Invalid operation when not STOPPED, current state is RUNNING")
  | .stopping => .error (.invalidOperation
      "Invalid operation when not STOPPED, current state is STOPPING")
  | .closed => .error (.invalidOperation
      "Invalid operation when not STOPPED, current state is CLOSED")

/-- The stub has inserted what the object at position `i` asked for. -/
def setEnabled (s : Debugger) (i : Nat) (bp : Breakpoint) : Debugger :=
  { s with
    objects := s.objects.set i { bp with state := .enabled }
    inserted := insert bp.site s.inserted }

def setDisabled (s : Debugger) (i : Nat) (bp : Breakpoint) : Debugger :=
  { s with
    objects := s.objects.set i { bp with state := .disabled }
    inserted := s.inserted.erase bp.site }

/-- `Breakpoint.enable`, for the object at position `i`. What the stub makes of the
command is given by `answer`, as `execute` reports it. -/
def enable (s : Debugger) (i : Nat) (bp : Breakpoint) (answer : Except Error Unit) :
    Except Error Debugger :=
  if bp.state ≠ .disabled then .error (.invalidOperation "Already enabled")
  else answer.map fun _ => s.setEnabled i bp

/-- `Breakpoint.disable` -/
def disable (s : Debugger) (i : Nat) (bp : Breakpoint) (answer : Except Error Unit) :
    Except Error Debugger :=
  if bp.state ≠ .enabled then .error (.invalidOperation "Already disabled")
  else answer.map fun _ => s.setDisabled i bp

/-- `on_breakpoint_removed`, when the object at position `i` says `removed`. -/
def onBreakpointRemoved (s : Debugger) (i : Nat) (bp : Breakpoint) : Debugger :=
  { s with
    objects := s.objects.set i { bp with state := .disabled, removed := true }
    breakpoints := Function.update s.breakpoints bp.site.address none }

/-- `Breakpoint.remove` -/
def remove (s : Debugger) (i : Nat) (bp : Breakpoint) (answer : Except Error Unit) :
    Except Error Debugger :=
  if bp.state = .enabled then
    (s.disable i bp answer).map fun s => s.onBreakpointRemoved i bp
  else .ok (s.onBreakpointRemoved i bp)

/-- `add_breakpoint`. An object that cannot be enabled is not given out. -/
def addBreakpoint (s : Debugger) (site : Site) (answer : Except Error Unit) :
    Except Error Debugger := do
  s.checkStopped
  let i := s.objects.length
  let bp : Breakpoint := { site }
  let s ← enable { s with objects := s.objects ++ [bp] } i bp answer
  .ok { s with breakpoints := Function.update s.breakpoints site.address (some i) }

inductive Operation
  | addBreakpoint (site : Site) (answer : Except Error Unit)
  | enable (i : Nat) (answer : Except Error Unit)
  | disable (i : Nat) (answer : Except Error Unit)
  | remove (i : Nat) (answer : Except Error Unit)
  /-- The target stops, or is made to run. -/
  | changeState (state : ClientState)

/-- What an operation does to the object at position `i`. -/
def onObject (s : Debugger) (i : Nat) (f : Breakpoint → Except Error Debugger) :
    Option (Except Error Debugger) :=
  s.objects[i]?.map f

def perform (s : Debugger) : Operation → Option (Except Error Debugger)
  | .addBreakpoint site answer => some (s.addBreakpoint site answer)
  | .enable i answer => s.onObject i fun bp => s.enable i bp answer
  | .disable i answer => s.onObject i fun bp => s.disable i bp answer
  | .remove i answer => s.onObject i fun bp => s.remove i bp answer
  | .changeState state => some (.ok { s with state })

def step (s : Debugger) (op : Operation) : Option Debugger :=
  (s.perform op).map fun
    | .ok t => t
    | .error _ => s

def Live (bp : Breakpoint) (address : UInt64) : Prop :=
  bp.site.address = address ∧ bp.removed = false

instance : Decidable (Live bp address) := inferInstanceAs (Decidable (_ ∧ _))

structure Tracked (s : Debugger) : Prop where
  known : ∀ address, (s.breakpoints address).isSome ↔ ∃ bp ∈ s.objects, Live bp address
  inserted : ∀ address, (∃ site ∈ s.inserted, site.address = address) ↔
    ∃ bp ∈ s.objects, Live bp address ∧ bp.state = .enabled

/-- Another live breakpoint at the address of the one at position `i`. -/
def Shared (s : Debugger) (i : Nat) (bp : Breakpoint) : Prop :=
  ∃ other ∈ s.objects.eraseIdx i, Live other bp.site.address

def SharedEnabled (s : Debugger) (i : Nat) (bp : Breakpoint) : Prop :=
  ∃ other ∈ s.objects.eraseIdx i, Live other bp.site.address ∧ other.state = .enabled

def InsertedBeside (s : Debugger) (bp : Breakpoint) : Prop :=
  ∃ site ∈ s.inserted, site ≠ bp.site ∧ site.address = bp.site.address

/-- What the stub is told to remove is at an address where another live breakpoint is
enabled if and only if something else is inserted there. -/
def CanDisable (s : Debugger) (i : Nat) (bp : Breakpoint) : Prop :=
  bp.state = .enabled → (s.SharedEnabled i bp ↔ s.InsertedBeside bp)

/-- The operation keeps off what other breakpoints at the address rely on: a removed
breakpoint is not enabled, but where a live one is; `CanDisable` for one that is disabled;
and what is removed is the only live breakpoint at its address. Nothing is asked of
operations that throw. -/
def Apart (s : Debugger) : Operation → Prop
  | .enable i answer => ∀ bp ∈ s.objects[i]?, answer = .ok () →
      bp.removed = true → bp.state = .disabled → s.SharedEnabled i bp
  | .disable i answer => ∀ bp ∈ s.objects[i]?, answer = .ok () → s.CanDisable i bp
  | .remove i answer => ∀ bp ∈ s.objects[i]?, (bp.state = .enabled → answer = .ok ()) →
      s.CanDisable i bp ∧ ¬s.Shared i bp
  | _ => True

variable {s t : Debugger} {bp new : Breakpoint} {i : Nat} {P : Breakpoint → Prop}

theorem exists_mem_set (hi : s.objects[i]? = some bp) :
    (∃ x ∈ s.objects.set i new, P x) ↔ P new ∨ ∃ x ∈ s.objects.eraseIdx i, P x := by
  obtain ⟨hlt, -⟩ := List.getElem?_eq_some_iff.mp hi
  rw [List.set_eq_take_append_cons_drop, if_pos hlt, List.eraseIdx_eq_take_drop_succ]
  simp only [List.mem_append, List.mem_cons]
  grind

theorem exists_mem_objects (hi : s.objects[i]? = some bp) :
    (∃ x ∈ s.objects, P x) ↔ P bp ∨ ∃ x ∈ s.objects.eraseIdx i, P x := by
  obtain ⟨hlt, hbp⟩ := List.getElem?_eq_some_iff.mp hi
  rw [← exists_mem_set hi, ← hbp, List.set_getElem_self]

theorem tracked_setEnabled (hs : Tracked s) (hi : s.objects[i]? = some bp)
    (hstate : bp.state = .disabled) :
    Tracked (s.setEnabled i bp) ↔ (bp.removed = true → s.SharedEnabled i bp) := by
  have hknown := hs.known
  have hinserted := hs.inserted
  simp only [exists_mem_objects hi, hstate, reduceCtorEq, and_false, false_or] at hknown hinserted
  constructor
  · intro h hremoved
    have := h.inserted bp.site.address
    simpa [setEnabled, exists_mem_set hi, Live, hremoved, SharedEnabled] using this
  · intro h
    refine ⟨fun address => ?_, fun address => ?_⟩
    · rw [setEnabled, hknown, exists_mem_set hi]
      rfl
    · simp only [setEnabled, exists_mem_set hi, Finset.mem_insert, or_and_right, exists_or,
        exists_eq_left, hinserted, Live, and_true]
      constructor
      · rintro (rfl | hother)
        · cases hremoved : bp.removed with
          | false => exact .inl ⟨rfl, rfl⟩
          | true => exact .inr (h hremoved)
        · exact .inr hother
      · rintro (⟨hsame, -⟩ | hother)
        · exact .inl hsame
        · exact .inr hother

theorem exists_mem_erase :
    (∃ site ∈ s.inserted.erase bp.site, site.address = address) ↔
      if bp.site.address = address then s.InsertedBeside bp
      else ∃ site ∈ s.inserted, site.address = address := by
  simp only [Finset.mem_erase, InsertedBeside]
  grind

section
variable (hs : Tracked s) (hi : s.objects[i]? = some bp)
include hs hi

/-- The part of `Tracked` about the stub, when the object is given another state. -/
theorem inserted_disabled (hstate : bp.state = .enabled) (new : Breakpoint)
    (hnew : new.state = .disabled) :
    (∀ address, (∃ site ∈ s.inserted.erase bp.site, site.address = address) ↔
      ∃ bp ∈ s.objects.set i new, Live bp address ∧ bp.state = .enabled) ↔ s.CanDisable i bp := by
  simp only [exists_mem_set hi, hnew, reduceCtorEq, and_false, false_or, exists_mem_erase]
  constructor
  · intro h _
    have := h bp.site.address
    rw [if_pos rfl] at this
    exact this.symm
  · intro h address
    split
    · next haddr =>
      subst haddr
      exact (h hstate).symm
    · next haddr =>
      have := hs.inserted address
      simpa [exists_mem_objects hi, Live, haddr] using this

theorem tracked_setDisabled (hstate : bp.state = .enabled) :
    Tracked (s.setDisabled i bp) ↔ s.CanDisable i bp := by
  rw [← inserted_disabled hs hi hstate { bp with state := .disabled } rfl]
  constructor
  · exact fun h => h.inserted
  · intro h
    refine ⟨fun address => ?_, h⟩
    have := hs.known address
    rw [exists_mem_objects hi] at this
    rw [setDisabled, exists_mem_set hi]
    exact this

theorem known_removed (new : Breakpoint) (hnew : new.removed = true) :
    (∀ address, (update s.breakpoints bp.site.address none address).isSome ↔
      ∃ bp ∈ s.objects.set i new, Live bp address) ↔ ¬s.Shared i bp := by
  simp only [exists_mem_set hi, Live, hnew, reduceCtorEq, and_false, false_or]
  constructor
  · intro h
    have := h bp.site.address
    rw [update_self] at this
    exact fun hshared => Bool.false_ne_true (this.mpr hshared)
  · intro h address
    by_cases haddr : address = bp.site.address
    · subst haddr
      rw [update_self]
      exact iff_of_false Bool.false_ne_true h
    · have := hs.known address
      rw [exists_mem_objects hi] at this
      rw [update_of_ne haddr, this]
      simp [Live, Ne.symm haddr]

theorem tracked_removed (hstate : bp.state = .disabled) :
    Tracked (s.onBreakpointRemoved i bp) ↔ ¬s.Shared i bp := by
  rw [← known_removed hs hi { bp with state := .disabled, removed := true } rfl]
  constructor
  · exact fun h => h.known
  · intro h
    refine ⟨h, fun address => ?_⟩
    have := hs.inserted address
    rw [exists_mem_objects hi] at this
    rw [onBreakpointRemoved, this, exists_mem_set hi]
    simp [hstate]

theorem tracked_disabled_removed (hstate : bp.state = .enabled) :
    Tracked ((s.setDisabled i bp).onBreakpointRemoved i bp) ↔
      s.CanDisable i bp ∧ ¬s.Shared i bp := by
  let new : Breakpoint := { bp with state := .disabled, removed := true }
  rw [← known_removed hs hi new rfl, ← inserted_disabled hs hi hstate new rfl]
  have hobjects : ((s.setDisabled i bp).onBreakpointRemoved i bp).objects = s.objects.set i new := by
    simp [setDisabled, onBreakpointRemoved, set_set, new]
  constructor
  · intro h
    have hknown := h.known
    have hinserted := h.inserted
    rw [hobjects] at hknown hinserted
    exact ⟨hinserted, hknown⟩
  · rintro ⟨hinserted, hknown⟩
    refine ⟨?_, ?_⟩
    · rw [hobjects]
      exact hknown
    · rw [hobjects]
      exact hinserted

end

theorem tracked_addBreakpoint (hs : Tracked s) (ht : s.addBreakpoint site answer = .ok t) :
    Tracked t := by
  obtain ⟨_, -, ht⟩ := bind_eq_ok ht
  obtain ⟨u, hu, ht⟩ := bind_eq_ok ht
  cases ht
  cases answer with
  | error e => cases hu
  | ok _ =>
    cases hu
    constructor
    · intro address
      have := hs.known address
      by_cases haddr : address = site.address
      · simp [setEnabled, haddr, Live]
      · simp [setEnabled, haddr, Live, Ne.symm haddr] at this ⊢
        rw [this]
    · intro address
      have := hs.inserted address
      simp [setEnabled, Live, or_and_right, exists_or] at this ⊢
      grind

theorem tracked_step (hs : Tracked s) (ht : s.step op = some t) : Tracked t ↔ s.Apart op := by
  obtain ⟨result, hresult, rfl⟩ := map_eq_some_iff.mp ht
  cases op with
  | addBreakpoint site answer =>
    cases hresult
    refine iff_of_true ?_ trivial
    split
    · next heq => exact tracked_addBreakpoint hs heq
    · exact hs
  | enable i answer =>
    obtain ⟨bp, hi, rfl⟩ := map_eq_some_iff.mp hresult
    simp only [Apart, hi, mem_def, some.injEq, forall_eq']
    cases hstate : bp.state with
    | enabled => simp [enable, hstate, hs]
    | disabled =>
      cases answer with
      | error e => simp [enable, hstate, Except.map, hs]
      | ok _ => simpa [enable, hstate, Except.map] using tracked_setEnabled hs hi hstate
  | disable i answer =>
    obtain ⟨bp, hi, rfl⟩ := map_eq_some_iff.mp hresult
    simp only [Apart, hi, mem_def, some.injEq, forall_eq']
    cases hstate : bp.state with
    | disabled => simp [disable, hstate, hs, CanDisable]
    | enabled =>
      cases answer with
      | error e => simp [disable, hstate, Except.map, hs]
      | ok _ => simpa [disable, hstate, Except.map] using tracked_setDisabled hs hi hstate
  | remove i answer =>
    obtain ⟨bp, hi, rfl⟩ := map_eq_some_iff.mp hresult
    simp only [Apart, hi, mem_def, some.injEq, forall_eq']
    cases hstate : bp.state with
    | disabled => simpa [remove, hstate, CanDisable] using tracked_removed hs hi hstate
    | enabled =>
      cases answer with
      | error e => simp [remove, disable, hstate, Except.map, hs]
      | ok _ =>
        simpa [remove, disable, hstate, Except.map] using tracked_disabled_removed hs hi hstate
  | changeState state =>
    cases hresult
    exact iff_of_true ⟨hs.known, hs.inserted⟩ trivial

theorem tracked_initial : Tracked {} := by
  constructor <;> simp

/-- The books are right after every operation if and only if every operation keeps off
what the other breakpoints at its address rely on. -/
theorem tracked_iff_apart (ops : List Operation) :
    Machine.Always step Tracked {} ops ↔ Machine.EachStep step Apart {} ops :=
  Machine.always_iff_eachStep (I := fun _ => True)
    (fun _ _ _ _ hs ht => ⟨trivial, tracked_step hs ht⟩) trivial tracked_initial

/-- Two breakpoints at one address, the first of which is removed: there is no
breakpoint at the address any more, neither for the client nor in the stub. -/
theorem second_breakpoint_lost :
    let site : Site := ⟨.soft, 0x1000, 4⟩
    let ops := [.addBreakpoint site (.ok ()), .addBreakpoint site (.ok ()), .remove 0 (.ok ())]
    ∃ s, Machine.exec step {} ops = some s ∧
      s.objects[1]? = some { site, state := .enabled, removed := false } ∧
      s.breakpoints 0x1000 = none ∧ s.inserted = ∅ ∧
      ¬Machine.Always step Tracked {} ops := by
  refine ⟨_, rfl, rfl, rfl, rfl, fun h => ?_⟩
  have hlast := (h.exec rfl).known 0x1000
  exact absurd (hlast.mpr ⟨_, mem_cons_of_mem _ mem_cons_self, rfl, rfl⟩) (by decide)

end Debugger

end FridaCore.Gdb
