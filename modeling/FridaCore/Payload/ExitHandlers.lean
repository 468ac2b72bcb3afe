import FridaCore.Support.Machine

/-!
# Exit handlers of the payload

`__cxa_atexit` and `frida_run_atexit_handlers` of `libc-shim.c`. A call makes room in the array
while it holds the lock and fills its entry after that, in two stores.
-/

namespace FridaCore.Payload

open List Machine Option

/-- A function and its argument, by their addresses. -/
structure Handler where
  func : Nat
  userData : Nat
  deriving DecidableEq

/-- The entry in the array, as far as it has been written. -/
structure ExitEntry where
  func : Option Nat := none
  userData : Option Nat := none
  deriving DecidableEq

def Handler.entry (h : Handler) : ExitEntry := ⟨some h.func, some h.userData⟩

/-- A call of `__cxa_atexit`, with the number of stores it has made. It is `stale` if the array
has been moved since it took the address of its entry. -/
structure ExitCall where
  handler : Handler
  stored : Nat := 0
  stale : Bool := false
  deriving DecidableEq

def ExitCall.store (c : ExitCall) (entry : ExitEntry) : ExitEntry :=
  if c.stale then entry
  else if c.stored = 0 then { entry with func := some c.handler.func }
  else { entry with userData := some c.handler.userData }

/-- What a call has stored. -/
def ExitCall.entry (c : ExitCall) : ExitEntry where
  func := if 0 < c.stored then some c.handler.func else none
  userData := if 1 < c.stored then some c.handler.userData else none

/-- `calls` are the calls in the order of their entries. `next` is the variable of the loop that
runs the handlers, plus one. For comparison there is a stack of handlers: `expected` are those
taken from its top each time an entry is invoked. -/
structure ExitHandlers where
  entries : List ExitEntry := []
  calls : List ExitCall := []
  next : Option Nat := none
  invoked : List ExitEntry := []
  finished : Bool := false
  stack : List Handler := []
  expected : List Handler := []
  deriving DecidableEq

namespace ExitHandlers

inductive Event
  | allocate (handler : Handler) (moves : Bool)
  | store (k : Nat)
  | start
  | invoke
  | finish
  deriving DecidableEq

def step (s : ExitHandlers) : Event → Option ExitHandlers
  | .allocate handler moves => if s.finished then none else some { s with
      entries := s.entries ++ [{}]
      calls := s.calls.map (fun c => { c with stale := c.stale ∨ moves }) ++ [{ handler }]
      stack := handler :: s.stack }
  | .store k => match s.calls[k]? with
    | none => none
    | some c => if c.stored < 2 then some { s with
          entries := s.entries.modify k c.store
          calls := s.calls.set k { c with stored := c.stored + 1 } }
        else none
  -- The calls of other threads have returned.
  | .start => if s.next = none ∧ ∀ c ∈ s.calls, c.stored = 2 then
      some { s with next := some s.entries.length } else none
  | .invoke => match s.next with
    | some (i + 1) => some { s with
        next := some i
        invoked := s.invoked ++ s.entries[i]?.toList
        stack := s.stack.tail
        expected := s.expected ++ s.stack.head?.toList }
    | _ => none
  | .finish => if s.next = some 0 ∧ ¬ s.finished then
      some { s with entries := [], finished := true } else none

/-- Each handler is invoked with its own argument when it is on top of the stack, and none is
left in the end. -/
structure Runs (s : ExitHandlers) : Prop where
  invoked : s.invoked = s.expected.map Handler.entry
  all : s.finished = true → s.stack = []

/-- No handler is registered during the run, and the array is not moved while another call has
still to store. -/
def Apart (s : ExitHandlers) : Event → Prop
  | .allocate _ moves => s.next = none ∧ (moves = true → ∀ c ∈ s.calls, c.stored = 2)
  | _ => True

instance (s : ExitHandlers) (e : Event) : Decidable (Apart s e) := by
  cases e <;> unfold Apart <;> infer_instance

structure Inv (s : ExitHandlers) : Prop where
  runs : Runs s
  entries : s.finished = false → s.entries = s.calls.map ExitCall.entry
  current : ∀ c ∈ s.calls, c.stored < 2 → c.stale = false
  filled : ∀ i, s.next = some i → i ≤ s.calls.length ∧ ∀ c ∈ s.calls, c.stored = 2
  stack : s.stack.reverse = (s.calls.map ExitCall.handler).take (s.next.getD s.calls.length)
  running : s.finished = true → s.next = some 0

theorem Inv.not_finished (hi : Inv s) (h : s.next ≠ some 0) : s.finished = false :=
  Bool.eq_false_of_not_eq_true fun hfinished => h (hi.running hfinished)

theorem ExitCall.store_entry {c : ExitCall} (hcurrent : c.stale = false) (h : c.stored < 2) :
    c.store c.entry = ExitCall.entry { c with stored := c.stored + 1 } := by
  obtain hzero | hone : c.stored = 0 ∨ c.stored = 1 := by omega
  · simp [ExitCall.store, ExitCall.entry, hcurrent, hzero]
  · simp [ExitCall.store, ExitCall.entry, hcurrent, hone]

theorem ExitCall.entry_of_stored {c : ExitCall} (h : c.stored = 2) : c.entry = c.handler.entry := by
  simp [ExitCall.entry, Handler.entry, h]

theorem Inv.allocate (hi : Inv s) (hok : Apart s (.allocate handler moves))
    (ht : step s (.allocate handler moves) = some t) : Inv t := by
  obtain ⟨hnext, hmoves⟩ := hok
  obtain ⟨hfinished, ⟨⟩⟩ := ite_none_left_eq_some.mp ht
  have hrunning := Bool.eq_false_of_not_eq_true hfinished
  refine ⟨⟨hi.runs.invoked, by simp [hrunning]⟩, fun _ => ?_, fun c hc hstored => ?_,
    by simp [hnext], ?_, by simp [hrunning]⟩
  · simp [hi.entries hrunning, ExitCall.entry]
  · rcases mem_append.mp hc with hc | hc
    · obtain ⟨old, hold, rfl⟩ := mem_map.mp hc
      have hstay : moves = false := by
        by_contra hmove
        exact hstored.ne (hmoves (by simpa using hmove) old hold)
      simp [hi.current old hold hstored, hstay]
    · rw [mem_singleton.mp hc]
  · simp [hi.stack, hnext, Function.comp_def, take_of_length_le]

theorem Inv.store (hi : Inv s) (ht : step s (.store k) = some t) : Inv t := by
  cases hc : s.calls[k]? with
  | none => simp [step, hc] at ht
  | some c =>
    simp only [step, hc] at ht
    obtain ⟨hstored, ⟨⟩⟩ := ite_none_right_eq_some.mp ht
    have hmem := mem_of_getElem? hc
    obtain ⟨hk, hget⟩ := List.getElem?_eq_some_iff.mp hc
    have hnext : s.next = none := by
      by_contra hsome
      obtain ⟨i, hnext⟩ := ne_none_iff_exists'.mp hsome
      exact hstored.ne ((hi.filled i hnext).2 c hmem)
    have hrunning := hi.not_finished (by simp [hnext])
    refine ⟨⟨hi.runs.invoked, by simp [hrunning]⟩, fun _ => ?_, fun d hd hlt => ?_,
      by simp [hnext], ?_, by simp [hrunning]⟩
    · refine ext_getElem? fun n => ?_
      rw [hi.entries hrunning, getElem?_modify, getElem?_map, getElem?_map, getElem?_set]
      by_cases hn : k = n
      · subst hn
        simp [hk, hget, ExitCall.store_entry (hi.current c hmem hstored) hstored]
      · simp [hn]
    · rcases mem_or_eq_of_mem_set hd with hd | rfl
      · exact hi.current d hd hlt
      · exact hi.current c hmem hstored
    · have hsame : (s.calls.set k { c with stored := c.stored + 1 }).map ExitCall.handler =
          s.calls.map ExitCall.handler := by
        have hself := set_getElem_self (by simpa : k < (s.calls.map ExitCall.handler).length)
        simpa [map_set, hget] using hself
      simpa [hsame] using hi.stack

theorem Inv.invoke (hi : Inv s) (ht : step s .invoke = some t) : Inv t := by
  cases hnext : s.next with
  | none => simp [step, hnext] at ht
  | some n =>
    cases n with
    | zero => simp [step, hnext] at ht
    | succ i =>
      have hrunning := hi.not_finished (by simp [hnext])
      obtain ⟨hle, hfilled⟩ := hi.filled _ hnext
      obtain ⟨c, hc⟩ : ∃ c, s.calls[i]? = some c := ⟨_, getElem?_eq_getElem hle⟩
      have hentry : s.entries[i]? = some c.handler.entry := by
        simp [hi.entries hrunning, hc, ExitCall.entry_of_stored (hfilled c (mem_of_getElem? hc))]
      obtain ⟨rest, hstack, hrest⟩ : ∃ rest, s.stack = c.handler :: rest ∧
          rest.reverse = (s.calls.map ExitCall.handler).take i := by
        refine ⟨((s.calls.map ExitCall.handler).take i).reverse, ?_, reverse_reverse _⟩
        rw [← reverse_inj, hi.stack, hnext]
        simp [take_add_one, hc]
      simp only [step, hnext, some.injEq] at ht
      subst ht
      refine ⟨⟨?_, by simp [hrunning]⟩, hi.entries, hi.current, ?_, ?_, by simp [hrunning]⟩
      · simp [hi.runs.invoked, hentry, hstack]
      · rintro j ⟨⟩
        exact ⟨Nat.le_of_lt hle, hfilled⟩
      · simp [hstack, hrest]

theorem step_inv (hi : Inv s) (hok : Apart s e) (ht : step s e = some t) : Inv t := by
  cases e with
  | allocate handler moves => exact hi.allocate hok ht
  | store k => exact hi.store ht
  | start =>
    obtain ⟨⟨hnext, hstored⟩, ⟨⟩⟩ := ite_none_right_eq_some.mp ht
    have hrunning := hi.not_finished (by simp [hnext])
    have hlen : s.entries.length = s.calls.length := by simp [hi.entries hrunning]
    refine ⟨⟨hi.runs.invoked, hi.runs.all⟩, hi.entries, hi.current, ?_, ?_, by simp [hrunning]⟩
    · rintro i ⟨⟩
      exact ⟨hlen.le, hstored⟩
    · simpa [hlen, hnext] using hi.stack
  | invoke => exact hi.invoke ht
  | finish =>
    obtain ⟨⟨hnext, -⟩, ⟨⟩⟩ := ite_none_right_eq_some.mp ht
    refine ⟨⟨hi.runs.invoked, fun _ => ?_⟩, by simp, hi.current, hi.filled, hi.stack,
      fun _ => hnext⟩
    simpa [hnext] using hi.stack

theorem runs_of_apart (es : List Event) (h : Machine.EachStep step Apart {} es) :
    Machine.Always step Runs {} es :=
  (always_of_eachStep (I := Inv) (fun _ _ _ => step_inv)
    ⟨⟨rfl, by simp⟩, fun _ => rfl, by simp, by simp, rfl, by simp⟩ h).mono fun _ => Inv.runs

/-- A handler is registered while another call has stored nothing, and the array moves. -/
def concurrentCalls : List Event :=
  [.allocate ⟨1, 10⟩ false, .allocate ⟨2, 20⟩ true, .store 0, .store 0, .store 1, .store 1, .start,
    .invoke, .invoke]

/-- The first handler registers another one. -/
def nestedCall : List Event :=
  [.allocate ⟨1, 10⟩ false, .store 0, .store 0, .start, .invoke, .allocate ⟨2, 20⟩ false, .store 1,
    .store 1, .finish]

theorem handlers_lost :
    (∃ t, exec step {} concurrentCalls = some t ∧ t.invoked[1]? = some ⟨none, none⟩) ∧
      ∃ t, exec step {} nestedCall = some t ∧ t.invoked = [⟨some 1, some 10⟩] ∧
        t.stack = [⟨2, 20⟩] :=
  ⟨⟨_, rfl, rfl⟩, _, rfl, rfl, rfl⟩

def twoCalls : List Event :=
  [.allocate ⟨1, 10⟩ false, .allocate ⟨2, 20⟩ false, .store 1, .store 0, .store 0, .store 1, .start,
    .invoke, .invoke, .finish]

theorem runs_of_apart_two : Machine.EachStep step Apart {} twoCalls ∧
    Machine.Always step Runs {} twoCalls :=
  ⟨by decide, runs_of_apart twoCalls (by decide)⟩

end FridaCore.Payload.ExitHandlers
