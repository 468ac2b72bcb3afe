import FridaCore.Support.Machine

/-!
# The barebone interceptor

`Interceptor` of `src/barebone/interceptor.vala`: breakpoints on the functions
listeners are attached to, and on the addresses their calls return to. The
target is stopped while a hit is handled, so handling one is a single step; a
register read or write that fails ends the handling and with it the run.

What the threads of the target do is in `World`: every thread has a stack of
instrumented calls, and hits breakpoints when it makes such a call or returns
from one. No method of the interceptor sees these stacks.
-/

namespace FridaCore.Barebone

inductive Arch
  | arm
  | arm64
  | x86
  | x64
  | unknown
  deriving DecidableEq, Repr

/-- `Machine.address_from_funcptr`: on ARM the Thumb bit is not part of the address. -/
def Arch.addressFromFuncptr : Arch → UInt64 → UInt64
  | .arm, ptr => ptr &&& ~~~1
  | _, ptr => ptr

inductive ListenerKind
  | call
  | probe
  deriving DecidableEq, Repr

structure Listener where
  id : Nat
  kind : ListenerKind
  deriving DecidableEq, Repr

structure BreakpointEntry where
  listeners : List Listener
  deriving DecidableEq, Repr

/-- `has_call_listener`, which `attach` and `detach` keep up to date. -/
def BreakpointEntry.hasCallListener (entry : BreakpointEntry) : Bool :=
  entry.listeners.any fun l => l.kind = .call

/-- A `BreakpointInvocationContext`, told apart by its number. -/
structure InvocationContext where
  id : Nat
  threadId : String
  depth : Nat
  deriving DecidableEq, Repr

/-- `CallStack.Item` -/
structure Item where
  entry : BreakpointEntry
  ic : InvocationContext
  deriving DecidableEq, Repr

inductive Notification
  | onEnter (listener : Listener) (ic : InvocationContext)
  | onLeave (listener : Listener) (ic : InvocationContext)
  deriving DecidableEq, Repr

/-- What the handlers learn from the target: the return address in the call
frame, first when an invocation and then when a return is handled, and whether
the stub accepts a further breakpoint. -/
structure Probe where
  returnTarget : UInt64
  canAdd : Bool := true
  returnTargetOnLeave : UInt64 := returnTarget
  deriving DecidableEq, Repr

structure Interceptor where
  arch : Arch
  breakpointEntries : List (UInt64 × BreakpointEntry)
  /-- The `items` of each thread's call stack, the next one to be polled first. -/
  callStacks : String → List Item := fun _ => []
  /-- A multimap holds every pair of a return address and a call stack once. -/
  pendingReturns : Finset (UInt64 × String) := ∅
  /-- The addresses with an enabled breakpoint. -/
  breakpoints : Finset UInt64
  /-- How many contexts there have been. -/
  contexts : Nat := 0

namespace Interceptor

/-- `pending_returns.contains (return_address)` -/
def awaits (s : Interceptor) (returnAddress : UInt64) : Prop :=
  ∃ p ∈ s.pendingReturns, p.1 = returnAddress

instance (s : Interceptor) (a : UInt64) : Decidable (s.awaits a) :=
  inferInstanceAs (Decidable (∃ p ∈ s.pendingReturns, p.1 = a))

def traps (s : Interceptor) (entry : BreakpointEntry) (probe : Probe) : Bool :=
  entry.hasCallListener &&
    (s.awaits (s.arch.addressFromFuncptr probe.returnTarget) || probe.canAdd)

def nextContext (s : Interceptor) (tid : String) : InvocationContext :=
  ⟨s.contexts, tid, (s.callStacks tid).length⟩

def handleInvocation (s : Interceptor) (entry : BreakpointEntry) (tid : String) (probe : Probe) :
    Interceptor × List Notification :=
  let ic := s.nextContext tid
  let entered := entry.listeners.map fun l => .onEnter l ic
  let returnAddress := s.arch.addressFromFuncptr probe.returnTarget
  let s' := { s with contexts := s.contexts + 1 }
  if s.traps entry probe then
    -- only the first to wait for a return address puts a breakpoint on it
    ({ s' with
        breakpoints :=
          if s.awaits returnAddress then s.breakpoints else insert returnAddress s.breakpoints
        callStacks := Function.update s.callStacks tid (s.callStacks tid ++ [⟨entry, ic⟩])
        pendingReturns := insert (returnAddress, tid) s.pendingReturns }, entered)
  else (s', entered)

/-- The breakpoint hit, at `address`, is the one to remove when nobody waits for
the return address any more. -/
def handleReturn (s : Interceptor) (address : UInt64) (tid : String) (probe : Probe) :
    Interceptor × List Notification :=
  let returnAddress := s.arch.addressFromFuncptr probe.returnTargetOnLeave
  let left := match s.callStacks tid with
    | [] => []
    | item :: _ =>
      (item.entry.listeners.filter fun l => l.kind = .call).map fun l => .onLeave l item.ic
  let s' := { s with
    callStacks := Function.update s.callStacks tid (s.callStacks tid).tail
    pendingReturns := s.pendingReturns.erase (returnAddress, tid) }
  if s'.awaits returnAddress then (s', left)
  else ({ s' with breakpoints := s.breakpoints.erase address }, left)

def handleBreakpointHit (s : Interceptor) (address : UInt64) (tid : String) (probe : Probe) :
    Interceptor × List Notification :=
  let (s', entered) := match s.breakpointEntries.lookup address with
    | some entry => s.handleInvocation entry tid probe
    | none => (s, [])
  if (address, tid) ∈ s'.pendingReturns then
    let (s'', left) := s'.handleReturn address tid probe
    (s'', entered ++ left)
  else (s', entered)

end Interceptor

structure OpenCall where
  item : Item
  returnAddress : UInt64
  trapped : Bool
  deriving DecidableEq, Repr

/-- A breakpoint hit with what the listeners were told, and the context of the
call that is returning to the address hit, if one is. -/
structure Stop where
  notifications : List Notification
  returning : Option InvocationContext
  deriving DecidableEq, Repr

structure World where
  interceptor : Interceptor
  /-- The open calls of each thread, the innermost one first. -/
  calls : String → List OpenCall := fun _ => []
  history : List Stop := []

inductive ThreadEvent
  | call (tid : String) (address : UInt64) (probe : Probe)
  | ret (tid : String) (probe : Probe)
  deriving DecidableEq, Repr

namespace World

def initial (arch : Arch) (entries : List (UInt64 × BreakpointEntry)) : World :=
  { interceptor :=
      { arch, breakpointEntries := entries, breakpoints := (entries.map Prod.fst).toFinset } }

def openCall (s : Interceptor) (entry : BreakpointEntry) (tid : String) (probe : Probe) :
    OpenCall :=
  ⟨⟨entry, s.nextContext tid⟩, s.arch.addressFromFuncptr probe.returnTarget, s.traps entry probe⟩

/-- The threads' instrumented calls are properly nested: a thread calls a
function with a breakpoint on it, or returns from its innermost such call. -/
def step (w : World) : ThreadEvent → Option World
  | .call tid address probe =>
    match w.interceptor.breakpointEntries.lookup address with
    | some entry =>
      if address ∈ w.interceptor.breakpoints then
        let (s, notifications) := w.interceptor.handleBreakpointHit address tid probe
        let call := openCall w.interceptor entry tid probe
        some
          { interceptor := s
            calls := Function.update w.calls tid (call :: w.calls tid)
            history := w.history ++ [⟨notifications, none⟩] }
      else none
    | none => none
  | .ret tid probe =>
    match w.calls tid with
    | [] => none
    | call :: outer =>
      if call.returnAddress ∈ w.interceptor.breakpoints then
        let (s, notifications) :=
          w.interceptor.handleBreakpointHit call.returnAddress tid probe
        -- an address that is returned to may have listeners of its own
        let calls := match w.interceptor.breakpointEntries.lookup call.returnAddress with
          | some entry => openCall w.interceptor entry tid probe :: outer
          | none => outer
        some
          { interceptor := s
            calls := Function.update w.calls tid calls
            history := w.history ++ [⟨notifications, some call.item.ic⟩] }
      else some { w with calls := Function.update w.calls tid outer }

end World

end FridaCore.Barebone
