import FridaCore.Barebone.Interceptor

/-!
# Attaching and detaching listeners

`attach` and `detach` of `src/barebone/interceptor.vala`, as calls that may be
suspended while the stub adds or removes a breakpoint. Other calls run in the
meantime, so the entry a suspended call goes on with may have changed, or may no
longer be the entry of its address.

An entry is consistent with the calls made once none of them is suspended if
nobody joins an entry that is being removed, a breakpoint that cannot be added lets
down nobody but its own caller, a listener is not listed twice when it is detached,
and breakpoints can be removed (`Orderly`).
-/

namespace FridaCore.Barebone

structure Breakpoint where
  id : Nat
  address : UInt64
  deriving DecidableEq, Repr

abbrev EntryId := Nat

/-- A `BreakpointEntry` object. -/
structure EntryObject where
  listeners : List Listener := []
  hasCallListener : Bool := false
  breakpoint : Option Breakpoint := none
  deriving DecidableEq, Repr

inductive Suspended
  /-- `attach` awaits `add_breakpoint`. -/
  | add (listener : Listener) (address : UInt64) (entry : EntryId)
  /-- `detach` awaits `remove`, with the entries it has not been to yet. -/
  | remove (listener : Listener) (address : UInt64) (entry : EntryId) (breakpoint : Breakpoint)
      (rest : List (UInt64 × EntryId))
  /-- `detach` awaits `remove` on a breakpoint that is null, and is never resumed. -/
  | never (listener : Listener)
  deriving DecidableEq, Repr

def Suspended.toVisit (listener : Listener) : Suspended → List (UInt64 × EntryId)
  | .remove l _ _ _ rest => if l = listener then rest else []
  | _ => []

structure Attachments where
  arch : Arch
  breakpointEntries : List (UInt64 × EntryId) := []
  object : EntryId → EntryObject := fun _ => {}
  /-- How many entries have been made. -/
  entries : Nat := 0
  /-- The breakpoints that are enabled at an address. -/
  live : UInt64 → List Nat := fun _ => []
  /-- How many breakpoints have been added. -/
  breakpoints : Nat := 0
  suspended : List Suspended := []
  /-- Who has asked to be attached to an address: not those whose `attach` failed,
  nor those for whom `detach` has been called since. No method sees this. -/
  registered : UInt64 → List Listener := fun _ => []

namespace Attachments

def setObject (s : Attachments) (id : EntryId) (entry : EntryObject) : Attachments :=
  { s with object := Function.update s.object id entry }

/-- `breakpoint_entries.unset (address)` -/
def unset (s : Attachments) (address : UInt64) : Attachments :=
  { s with breakpointEntries := s.breakpointEntries.filter fun p => p.1 ≠ address }

def suspend (s : Attachments) (call : Suspended) : Attachments :=
  { s with suspended := s.suspended ++ [call] }

def entryFor (s : Attachments) (address : UInt64) : Attachments × EntryId :=
  match s.breakpointEntries.lookup address with
  | some id => (s, id)
  | none =>
    ({ s.setObject s.entries {} with
        breakpointEntries := s.breakpointEntries ++ [(address, s.entries)]
        entries := s.entries + 1 }, s.entries)

/-- `attach`, up to where it is suspended. -/
def attach (s : Attachments) (target : UInt64) (listener : Listener) : Attachments :=
  let address := s.arch.addressFromFuncptr target
  let (s, id) := s.entryFor address
  let entry := s.object id
  let entry := { entry with
    listeners := entry.listeners ++ [listener]
    hasCallListener := entry.hasCallListener || listener.kind = .call }
  let s := { s.setObject id entry with
    registered := Function.update s.registered address (s.registered address ++ [listener]) }
  if entry.listeners.length = 1 then s.suspend (.add listener address id) else s

/-- `attach`, once the stub has added the breakpoint or failed to. -/
def finishAttach (s : Attachments) (listener : Listener) (address : UInt64) (id : EntryId)
    (added : Bool) : Attachments :=
  if added then
    { s.setObject id { s.object id with breakpoint := some ⟨s.breakpoints, address⟩ } with
      live := Function.update s.live address (s.live address ++ [s.breakpoints])
      breakpoints := s.breakpoints + 1 }
  else
    { s.unset address with
      registered := Function.update s.registered address ((s.registered address).erase listener) }

/-- The loop of `detach`, up to where it is suspended. -/
def detachFrom (listener : Listener) : List (UInt64 × EntryId) → Attachments → Attachments
  | [], s => s
  | (address, id) :: rest, s =>
    let entry := s.object id
    if listener ∈ entry.listeners then
      let listeners := entry.listeners.erase listener
      if listeners = [] then
        let s := s.setObject id { entry with listeners }
        match entry.breakpoint with
        | none => s.suspend (.never listener)
        | some bp =>
          if bp.id ∈ s.live bp.address then s.suspend (.remove listener address id bp rest)
          -- a breakpoint that is not enabled is removed at once
          else detachFrom listener rest (s.unset address)
      else
        detachFrom listener rest <| s.setObject id { entry with
          listeners
          hasCallListener := listeners.any fun l => l.kind = .call }
    else detachFrom listener rest s

/-- `detach` goes through the entries there are when it is called. -/
def detach (s : Attachments) (listener : Listener) (snapshot : List (UInt64 × EntryId)) :
    Attachments :=
  detachFrom listener snapshot
    { s with registered := fun address => (s.registered address).filter fun l => l ≠ listener }

/-- `detach`, once the stub has removed the breakpoint. -/
def finishRemove (s : Attachments) (listener : Listener) (address : UInt64) (bp : Breakpoint)
    (rest : List (UInt64 × EntryId)) : Attachments :=
  detachFrom listener rest <| unset { s with
    live := Function.update s.live bp.address ((s.live bp.address).filter fun id => id ≠ bp.id) }
    address

inductive AttachEvent
  | attach (listener : Listener) (target : UInt64)
  /-- The suspended call at that position hears back from the stub. -/
  | added (i : Nat) (ok : Bool)
  /-- A hash map has its entries in any order. -/
  | detach (listener : Listener) (snapshot : List (UInt64 × EntryId))
  | removed (i : Nat) (ok : Bool)
  deriving DecidableEq, Repr

def step (s : Attachments) : AttachEvent → Option Attachments
  | .attach listener target => some (s.attach target listener)
  | .added i ok =>
    match s.suspended[i]? with
    | some (.add listener address id) =>
      some (finishAttach { s with suspended := s.suspended.eraseIdx i } listener address id ok)
    | _ => none
  | .detach listener snapshot =>
    if snapshot.Perm s.breakpointEntries then some (s.detach listener snapshot) else none
  | .removed i ok =>
    match s.suspended[i]? with
    | some (.remove listener address _ bp rest) =>
      let s := { s with suspended := s.suspended.eraseIdx i }
      -- `detach` throws if the breakpoint cannot be removed
      some (if ok then s.finishRemove listener address bp rest else s)
    | _ => none

/-- With no call suspended, an address has an entry if and only if listeners are
registered there; the entry lists exactly those, and its breakpoint is the one that
is live at the address. -/
def Consistent (s : Attachments) : Prop :=
  s.suspended = [] → ∀ address,
    ((s.breakpointEntries.lookup address).isSome ↔ s.registered address ≠ []) ∧
      ∀ id, s.breakpointEntries.lookup address = some id →
        (s.object id).listeners = s.registered address ∧
          ∃ bp, (s.object id).breakpoint = some bp ∧ bp.address = address ∧
            s.live address = [bp.id]

def toVisit (s : Attachments) (listener : Listener) : List (UInt64 × EntryId) :=
  s.suspended.flatMap (Suspended.toVisit listener)

/-- Nobody but the caller is listed in the entry that a breakpoint is added for. -/
def alone (s : Attachments) : Suspended → Bool
  | .add listener _ id => (s.object id).listeners.erase listener = []
  | _ => true

/-- A listener does not join an entry that is being removed, or that a `detach` called
before is going to remove it from. A breakpoint that cannot be added has been asked
for by the only listener of its entry. A listener that is detached is listed no more
than once at an address. A breakpoint can be removed. -/
def Orderly (s : Attachments) : AttachEvent → Prop
  | .attach listener target =>
    ∀ id ∈ s.breakpointEntries.lookup (s.arch.addressFromFuncptr target),
      (s.object id).listeners ≠ [] ∧
        (s.arch.addressFromFuncptr target, id) ∉ s.toVisit listener
  | .added i ok => ok = true ∨ ∀ call ∈ s.suspended[i]?, s.alone call
  | .detach listener _ =>
    ∀ p ∈ s.breakpointEntries, (s.object p.2).listeners.count listener ≤ 1
  | .removed _ ok => ok = true

instance (s : Attachments) : (e : AttachEvent) → Decidable (s.Orderly e)
  | .attach _ _ => inferInstanceAs (Decidable (∀ id ∈ s.breakpointEntries.lookup _, _ ∧ _))
  | .added i ok => inferInstanceAs (Decidable (ok = true ∨ ∀ call ∈ s.suspended[i]?, _))
  | .detach .. => inferInstanceAs (Decidable (∀ p ∈ s.breakpointEntries, _ ≤ 1))
  | .removed _ ok => inferInstanceAs (Decidable (ok = true))

end Attachments

end FridaCore.Barebone
