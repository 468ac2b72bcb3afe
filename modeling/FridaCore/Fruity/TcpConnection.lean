import FridaCore.Support.Machine

/-!
# Reading from a virtual TCP connection

The receiving side of `TcpConnection` in `network-stack.vala`. lwIP calls back on a thread of
its own, as long as there is a `pcb`, and part of what follows is left to the main loop.
-/

namespace FridaCore.Fruity

open List

inductive StreamState
  | opening
  | «open»
  | closed
  deriving DecidableEq

/-- What the main loop is asked to do when a connection has been established, or has failed. -/
inductive Deferred
  | connected
  | failed
  deriving DecidableEq

/-- `readable` is the condition `IN` of `pending_io`. `undecided` counts the reads that have found
no bytes and will look at the state next, and `stalled` says that one of them has been told to
try again though the connection had ended. -/
structure TcpConnection where
  state : StreamState := .opening
  pcb : Bool := true
  rxBuf : List UInt8 := []
  readable : Bool := false
  established : Bool := false
  deferred : List Deferred := []
  undecided : Nat := 0
  received : List UInt8 := []
  returned : List UInt8 := []
  stalled : Bool := false
  deriving DecidableEq

namespace TcpConnection

inductive Event
  | onConnect
  | onRecv (chunk : Option (List UInt8))
  | onError
  | mainLoop
  | read (size : Nat)
  | decide
  deriving DecidableEq

def updatePendingIo (s : TcpConnection) : TcpConnection :=
  { s with readable := s.rxBuf ≠ [] ∨ s.state = .closed }

def onConnect (s : TcpConnection) : TcpConnection :=
  { s.updatePendingIo with deferred := s.deferred ++ [.connected] }

def close (s : TcpConnection) : TcpConnection :=
  updatePendingIo { s with pcb := false, state := .closed }

/-- No chunk is the end of what the peer sends. -/
def onRecv (s : TcpConnection) : Option (List UInt8) → TcpConnection
  | none => s.close
  | some chunk =>
    updatePendingIo { s with rxBuf := s.rxBuf ++ chunk, received := s.received ++ chunk }

def onError (s : TcpConnection) : TcpConnection :=
  { s.close with deferred := s.deferred ++ [.failed] }

/-- This is done without the lock, and without a look at the state. -/
def run (s : TcpConnection) : Deferred → TcpConnection
  | .connected => { s with state := .open, established := true }
  | .failed => s

/-- The part of `read` that is run on the thread of lwIP. -/
def read (s : TcpConnection) (size : Nat) : TcpConnection :=
  let n := min size s.rxBuf.length
  if n = 0 then { s with undecided := s.undecided + 1 }
  else updatePendingIo
    { s with rxBuf := s.rxBuf.drop n, returned := s.returned ++ s.rxBuf.take n }

/-- End of stream if the connection is closed, and otherwise the error `WOULD_BLOCK`. -/
def decide (s : TcpConnection) : TcpConnection :=
  { s with undecided := s.undecided - 1, stalled := s.stalled ∨ s.pcb = false ∧ s.state ≠ .closed }

def step (s : TcpConnection) : Event → Option TcpConnection
  | .onConnect => if s.pcb then some s.onConnect else none
  | .onRecv chunk => if s.pcb then some (s.onRecv chunk) else none
  | .onError => if s.pcb then some s.onError else none
  | .mainLoop => match s.deferred with
    | [] => none
    | d :: rest => some (run { s with deferred := rest } d)
  | .read size => some (s.read size)
  | .decide => if 0 < s.undecided then some s.decide else none

structure Delivers (s : TcpConnection) : Prop where
  inOrder : s.returned ++ s.rxBuf = s.received
  closed : s.pcb = false → s.state = .closed
  readable : s.pcb = false → s.readable = true
  told : s.stalled = false

/-- The main loop learns of the connection before it ends. -/
def Timely (s : TcpConnection) (e : Event) : Prop :=
  e = .mainLoop → s.deferred.head? = some .connected → s.pcb = true

instance (s : TcpConnection) (e : Event) : Decidable (Timely s e) :=
  inferInstanceAs (Decidable (_ → _))

theorem step_delivers_iff (hs : Delivers s) (ht : step s e = some t) :
    Delivers t ↔ Timely s e := by
  obtain ⟨hall, hclosed, hreadable, htold⟩ := hs
  -- Whatever is not a step of the main loop is in time.
  have other (hne : e ≠ .mainLoop) (h : Delivers t) : Delivers t ↔ Timely s e :=
    ⟨fun _ he => absurd he hne, fun _ => h⟩
  cases e with
  | onConnect =>
    obtain ⟨hpcb, ⟨⟩⟩ := Option.ite_none_right_eq_some.mp ht
    exact other (by simp) ⟨hall, hclosed, by simp [onConnect, updatePendingIo, hpcb], htold⟩
  | onRecv chunk =>
    obtain ⟨hpcb, ⟨⟩⟩ := Option.ite_none_right_eq_some.mp ht
    refine other (by simp) ?_
    cases chunk with
    | none => exact ⟨hall, fun _ => rfl, by simp [onRecv, close, updatePendingIo], htold⟩
    | some chunk =>
      exact ⟨by simp [onRecv, updatePendingIo, ← hall], hclosed,
        by simp [onRecv, updatePendingIo, hpcb], htold⟩
  | onError =>
    obtain ⟨-, ⟨⟩⟩ := Option.ite_none_right_eq_some.mp ht
    exact other (by simp) ⟨hall, fun _ => rfl, by simp [onError, close, updatePendingIo], htold⟩
  | mainLoop =>
    cases hd : s.deferred with
    | nil => simp [step, hd] at ht
    | cons d rest =>
      obtain rfl : run { s with deferred := rest } d = t := by simpa [step, hd] using ht
      cases d with
      | failed => exact ⟨fun _ => by simp [Timely, hd], fun _ => ⟨hall, hclosed, hreadable, htold⟩⟩
      | connected =>
        refine ⟨fun h _ _ => ?_, fun h => ?_⟩
        · by_contra hpcb
          cases h.closed (by simpa [run] using hpcb)
        · have hpcb : s.pcb = true := h rfl (by rw [hd]; rfl)
          exact ⟨hall, by simp [run, hpcb], hreadable, htold⟩
  | read size =>
    cases ht
    refine other (by simp) ?_
    dsimp only [read]
    split
    · exact ⟨hall, hclosed, hreadable, htold⟩
    · refine ⟨?_, hclosed, fun hpcb => ?_, htold⟩
      · simp [updatePendingIo, append_assoc, hall]
      · simp [updatePendingIo, hclosed hpcb]
  | decide =>
    obtain ⟨-, ⟨⟩⟩ := Option.ite_none_right_eq_some.mp ht
    refine other (by simp) ⟨hall, hclosed, hreadable, ?_⟩
    simpa [TcpConnection.decide, htold] using hclosed

end FridaCore.Fruity.TcpConnection
