import FridaCore.Session.Serials

/-!
# A transmitter and its peer

The transmitter with a `Session`-like receiver at the other end. The transport
delivers calls in the order they were made, and may lose a call or the reply to
it; either way the transmitter sees the call fail at some later point. The peer
processes a batch in order and then takes its identifier as its watermark, which
is what it passes to `resume`.

The protocol is meant to deliver every message once and in order, and does not:
a watermark outlives the serials it refers to, a call that was processed is made
again when its reply is lost, and a lost call can be overtaken. `Reliable` rules
these out step by step.
-/

namespace FridaCore.Session

structure Link where
  tx : Transmitter
  /-- `last_rx_batch_id` of the peer. -/
  lastRxBatchId : Nat := 0
  processed : List PendingMessage := []
  /-- Serials have started over since the peer last took a watermark. -/
  restarted : Bool := false

inductive LinkEvent
  | postMessageFromScript (scriptId : UInt32) (json : String) (data : Option ByteArray)
  | postMessageFromDebugger (scriptId : UInt32) (message : String)
  | deliver (i : Nat)
  | lose (i : Nat)
  | batchSucceeded (i : Nat)
  | batchFailed (i : Nat)
  | interrupt
  | resume
  | idle

namespace Link

def initial (persistTimeout : Nat) : Link := { tx := { persistTimeout, messageSink := true } }

def setCall (l : Link) (i : Nat) (d : Delivery) (call : Call) : Link :=
  { l with tx := { l.tx with inFlight := l.tx.inFlight.set i { d with call } } }

/-- `Session.post_messages` -/
def postMessages (l : Link) (messages : List PendingMessage) (batchId : Nat) : Link :=
  { l with processed := l.processed ++ messages, lastRxBatchId := batchId, restarted := false }

def step (l : Link) : LinkEvent → Option Link
  | .postMessageFromScript scriptId json data =>
    some { l with tx := l.tx.postMessageFromScript scriptId json data }
  | .postMessageFromDebugger scriptId message =>
    some { l with tx := l.tx.postMessageFromDebugger scriptId message }
  | .deliver i =>
    match l.tx.inFlight[i]? with
    | some d =>
      -- calls arrive in the order they were made
      if d.call = .inTransit ∧ ∀ d' ∈ l.tx.inFlight.take i, d'.call ≠ .inTransit then
        some ((l.setCall i d .processed).postMessages d.messages d.batchId)
      else none
    | none => none
  | .lose i =>
    match l.tx.inFlight[i]? with
    | some d => if d.call = .inTransit then some (l.setCall i d .lost) else none
    | none => none
  | .batchSucceeded i =>
    match l.tx.inFlight[i]? with
    | some d =>
      if d.call = .processed then
        some { l with
          tx := l.tx.batchSucceeded i d
          restarted := l.restarted || l.tx.pendingDeliveries - 1 = 0 }
      else none
    | none => none
  | .batchFailed i =>
    match l.tx.inFlight[i]? with
    | some d =>
      if d.call ≠ .inTransit then some { l with tx := l.tx.batchFailed i d } else none
    | none => none
  | .interrupt => some { l with tx := l.tx.orUnchanged l.tx.interrupt }
  | .resume =>
    some { l with tx := l.tx.orUnchanged ((l.tx.resume l.lastRxBatchId).map Prod.fst) }
  | .idle => if l.tx.scheduled = 0 then none else some { l with tx := l.tx.idle }

/-- Nothing discarded that the peer has not processed, nothing processed twice,
and everything processed in the order of posting. -/
structure ExactlyOnce (l : Link) : Prop where
  discarded : ∀ m ∈ l.tx.discarded, m.index ∈ l.processed.map PendingMessage.index
  once : (l.processed.map PendingMessage.index).Nodup
  inOrder : (l.processed.map PendingMessage.index).Pairwise (· ≤ ·)

/-- The step is none of those that break the protocol:
* a post that overflows the serials;
* a call that arrives although the transport lost, or the transmitter has yet to
  make, one with lower serials;
* a success that makes serials start over with messages queued;
* a failure, with the transmitter live, of a call that the peer did process;
* a `resume` that discards by a watermark from before serials started over. -/
def Reliable (l : Link) : LinkEvent → Prop
  | .postMessageFromScript .. | .postMessageFromDebugger .. => l.tx.nextSerial < 2 ^ 31 - 1
  | .deliver i => ∀ d ∈ l.tx.inFlight[i]?,
    (∀ m ∈ l.tx.pendingMessages, d.batchId < toUint m.serial) ∧
      ∀ d' ∈ l.tx.inFlight.eraseIdx i, d'.call ≠ .processed →
        ∀ m ∈ d'.messages, d.batchId < toUint m.serial
  | .batchSucceeded _ => l.tx.pendingDeliveries = 1 → l.tx.pendingMessages = []
  | .batchFailed i => ∀ d ∈ l.tx.inFlight[i]?, d.call = .processed → l.tx.state = .interrupted
  | .resume => l.restarted = true →
    ∀ m ∈ l.tx.pendingMessages.head?, Transmitter.received l.lastRxBatchId m = false
  | .lose _ | .interrupt | .idle => True

instance (l : Link) : (e : LinkEvent) → Decidable (l.Reliable e)
  | .postMessageFromScript .. | .postMessageFromDebugger .. =>
    inferInstanceAs (Decidable (l.tx.nextSerial < 2 ^ 31 - 1))
  | .deliver i => inferInstanceAs (Decidable (∀ d ∈ l.tx.inFlight[i]?, _ ∧ _))
  | .batchSucceeded _ => inferInstanceAs (Decidable (_ → _))
  | .batchFailed i => inferInstanceAs (Decidable (∀ d ∈ l.tx.inFlight[i]?, _ → _))
  | .resume => inferInstanceAs (Decidable (_ → ∀ m ∈ l.tx.pendingMessages.head?, _))
  | .lose _ | .interrupt | .idle => .isTrue trivial

end Link

end FridaCore.Session
