import FridaCore.Error
import FridaCore.Support.Machine

/-!
# The agent message transmitter

`AgentMessageTransmitter` of `lib/base/session.vala` with the coroutines that
wait for the sink. A `deliver_batch` runs up to its `yield` when it is started
and finishes when the call completes, so a batch in flight is one element of
`inFlight` and its completion is an event of its own. `resume` only schedules
the next delivery; the idle callback it leaves behind is an event as well.

Serials are C `int`s and wrap; batch identifiers are `uint`s. The fields below
the first group are the environment's and the history's: no method reads them.
-/

namespace FridaCore.Session

inductive AgentMessageKind
  | script
  | debugger
  deriving DecidableEq, Repr

/-- The value a C `int` holds after wrapping. -/
def wrapInt (n : Int) : Int := n.bmod (2 ^ 32)

/-- The conversion from `int` to `uint`. -/
def toUint (n : Int) : Nat := (n % 2 ^ 32).toNat

structure PendingMessage where
  /-- The object's identity: how many messages were posted before it. -/
  index : Nat
  serial : Int
  kind : AgentMessageKind
  scriptId : UInt32
  text : String
  data : Option ByteArray
  deliveryAttempts : Nat := 0
  deriving DecidableEq

/-- `sizeof (AgentMessage)` on a 64-bit target. -/
def sizeofAgentMessage : Nat := 40

def PendingMessage.estimateSizeInBytes (m : PendingMessage) : Nat :=
  sizeofAgentMessage + m.text.utf8ByteSize + 1 + (m.data.map ByteArray.size).getD 0

/-- `message.delivery_attempts++` -/
def PendingMessage.attempt (m : PendingMessage) : PendingMessage :=
  { m with deliveryAttempts := m.deliveryAttempts + 1 }

def PendingMessage.asPosted (m : PendingMessage) : PendingMessage := { m with deliveryAttempts := 0 }

inductive Call
  | inTransit
  | processed
  | lost
  deriving DecidableEq, Repr

/-- A `deliver_batch` waiting for `sink.post_messages`. -/
structure Delivery where
  messages : List PendingMessage
  call : Call := .inTransit
  deriving DecidableEq

/-- `messages[n - 1].serial` -/
def Delivery.batchId (d : Delivery) : Nat := toUint ((d.messages.getLast?.map (·.serial)).getD 0)

structure HandOver where
  queue : List PendingMessage
  batch : List PendingMessage
  deriving DecidableEq

inductive State
  | live
  | interrupted
  deriving DecidableEq, Repr

structure Transmitter where
  persistTimeout : Nat
  state : State := .live
  expiryTimer : Bool := false
  messageSink : Bool := false
  niceMessageSink : Bool := false
  lastRxBatchId : Nat := 0
  pendingMessages : List PendingMessage := []
  nextSerial : Int := 1
  pendingDeliveries : Nat := 0
  -- the environment: calls waiting for their reply, idle callbacks of `resume`
  inFlight : List Delivery := []
  scheduled : Nat := 0
  -- the history
  posted : List PendingMessage := []
  emitted : List PendingMessage := []
  acknowledged : List PendingMessage := []
  discarded : List PendingMessage := []
  handedOver : List HandOver := []
  deriving DecidableEq

namespace Transmitter

/-- Some sink is there to deliver to: the peer connection's, or else the plain one. -/
def hasSink (t : Transmitter) : Bool := t.niceMessageSink || t.messageSink

def maxSize : Nat := 4 * 1024 * 1024

/-- The loop that moves messages from the queue to the batch, which is given
with its size so far. -/
def fillBatch (batch : List PendingMessage) (totalSize : Nat) :
    List PendingMessage → List PendingMessage × List PendingMessage
  | [] => (batch, [])
  | m :: rest =>
    if totalSize + m.estimateSizeInBytes > maxSize && !batch.isEmpty then (batch, m :: rest)
    else fillBatch (batch ++ [m]) (totalSize + m.estimateSizeInBytes) rest

def emitBatch (t : Transmitter) (batch : List PendingMessage) : Transmitter :=
  { t with emitted := t.emitted ++ batch }

/-- `deliver_batch` up to its `yield`. -/
def deliverBatch (t : Transmitter) (batch : List PendingMessage) : Transmitter :=
  { t with
    pendingDeliveries := t.pendingDeliveries + 1
    inFlight := t.inFlight ++ [{ messages := batch.map PendingMessage.attempt }] }

def maybeDeliverPendingMessages (t : Transmitter) : Transmitter :=
  if t.state ≠ .live then t
  else if !t.hasSink then t
  else if t.pendingMessages.isEmpty then t
  else
    let (batch, rest) := fillBatch [] 0 t.pendingMessages
    let t' : Transmitter := { t with
      pendingMessages := rest
      handedOver := t.handedOver ++ [⟨t.pendingMessages, batch⟩] }
    if t.persistTimeout = 0 then t'.emitBatch batch else t'.deliverBatch batch

/-- `pending_messages.offer (new PendingMessage (next_serial++, ..))` -/
def offer (t : Transmitter) (kind : AgentMessageKind) (scriptId : UInt32) (text : String)
    (data : Option ByteArray) : Transmitter :=
  let m : PendingMessage :=
    { index := t.posted.length, serial := t.nextSerial, kind, scriptId, text, data }
  { t with
    pendingMessages := t.pendingMessages ++ [m]
    nextSerial := wrapInt (t.nextSerial + 1)
    posted := t.posted ++ [m] }

def postMessageFromScript (t : Transmitter) (scriptId : UInt32) (json : String)
    (data : Option ByteArray) : Transmitter :=
  (t.offer .script scriptId json data).maybeDeliverPendingMessages

def postMessageFromDebugger (t : Transmitter) (scriptId : UInt32) (message : String) :
    Transmitter :=
  (t.offer .debugger scriptId message none).maybeDeliverPendingMessages

/-- `pending_messages.sort ((a, b) => a.serial - b.serial)`, a stable sort. -/
def sortBySerial (l : List PendingMessage) : List PendingMessage :=
  l.insertionSort fun a b => wrapInt (a.serial - b.serial) ≤ 0

/-- The rest of `deliver_batch` when the call has returned. -/
def batchSucceeded (t : Transmitter) (i : Nat) (d : Delivery) : Transmitter :=
  { t with
    inFlight := t.inFlight.eraseIdx i
    pendingDeliveries := t.pendingDeliveries - 1
    nextSerial := if t.pendingDeliveries - 1 = 0 then 1 else t.nextSerial
    acknowledged := t.acknowledged ++ d.messages }

/-- The rest of `deliver_batch` when the call has thrown. -/
def batchFailed (t : Transmitter) (i : Nat) (d : Delivery) : Transmitter :=
  { t with
    inFlight := t.inFlight.eraseIdx i
    pendingMessages := sortBySerial (t.pendingMessages ++ d.messages)
    pendingDeliveries := t.pendingDeliveries - 1 }

def interrupt (t : Transmitter) : Except Error Transmitter :=
  if t.persistTimeout = 0 ∨ t.expiryTimer then .error (.invalidOperation "Invalid operation")
  else .ok { t with state := .interrupted, expiryTimer := true }

/-- The messages `resume` polls off the queue: those tried before and covered
by what the peer says it received. -/
def received (rxBatchId : Nat) (m : PendingMessage) : Bool :=
  m.deliveryAttempts > 0 && toUint m.serial ≤ rxBatchId

/-- `resume`, with the value of its `out` parameter. -/
def resume (t : Transmitter) (rxBatchId : Nat) : Except Error (Transmitter × Nat) :=
  if t.persistTimeout = 0 ∨ !t.expiryTimer then .error (.invalidOperation "Invalid operation")
  else
    let t' :=
      if rxBatchId ≠ 0 then
        { t with
          pendingMessages := t.pendingMessages.dropWhile (received rxBatchId)
          discarded := t.discarded ++ t.pendingMessages.takeWhile (received rxBatchId) }
      else t
    .ok ({ t' with expiryTimer := false, state := .live, scheduled := t.scheduled + 1 },
      t.lastRxBatchId)

def notifyRxBatchId (t : Transmitter) (batchId : Nat) : Except Error Transmitter :=
  if t.state = .interrupted then
    .error (.invalidOperation "Cannot receive messages while interrupted")
  else .ok { t with lastRxBatchId := batchId }

def beginMigration (t : Transmitter) : Transmitter := { t with state := .interrupted }

def commitMigration (t : Transmitter) : Transmitter :=
  if t.expiryTimer then t else maybeDeliverPendingMessages { t with state := .live }

/-- The callback scheduled by `resume`. -/
def idle (t : Transmitter) : Transmitter :=
  maybeDeliverPendingMessages { t with scheduled := t.scheduled - 1 }

end Transmitter

inductive Event
  | postMessageFromScript (scriptId : UInt32) (json : String) (data : Option ByteArray)
  | postMessageFromDebugger (scriptId : UInt32) (message : String)
  | batchSucceeded (i : Nat)
  | batchFailed (i : Nat)
  | interrupt
  | resume (rxBatchId : Nat)
  | idle
  | notifyRxBatchId (batchId : Nat)
  | beginMigration
  | commitMigration
  | setMessageSink (present : Bool)
  | setNiceMessageSink (present : Bool)

namespace Transmitter

def orUnchanged (t : Transmitter) : Except Error Transmitter → Transmitter
  | .ok t' => t'
  | .error _ => t

/-- One event. Completions need their delivery in flight, the callback needs to
have been scheduled; everything else can happen at any time. -/
def step (t : Transmitter) : Event → Option Transmitter
  | .postMessageFromScript scriptId json data => some (t.postMessageFromScript scriptId json data)
  | .postMessageFromDebugger scriptId message => some (t.postMessageFromDebugger scriptId message)
  | .batchSucceeded i => t.inFlight[i]?.map (t.batchSucceeded i)
  | .batchFailed i => t.inFlight[i]?.map (t.batchFailed i)
  | .interrupt => some (t.orUnchanged t.interrupt)
  | .resume rxBatchId => some (t.orUnchanged ((t.resume rxBatchId).map Prod.fst))
  | .idle => if t.scheduled = 0 then none else some t.idle
  | .notifyRxBatchId batchId => some (t.orUnchanged (t.notifyRxBatchId batchId))
  | .beginMigration => some t.beginMigration
  | .commitMigration => some t.commitMigration
  | .setMessageSink present => some { t with messageSink := present }
  | .setNiceMessageSink present => some { t with niceMessageSink := present }

end Transmitter

end FridaCore.Session
