import FridaCore.Gdb.Memory
import FridaCore.Support.Machine

/-!
# Queries and their responses

`query_with_predicate`, `process_incoming_packets`, `dispatch_packet` and
`PendingResponse` of `src/gdb.vala`, as a machine whose events are what the main loop
gets to do. A query is known by its number, in the order of issue. Its coroutine is
suspended until an idle source runs its handler.

The machine has the stub in it, too: the requests it has not answered yet, in the order
they were written, and what it has sent in reply to whom. The client does not see this.
-/

namespace FridaCore.Gdb

abbrev Packet := List UInt8

def Packet.payload (packet : Packet) : Text := packet.takeWhile (· ≠ 0)

inductive ResponseAction
  | complete
  | absorb
  | keepTrying
  deriving DecidableEq, Repr

abbrev ResponsePredicate := Packet → ResponseAction

/-- The predicate of `run_remote_command`, which collects what it absorbs. -/
def remoteCommandPredicate : ResponsePredicate := fun packet =>
  if okReply.isPrefixOf packet.payload ∨ packet.payload.head? = some (chr 'E') then .complete
  else if packet.payload.head? = some (chr 'O') then .absorb
  else .keepTrying

inductive Notification
  | exit
  | stop
  | output
  deriving DecidableEq, Repr

/-- What `try_handle_notification` takes a payload for. -/
def notificationType (payload : Text) : Option Notification :=
  if payload = okReply then none
  else
    match payload.head? with
    | none => none
    | some ch =>
      if ch = chr 'W' ∨ ch = chr 'X' then some .exit
      else if ch = chr 'S' ∨ ch = chr 'T' then some .stop
      else if ch = chr 'O' then some .output
      else none

/-- What a query ends with: `IOError.CANCELLED`, or the error of the connection. -/
inductive QueryError
  | cancelled
  | error (e : Error)
  deriving DecidableEq, Repr

/-- A `PendingResponse`, with the coroutine that waits for it. -/
structure Query where
  predicate : Option ResponsePredicate := none
  response : Option Packet := none
  error : Option QueryError := none
  /-- Whether the handler is still there. -/
  handler : Bool := true
  /-- The idle sources that are to run the handler. -/
  idles : Nat := 0
  /-- Whether the query's `Cancellable` is cancelled. -/
  cancelled : Bool := false
  /-- Whether the source that watches it is still attached. -/
  cancelSource : Bool := true
  /-- What has come of each time the coroutine was resumed, and whether the query was
  cancelled then. -/
  resumptions : List (Bool × Except QueryError Packet) := []

namespace Query

/-- `invoke_handler_in_idle` -/
def invokeHandlerInIdle (q : Query) : Query := { q with idles := q.idles + 1 }

def completeWithResponse (q : Query) (packet : Packet) : Query :=
  { q with response := some packet }.invokeHandlerInIdle

def completeWithError (q : Query) (error : QueryError) : Query :=
  { q with error := some error }.invokeHandlerInIdle

/-- What `query_with_predicate` returns or throws once it is resumed. -/
def result (q : Query) : Except QueryError Packet :=
  if q.cancelled then .error .cancelled
  else
    match q.response, q.error with
    | some packet, _ => .ok packet
    | none, some e => .error e
    -- Nothing adds an idle source before it has set one of the two.
    | none, none => .error (.error (.transport ""))

def runIdle (q : Query) : Query :=
  let q := { q with idles := q.idles - 1 }
  if q.handler then
    { q with
      handler := false
      cancelSource := false
      resumptions := q.resumptions ++ [(q.cancelled, q.result)] }
  else q

end Query

structure Connection where
  closed : Bool := false
  query : Nat → Query := fun _ => {}
  /-- How many queries have been issued. -/
  issued : Nat := 0
  pendingResponses : List Nat := []
  /-- The requests the stub has yet to answer. -/
  unanswered : List Nat := []
  /-- What the stub has sent in reply to which query. -/
  answers : List (Nat × Packet) := []
  /-- What `handle_wildcard_response` has handed to which query. -/
  delivered : List (Nat × Packet) := []

namespace Connection

def update (s : Connection) (q : Nat) (f : Query → Query) : Connection :=
  { s with query := Function.update s.query q (f (s.query q)) }

/-- `query_with_predicate`, up to where it is suspended. -/
def issue (s : Connection) (predicate : Option ResponsePredicate) : Connection :=
  { s with
    query := Function.update s.query s.issued { predicate }
    issued := s.issued + 1
    pendingResponses := s.pendingResponses ++ [s.issued]
    unanswered := s.unanswered ++ [s.issued] }

def action (s : Connection) (packet : Packet) (q : Nat) : ResponseAction :=
  match (s.query q).predicate with
  | none => .keepTrying
  | some predicate => predicate packet

/-- `try_handle_specific_response`, none if no predicate takes the packet. -/
def tryHandleSpecificResponse (s : Connection) (packet : Packet) : Option Connection :=
  match s.pendingResponses.find? fun q => s.action packet q ≠ .keepTrying with
  | none => none
  | some q =>
    if s.action packet q = .absorb then some s
    else some <| update { s with pendingResponses := s.pendingResponses.erase q } q
      fun x => x.completeWithResponse packet

/-- `try_handle_notification`. What a stop leads to is up to other queries. -/
def tryHandleNotification (s : Connection) (packet : Packet) : Except Error Bool :=
  if s.closed then
    .error (.invalidOperation "Unable to handle notification; connection is closed")
  else
    match notificationType packet.payload with
    | none => .ok false
    | some .output => (parseHexBytes packet.payload.tail).map fun _ => true
    | some _ => .ok true

def handleWildcardResponse (s : Connection) (packet : Packet) : Except Error Connection :=
  match s.pendingResponses.find? fun q => (s.query q).predicate.isNone with
  | none => .error (.protocol "Unexpected response")
  | some q =>
    .ok <| update { s with
        pendingResponses := s.pendingResponses.erase q
        delivered := s.delivered ++ [(q, packet)] } q
      fun x => x.completeWithResponse packet

def dispatchPacket (s : Connection) (packet : Packet) : Except Error Connection :=
  match s.tryHandleSpecificResponse packet with
  | some t => .ok t
  | none => do
    let handled ← s.tryHandleNotification packet
    if handled then return s
    s.handleWildcardResponse packet

/-- What `process_incoming_packets` does about an error. -/
def fail (s : Connection) (e : Error) : Connection :=
  { s with
    closed := true
    query := fun q =>
      if q ∈ s.pendingResponses then (s.query q).completeWithError (.error e) else s.query q
    pendingResponses := [] }

/-- A turn of the loop of `process_incoming_packets`. -/
def process (s : Connection) (packet : Packet) : Connection :=
  match s.dispatchPacket packet with
  | .ok t => t
  | .error e => s.fail e

inductive Event
  /-- `query_with_predicate` is called. -/
  | query (predicate : Option ResponsePredicate)
  /-- Somebody cancels a query. -/
  | cancel (q : Nat)
  /-- The source of a cancelled query is dispatched. -/
  | cancelled (q : Nat)
  /-- The stub's reply to the oldest request it has not answered. -/
  | reply (packet : Packet)
  | notification (packet : Packet)
  | readError (e : Error)
  | idle (q : Nat)

/-- The stub is done with a request once it has sent a reply, or the last of those that
a predicate takes. -/
def answer (s : Connection) (q : Nat) (packet : Packet) : Connection :=
  { s with
    answers := s.answers ++ [(q, packet)]
    unanswered := if s.action packet q = .absorb then s.unanswered else s.unanswered.erase q }

def step (s : Connection) : Event → Option Connection
  | .query predicate => some (if s.closed then s else s.issue predicate)
  | .cancel q =>
    if q < s.issued then some (s.update q fun x => { x with cancelled := true }) else none
  | .cancelled q =>
    if q < s.issued ∧ (s.query q).cancelled ∧ (s.query q).cancelSource then
      some (s.update q fun x => { x with cancelSource := false }.completeWithError .cancelled)
    else none
  | .reply packet =>
    match s.closed, s.unanswered with
    | false, q :: _ => some ((s.answer q packet).process packet)
    | _, _ => none
  | .notification packet => if s.closed then none else some (s.process packet)
  | .readError e => if s.closed then none else some (s.fail e)
  | .idle q =>
    if q < s.issued ∧ 0 < (s.query q).idles then some (s.update q Query.runIdle) else none

variable {s : Connection} {q : Nat} {packet : Packet}

theorem tryHandleSpecificResponse_eq_none
    (h : ∀ other ∈ s.pendingResponses, s.action packet other = .keepTrying) :
    s.tryHandleSpecificResponse packet = none := by
  have hfind : s.pendingResponses.find? (fun q => s.action packet q ≠ .keepTrying) = none := by
    simpa using h
  simp only [tryHandleSpecificResponse, hfind]

theorem process_notification (hclosed : s.closed = false)
    (hreject : ∀ other ∈ s.pendingResponses, s.action packet other = .keepTrying)
    (hnote : (notificationType packet.payload).isSome) :
    s.process packet = s ∨ ∃ e, s.process packet = s.fail e := by
  obtain ⟨note, hnote⟩ := Option.isSome_iff_exists.mp hnote
  simp only [process, dispatchPacket, tryHandleSpecificResponse_eq_none hreject,
    tryHandleNotification, hclosed, hnote]
  cases note with
  | exit | stop => exact .inl rfl
  | output =>
    cases parseHexBytes packet.payload.tail with
    | ok _ => exact .inl rfl
    | error e => exact .inr ⟨e, rfl⟩

/-- A reply nobody else takes goes to the first of the wildcards that are pending. -/
theorem process_wildcard (hclosed : s.closed = false)
    (hfirst : s.pendingResponses.find? (fun q => (s.query q).predicate.isNone) = some q)
    (hreject : ∀ other ∈ s.pendingResponses, s.action packet other = .keepTrying)
    (hnote : notificationType packet.payload = none) :
    s.process packet = update { s with
        pendingResponses := s.pendingResponses.erase q
        delivered := s.delivered ++ [(q, packet)] } q fun x => x.completeWithResponse packet := by
  have hhandled : s.tryHandleNotification packet = .ok false := by
    simp [tryHandleNotification, hclosed, hnote]
  simp only [process, dispatchPacket, tryHandleSpecificResponse_eq_none hreject, hhandled]
  simp [bind, Except.bind, handleWildcardResponse, hfirst]

/-- A packet that a predicate takes goes to the first query whose predicate does. -/
theorem process_specific
    (hfirst : s.pendingResponses.find? (fun q => s.action packet q ≠ .keepTrying) = some q) :
    s.process packet =
      if s.action packet q = .absorb then s
      else update { s with pendingResponses := s.pendingResponses.erase q } q
        fun x => x.completeWithResponse packet := by
  simp only [process, dispatchPacket, tryHandleSpecificResponse, hfirst]
  by_cases habsorb : s.action packet q = .absorb
  · simp [habsorb]
  · simp [habsorb]

end Connection

end FridaCore.Gdb
