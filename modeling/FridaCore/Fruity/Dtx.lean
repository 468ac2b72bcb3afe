import FridaCore.Error
import FridaCore.Support.Bytes
import FridaCore.Support.Except

/-!
# DTX connections

`DTXConnection` of `src/fruity/dtx.vala`: how a message is written as a fragment, how
fragments are read and put together, and which channel a message goes to. The first of
several fragments has no bytes. It keeps the size of those that have come.
-/

namespace FridaCore.Fruity.Dtx

def fragmentMagic : Nat := 0x1f3d5b79

def maxMessageSize : Nat := 128 * 1024 * 1024

def maxFragmentSize : Nat := 128 * 1024

/-- `DTXMessageType`. Any byte can be received as one. -/
inductive MessageType
  | ok
  | data
  | dispatch
  | object
  | error
  | barrier
  | primitive
  | compressed
  | proxiedMessage
  | unknown (raw : UInt8)
  deriving DecidableEq, Repr

namespace MessageType

def ofByte : UInt8 → MessageType
  | 0 => ok
  | 1 => data
  | 2 => dispatch
  | 3 => object
  | 4 => error
  | 5 => barrier
  | 6 => primitive
  | 7 => compressed
  | 8 => proxiedMessage
  | raw => unknown raw

def toByte : MessageType → UInt8
  | ok => 0
  | data => 1
  | dispatch => 2
  | object => 3
  | error => 4
  | barrier => 5
  | primitive => 6
  | compressed => 7
  | proxiedMessage => 8
  | unknown raw => raw

def IsKnown : MessageType → Prop
  | unknown _ => False
  | _ => True

theorem ofByte_toByte (h : type.IsKnown) : ofByte type.toByte = type := by
  cases type <;> first | rfl | cases h

end MessageType

structure Message where
  type : MessageType
  identifier : UInt32
  conversationIndex : UInt32
  channelCode : Int32
  transportFlags : UInt32
  auxData : List UInt8
  payloadData : List UInt8
  deriving DecidableEq, Repr

structure Fragment where
  index : UInt16
  count : UInt16
  dataSize : UInt32
  identifier : UInt32
  conversationIndex : UInt32
  channelCode : Int32
  flags : UInt32
  bytes : Option (List UInt8)
  deriving DecidableEq, Repr

/-- `send_message`: the bytes, the identifier, and the one for the next message without its
own. The sum of the sizes is a `uint32`. -/
def sendMessage (nextFragmentIdentifier : UInt32) (message : Message) :
    List UInt8 × UInt32 × UInt32 :=
  let messageDataSize := (message.auxData.length + message.payloadData.length) % 2 ^ 32
  let messageSize := 16 + messageDataSize
  let identifier := if message.identifier = 0 then nextFragmentIdentifier else message.identifier
  let next :=
    if message.identifier = 0 then nextFragmentIdentifier + 1 else nextFragmentIdentifier
  let fragmentHeader := leBytes 4 fragmentMagic ++ leBytes 4 32 ++ leBytes 2 0 ++ leBytes 2 1 ++
    leBytes 4 messageSize ++ leBytes 4 identifier.toNat ++
    leBytes 4 message.conversationIndex.toNat ++ leBytes 4 message.channelCode.toUInt32.toNat ++
    leBytes 4 message.transportFlags.toNat
  let messageHeader := [message.type.toByte, 0, 0, 0] ++ leBytes 4 message.auxData.length ++
    leBytes 8 messageDataSize
  (fragmentHeader ++ (messageHeader ++ message.auxData ++ message.payloadData), identifier, next)

abbrev Reading := StateT (List UInt8) (Except Error)

/-- `prepare_to_read`, which waits for bytes and fails at the end of the input. -/
def prepareToRead (required : Nat) : Reading Unit := fun input =>
  if input.length < required then .error (.transport "Connection closed") else .ok ((), input)

def readBytes (n : Nat) : Reading (List UInt8) := fun input => .ok (input.take n, input.drop n)

def readNumber (size : Nat) : Reading Nat := do return leValue (← readBytes size)

def failIf (c : Prop) [Decidable c] (error : Error) : Reading Unit :=
  if c then throw error else return

def hex (size n : Nat) : String :=
  let digits := String.ofList (Nat.toDigits 16 n)
  String.ofList (List.replicate (size - digits.length) '0') ++ digits

def readHeader : Reading Fragment := do
  prepareToRead 32
  let magic ← readNumber 4
  failIf (magic ≠ fragmentMagic)
    (.protocol ("Expected DTX message magic, got 0x" ++ hex 8 magic))
  let headerSize ← readNumber 4
  failIf (headerSize < 32)
    (.protocol ("Expected header size of >= 32, got " ++ toString headerSize))
  let index ← readNumber 2
  let count ← readNumber 2
  let dataSize ← readNumber 4
  let identifier ← readNumber 4
  let conversationIndex ← readNumber 4
  let channelCode ← readNumber 4
  let flags ← readNumber 4
  -- `skip_async` may skip less than this; it is taken to skip all of it.
  let _ ← readBytes (headerSize - 32)
  return {
    index := .ofNat index
    count := .ofNat count
    dataSize := .ofNat dataSize
    identifier := .ofNat identifier
    conversationIndex := .ofNat conversationIndex
    channelCode := (UInt32.ofNat channelCode).toInt32
    flags := .ofNat flags
    bytes := none }

def readBody (fragment : Fragment) : Reading Fragment :=
  if fragment.count = 1 ∨ fragment.index ≠ 0 then do
    failIf (fragment.dataSize = 0) (.protocol "Empty fragments are not allowed")
    failIf (fragment.dataSize.toNat > maxFragmentSize) (.protocol "Fragment size exceeds maximum")
    prepareToRead fragment.dataSize.toNat
    return { fragment with bytes := some (← readBytes fragment.dataSize.toNat) }
  else return fragment

def readFragment : Reading Fragment := do readBody (← readHeader)

section
variable {x : StateT σ (Except ε) α} {k : α → StateT σ (Except ε) β} {input mid : σ}

theorem reading_bind_eq_ok (h : (x >>= k) input = .ok r) :
    ∃ a mid, x input = .ok (a, mid) ∧ k a mid = .ok r := by
  obtain ⟨⟨a, mid⟩, hx, hk⟩ := bind_eq_ok h
  exact ⟨a, mid, hx, hk⟩

theorem reading_bind_of_ok (h : x input = .ok (a, mid)) : (x >>= k) input = k a mid := by
  simp only [bind, StateT.bind, h, Except.bind]

end

theorem failIf_eq_ok [Decidable c] (h : failIf c e input = .ok (u, mid)) : ¬ c ∧ mid = input := by
  by_cases hc : c
  · simp [failIf, hc, throw, throwThe, MonadExceptOf.throw, StateT.lift] at h
  · simp only [failIf, if_neg hc] at h
    cases h
    exact ⟨hc, rfl⟩

theorem failIf_of_not [Decidable c] (hc : ¬ c) (input : List UInt8) :
    failIf c e input = .ok ((), input) := by
  simp only [failIf, if_neg hc]
  rfl

theorem prepareToRead_eq_ok
    (h : prepareToRead n input = .ok (u, mid)) : n ≤ input.length ∧ mid = input := by
  unfold prepareToRead at h
  split at h
  · cases h
  · cases h
    exact ⟨by omega, rfl⟩

theorem prepareToRead_of_le (h : n ≤ input.length) :
    prepareToRead n input = .ok ((), input) :=
  if_neg (by omega)

theorem readNumber_append (size n : Nat) (rest : List UInt8) :
    readNumber size (leBytes size n ++ rest) = .ok (n % 256 ^ size, rest) := by
  have hbytes : readBytes size (leBytes size n ++ rest) = .ok (leBytes size n, rest) := by
    simp [readBytes]
  rw [readNumber, reading_bind_of_ok hbytes, leValue_leBytes]
  rfl

inductive Handler
  | dispatch
  | notification
  | response
  | data
  | barrier
  deriving DecidableEq, Repr

structure Delivery where
  channel : Int32
  handler : Handler
  message : Message
  deriving DecidableEq, Repr

def route (channels : List Int32) (message : Message) : Except Error (Option Delivery) :=
  let code := if message.conversationIndex % 2 = 0 then -message.channelCode
    else message.channelCode
  let deliver := fun handler => .ok (some ⟨code, handler, message⟩)
  if code ∉ channels then .ok none
  else match message.type with
    | .dispatch => deliver .dispatch
    | .ok | .object | .error =>
      if message.conversationIndex = 0 then deliver .notification else deliver .response
    | .data => deliver .data
    | .barrier => deliver .barrier
    | .primitive =>
      .error (.protocol "Unsupported message type: FRIDA_FRUITY_DTX_MESSAGE_TYPE_PRIMITIVE")
    | .compressed =>
      .error (.protocol "Unsupported message type: FRIDA_FRUITY_DTX_MESSAGE_TYPE_COMPRESSED")
    | .proxiedMessage =>
      .error (.protocol "Unsupported message type: FRIDA_FRUITY_DTX_MESSAGE_TYPE_PROXIED_MESSAGE")
    | .unknown _ => .ok none

/-- The message that `process_message` takes out of a fragment. -/
def parseMessage (rawMessage : List UInt8) (fragment : Fragment) : Except Error Message :=
  let auxSize := leValue ((rawMessage.drop 4).take 4)
  let dataSize := leValue ((rawMessage.drop 8).take 8)
  if rawMessage.length < 16 then .error (.protocol "Malformed message")
  else if auxSize > rawMessage.length ∨ dataSize > rawMessage.length ∨
      dataSize ≠ rawMessage.length - 16 ∨ auxSize > dataSize then
    .error (.protocol "Malformed message")
  else .ok {
    type := .ofByte (rawMessage.headD 0)
    identifier := fragment.identifier
    conversationIndex := fragment.conversationIndex
    channelCode := fragment.channelCode
    transportFlags := fragment.flags
    auxData := (rawMessage.drop 16).take auxSize
    payloadData := (rawMessage.drop (16 + auxSize)).take (dataSize - auxSize) }

def processMessage (channels : List Int32) (rawMessage : List UInt8) (fragment : Fragment) :
    Except Error (Option Delivery) := do
  route channels (← parseMessage rawMessage fragment)

/-- `process_message` with the handlers of the channels, which may throw. -/
def processWith (channels : List Int32) (handle : Delivery → Except Error Unit)
    (rawMessage : List UInt8) (fragment : Fragment) : Except Error Unit := do
  match ← processMessage channels rawMessage fragment with
  | none => return
  | some delivery => handle delivery

/-- The fragments by identifier, the calls of `process_message`, and whether the loop has
ended. -/
structure Connection where
  fragments : UInt32 → Option (List Fragment) := fun _ => none
  processed : List (List UInt8 × Fragment) := []
  closed : Bool := false
  outOfBounds : Bool := false

/-- `Memory.copy` into the message, which may go outside. -/
def copyAt (message : List UInt8) (offset : Nat) (bytes : List UInt8) : Option (List UInt8) :=
  if offset + bytes.length ≤ message.length then
    some (message.take offset ++ bytes ++ message.drop (offset + bytes.length))
  else none

inductive Assembly
  | message (bytes : List UInt8)
  | inconsistent
  | outOfBounds
  deriving DecidableEq, Repr

def copyFragments : List Fragment → (i offset : Nat) → (message : List UInt8) → Assembly
  | [], _, _, message => .message message
  | f :: rest, i, offset, message =>
    if f.index.toNat ≠ i then .inconsistent
    else match f.bytes with
      | none => copyFragments rest (i + 1) offset message
      | some bytes =>
        match copyAt message offset bytes with
        | none => .outOfBounds
        | some message => copyFragments rest (i + 1) (offset + bytes.length) message

def assemble (entries : List Fragment) (size : Nat) : Assembly :=
  copyFragments (entries.insertionSort fun a b => a.index ≤ b.index) 0 0 (List.replicate size 0)

def addSize (f : Fragment) : List Fragment → List Fragment
  | [] => []
  | first :: rest =>
    { first with dataSize := first.dataSize + .ofNat (f.bytes.getD []).length } :: rest

def addEntry (f : Fragment) : Option (List Fragment) → Option (List Fragment)
  | none => if f.index ≠ 0 then none else some (addSize f [{ f with dataSize := 0 }])
  | some entries => some (addSize f (entries ++ [f]))

section
variable (process : List UInt8 → Fragment → Except Error Unit)

/-- The call of `process_message`, after which the loop goes on or ends. -/
def handOver (c : Connection) (message : List UInt8) (f : Fragment) : Connection :=
  { c with
    processed := c.processed ++ [(message, f)]
    closed := (process message f).toOption.isNone }

/-- A turn of the loop of `process_incoming_fragments`. Every error ends it. -/
def receive (c : Connection) (f : Fragment) : Connection :=
  if c.closed then c
  else if f.count = 1 then handOver process c (f.bytes.getD []) f
  else match addEntry f (c.fragments f.identifier) with
    | none => { c with closed := true }
    | some [] => c
    | some (first :: rest) =>
      let stored :=
        { c with fragments := Function.update c.fragments f.identifier (some (first :: rest)) }
      if f.bytes.isSome ∧ first.dataSize.toNat > maxMessageSize then
        { stored with closed := true }
      else if (first :: rest).length = f.count.toNat then
        match assemble (first :: rest) first.dataSize.toNat with
        | .inconsistent => { stored with closed := true }
        | .outOfBounds => { stored with closed := true, outOfBounds := true }
        | .message message =>
          handOver process
            { c with fragments := Function.update c.fragments f.identifier none } message first
      else stored

def processIncomingFragments : (fuel : Nat) → Connection → List UInt8 → Connection
  | 0, c, _ => c
  | fuel + 1, c, input =>
    match readFragment input with
    | .error _ => { c with closed := true }
    | .ok (f, input) =>
      let c := receive process c f
      if c.closed then c else processIncomingFragments fuel c input

end

end FridaCore.Fruity.Dtx
