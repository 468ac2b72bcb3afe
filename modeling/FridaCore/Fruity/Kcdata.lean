import FridaCore.Base.Buffer

/-!
# Containers of kernel data

`Reader` of `src/fruity/kcdata.vala` walks the items of a buffer. Each has a header with a
type, a size and flags, and a payload that is padded. A container is what is between an
item that begins it and the one that ends it, which has the same flags.

One cursor reads the items, another one looks ahead for the end of a container. What has
been read and which containers were being visited then is recorded, for talking about it.
-/

namespace FridaCore.Fruity.Kcdata

abbrev Bytes := List UInt8

structure ItemHeader where
  type : Nat
  size : Nat
  flags : Nat
  deriving DecidableEq, Repr

def containerBegin : Nat := 0x013

def containerEnd : Nat := 0x014

def headerSize : Nat := 16

def alignmentSize : Nat := 16

def hex (n : Nat) : String := String.ofList (Nat.toDigits 16 n)

def hex16 (n : Nat) : String :=
  let digits := Nat.toDigits 16 n
  String.ofList (List.replicate (16 - digits.length) '0' ++ digits)

def readItemHeaderFields (data : Buffer) (offset : Nat) : ItemHeader where
  type := leValue ((data.bytes.drop offset).take 4)
  size := leValue ((data.bytes.drop (offset + 4)).take 4)
  flags := leValue ((data.bytes.drop (offset + 8)).take 8)

def truncated : Error := .protocol "Malformed buffer: truncated"

def seek (data : Buffer) (offset : Nat) : Except Error Nat :=
  if offset > data.size then .error truncated else .ok offset

def skip (data : Buffer) (offset n : Nat) : Except Error Nat :=
  if data.size - offset < n then .error truncated else .ok (offset + n)

def align (data : Buffer) (offset alignment : Nat) : Except Error Nat :=
  let rem := offset % alignment
  if rem ≠ 0 then skip data offset (alignment - rem) else .ok offset

def needHeader (offset available : Nat) : Error :=
  .protocol s!"KCDATA truncated at {offset} (need header, avail={available})"

def itemTruncated (start : Nat) (h : ItemHeader) (available : Nat) : Error :=
  .protocol ("KCDATA truncated at " ++ toString start ++ " (type=0x" ++ hex h.type ++ " size=" ++
    toString h.size ++ " avail=" ++ toString available ++ ")")

def malformed (what : String) (start id : Nat) : Error :=
  .protocol ("Malformed container " ++ what ++ " at " ++ toString start ++ " (id=0x" ++ hex16 id ++
    ")")

def passItem (data : Buffer) (offset : Nat) : Except Error (ItemHeader × Nat) := do
  if data.size - offset < headerSize then
    throw (needHeader offset (data.size - offset))
  let h := readItemHeaderFields data offset
  let afterHeader := offset + headerSize
  if h.size > data.size - afterHeader then
    throw (itemTruncated offset h (data.size - afterHeader))
  let afterPayload ← skip data afterHeader h.size
  return (h, ← align data afterPayload alignmentSize)

inductive Thrown
  /-- An error of the reader. -/
  | byReader (e : Error)
  /-- An error that has left a visitor, which nothing catches. -/
  | byVisitor (e : Error)
  /-- A loop was not done by then. -/
  | outOfFuel
  deriving DecidableEq, Repr

def Thrown.lift (x : Except Error α) : Except Thrown α := x.mapError .byReader

/-- The loop of `find_container_end`, with the containers that have begun since. -/
def findContainerEnd (data : Buffer) (id : Nat) :
    (fuel : Nat) → (offset : Nat) → (scanContainerIds : List Nat) → Except Thrown Nat
  | 0, _, _ => .error .outOfFuel
  | fuel + 1, offset, ids => do
    let (h, next) ← Thrown.lift (passItem data offset)
    if h.type = containerBegin then findContainerEnd data id fuel next (h.flags :: ids)
    else if h.type = containerEnd then
      match ids with
      | top :: ids =>
        if top ≠ h.flags then .error (.byReader (malformed "nesting" offset h.flags))
        else findContainerEnd data id fuel next ids
      | [] =>
        if h.flags ≠ id then .error (.byReader (malformed "end" offset h.flags))
        else .ok offset
    else findContainerEnd data id fuel next ids

structure Scope where
  endItemOffset : Nat
  endId : Nat
  /-- Where the item is that begins the container. -/
  beginItemOffset : Nat
  bodyStart : Nat
  deriving DecidableEq, Repr

inductive Event
  | read (start : Nat) (h : ItemHeader)
  | skipped
  | entered (scope : Scope)
  | left (scope : Scope)
  | threw (e : Error)
  deriving DecidableEq, Repr

/-- Something that happened, in which containers, and where the reader was afterwards. -/
structure Record where
  event : Event
  scopes : List Scope
  offset : Nat
  deriving DecidableEq, Repr

structure Reader where
  offset : Nat
  /-- The innermost one comes first. -/
  scopes : List Scope
  currentEndItemOffset : Nat
  log : List Record
  deriving DecidableEq, Repr

def Reader.new (data : Buffer) : Reader where
  offset := 0
  scopes := []
  currentEndItemOffset := data.size
  log := []

structure World (σ : Type) where
  reader : Reader
  captured : σ

abbrev Action (σ α : Type) := EStateM Thrown (World σ) α

namespace Reader

variable {σ : Type}

def update (f : Reader → Reader) : Action σ Unit := modify fun w => { w with reader := f w.reader }

def moveTo (offset : Nat) : Action σ Unit := update fun r => { r with offset }

def note (event : Event) : Action σ Unit :=
  update fun r => { r with log := r.log ++ [⟨event, r.scopes, r.offset⟩] }

def check (x : Except Error α) : Action σ α :=
  match x with
  | .ok a => pure a
  | .error e => throw (.byReader e)

/-- A difference of two `size_t`. -/
def sizeDifference (a b : Nat) : Nat := if b ≤ a then a - b else 2 ^ 64 - (b - a)

def readHeader (data : Buffer) : Action σ ItemHeader := do
  let itemStart := (← get).reader.offset
  if data.size - itemStart < headerSize then
    throw (.byReader (needHeader itemStart (data.size - itemStart)))
  let h := readItemHeaderFields data itemStart
  moveTo (itemStart + headerSize)
  let r := (← get).reader
  let avail := min (data.size - r.offset) (sizeDifference r.currentEndItemOffset r.offset)
  if h.size > avail then
    throw (.byReader (itemTruncated itemStart h avail))
  return h

def readPayload (data : Buffer) (h : ItemHeader) : Action σ Bytes := do
  let start := (← get).reader.offset
  moveTo (← check (skip data start h.size))
  moveTo (← check (align data (start + h.size) alignmentSize))
  return (data.bytes.drop start).take h.size

def readItem (data : Buffer) : Action σ (Option (ItemHeader × Bytes)) := do
  let r := (← get).reader
  if data.size - r.offset = 0 ∨ r.offset = r.currentEndItemOffset then return none
  let h ← readHeader data
  let payload ← readPayload data h
  note (.read r.offset h)
  return some (h, payload)

def lookAhead (x : Except Thrown α) : Action σ α :=
  match x with
  | .ok a => pure a
  | .error t => throw t

def findContainerEndFrom (data : Buffer) (fuel bodyStart id : Nat) : Action σ Nat := do
  let offset ← check (seek data bodyStart)
  lookAhead (findContainerEnd data id fuel offset [])

def enterContainerBody (data : Buffer) (fuel beginItemOffset id : Nat) : Action σ Unit := do
  let bodyStart := (← get).reader.offset
  let endItemOffset ← findContainerEndFrom data fuel bodyStart id
  let s : Scope := ⟨endItemOffset, id, beginItemOffset, bodyStart⟩
  update fun r => { r with scopes := s :: r.scopes, currentEndItemOffset := endItemOffset }
  note (.entered s)

def consumeContainerEndAt (data : Buffer) (endItemOffset id : Nat) : Action σ Unit := do
  if (← get).reader.offset ≠ endItemOffset then
    moveTo (← check (seek data endItemOffset))
  let itemStart := (← get).reader.offset
  if data.size - itemStart < headerSize then
    throw (.byReader (needHeader itemStart (data.size - itemStart)))
  let h := readItemHeaderFields data itemStart
  moveTo (itemStart + headerSize)
  if h.type ≠ containerEnd ∨ h.flags ≠ id then
    throw (.byReader (.protocol ("Malformed container end at " ++ toString itemStart ++
      " (want id=0x" ++ hex16 id ++ ")")))
  let available := data.size - (itemStart + headerSize)
  if h.size > available then
    throw (.byReader (itemTruncated itemStart h available))
  moveTo (← check (skip data (itemStart + headerSize) h.size))
  moveTo (← check (align data (itemStart + headerSize + h.size) alignmentSize))

def endOf (data : Buffer) : List Scope → Nat
  | [] => data.size
  | parent :: _ => parent.endItemOffset

def leaveContainer (data : Buffer) : Action σ Unit := do
  match (← get).reader.scopes with
  | [] => return
  | s :: parents =>
    update fun r => { r with scopes := parents }
    consumeContainerEndAt data s.endItemOffset s.endId
    update fun r => { r with currentEndItemOffset := endOf data parents }
    note (.left s)

def skipContainerBody (data : Buffer) (fuel id : Nat) : Action σ Unit := do
  let bodyStart := (← get).reader.offset
  let endItemOffset ← findContainerEndFrom data fuel bodyStart id
  consumeContainerEndAt data endItemOffset id
  note .skipped

inductive VisitResult
  | continue
  | stop
  deriving DecidableEq, Repr

def forEach (data : Buffer) (visitor : ItemHeader → Bytes → Action σ VisitResult) :
    (fuel : Nat) → Action σ VisitResult
  | 0 => throw .outOfFuel
  | fuel + 1 => do
    match ← readItem data with
    | none => return .continue
    | some (h, p) =>
      if (← visitor h p) = .stop then return .stop
      forEach data visitor fuel

/-- The type of a container, which `payload.read_uint32 ()` reads. -/
def containerType (payload : Bytes) : Except Error Nat :=
  if payload.length < 4 then .error truncated else .ok (leValue (payload.take 4))

/-- What `for_each_container` does with an item that begins a container. -/
def visitContainer (data : Buffer) (fuel wantContainerType beginItemOffset : Nat)
    (visitor : Action σ VisitResult) (h : ItemHeader) (p : Bytes) : Action σ VisitResult := do
  let ctype ← check (containerType p)
  if ctype ≠ wantContainerType then
    skipContainerBody data fuel h.flags
    return .continue
  enterContainerBody data fuel beginItemOffset h.flags
  let result ← visitor
  leaveContainer data
  return result

/-- The loop of `for_each_container`; `scanFuel` is for the cursor that looks ahead. -/
def forEachContainer (data : Buffer) (scanFuel wantContainerType : Nat)
    (visitor : Action σ VisitResult) : (fuel : Nat) → Action σ VisitResult
  | 0 => throw .outOfFuel
  | fuel + 1 => do
    let beginItemOffset := (← get).reader.offset
    match ← readItem data with
    | none => return .continue
    | some (h, p) =>
      if h.type ≠ containerBegin then
        forEachContainer data scanFuel wantContainerType visitor fuel
      else
        let result ← visitContainer data scanFuel wantContainerType beginItemOffset visitor h p
        if result = .stop then return .stop
        forEachContainer data scanFuel wantContainerType visitor fuel

end Reader

open Reader (VisitResult)

/-- What a visitor does, or the one who has made the reader. It has captured variables, may go on
with the reader any number of times and sees the errors of the reader, which it can let
pass. Whatever it does with a payload is in what it does next. -/
inductive Visit (σ : Type)
  | done (result : VisitResult) (captured : σ)
  | letPass (e : Error)
  | forEach (captured : σ) (visitor : ItemHeader → Bytes → σ → Visit σ)
      (next : Except Error VisitResult → σ → Visit σ)
  | forEachContainer (captured : σ) (wantContainerType : Nat) (visitor : σ → Visit σ)
      (next : Except Error VisitResult → σ → Visit σ)

namespace Visit

variable {σ : Type}

def assign (captured : σ) : Action σ Unit := modify fun w => { w with captured }

def attempt (m : Action σ α) : Action σ (Except Error α) := fun w =>
  match m w with
  | .ok a w => .ok (.ok a) w
  | .error (.byReader e) w => (do
      Reader.note (.threw e)
      return .error e : Action σ (Except Error α)) w
  | .error t w => .error t w

def run (data : Buffer) (fuel : Nat) : Visit σ → Action σ VisitResult
  | .done result captured => do
    assign captured
    return result
  | .letPass e => throw (.byVisitor e)
  | .forEach captured visitor next => do
    assign captured
    let outcome ← attempt (Reader.forEach data
      (fun h p w => (visitor h p w.captured).run data fuel w) fuel)
    fun w => (next outcome w.captured).run data fuel w
  | .forEachContainer captured wantContainerType visitor next => do
    assign captured
    let outcome ← attempt (Reader.forEachContainer data fuel wantContainerType
      (fun w => (visitor w.captured).run data fuel w) fuel)
    fun w => (next outcome w.captured).run data fuel w

end Visit

end FridaCore.Fruity.Kcdata
