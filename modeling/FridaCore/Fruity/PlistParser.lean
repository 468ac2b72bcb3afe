import FridaCore.Fruity.Plist
import FridaCore.Support.Bytes

/-!
# Parsing a binary property list

`BinaryParser` of `src/fruity/plist.vala`. The trailer at the end of the data says
where the table of offsets is and which object is the topmost one. An array or a dict
has references to other objects, which are parsed where they are found; the position
in the input is restored afterwards. Reading a value may go on forever if references
go around in a circle, so it gets fuel: one unit for each value that is being read.

What GLib does to convert between encodings, and how much memory it can get, is not
part of the repository, and is given by `GLib`. Objects that are not too large can
always be stored; the arrays for their references are allocated as they come.
-/

namespace FridaCore.Fruity

class GLib where
  /-- The most bytes that `g_malloc0_n` can allocate. -/
  memory : Nat
  /-- `g_utf8_strlen` -/
  charCount : Str → Nat
  /-- `g_utf8_to_utf16` -/
  toUtf16 : Str → Option (List UInt16)
  /-- `g_utf16_to_utf8` -/
  toUtf8 : List UInt16 → Option Str

@[reducible] def asciiGLib : GLib where
  memory := 2 ^ 40
  charCount := List.length
  toUtf16 s := some (s.map (·.toUInt16))
  toUtf8 units := some (units.map (·.toUInt8))

inductive Stop
  | invalidData (message : String)
  | io (message : String)
  | aborted
  | outOfFuel
  deriving DecidableEq, Repr

abbrev Reading := StateT Nat (Except Stop)

def maxObjectSize : Nat := 100 * 1024 * 1024

def maxObjectCount : Nat := 32 * 1024

def invalidData (message : String) : Except Stop α := .error (.invalidData message)

def hexDigit (n : Nat) : String := String.ofList (Nat.toDigits 16 n)

namespace BinaryParser

def seek (data : List UInt8) (pos : Nat) : Except Stop Nat :=
  if pos ≤ data.length then .ok pos else .error (.io "Invalid seek request")

/-- `read_byte`, `read_uint16`, `read_uint32` and `read_uint64` -/
def readUint (data : List UInt8) (size : Nat) : Reading Nat := fun pos =>
  let bytes := (data.drop pos).take size
  if bytes.length = size then .ok (beValue bytes, pos + size)
  else .error (.io "Unexpected early end-of-stream")

def readUintOfSize (data : List UInt8) (size : Nat) : Reading Nat :=
  if size = 1 ∨ size = 2 ∨ size = 4 ∨ size = 8 then readUint data size
  else invalidData ("Unsupported uint size: " ++ toString size)

/-- What there is to read may be less than the size of the buffer, which starts out zero. -/
def readAll (data : List UInt8) (size : Nat) : Reading (List UInt8) := fun pos =>
  let bytes := (data.drop pos).take size
  .ok (bytes ++ List.replicate (size - bytes.length) 0, pos + bytes.length)

def checkObjectSize (size : Nat) : Except Stop Unit :=
  if size > maxObjectSize then invalidData "Object too large" else .ok ()

def allocateRefs [GLib] (length : Nat) : Except Stop Unit :=
  if length * 8 > GLib.memory then .error .aborted else .ok ()

structure Trailer where
  offsetSize : Nat
  objectRefSize : Nat
  numObjects : Nat
  topObjectRef : Nat
  offsetTableOffset : Nat
  deriving DecidableEq, Repr

def checkObjectCount (count : Nat) : Except Stop Unit :=
  if count > maxObjectCount then invalidData "Too many objects" else .ok ()

def readTrailerFields (data : List UInt8) : Reading Trailer := do
  let offsetSize ← readUint data 1
  let objectRefSize ← readUint data 1
  let numObjects ← readUint data 8
  checkObjectCount numObjects
  let topObjectRef ← readUint data 8
  let offsetTableOffset ← readUint data 8
  return { offsetSize, objectRefSize, numObjects, topObjectRef, offsetTableOffset }

def readTrailer (data : List UInt8) : Except Stop Trailer :=
  if data.length < 26 then .error (.io "Invalid seek request")
  else Prod.fst <$> readTrailerFields data (data.length - 26)

def readConstant (info : Nat) : Reading Tree :=
  match info with
  | 0 => return .scalar .null
  | 8 | 9 => return .scalar (.boolean (info = 9))
  | _ => invalidData ("Unsupported constant type: 0x" ++ hexDigit info)

def readInteger (data : List UInt8) (info : Nat) : Reading Tree :=
  if info > 4 then invalidData "Integer too large"
  else
    match 1 <<< info with
    | 1 => return .scalar (.integer (.ofNat (← readUint data 1)))
    | 2 => return .scalar (.integer (.ofNat (← readUint data 2)))
    | 4 => return .scalar (.integer (.ofNat (← readUint data 4)))
    | 8 => return .scalar (.integer (UInt64.ofNat (← readUint data 8)).toInt64)
    | size => invalidData ("Unsupported integer size: " ++ toString size)

def readReal (data : List UInt8) (info : Nat) : Reading Tree :=
  match info with
  | 2 => return .scalar (.float (.ofNat (← readUint data 4)))
  | 3 => return .scalar (.double (.ofNat (← readUint data 8)))
  | _ => invalidData ("Unsupported number size: " ++ toString (1 <<< info))

def readDate (data : List UInt8) : Reading Tree :=
  return .scalar (.date (.ofNat (← readUint data 8)))

def readUid (data : List UInt8) (info : Nat) : Reading Tree :=
  return .scalar (.uid (.ofNat (← readUintOfSize data (info + 1))))

def readData (data : List UInt8) (length : Nat) : Reading Tree := do
  checkObjectSize length
  return .scalar (.data (← readAll data length))

def readAsciiString (data : List UInt8) (length : Nat) : Reading Tree := do
  checkObjectSize length
  let bytes ← readAll data length
  return .scalar (.string (bytes.takeWhile (· ≠ 0)))

def utf16Units : List UInt8 → List UInt16
  | hi :: lo :: rest => (hi.toUInt16 <<< 8 ||| lo.toUInt16) :: utf16Units rest
  | _ => []

def readUtf16String [GLib] (data : List UInt8) (length : Nat) : Reading Tree := do
  let size := length * 2 % 2 ^ 64
  checkObjectSize size
  let units := utf16Units (← readAll data size)
  match GLib.toUtf8 (units.takeWhile (· ≠ 0)) with
  | some s => return .scalar (.string s)
  | none => throw (.io "Invalid sequence in conversion input")

def lengthOf : Tree → Except Stop Nat
  | .scalar (.integer length) =>
    if length < 0 then invalidData "Length must be positive" else .ok length.toInt.toNat
  | _ => invalidData "Length must be an integer"

section
variable (data : List UInt8) (t : Trailer) (readValue : Reading Tree)

def readLength : Reading Nat := do lengthOf (← readValue)

def lengthFor (info : Nat) : Reading Nat :=
  if info = 0xf then readLength readValue else return info

def readRefs : Nat → Reading (List Nat)
  | 0 => return []
  | n + 1 => do
    let ref ← readUintOfSize data t.objectRefSize
    return ref :: (← readRefs n)

def seekToObject (objectRef : Nat) : Except Stop Nat := do
  let pos ← seek data ((t.offsetTableOffset + objectRef * t.offsetSize) % 2 ^ 64)
  let (offset, _) ← readUintOfSize data t.offsetSize pos
  seek data offset

def parseObject (objectRef : Nat) : Reading Tree := fun pos => do
  let start ← seekToObject data t objectRef
  let (obj, _) ← readValue start
  return (obj, pos)

def readElements : List Nat → Reading (List Tree)
  | [] => return []
  | ref :: rest => do
    let element ← parseObject data t readValue ref
    return element :: (← readElements rest)

def readArray [GLib] (length : Nat) : Reading Tree := do
  checkObjectSize (length * t.objectRefSize % 2 ^ 64)
  allocateRefs length
  let refs ← readRefs data t length
  return .array () (← readElements data t readValue refs)

def readEntries : List (Nat × Nat) → List (Str × Tree) → Reading (List (Str × Tree))
  | [], dict => return dict
  | (keyRef, valRef) :: rest, dict => do
    let key ← parseObject data t readValue keyRef
    let val ← parseObject data t readValue valRef
    match key with
    | .scalar (.string s) => readEntries rest (setValue s val dict)
    | _ => invalidData ("Dict keys must be strings, not " ++ key.typeName)

def readDict [GLib] (length : Nat) : Reading Tree := do
  checkObjectSize (length * (2 * t.objectRefSize) % 2 ^ 64)
  allocateRefs length
  let keyRefs ← readRefs data t length
  let valRefs ← readRefs data t length
  return .dict () (← readEntries data t readValue (keyRefs.zip valRefs) [])

def readBody [GLib] (objectType info : Nat) : Reading Tree :=
  match objectType with
  | 0x0 => readConstant info
  | 0x1 => readInteger data info
  | 0x2 => readReal data info
  | 0x3 => readDate data
  | 0x4 => lengthFor readValue info >>= readData data
  | 0x5 => lengthFor readValue info >>= readAsciiString data
  | 0x6 => lengthFor readValue info >>= readUtf16String data
  | 0x8 => readUid data info
  | 0xa => lengthFor readValue info >>= readArray data t readValue
  | 0xd => lengthFor readValue info >>= readDict data t readValue
  | _ => invalidData ("Unsupported object type: 0x" ++ hexDigit objectType)

end

def readValue [GLib] (data : List UInt8) (t : Trailer) : Nat → Reading Tree
  | 0 => throw .outOfFuel
  | fuel + 1 => do
    let marker ← readUint data 1
    readBody data t (readValue data t fuel) ((marker &&& 0xf0) >>> 4) (marker &&& 0x0f)

def toplevelDict : Tree → Except Stop (List (Str × Tree))
  | .dict _ entries => .ok entries
  | _ => invalidData "Toplevel must be a dict"

def parseTop [GLib] (fuel : Nat) (data : List UInt8) : Except Stop (List (Str × Tree)) := do
  let t ← readTrailer data
  let (topObject, _) ← parseObject data t (readValue data t fuel) t.topObjectRef data.length
  toplevelDict topObject

def magic : List UInt8 := [0x62, 0x70, 0x6c, 0x69, 0x73, 0x74]

/-- `parse`: the entries of the property list, of an array that has its length. -/
def parse [GLib] (fuel : Nat) (data : List UInt8) : Except Stop (List (Str × Tree)) :=
  if !magic.isPrefixOf data then invalidData "Invalid binary plist"
  else
    match parseTop fuel data with
    | .ok entries => .ok entries
    | .error (.invalidData message) => invalidData ("Invalid binary plist: " ++ message)
    | .error (.io message) => invalidData ("Invalid binary plist: " ++ message)
    | .error stop => .error stop

/-- `Plist.from_binary`. The length of an array is an `int`, and need not be that of its data. The
magic is looked for in the data; 26 bytes before the end there is nothing if the length is less,
or negative. -/
def fromBinary [GLib] (fuel : Nat) (data : List UInt8) (length : Int32) :
    Except Stop (List (Str × Tree)) :=
  if length < 26 then
    if magic.isPrefixOf data then invalidData "Invalid binary plist: Invalid seek request"
    else invalidData "Invalid binary plist"
  else parse fuel (data.take length.toInt.toNat)

end BinaryParser

end FridaCore.Fruity
