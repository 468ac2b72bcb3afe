import FridaCore.Fruity.PlistParser

/-!
# Writing a binary property list

`BinaryWriter` of `src/fruity/plist.vala`. All values are collected first: those that
compare equal get one entry, and each entry a number, which is what references are.
An array or a dict that is met again gets no new entry, but its elements are collected
once more, and added to the ones its entry has. Then the entries are written one after
the other, followed by the table of their offsets and the trailer.

Nothing comes out where an assertion fails.
-/

namespace FridaCore.Fruity

namespace BinaryWriter

/-- `Entry`, `DictEntry` and `ArrayEntry`. Other entries are referred to by number. -/
structure Entry where
  id : Nat
  val : Value Nat
  keys : List Nat := []
  values : List Nat := []
  elements : List Nat := []

def Entry.addKey (key : Nat) (e : Entry) : Entry := { e with keys := e.keys ++ [key] }

def Entry.addValue (value : Nat) (e : Entry) : Entry := { e with values := e.values ++ [value] }

def Entry.addElement (element : Nat) (e : Entry) : Entry :=
  { e with elements := e.elements ++ [element] }

/-- The entry of a value, which may be a new one. The entries are in the order of their
numbers, so the next number is how many there are. -/
def register (v : Value Nat) (entries : List Entry) : Option (Nat × List Entry) :=
  if !hashes v then none
  else
    match entries.find? fun e => compareValuesEq e.val v with
    | some e => some (e.id, entries)
    | none => some (entries.length, entries ++ [{ id := entries.length, val := v }])

def collectKeys (id : Nat) : List Str → List Entry → Option (List Entry)
  | [], entries => some entries
  | key :: rest, entries => do
    let (keyId, entries) ← register (.scalar (.string key)) entries
    collectKeys id rest (entries.modify id (.addKey keyId))

mutual
def collectValue : Value Nat → List Entry → Option (Nat × List Entry)
  | .scalar s, entries => register (.scalar s) entries
  | .array o elements, entries => do
    let (id, entries) ← register (.array o elements) entries
    let entries ← collectElements id elements entries
    return (id, entries)
  | .dict o dict, entries => do
    let (id, entries) ← register (.dict o dict) entries
    let entries ← collectKeys id (dict.map Prod.fst) entries
    let entries ← collectEntryValues id dict entries
    return (id, entries)
def collectElements (id : Nat) : List (Value Nat) → List Entry → Option (List Entry)
  | [], entries => some entries
  | v :: rest, entries => do
    let (element, entries) ← collectValue v entries
    collectElements id rest (entries.modify id (.addElement element))
def collectEntryValues (id : Nat) : List (Str × Value Nat) → List Entry → Option (List Entry)
  | [], entries => some entries
  | (_, v) :: rest, entries => do
    let (value, entries) ← collectValue v entries
    collectEntryValues id rest (entries.modify id (.addValue value))
end

def writeBoolean (val : Bool) : List UInt8 := [0x08 ||| (if val then 0x01 else 0x00)]

def writeInteger (val : Int64) : List UInt8 :=
  if 0 ≤ val ∧ val ≤ 0xff then 0x10 :: beBytes 1 val.toInt.toNat
  else if 0 ≤ val ∧ val ≤ 0xffff then 0x11 :: beBytes 2 val.toInt.toNat
  else if 0 ≤ val ∧ val ≤ 0xffffffff then 0x12 :: beBytes 4 val.toInt.toNat
  else if val < 0 then 0x13 :: beBytes 8 val.toUInt64.toNat
  else 0x14 :: beBytes 8 val.toUInt64.toNat

def writeSizeHeader (objectType size : Nat) : Option (List UInt8) :=
  if size < 15 then some [.ofNat ((objectType <<< 4) ||| size)]
  else if size ≤ 0xff then some (.ofNat ((objectType <<< 4) ||| 0xf) :: 0x10 :: beBytes 1 size)
  else if size ≤ 0xffff then some (.ofNat ((objectType <<< 4) ||| 0xf) :: 0x11 :: beBytes 2 size)
  else if size ≤ 0xffffffff then
    some (.ofNat ((objectType <<< 4) ||| 0xf) :: 0x12 :: beBytes 4 size)
  else none

def writeData (bytes : List UInt8) : Option (List UInt8) := do
  return (← writeSizeHeader 0x4 bytes.length) ++ bytes

def writeString [GLib] (str : Str) : Option (List UInt8) := do
  if GLib.charCount str = str.length then
    return (← writeSizeHeader 0x5 str.length) ++ str
  else
    let units ← GLib.toUtf16 str
    return (← writeSizeHeader 0x6 units.length) ++ units.flatMap fun unit => beBytes 2 unit.toNat

def writeRefs (objectRefSize : Nat) (ids : List Nat) : List UInt8 :=
  ids.flatMap (beBytes objectRefSize)

def writeUid (objectRefSize : Nat) (uid : UInt64) : List UInt8 :=
  .ofNat (0x80 ||| (objectRefSize - 1)) :: beBytes objectRefSize (uid.toNat % 2 ^ 32)

def writeArray (objectRefSize length : Nat) (entry : Entry) : Option (List UInt8) := do
  return (← writeSizeHeader 0xa length) ++ writeRefs objectRefSize entry.elements

def writeDict (objectRefSize size : Nat) (entry : Entry) : Option (List UInt8) := do
  return (← writeSizeHeader 0xd size) ++ writeRefs objectRefSize entry.keys ++
    writeRefs objectRefSize entry.values

def writeEntry [GLib] (objectRefSize : Nat) (entry : Entry) : Option (List UInt8) :=
  match entry.val with
  | .scalar .null => some [0x00]
  | .scalar (.boolean val) => some (writeBoolean val)
  | .scalar (.integer val) => some (writeInteger val)
  | .scalar (.float bits) => some (0x22 :: beBytes 4 bits.toNat)
  | .scalar (.double bits) => some (0x23 :: beBytes 8 bits.toNat)
  | .scalar (.date _) => none
  | .scalar (.data bytes) => writeData bytes
  | .scalar (.string str) => writeString str
  | .scalar (.uid uid) => some (writeUid objectRefSize uid)
  | .array _ elements => writeArray objectRefSize elements.length entry
  | .dict _ dict => writeDict objectRefSize dict.length entry

def computeOffsetSize (largestOffset : Nat) : Nat :=
  if largestOffset ≤ 0xff then 1
  else if largestOffset ≤ 0xffff then 2
  else if largestOffset ≤ 0xffffffff then 4
  else 8

def computeObjectRefSize (numIds : Nat) : Nat :=
  if numIds ≤ 0xff then 1 else if numIds ≤ 0xffff then 2 else 4

def writeEntries [GLib] (objectRefSize : Nat) :
    List Entry → (pos : Nat) → Option (List UInt8 × List Nat)
  | [], _ => some ([], [])
  | entry :: rest, pos => do
    let body ← writeEntry objectRefSize entry
    let (bytes, offsets) ← writeEntries objectRefSize rest (pos + body.length)
    return (body ++ bytes, pos :: offsets)

/-- `bplist00` -/
def header : List UInt8 := [0x62, 0x70, 0x6c, 0x69, 0x73, 0x74, 0x30, 0x30]

def trailer (offsetSize objectRefSize numObjects root offsetTableOffset : Nat) : List UInt8 :=
  List.replicate 6 0 ++ beBytes 1 offsetSize ++ beBytes 1 objectRefSize ++ beBytes 8 numObjects ++
    beBytes 8 root ++ beBytes 8 offsetTableOffset

def writePlist [GLib] (plist : Value Nat) : Option (List UInt8) := do
  let (root, entries) ← collectValue plist []
  let objectRefSize := computeObjectRefSize entries.length
  let (bytes, offsets) ← writeEntries objectRefSize entries header.length
  let offsetTableOffset := header.length + bytes.length
  let offsetSize := computeOffsetSize offsetTableOffset
  return header ++ bytes ++ offsets.flatMap (beBytes offsetSize) ++
    trailer offsetSize objectRefSize entries.length root offsetTableOffset

end BinaryWriter

end FridaCore.Fruity
