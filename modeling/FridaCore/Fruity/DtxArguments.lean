import FridaCore.Fruity.Dtx

/-!
# DTX argument lists

`DTXArgumentList` and `DTXArgumentListBuilder` of `src/fruity/dtx.vala`, with the primitive
reader and builder. The builder has its size as a `uint`, and the reader has the one of an
array, which is an `int`.
-/

namespace FridaCore.Fruity.Dtx

/-- Archives of objects, which are decoded to what was encoded. Nothing is encoded as no
bytes. -/
structure Archive (ν : Type) where
  encode : Option ν → List UInt8
  decode : List UInt8 → Except Error (Option ν)
  encode_none : encode none = []
  encode_ne_nil : ∀ obj, encode (some obj) ≠ []
  decode_encode : ∀ obj, decode (encode (some obj)) = .ok (some obj)

inductive Argument (ν : Type)
  | string (str : List UInt8)
  | object (obj : Option ν)
  | int32 (val : Int32)
  | int64 (val : Int64)
  | double (bits : UInt64)
  deriving DecidableEq, Repr

inductive Value (ν : Type)
  | string (str : Option (List UInt8))
  | object (obj : Option ν)
  | int32 (val : Int32)
  | int64 (val : Int64)
  | double (bits : UInt64)
  deriving DecidableEq, Repr

def Argument.value : Argument ν → Value ν
  | .string str => .string (some str)
  | .object obj => .object obj
  | .int32 val => .int32 val
  | .int64 val => .int64 val
  | .double bits => .double bits

inductive PrimitiveType
  | string
  | buffer
  | int32
  | int64
  | double
  | index
  deriving DecidableEq, Repr

def PrimitiveType.toNat : PrimitiveType → Nat
  | string => 1
  | buffer => 2
  | int32 => 3
  | int64 => 6
  | double => 9
  | index => 10

def PrimitiveType.ofNat? : Nat → Option PrimitiveType
  | 1 => some string
  | 2 => some buffer
  | 3 => some int32
  | 6 => some int64
  | 9 => some double
  | 10 => some index
  | _ => none

def primitiveDictionaryHeaderSize : Nat := 16

structure PrimitiveBuilder where
  buffer : List UInt8 := []
  cursor : Nat := 0
  deriving DecidableEq, Repr

namespace PrimitiveBuilder

/-- `ByteArray.set_size`, where a size is a `uint`. -/
def setSize (buffer : List UInt8) (size : Nat) : List UInt8 :=
  buffer.take (size % 2 ^ 32) ++ List.replicate (size % 2 ^ 32 - buffer.length) 0

/-- Bytes are written through `get_pointer`. There is nothing when they are written behind the
buffer. -/
def append (bytes : List UInt8) (b : PrimitiveBuilder) : Option PrimitiveBuilder :=
  let minimumSize := b.cursor + bytes.length
  let buffer := if b.buffer.length < minimumSize then setSize b.buffer minimumSize else b.buffer
  if minimumSize ≤ buffer.length then
    some ⟨buffer.take b.cursor ++ bytes ++ buffer.drop minimumSize, minimumSize⟩
  else none

/-- `seek`, which fills with zeros. -/
def seek (offset : Nat) (b : PrimitiveBuilder) : Option PrimitiveBuilder :=
  if b.buffer.length < offset then
    append (List.replicate (offset - b.buffer.length) 0) { b with cursor := b.buffer.length }
  else some { b with cursor := offset }

def appendUint32 (val : Nat) : PrimitiveBuilder → Option PrimitiveBuilder := append (leBytes 4 val)

def appendUint64 (val : Nat) : PrimitiveBuilder → Option PrimitiveBuilder := append (leBytes 8 val)

/-- `append_byte_array` and `append_string`. A length is read as a `uint`. -/
def appendByteArray (array : List UInt8) : PrimitiveBuilder → Option PrimitiveBuilder :=
  append (array.take (array.length % 2 ^ 32))

end PrimitiveBuilder

open PrimitiveBuilder

def beginEntry (type : PrimitiveType) (blob : PrimitiveBuilder) : Option PrimitiveBuilder := do
  appendUint32 type.toNat (← appendUint32 PrimitiveType.index.toNat blob)

def appendBytes (type : PrimitiveType) (bytes : List UInt8) (blob : PrimitiveBuilder) :
    Option PrimitiveBuilder := do
  appendByteArray bytes (← appendUint32 bytes.length (← beginEntry type blob))

def appendString (str : List UInt8) : PrimitiveBuilder → Option PrimitiveBuilder :=
  appendBytes .string str

def appendObject (archive : Archive ν) (obj : Option ν) :
    PrimitiveBuilder → Option PrimitiveBuilder :=
  appendBytes .buffer (archive.encode obj)

def appendInt32 (val : Int32) (blob : PrimitiveBuilder) : Option PrimitiveBuilder := do
  appendUint32 val.toUInt32.toNat (← beginEntry .int32 blob)

def appendInt64 (val : Int64) (blob : PrimitiveBuilder) : Option PrimitiveBuilder := do
  appendUint64 val.toUInt64.toNat (← beginEntry .int64 blob)

def appendDouble (bits : UInt64) (blob : PrimitiveBuilder) : Option PrimitiveBuilder := do
  appendUint64 bits.toNat (← beginEntry .double blob)

def appendArgument (archive : Archive ν) :
    Argument ν → PrimitiveBuilder → Option PrimitiveBuilder
  | .string str => appendString str
  | .object obj => appendObject archive obj
  | .int32 val => appendInt32 val
  | .int64 val => appendInt64 val
  | .double bits => appendDouble bits

def fillHeader (size : Nat) (blob : PrimitiveBuilder) : Option PrimitiveBuilder := do
  appendUint64 size (← appendUint64 size (← seek 0 blob))

/-- The constructor, the calls, and `build`, which fills in the header. -/
def buildArguments (archive : Archive ν) (args : List (Argument ν)) : Option (List UInt8) := do
  let blob ← seek primitiveDictionaryHeaderSize {}
  let blob ← args.foldlM (fun blob arg => appendArgument archive arg blob) blob
  let blob ← fillHeader (blob.cursor - primitiveDictionaryHeaderSize) blob
  return blob.buffer

/-- The length of an array as an `int`. -/
def intLength (n : Nat) : Int := if n % 2 ^ 32 < 2 ^ 31 then n % 2 ^ 32 else n % 2 ^ 32 - 2 ^ 32

structure PrimitiveReader where
  rest : List UInt8
  left : Int
  deriving DecidableEq, Repr

namespace PrimitiveReader

abbrev Taking := StateT PrimitiveReader (Except Error)

def new (data : List UInt8) : PrimitiveReader := ⟨data, intLength data.length⟩

/-- `check_available`, and the bytes. -/
def takeBytes (n : Nat) : Taking (List UInt8) := fun r =>
  if r.left < n then .error (.protocol "Invalid dictionary")
  else .ok (r.rest.take n, ⟨r.rest.drop n, r.left - n⟩)

def takeNumber (size : Nat) : Taking Nat := do return leValue (← takeBytes size)

/-- `read_string`, where `substring` has nothing for a string with a NUL. -/
def readString (size : Nat) : Taking (Option (List UInt8)) := do
  let data ← takeBytes size
  return if 0 ∈ data then none else some data

end PrimitiveReader

open PrimitiveReader

def readValue (archive : Archive ν) : Option PrimitiveType → Taking (Value ν)
  | some .string => do return .string (← readString (← takeNumber 4))
  | some .buffer => do
    let size ← takeNumber 4
    if size = 0 then return .object none
    else
      let buf ← takeBytes size
      return .object (← liftM (archive.decode buf))
  | some .int32 => do return .int32 (UInt32.ofNat (← takeNumber 4)).toInt32
  | some .int64 => do return .int64 (UInt64.ofNat (← takeNumber 8)).toInt64
  | some .double => do return .double (.ofNat (← takeNumber 8))
  | some .index | none => throw (.protocol "Unsupported primitive dictionary value type")

def readEntry (archive : Archive ν) : Taking (Value ν) := do
  let key ← takeNumber 4
  if key ≠ PrimitiveType.index.toNat then
    throw (.protocol "Unsupported primitive dictionary key type")
  else
    let type ← takeNumber 4
    readValue archive (PrimitiveType.ofNat? type)

theorem takeBytes_left (h : takeBytes n r = .ok (bytes, t)) : n ≤ r.left ∧ t.left = r.left - n := by
  unfold takeBytes at h
  split at h
  · cases h
  · cases h
    exact ⟨by omega, rfl⟩

theorem takeNumber_left (h : takeNumber n r = .ok (m, t)) : n ≤ r.left ∧ t.left = r.left - n := by
  obtain ⟨bytes, mid, hbytes, hret⟩ := reading_bind_eq_ok h
  cases hret
  exact takeBytes_left hbytes

def Advances (x : Taking α) : Prop := ∀ r a t, x r = .ok (a, t) → t.left ≤ r.left

theorem advances_pure (a : α) : Advances (pure a : Taking α) := by
  rintro r b t ⟨⟩
  exact le_rfl

theorem Advances.bind (hx : Advances x) (hk : ∀ a, Advances (k a)) : Advances (x >>= k) := by
  intro r b t h
  obtain ⟨a, mid, hxa, hka⟩ := reading_bind_eq_ok h
  exact (hk a _ _ _ hka).trans (hx _ _ _ hxa)

theorem advances_takeBytes (n : Nat) : Advances (takeBytes n) := by
  intro r bytes t h
  obtain ⟨-, hleft⟩ := takeBytes_left h
  omega

theorem advances_takeNumber (n : Nat) : Advances (takeNumber n) :=
  (advances_takeBytes n).bind fun _ => advances_pure _

theorem advances_liftM (x : Except Error α) : Advances (liftM x : Taking α) := by
  intro r a t h
  cases x with
  | error e => cases h
  | ok b =>
    cases h
    exact le_rfl

theorem advances_readValue (archive : Archive ν) (type : Option PrimitiveType) :
    Advances (readValue archive type) := by
  have hthrow : ∀ e : Error, Advances (throw e : Taking (Value ν)) := by
    rintro e r a t ⟨⟩
  cases type with
  | none => exact hthrow _
  | some type =>
    cases type with
    | string =>
      exact (advances_takeNumber 4).bind fun n =>
        ((advances_takeBytes n).bind fun _ => advances_pure _).bind fun _ => advances_pure _
    | buffer =>
      refine (advances_takeNumber 4).bind fun n => ?_
      split
      · exact advances_pure _
      · exact (advances_takeBytes n).bind fun _ =>
          (advances_liftM _).bind fun _ => advances_pure _
    | int32 => exact (advances_takeNumber 4).bind fun _ => advances_pure _
    | int64 => exact (advances_takeNumber 8).bind fun _ => advances_pure _
    | double => exact (advances_takeNumber 8).bind fun _ => advances_pure _
    | index => exact hthrow _

theorem readEntry_left (h : readEntry archive r = .ok (v, t)) : t.left.toNat < r.left.toNat := by
  obtain ⟨key, mid, hkey, hrest⟩ := reading_bind_eq_ok h
  obtain ⟨hthere, hleft⟩ := takeNumber_left hkey
  have hadvances : t.left ≤ mid.left := by
    split at hrest
    · cases hrest
    · exact ((advances_takeNumber 4).bind fun _ => advances_readValue archive _) _ _ _ hrest
  omega

/-- The loop of `parse`. -/
def readEntries (archive : Archive ν) (r : PrimitiveReader) : Except Error (List (Value ν)) :=
  if r.left = 0 then .ok []
  else match _h : readEntry archive r with
    | .error e => .error e
    | .ok (v, t) => (v :: ·) <$> readEntries archive t
termination_by r.left.toNat
decreasing_by exact readEntry_left _h

/-- `DTXArgumentList.parse`. -/
def parseArguments (archive : Archive ν) (data : List UInt8) : Except Error (List (Value ν)) := do
  let (_, r) ← takeBytes primitiveDictionaryHeaderSize (.new data)
  readEntries archive r

end FridaCore.Fruity.Dtx
