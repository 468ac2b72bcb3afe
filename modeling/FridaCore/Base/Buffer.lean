import FridaCore.Error
import FridaCore.Support.Bytes

/-!
# Buffers

`BufferBuilder` and `BufferReader` of `lib/base/buffer.vala`, in little-endian order. A
builder has the bytes so far and a cursor, which is never beyond them. For a reader the
length of an array is an `int`: the size of a buffer of 2³¹ bytes or more is not what it
should be, and reading goes on behind its end.
-/

namespace FridaCore

open List

structure BufferBuilder where
  buffer : List UInt8 := []
  cursor : Nat := 0
  deriving DecidableEq, Repr

namespace BufferBuilder

def seek (b : BufferBuilder) (offset : Nat) : BufferBuilder where
  buffer := b.buffer ++ List.replicate (offset - b.buffer.length) 0
  cursor := offset

/-- Bytes at an offset that is not beyond the end, which is moved if need be. -/
def writeData (b : BufferBuilder) (offset : Nat) (data : List UInt8) : BufferBuilder :=
  { b with buffer := b.buffer.take offset ++ data ++ b.buffer.drop (offset + data.length) }

def appendData (b : BufferBuilder) (data : List UInt8) : BufferBuilder :=
  { b.writeData b.cursor data with cursor := b.cursor + data.length }

def appendUint16 (b : BufferBuilder) (val : Nat) : BufferBuilder := b.appendData (leBytes 2 val)

def ofBytes (bytes : List UInt8) : BufferBuilder := ⟨bytes, bytes.length⟩

@[simp] theorem ofBytes_buffer (bytes : List UInt8) : (ofBytes bytes).buffer = bytes := rfl

@[simp] theorem appendData_ofBytes (bytes data : List UInt8) :
    (ofBytes bytes).appendData data = ofBytes (bytes ++ data) := by
  simp [ofBytes, appendData, writeData]

@[simp] theorem appendUint16_ofBytes (bytes : List UInt8) (val : Nat) :
    (ofBytes bytes).appendUint16 val = ofBytes (bytes ++ leBytes 2 val) :=
  appendData_ofBytes bytes _

theorem seek_ofBytes (bytes : List UInt8) (h : bytes.length ≤ offset) :
    (ofBytes bytes).seek offset =
      ofBytes (bytes ++ List.replicate (offset - bytes.length) 0) := by
  simp only [ofBytes, seek, List.length_append, List.length_replicate, Nat.add_sub_cancel' h]

end BufferBuilder

inductive ReadStop
  | error (e : Error)
  | outOfBounds
  | outOfFuel
  deriving DecidableEq, Repr

/-- `Buffer.size`, of so many bytes: their number as an `int`, and that as a `size_t`. -/
def bufferSize (n : Nat) : Nat :=
  if n % 2 ^ 32 < 2 ^ 31 then n % 2 ^ 32 else n % 2 ^ 32 + (2 ^ 64 - 2 ^ 32)

theorem bufferSize_of_lt (h : n < 2 ^ 31) : bufferSize n = n := by
  have hmod : n % 2 ^ 32 = n := Nat.mod_eq_of_lt (by omega)
  rw [bufferSize, hmod, if_pos h]

theorem bufferSize_of_le (h : 2 ^ 31 ≤ n) (hlt : n < 2 ^ 32) :
    bufferSize n = n + (2 ^ 64 - 2 ^ 32) := by
  rw [bufferSize, Nat.mod_eq_of_lt hlt, if_neg (by omega)]

/-- A `Buffer` whose size is the number of its bytes: with 2³¹ or more of them it would not be. -/
structure Buffer where
  bytes : List UInt8
  length_lt : bytes.length < 2 ^ 31

def Buffer.size (b : Buffer) : Nat := bufferSize b.bytes.length

theorem Buffer.size_eq (b : Buffer) : b.size = b.bytes.length := bufferSize_of_lt b.length_lt

/-- The bytes that have not been read, and how many there are supposed to be. -/
structure BufferReader where
  rest : List UInt8
  available : Nat
  deriving DecidableEq, Repr

namespace BufferReader

abbrev Reading := StateT BufferReader (Except ReadStop)

def new (bytes : List UInt8) : BufferReader := ⟨bytes, bufferSize bytes.length⟩

def readData (n : Nat) : Reading (List UInt8) := fun r =>
  if r.available < n then .error (.error (.protocol "Malformed buffer: truncated"))
  else if r.rest.length < n then .error .outOfBounds
  else .ok (r.rest.take n, ⟨r.rest.drop n, r.available - n⟩)

def readUint8 : Reading UInt8 := do return (← readData 1).headD 0

def readUint16 : Reading UInt16 := do return .ofNat (leValue (← readData 2))

def readFixedString (size : Nat) : Reading (List UInt8) := do
  return (← readData size).takeWhile (· ≠ 0)

def overrun (excess : Nat) (rest : List UInt8) : BufferReader := ⟨rest, rest.length + excess⟩

variable {excess : Nat} {bytes rest : List UInt8}

theorem new_of_lt (h : bytes.length < 2 ^ 31) : new bytes = overrun 0 bytes := by
  rw [new, bufferSize_of_lt h, overrun, Nat.add_zero]

theorem new_of_le (h : 2 ^ 31 ≤ bytes.length) (hlt : bytes.length < 2 ^ 32) :
    new bytes = overrun (2 ^ 64 - 2 ^ 32) bytes := by
  rw [new, bufferSize_of_le h hlt, overrun]

theorem readData_append (h : bytes.length = n) :
    readData n (overrun excess (bytes ++ rest)) = .ok (bytes, overrun excess rest) := by
  subst h
  have havailable : ¬(bytes ++ rest).length + excess < bytes.length := by
    rw [length_append]
    omega
  have hrest : ¬(bytes ++ rest).length < bytes.length := by
    rw [length_append]
    omega
  have hleft : (bytes ++ rest).length + excess - bytes.length = rest.length + excess := by
    rw [length_append]
    omega
  simp only [readData, overrun, if_neg havailable, if_neg hrest, take_left, drop_left,
    hleft]

theorem readUint8_cons (b : UInt8) (rest : List UInt8) :
    readUint8 (overrun excess (b :: rest)) = .ok (b, overrun excess rest) := by
  have h : readData 1 (overrun excess ([b] ++ rest)) = .ok ([b], overrun excess rest) :=
    readData_append rfl
  rw [singleton_append] at h
  simp only [readUint8, bind, StateT.bind, h, Except.bind]
  rfl

theorem readFixedString_append (h : bytes.length = n) (hnul : 0 ∉ bytes) :
    readFixedString n (overrun excess (bytes ++ rest)) = .ok (bytes, overrun excess rest) := by
  have htake : bytes.takeWhile (· ≠ 0) = bytes :=
    takeWhile_eq_self_iff.2 fun b hb => decide_eq_true fun h0 => hnul (h0 ▸ hb)
  simp only [readFixedString, bind, StateT.bind, readData_append h, Except.bind]
  exact congrArg (fun bytes => Except.ok (bytes, overrun excess rest)) htake

theorem readUint8_nil : ∃ e, readUint8 (overrun excess []) = .error e := by
  obtain ⟨e, he⟩ : ∃ e, readData 1 (overrun excess []) = .error e := by
    unfold readData
    split
    · exact ⟨_, rfl⟩
    · exact ⟨_, rfl⟩
  refine ⟨e, ?_⟩
  simp only [readUint8, bind, StateT.bind, he, Except.bind]

end BufferReader

end FridaCore
