import FridaCore.Barebone.Protection
import FridaCore.Support.Bytes

/-!
# Mapping physical pages

`allocate_pages` of `src/barebone/arch-arm64/machine.vala` looks through the translation
tables for a level 3 table with enough entries in a row that are not used, and writes
descriptors into them. What it hands out keeps what was there before, for `deallocate`.

Memory is written only where the search ends, so all of the search reads the memory of the
call. A table is read in chunks; the entry that is looked at is what a chunk has there.
-/

namespace FridaCore.Barebone.Arm64

open List

def readByteArray (mem : Memory) (address size : Nat) : List UInt8 :=
  (List.range size).map fun i => mem (address + i)

def writeByteArray (mem : Memory) (address : Nat) (bytes : List UInt8) : Memory := fun a =>
  if address ≤ a then bytes[a - address]?.getD (mem a) else mem a

structure DescriptorAllocation where
  baseVa : Nat
  size : Nat
  firstSlot : Nat
  oldDescriptors : Option (List UInt8)
  deriving DecidableEq, Repr

abbrev Inserted := DescriptorAllocation × Memory

/-- The variables of the loops in `maybe_insert_descriptor_in_table`. -/
structure Search where
  firstAvailableVa : Nat := 0
  firstAvailableSlot : Nat := 0
  numAvailableSlots : Nat := 0
  deriving DecidableEq, Repr

def Search.extend (s : Search) (address slot : Nat) : Search :=
  let s :=
    if s.firstAvailableVa = 0 then
      { s with firstAvailableVa := address, firstAvailableSlot := slot }
    else s
  { s with numAvailableSlots := s.numAvailableSlots + 1 }

inductive Outcome
  | goOn (s : Search)
  | found (r : Inserted)

/-- The body of the inner loop. `inner` is the search in the table a descriptor points to. -/
def inspect (p : MMUParameters) (level : Nat) (inner : Nat → Nat → Except Error (Option Inserted))
    (rawDescriptor address slot : Nat) (s : Search) : Except Error Outcome :=
  let desc := Descriptor.parse rawDescriptor level p.granule
  if level < 3 then
    if desc.kind ≠ .table then .ok (.goOn s)
    else if desc.flags.pxntable then .ok (.goOn s)
    else (inner desc.targetAddress address).map fun allocation =>
      match allocation with
      | some r => .found r
      | none => .goOn s
  else if desc.kind ≠ .invalid then .ok (.goOn {})
  else .ok (.goOn (s.extend address slot))

def scanChunk (inspectAt : Nat → Search → Except Error Outcome) (numPages : Nat) :
    (count tableIndex : Nat) → Search → Except Error Outcome
  | 0, _, s => .ok (.goOn s)
  | count + 1, tableIndex, s =>
    if s.numAvailableSlots = numPages then .ok (.goOn s)
    else do
      match ← inspectAt tableIndex s with
      | .found r => return .found r
      | .goOn s => scanChunk inspectAt numPages count (tableIndex + 1) s

def scanTable (inspectAt : Nat → Search → Except Error Outcome)
    (numPages chunkMaxSize maxEntries : Nat) :
    (fuel chunkOffset : Nat) → Search → Except Error Outcome
  | 0, _, s => .ok (.goOn s)
  | fuel + 1, chunkOffset, s =>
    if chunkOffset = maxEntries ∨ s.numAvailableSlots = numPages then .ok (.goOn s)
    else do
      let chunkSize := min chunkMaxSize (maxEntries - chunkOffset)
      match ← scanChunk inspectAt numPages chunkSize chunkOffset s with
      | .found r => return .found r
      | .goOn s =>
        scanTable inspectAt numPages chunkMaxSize maxEntries fuel (chunkOffset + chunkSize) s

def pageProt (p : MMUParameters) : PageProtection :=
  { read := true, write := true, execute := !p.sprrEnabled }

def newDescriptors (physicalAddresses : List UInt64) (p : MMUParameters) :
    Except Error (List UInt64) :=
  physicalAddresses.mapM fun address => applyProtectionBits (address ||| 0x403) (pageProt p) p

def descriptorBytes (descriptors : List UInt64) : List UInt8 :=
  descriptors.flatMap fun d => leBytes 8 d.toNat

def insertDescriptors (mem : Memory) (physicalAddresses : List UInt64) (p : MMUParameters)
    (s : Search) : Except Error (Option Inserted) :=
  if s.numAvailableSlots ≠ physicalAddresses.length then .ok none
  else do
    let bytes := descriptorBytes (← newDescriptors physicalAddresses p)
    let oldDescriptors := readByteArray mem s.firstAvailableSlot bytes.length
    let allocation : DescriptorAllocation :=
      { baseVa := s.firstAvailableVa
        size := physicalAddresses.length * p.granule.size
        firstSlot := s.firstAvailableSlot
        oldDescriptors := some oldDescriptors }
    return some (allocation, writeByteArray mem s.firstAvailableSlot bytes)

def searchTable (mem : Memory) (physicalAddresses : List UInt64) (p : MMUParameters) (level : Nat)
    (inner : Nat → Nat → Except Error (Option Inserted)) (tableAddress upperBits : Nat) :
    Except Error (Option Inserted) := do
  let inspectAt (tableIndex : Nat) (s : Search) : Except Error Outcome :=
    let slot := tableAddress + tableIndex * Descriptor.size
    inspect p level inner (readUint64 mem slot)
      (upperBits ||| (tableIndex <<< addressShiftAtLevel level p.granule)) slot s
  let maxEntries := computeMaxEntries level p
  let chunkMaxSize := if level < 3 then 4 else 64
  match ← scanTable inspectAt physicalAddresses.length chunkMaxSize maxEntries maxEntries 0 {} with
  | .found r => return some r
  | .goOn s => insertDescriptors mem physicalAddresses p s

/-- There are `below` levels below the one of the table. -/
def maybeInsertDescriptorInTable (mem : Memory) (physicalAddresses : List UInt64)
    (p : MMUParameters) : (below level tableAddress upperBits : Nat) →
      Except Error (Option Inserted)
  | 0, level => searchTable mem physicalAddresses p level fun _ _ => .ok none
  | below + 1, level => searchTable mem physicalAddresses p level
      (maybeInsertDescriptorInTable mem physicalAddresses p below (level + 1))

def allocatePages (mem : Memory) (regs : Option MMURegisters) (physicalAddresses : List UInt64) :
    Except Error Inserted := do
  let p ← MMUParameters.load regs
  match ← maybeInsertDescriptorInTable mem physicalAddresses p (3 - p.firstLevel) p.firstLevel
      p.tt1 p.upperBits with
  | some r => return r
  | none =>
    throw (.notSupported "Unable to insert page table mapping; please file a bug")

def DescriptorAllocation.deallocate (allocation : DescriptorAllocation) (mem : Memory) :
    Except Error (DescriptorAllocation × Memory) :=
  match allocation.oldDescriptors with
  | none => .error (.invalidOperation "Already deallocated")
  | some d => .ok ({ allocation with oldDescriptors := none },
      writeByteArray mem allocation.firstSlot d)

section
variable {mem : Memory} {address size a : Nat} {bytes : List UInt8}

@[simp] theorem length_readByteArray : (readByteArray mem address size).length = size := by
  simp [readByteArray]

theorem writeByteArray_of_lt (h : a < address) : writeByteArray mem address bytes a = mem a := by
  rw [writeByteArray, if_neg (Nat.not_le.mpr h)]

theorem writeByteArray_of_le (h : address + bytes.length ≤ a) :
    writeByteArray mem address bytes a = mem a := by
  rw [writeByteArray, getElem?_eq_none (by omega)]
  simp

theorem writeByteArray_outside (h : a < address ∨ address + bytes.length ≤ a) :
    writeByteArray mem address bytes a = mem a :=
  h.elim writeByteArray_of_lt writeByteArray_of_le

theorem writeByteArray_inside (h : i < bytes.length) :
    writeByteArray mem address bytes (address + i) = bytes.get ⟨i, h⟩ := by
  simp [writeByteArray, h]

theorem writeByteArray_readByteArray (mem' : Memory) (h : address ≤ a) (h' : a < address + size) :
    writeByteArray mem' address (readByteArray mem address size) a = mem a := by
  obtain ⟨i, rfl⟩ := Nat.exists_eq_add_of_le h
  rw [writeByteArray_inside (by rw [length_readByteArray]; omega)]
  simp [readByteArray]

theorem readUint64_eq_leValue (mem : Memory) (address : Nat) :
    readUint64 mem address = leValue (readByteArray mem address 8) := by
  rw [leValue, beValue, foldl_reverse, readByteArray, foldr_map, readUint64]
  congr
  funext i word
  omega

theorem readByteArray_congr (h : ∀ a, address ≤ a → a < address + size → mem' a = mem a) :
    readByteArray mem' address size = readByteArray mem address size := by
  refine map_congr_left fun i hi => ?_
  rw [mem_range] at hi
  exact h _ (by omega) (by omega)

theorem readByteArray_writeByteArray (h : i + size ≤ bytes.length) :
    readByteArray (writeByteArray mem address bytes) (address + i) size =
      (bytes.drop i).take size := by
  apply ext_getElem
  · simp
    omega
  · intro k hk hk'
    rw [length_readByteArray] at hk
    simp only [readByteArray, getElem_map, getElem_range, Nat.add_assoc]
    rw [writeByteArray_inside (by omega)]
    simp

@[simp] theorem length_descriptorBytes (descriptors : List UInt64) :
    (descriptorBytes descriptors).length = 8 * descriptors.length := by
  induction descriptors with
  | nil => rfl
  | cons d rest ih =>
    rw [descriptorBytes, flatMap_cons, length_append, ← descriptorBytes, ih]
    simp
    omega

theorem drop_descriptorBytes (descriptors : List UInt64) (i : Nat) :
    (descriptorBytes descriptors).drop (8 * i) = descriptorBytes (descriptors.drop i) := by
  induction i generalizing descriptors with
  | zero => simp
  | succ i ih =>
    cases descriptors with
    | nil => rfl
    | cons d rest =>
      have hcons : descriptorBytes (d :: rest) = leBytes 8 d.toNat ++ descriptorBytes rest := rfl
      rw [hcons, drop_succ_cons, ← ih, Nat.mul_succ, Nat.add_comm, ← drop_drop]
      simp

theorem readUint64_written (h : i < descriptors.length) :
    readUint64 (writeByteArray mem address (descriptorBytes descriptors)) (address + 8 * i) =
      (descriptors.get ⟨i, h⟩).toNat := by
  have hlength : 8 * i + 8 ≤ (descriptorBytes descriptors).length := by
    rw [length_descriptorBytes]
    omega
  have hword : (descriptorBytes (descriptors.drop i)).take 8 =
      leBytes 8 (descriptors.get ⟨i, h⟩).toNat := by
    rw [drop_eq_getElem_cons h, descriptorBytes, flatMap_cons,
      take_append_of_le_length (by simp), take_of_length_le (by simp)]
    rfl
  rw [readUint64_eq_leValue, readByteArray_writeByteArray hlength, drop_descriptorBytes, hword,
    leValue_leBytes]
  exact Nat.mod_eq_of_lt (UInt64.toNat_lt _)

theorem readUint64_outside (h : a + 8 ≤ address ∨ address + bytes.length ≤ a) :
    readUint64 (writeByteArray mem address bytes) a = readUint64 mem a := by
  rw [readUint64_eq_leValue, readUint64_eq_leValue, readByteArray_congr]
  intro b hb hb'
  exact writeByteArray_outside (by omega)

end

end FridaCore.Barebone.Arm64
