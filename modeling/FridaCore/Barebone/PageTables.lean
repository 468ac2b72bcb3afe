import FridaCore.Error

/-!
# Enumerating ranges by the page tables

`Arm64Machine` of `src/barebone/arch-arm64/machine.vala` reads the translation
tables of the target from physical memory. The tables are found through TTBR1, and
a range is reported for every block and every page in them.

Unsigned integers of 32 bits wrap around where they are subtracted; everything else
stays in range, so addresses and descriptors are plain numbers.
-/

namespace FridaCore.Barebone.Arm64

abbrev Memory := Nat → UInt8

/-- `read_uint64` of what `read_buffer` returns, in the byte order of the target. -/
def readUint64 (mem : Memory) (address : Nat) : Nat :=
  (List.range 8).foldr (fun i word => (mem (address + i)).toNat + 256 * word) 0

/-- `a - b` for values of type `uint`. -/
def uintSub (a b : Nat) : Nat := (a + 2 ^ 32 - b) % 2 ^ 32

def int48Mask : Nat := 0xffffffffffff

inductive Granule
  | g4K
  | g16K
  | g64K
  deriving DecidableEq, Repr

namespace Granule

def size : Granule → Nat
  | .g4K => 4096
  | .g16K => 16384
  | .g64K => 65536

def fromTg1 (tg1 : Nat) : Except Error Granule :=
  match tg1 with
  | 1 => .ok .g16K
  | 2 => .ok .g4K
  | 3 => .ok .g64K
  | _ => .error (.protocol "Invalid TG1 value")

end Granule

def inpageBitsForGranule : Granule → Nat
  | .g4K => 12
  | .g16K => 14
  | .g64K => 16

def unclippedAddressBitsAtLevel (level : Nat) : Granule → Nat
  | .g4K => 9
  | .g16K => if level = 0 then 1 else 11
  | .g64K => if level = 0 then 0 else if level = 1 then 6 else 13

def addressShiftAtLevel (level : Nat) (granule : Granule) : Nat :=
  inpageBitsForGranule granule +
    ((List.range' level (3 - level)).map (unclippedAddressBitsAtLevel · granule)).sum

def numBlockBitsAtLevel (level : Nat) (granule : Granule) : Nat :=
  if level ≤ 2 then
    match granule with
    | .g4K => if level = 1 then 30 else 21
    | .g16K => 25
    | .g64K => 29
  else inpageBitsForGranule granule

inductive DescriptorKind
  | invalid
  | table
  | block
  deriving DecidableEq, Repr

structure DescriptorFlags where
  nstable : Bool := false
  aptableReadOnly : Bool := false
  aptableDenyApplication : Bool := false
  uxntable : Bool := false
  pxntable : Bool := false
  ns : Bool := false
  uxn : Bool := false
  pxn : Bool := false
  contiguous : Bool := false
  ng : Bool := false
  af : Bool := false
  apReadOnly : Bool := false
  apAllowApplication : Bool := false
  deriving DecidableEq, Repr

structure Descriptor where
  kind : DescriptorKind
  targetAddress : Nat := 0
  flags : DescriptorFlags := {}
  deriving DecidableEq, Repr

namespace Descriptor

def size : Nat := 8

def flag (bits i : Nat) : Bool := (bits >>> i) &&& 1 ≠ 0

def tableFlags (bits : Nat) : DescriptorFlags where
  nstable := flag bits 63
  aptableReadOnly := flag bits 62
  aptableDenyApplication := flag bits 61
  uxntable := flag bits 60
  pxntable := flag bits 59

def blockFlags (bits : Nat) : DescriptorFlags where
  uxn := flag bits 54
  pxn := flag bits 53
  contiguous := flag bits 52
  ng := flag bits 11
  af := flag bits 10
  apReadOnly := flag bits 7
  apAllowApplication := flag bits 6
  ns := flag bits 5

/-- The address in a descriptor, from bit `n` up. -/
def addressFrom (bits n : Nat) : Nat := ((bits >>> n) <<< n) &&& int48Mask

def parse (bits level : Nat) (granule : Granule) : Descriptor :=
  if level ≤ 2 then
    if bits &&& 1 = 0 then { kind := .invalid }
    else if bits &&& 2 ≠ 0 then
      { kind := .table
        targetAddress := addressFrom bits (inpageBitsForGranule granule)
        flags := tableFlags bits }
    else
      { kind := .block
        targetAddress := addressFrom bits (numBlockBitsAtLevel level granule)
        flags := blockFlags bits }
  else if bits &&& 3 ≠ 3 then { kind := .invalid }
  else
    { kind := .block
      targetAddress := addressFrom bits (inpageBitsForGranule granule)
      flags := blockFlags bits }

end Descriptor

structure MMURegisters where
  tcr : UInt64
  ttbr1 : UInt64
  sprrConfig : UInt64 := 0
  sprrPerm : UInt64 := 0
  deriving DecidableEq, Repr

structure MMUParameters where
  granule : Granule
  firstLevel : Nat
  upperBits : Nat
  tt1 : Nat
  t1sz : Nat
  sprrEnabled : Bool
  sprrPerm : Nat
  deriving DecidableEq, Repr

namespace MMUParameters

def numLevels (t1sz : Nat) (granule : Granule) : Nat :=
  let numResolutionBits := uintSub (64 - t1sz) (inpageBitsForGranule granule)
  let maxBitsPerLevel := Nat.log2 (granule.size / Descriptor.size)
  if numResolutionBits % maxBitsPerLevel ≠ 0 then numResolutionBits / maxBitsPerLevel + 1
  else numResolutionBits / maxBitsPerLevel

def upperBitsFor (t1sz : Nat) : Nat :=
  (List.range t1sz).foldl (fun bits i => bits ||| (1 <<< (63 - i))) 0

def load (regs : Option MMURegisters) : Except Error MMUParameters :=
  match regs with
  | none => .error (.invalidOperation "Unable to query in current state")
  | some regs => do
    let granule ← Granule.fromTg1 ((regs.tcr.toNat >>> 30) &&& 0x3)
    let t1sz := (regs.tcr.toNat >>> 16) &&& 0x3f
    return {
      granule
      firstLevel := uintSub 4 (numLevels t1sz granule)
      upperBits := upperBitsFor t1sz
      tt1 := regs.ttbr1.toNat &&& int48Mask
      t1sz
      sprrEnabled := regs.sprrConfig.toNat &&& 1 ≠ 0
      sprrPerm := regs.sprrPerm.toNat }

end MMUParameters

def numAddressBitsAtLevel (level : Nat) (p : MMUParameters) : Nat :=
  if level = p.firstLevel then
    let availableAddressBits := uintSub (64 - p.t1sz) (inpageBitsForGranule p.granule)
    let consumedByLowerLevels :=
      ((List.range' (level + 1) (3 - level)).map (unclippedAddressBitsAtLevel · p.granule)).sum
    uintSub availableAddressBits consumedByLowerLevels
  else unclippedAddressBitsAtLevel level p.granule

def computeMaxEntries (level : Nat) (p : MMUParameters) : Nat :=
  1 <<< numAddressBitsAtLevel level p

structure PageProtection where
  read : Bool := false
  write : Bool := false
  execute : Bool := false
  deriving DecidableEq, Repr

inductive MappingType
  | unknown
  | memory
  | device
  deriving DecidableEq, Repr

structure RangeDetails where
  baseVa : Nat
  basePa : Nat
  size : Nat
  protection : PageProtection
  type : MappingType
  deriving DecidableEq, Repr

def sprrIndex (flags : DescriptorFlags) : Nat :=
  (flags.apReadOnly.toNat <<< 3) ||| (flags.apAllowApplication.toNat <<< 2) |||
    (flags.uxn.toNat <<< 1) ||| flags.pxn.toNat

def protectionFromFlags (flags : DescriptorFlags) (p : MMUParameters) : PageProtection :=
  if p.sprrEnabled then
    let perm := (p.sprrPerm >>> (sprrIndex flags * 4)) &&& 0xf
    match perm &&& 3 with
    | 0 => {}
    | 1 => if perm >>> 2 = 2 then { execute := true } else { read := true, execute := true }
    | 2 => { read := true }
    | _ => if perm >>> 2 = 1 then {} else { read := true, write := true }
  else { read := true, execute := !flags.pxn, write := !flags.apReadOnly }

/-- What is reported for a descriptor. `inner` enumerates the table it points to. -/
def collectEntry (p : MMUParameters) (level : Nat) (inner : Nat → Nat → List RangeDetails)
    (desc : Descriptor) (address : Nat) : List RangeDetails :=
  match desc.kind with
  | .invalid => []
  | .block =>
    let size := 1 <<< numBlockBitsAtLevel level p.granule
    [⟨address, desc.targetAddress, size, protectionFromFlags desc.flags p, .unknown⟩]
  | .table => inner desc.targetAddress address

def descriptorAt (mem : Memory) (p : MMUParameters) (level tableAddress i : Nat) : Descriptor :=
  .parse (readUint64 mem (tableAddress + i * Descriptor.size)) level p.granule

def collectEntries (mem : Memory) (p : MMUParameters) (level : Nat)
    (inner : Nat → Nat → List RangeDetails) (tableAddress upperBits : Nat) : List RangeDetails :=
  (List.range (computeMaxEntries level p)).flatMap fun i =>
    collectEntry p level inner (descriptorAt mem p level tableAddress i)
      (upperBits ||| (i <<< addressShiftAtLevel level p.granule))

/-- The table is at level `3 - below`. At level 3 there is no descriptor of a table. -/
def collectRangesInTable (mem : Memory) (p : MMUParameters) :
    (below tableAddress upperBits : Nat) → List RangeDetails
  | 0 => collectEntries mem p 3 fun _ _ => []
  | below + 1 => collectEntries mem p (3 - (below + 1)) (collectRangesInTable mem p below)

def collectRangesUsingMmu (mem : Memory) (p : MMUParameters) : List RangeDetails :=
  collectRangesInTable mem p (3 - p.firstLevel) p.tt1 p.upperBits

end FridaCore.Barebone.Arm64
