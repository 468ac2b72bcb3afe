import FridaCore.Barebone.PageTables
import FridaCore.Support.Except

/-!
# The stage 1 walk

How the architecture translates an address of the upper range: where the index is
at each level, at which levels there are blocks, and how a walk goes from TTBR1 to
a block or a page. The tables are the ones in `PageTables`, but nothing in the walk
is taken from there.
-/

namespace FridaCore.Barebone.Arm64.Armv8

def pageBits : Granule → Nat
  | .g4K => 12
  | .g16K => 14
  | .g64K => 16

/-- The lowest bit of the index at a level. With the largest granule there is no level 0. -/
def indexLsb : Granule → Nat → Option Nat
  | .g4K, 0 => some 39
  | .g4K, 1 => some 30
  | .g4K, 2 => some 21
  | .g4K, 3 => some 12
  | .g16K, 0 => some 47
  | .g16K, 1 => some 36
  | .g16K, 2 => some 25
  | .g16K, 3 => some 14
  | .g64K, 1 => some 42
  | .g64K, 2 => some 29
  | .g64K, 3 => some 16
  | _, _ => none

def blockAllowed : Granule → Nat → Bool
  | .g4K, 1 | .g4K, 2 | .g16K, 2 | .g64K, 2 => true
  | _, _ => false

/-- A table has room for `pageBits - 3` bits of the index. -/
def initialLevel (g : Granule) (t1sz : Nat) : Nat :=
  let stride := pageBits g - 3
  4 - (64 - t1sz - pageBits g + (stride - 1)) / stride

/-- The bits of a word from `lo` up to but not including `hi`, where they are. -/
def field (word hi lo : Nat) : Nat := word % 2 ^ hi / 2 ^ lo * 2 ^ lo

def walkEntry (g : Granule) (level lsb : Nat) (inner : Nat → Option Nat) (v desc : Nat) :
    Option Nat :=
  if desc % 2 = 0 then none
  else if desc / 2 % 2 = 0 then
    if blockAllowed g level then some (field desc 48 lsb + v % 2 ^ lsb) else none
  else if level = 3 then some (field desc 48 lsb + v % 2 ^ lsb)
  else inner (field desc 48 (pageBits g))

/-- The lookup at one level, where the bits of the address below `top` are left. -/
def walkLevel (mem : Memory) (g : Granule) (v level : Nat) (inner : Nat → Nat → Option Nat)
    (top base : Nat) : Option Nat :=
  match indexLsb g level with
  | none => none
  | some lsb =>
    walkEntry g level lsb (inner lsb) v (readUint64 mem (base + 8 * (v % 2 ^ top / 2 ^ lsb)))

/-- The walk from level `3 - below` on. -/
def walkFrom (mem : Memory) (g : Granule) (v : Nat) : (below top base : Nat) → Option Nat
  | 0 => walkLevel mem g v 3 fun _ _ => none
  | below + 1 => walkLevel mem g v (3 - (below + 1)) (walkFrom mem g v below)

/-- The table is aligned to its size: the bits of TTBR1 below that are not of the address. -/
def walk (mem : Memory) (g : Granule) (t1sz ttbr1 v : Nat) : Option Nat :=
  let inputSize := 64 - t1sz
  let level := initialLevel g t1sz
  if v / 2 ^ inputSize ≠ 2 ^ t1sz - 1 then none
  else
    match indexLsb g level with
    | none => none
    | some lsb =>
      walkFrom mem g v (3 - level) inputSize (field ttbr1 48 (3 + inputSize - lsb))

end Armv8

open Armv8

variable {mem : Memory} {p : MMUParameters} {g : Granule} {level top s v q : Nat}

def leafAllowed (g : Granule) (level : Nat) : Bool := level = 3 || blockAllowed g level

/-- The entries of a table at some level and the bits of the address that is left go together. -/
structure Fits (p : MMUParameters) (level top s : Nat) : Prop where
  lsb : indexLsb p.granule level = some s
  lt : s < top
  entries : computeMaxEntries level p = 2 ^ (top - s)
  block_le : numBlockBitsAtLevel level p.granule ≤ s
  block_eq : leafAllowed p.granule level = true → numBlockBitsAtLevel level p.granule = s

/-- From level `3 - below` on, indices are where the architecture has them. -/
def InPlace (p : MMUParameters) : (below top : Nat) → Prop
  | 0, top => ∃ s, Fits p 3 top s ∧ addressShiftAtLevel 3 p.granule = s
  | below + 1, top => ∃ s, Fits p (3 - (below + 1)) top s ∧
      addressShiftAtLevel (3 - (below + 1)) p.granule = s ∧ InPlace p below s

theorem InPlace.fits (h : InPlace p below top) : ∃ s, Fits p (3 - below) top s ∧
    addressShiftAtLevel (3 - below) p.granule = s := by
  cases below with
  | zero => exact h
  | succ below =>
    obtain ⟨s, hfits, hshift, -⟩ := h
    exact ⟨s, hfits, hshift⟩

section
variable (hb : below ≤ 2) (hfirst : p.firstLevel < 3 - below)
  (htop : indexLsb p.granule (3 - (below + 1)) = some top)
include hb hfirst htop

theorem fits_below :
    ∃ s, Fits p (3 - below) top s ∧ addressShiftAtLevel (3 - below) p.granule = s := by
  have hentries : computeMaxEntries (3 - below) p =
      2 ^ unclippedAddressBitsAtLevel (3 - below) p.granule := by
    rw [computeMaxEntries, numAddressBitsAtLevel, if_neg (by omega), Nat.one_shiftLeft]
  have hcases : below = 0 ∨ below = 1 ∨ below = 2 := by omega
  cases hg : p.granule <;> rw [hg] at htop hentries <;>
    rcases hcases with rfl | rfl | rfl <;>
    simp only [indexLsb, Option.some.injEq, reduceCtorEq, Nat.reduceSub, Nat.reduceAdd] at htop <;>
    (subst htop
     refine ⟨_, ⟨?_, ?_, hentries, ?_, ?_⟩, rfl⟩ <;> simp [hg]) <;> decide

theorem inPlace_below : InPlace p below top := by
  induction below generalizing top with
  | zero => exact fits_below hb hfirst htop
  | succ below ih =>
    obtain ⟨s, hfits, hshift⟩ := fits_below hb hfirst htop
    exact ⟨s, hfits, hshift, ih (by omega) (by omega) hfits.lsb⟩

end

end FridaCore.Barebone.Arm64
