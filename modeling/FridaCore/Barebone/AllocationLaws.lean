import FridaCore.Barebone.AllocationSearch
import FridaCore.Barebone.FirstLevel

/-!
# What an allocation changes

An allocation that is confined changes entries of one level 3 table that did not map pages,
and nothing else. It is, unless the entries at virtual address zero are overrun.
-/

namespace FridaCore.Barebone.Arm64

open Descriptor

open Armv8 (field)

variable {mem mem' : Memory} {p : MMUParameters} {physicalAddresses : List UInt64}

structure Suitable (p : MMUParameters) (physicalAddresses : List UInt64) : Prop where
  nonempty : physicalAddresses ≠ []
  aligned : ∀ a ∈ physicalAddresses, a.toNat % p.granule.size = 0
  small : ∀ a ∈ physicalAddresses, a.toNat < 2 ^ 48

theorem testBit_addressFrom (bits n i : Nat) :
    (addressFrom bits n).testBit i = (decide (n ≤ i) && decide (i < 48) &&
      bits.testBit i) := by
  have hmask : int48Mask = 2 ^ 48 - 1 := rfl
  rw [addressFrom, hmask, Nat.testBit_and, Nat.testBit_shiftLeft,
    Nat.testBit_two_pow_sub_one, Nat.testBit_shiftRight]
  by_cases hn : n ≤ i
  · simp [hn, Bool.and_comm]
  · simp [hn]

theorem size_eq_two_pow (g : Granule) : g.size = 2 ^ inpageBitsForGranule g := by
  cases g <;> rfl

theorem inpageBits_bounds (g : Granule) :
    12 ≤ inpageBitsForGranule g ∧ inpageBitsForGranule g ≤ 48 := by
  cases g <;> decide

theorem bitAt_base (address : UInt64) (i : Nat) :
    bitAt (address ||| 0x403) i = (bitAt address i || decide (i = 0 ∨ i = 1 ∨ i = 10)) := by
  have hbase : ∀ i, bitAt 0x403 i = decide (i = 0 ∨ i = 1 ∨ i = 10) := by
    intro i
    by_cases hi : i < 64
    · have hall : ∀ i : Fin 64, bitAt 0x403 i.val = decide (i.val = 0 ∨ i.val = 1 ∨ i.val = 10) := by
        decide
      exact hall ⟨i, hi⟩
    · have hlt : (0x403 : UInt64).toNat < 2 ^ i :=
        Nat.lt_of_lt_of_le (by decide : (0x403 : UInt64).toNat < 2 ^ 64)
          (Nat.pow_le_pow_right (by decide) (Nat.le_of_not_lt hi))
      rw [bitAt, Nat.testBit_lt_two_pow hlt]
      simp
      omega
  rw [bitAt_or, hbase]

theorem parse_newDescriptor (prot : PageProtection)
    (h : applyProtectionBits (address ||| 0x403) prot p = .ok d)
    (haligned : address.toNat % p.granule.size = 0) (hsmall : address.toNat < 2 ^ 48) :
    (parse d.toNat 3 p.granule).kind = .block ∧
      (parse d.toNat 3 p.granule).targetAddress = address.toNat := by
  have hbits := onlyProtectionDiffers_apply h
  have hmapped : d.toNat &&& 3 = 3 := by
    rw [mapped_iff, hbits 0 (by decide), hbits 1 (by decide), bitAt_base, bitAt_base]
    simp
  have hparse : parse d.toNat 3 p.granule =
      { kind := .block
        targetAddress := addressFrom d.toNat (inpageBitsForGranule p.granule)
        flags := blockFlags d.toNat } := by
    simp [parse, hmapped]
  rw [hparse]
  refine ⟨rfl, Nat.eq_of_testBit_eq fun i => ?_⟩
  rw [testBit_addressFrom]
  obtain ⟨hlow, -⟩ := inpageBits_bounds p.granule
  by_cases hpage : inpageBitsForGranule p.granule ≤ i
  · by_cases hi : i < 48
    · have hbit : bitAt d i = bitAt address i := by
        rw [hbits i (by simp only [IsProtectionBit]; omega), bitAt_base]
        have hnot : ¬(i = 0 ∨ i = 1 ∨ i = 10) := by omega
        simp [hnot]
      simpa [hpage, hi, bitAt] using hbit
    · have hzero : address.toNat.testBit i = false := Nat.testBit_lt_two_pow
        (Nat.lt_of_lt_of_le hsmall (Nat.pow_le_pow_right (by decide) (Nat.le_of_not_lt hi)))
      simp [hi, hzero]
  · obtain ⟨k, hk⟩ := Nat.dvd_of_mod_eq_zero (size_eq_two_pow p.granule ▸ haligned)
    have hzero : address.toNat.testBit i = false := by
      rw [hk, Nat.testBit_two_pow_mul]
      simp [hpage]
    simp [hpage, hzero]

theorem mem_newDescriptors (h : newDescriptors physicalAddresses p = .ok descriptors)
    (i : Nat) (hi : i < physicalAddresses.length) (hi' : i < descriptors.length) :
    applyProtectionBits (physicalAddresses.get ⟨i, hi⟩ ||| 0x403) (pageProt p) p =
      .ok (descriptors.get ⟨i, hi'⟩) := by
  induction physicalAddresses generalizing descriptors i with
  | nil => exact absurd hi (Nat.not_lt_zero i)
  | cons address rest ih =>
    rw [newDescriptors, List.mapM_cons] at h
    obtain ⟨d, hd, h⟩ := bind_eq_ok h
    obtain ⟨ds, hds, h⟩ := bind_eq_ok h
    cases h
    cases i with
    | zero => exact hd
    | succ i => exact ih hds i (Nat.lt_of_succ_lt_succ hi) (Nat.lt_of_succ_lt_succ hi')

theorem leads_level (h : Relation.ReflTransGen (Leads mem p) a b) : a.level ≤ b.level := by
  induction h with
  | refl => exact Nat.le_refl _
  | tail _ hstep ih =>
    cases hstep
    exact Nat.le_succ_of_le ih

theorem parse_target (h : (parse bits level g).kind = .table) :
    (parse bits level g).targetAddress =
      addressFrom bits (inpageBitsForGranule g) := by
  by_cases hlevel : level ≤ 2
  · by_cases hvalid : bits &&& 1 = 0
    · simp only [parse, hlevel, hvalid, if_true, reduceCtorEq] at h
    · by_cases htable : bits &&& 2 = 0
      · simp only [parse, hlevel, hvalid, htable, ne_eq, not_true_eq_false, if_true,
          if_false, reduceCtorEq] at h
      · simp only [parse, hlevel, hvalid, htable, ne_eq, not_false_eq_true, if_true,
          if_false]
  · by_cases hpage : bits &&& 3 = 3
    · simp only [parse, hlevel, hpage, ne_eq, not_true_eq_false, if_false,
        reduceCtorEq] at h
    · simp only [parse, hlevel, hpage, ne_eq, not_false_eq_true, if_true, if_false,
        reduceCtorEq] at h

theorem target_dvd (hkind : (descriptorAt mem p level table i).kind = .table) :
    4096 ∣ (descriptorAt mem p level table i).targetAddress := by
  have htarget := parse_target hkind
  obtain ⟨hlow, hhigh⟩ := inpageBits_bounds p.granule
  rw [descriptorAt, htarget, addressFrom_eq_field hhigh, field]
  have hpow : (4096 : Nat) ∣ 2 ^ inpageBitsForGranule p.granule := pow_dvd_pow 2 hlow
  exact hpow.mul_left _

/-- All level 3 tables begin at a page, or there is only the one TTBR1 points to. -/
theorem reached_base (h : ReachedAt mem p ⟨3, table, address⟩) :
    p.firstLevel ≤ 3 ∧ (p.firstLevel = 3 → table = p.tt1) ∧ (p.firstLevel ≠ 3 → 4096 ∣ table) := by
  refine ⟨leads_level h, ?_⟩
  rcases Relation.ReflTransGen.cases_tail h with heq | ⟨before, hbefore, hstep⟩
  · simp only [firstPlace, Place.mk.injEq] at heq
    exact ⟨fun _ => heq.2.1, fun hne => absurd heq.1.symm hne⟩
  · have hle := leads_level hbefore
    generalize hplace : (⟨3, table, address⟩ : Place) = place at hstep
    cases hstep with
    | entry hupper hi hkind hflags =>
      simp only [Place.mk.injEq] at hplace
      simp only [firstPlace] at hle
      exact ⟨fun hthree => by omega, fun _ => hplace.2.1 ▸ target_dvd hkind⟩

def gridBase (p : MMUParameters) : Nat := if p.firstLevel = 3 then p.tt1 else 0

theorem reached_slot (h : ReachedAt mem p ⟨3, table, address⟩) (i : Nat) :
    ∃ k, entrySlot table i = gridBase p + 8 * k := by
  obtain ⟨-, hroot, hother⟩ := reached_base h
  by_cases hthree : p.firstLevel = 3
  · exact ⟨i, by simp only [entrySlot, gridBase, hthree, if_true, hroot hthree, size]; omega⟩
  · obtain ⟨k, rfl⟩ := hother hthree
    exact ⟨512 * k + i, by simp only [entrySlot, gridBase, hthree, if_false, size]; omega⟩

/-- The pages are mapped by entries in a row of a level 3 table that did not map any, and
there is no other change. -/
structure ConfinedTo (mem : Memory) (p : MMUParameters) (physicalAddresses : List UInt64)
    (mem' : Memory) (table index : Nat) : Prop where
  reached : ∃ address, ReachedAt mem p ⟨3, table, address⟩
  row : Row mem p 3 table index physicalAddresses.length
  mapped : ∀ i (hi : i < physicalAddresses.length),
    (descriptorAt mem' p 3 table (index + i)).kind = .block ∧
      (descriptorAt mem' p 3 table (index + i)).targetAddress =
        (physicalAddresses.get ⟨i, hi⟩).toNat
  frame : ∀ a, a < entrySlot table index ∨
    entrySlot table (index + physicalAddresses.length) ≤ a → mem' a = mem a

def Confined (mem : Memory) (p : MMUParameters) (physicalAddresses : List UInt64)
    (mem' : Memory) : Prop :=
  ∃ table index, ConfinedTo mem p physicalAddresses mem' table index

/-- The first entries of the table for virtual address zero are enough, but the same number
from the second one on is not free. -/
def Overrun (mem : Memory) (p : MMUParameters) (count : Nat) : Prop :=
  2 ≤ count ∧ ∃ table, ReachedAt mem p ⟨3, table, 0⟩ ∧ Row mem p 3 table 0 count ∧
    ¬Row mem p 3 table 1 count

theorem entrySlot_add (table i k : Nat) : entrySlot table (i + k) = entrySlot table i + 8 * k := by
  simp only [entrySlot, size]
  omega

theorem descriptorAt_eq (mem : Memory) (p : MMUParameters) (level table i : Nat) :
    descriptorAt mem p level table i =
      .parse (readUint64 mem (entrySlot table i)) level p.granule := rfl

theorem free_iff : Free mem p 3 table i ↔ readUint64 mem (entrySlot table i) &&& 3 ≠ 3 := by
  rw [Free, descriptorAt_eq]
  by_cases hmapped : readUint64 mem (entrySlot table i) &&& 3 = 3
  · simp [parse, hmapped]
  · simp [parse, hmapped]

theorem free_of_kind (h : (descriptorAt mem p 3 table i).kind = .block) :
    ¬Free mem p 3 table i := by
  rw [Free, h]
  decide

section
variable {descriptors : List UInt64} {level table upperBits index : Nat}

theorem mapped_insertedAt (mem : Memory) (level table upperBits index : Nat)
    (hsuitable : Suitable p physicalAddresses)
    (hnew : newDescriptors physicalAddresses p = .ok descriptors) (i : Nat)
    (hi : i < physicalAddresses.length) :
    (descriptorAt (insertedAt mem p level table upperBits index descriptors).2 p 3 table
        (index + i)).kind = .block ∧
      (descriptorAt (insertedAt mem p level table upperBits index descriptors).2 p 3 table
        (index + i)).targetAddress = (physicalAddresses.get ⟨i, hi⟩).toNat := by
  have hi' : i < descriptors.length := length_newDescriptors hnew ▸ hi
  have hmem := List.get_mem physicalAddresses ⟨i, hi⟩
  have hword : readUint64 (insertedAt mem p level table upperBits index descriptors).2
      (entrySlot table (index + i)) = (descriptors.get ⟨i, hi'⟩).toNat := by
    rw [entrySlot_add]
    exact readUint64_written hi'
  rw [descriptorAt_eq, hword]
  exact parse_newDescriptor (pageProt p) (mem_newDescriptors hnew i hi hi')
    (hsuitable.aligned _ hmem) (hsuitable.small _ hmem)

theorem insertedAt_frame (h : a < entrySlot table index ∨
    entrySlot table (index + descriptors.length) ≤ a) :
    (insertedAt mem p level table upperBits index descriptors).2 a = mem a := by
  refine writeByteArray_outside ?_
  rw [length_descriptorBytes, ← entrySlot_add]
  exact h

theorem confinedTo_insertedAt (hsuitable : Suitable p physicalAddresses)
    (hnew : newDescriptors physicalAddresses p = .ok descriptors)
    (hreached : ReachedAt mem p ⟨3, table, address⟩)
    (hrow : Row mem p 3 table index physicalAddresses.length) :
    ConfinedTo mem p physicalAddresses
      (insertedAt mem p level table upperBits index descriptors).2 table index :=
  ⟨⟨address, hreached⟩, hrow, mapped_insertedAt mem level table upperBits index hsuitable hnew,
    fun _ ha => insertedAt_frame (length_newDescriptors hnew ▸ ha)⟩

theorem ConfinedTo.covers (h : ConfinedTo mem p physicalAddresses mem' table' index')
    (hreached : ReachedAt mem p ⟨3, table, address⟩) (hbefore : Free mem p 3 table i)
    (hafter : ¬Free mem' p 3 table i) :
    ∃ k < physicalAddresses.length, entrySlot table i = entrySlot table' (index' + k) := by
  obtain ⟨address', hreached'⟩ := h.reached
  obtain ⟨m, hm⟩ := reached_slot hreached i
  obtain ⟨m', hm'⟩ := reached_slot hreached' index'
  have hnot : ¬(entrySlot table i + 8 ≤ entrySlot table' index' ∨
      entrySlot table' (index' + physicalAddresses.length) ≤ entrySlot table i) := by
    intro hapart
    have hsame : readUint64 mem' (entrySlot table i) = readUint64 mem (entrySlot table i) := by
      rw [readUint64_eq_leValue, readUint64_eq_leValue, readByteArray_congr]
      intro a ha ha'
      exact h.frame a (by omega)
    rw [free_iff] at hbefore hafter
    exact hafter (hsame ▸ hbefore)
  rw [entrySlot_add] at hnot
  refine ⟨m - m', by omega, ?_⟩
  rw [entrySlot_add]
  omega

/-- Where the row is taken to begin too late, the allocation is not confined. -/
theorem not_confined_of_overrun (hsuitable : Suitable p physicalAddresses)
    (hnew : newDescriptors physicalAddresses p = .ok descriptors)
    (htwo : 2 ≤ physicalAddresses.length) (hreached : ReachedAt mem p ⟨3, table, 0⟩)
    (hfirst : Row mem p 3 table 0 physicalAddresses.length)
    (hsecond : ¬Row mem p 3 table 1 physicalAddresses.length) :
    ¬Confined mem p physicalAddresses (insertedAt mem p level table upperBits 1 descriptors).2 := by
  rintro ⟨table', index', h⟩
  -- the entries from the second one to the last one of the row have changed
  have hcovers : ∀ i, 1 ≤ i → i < physicalAddresses.length →
      ∃ k < physicalAddresses.length, entrySlot table i = entrySlot table' (index' + k) := by
    intro i hone hi
    refine h.covers hreached (Nat.zero_add i ▸ hfirst.free i hi) (free_of_kind ?_)
    have hmapped := (mapped_insertedAt mem level table upperBits 1 hsuitable hnew (i - 1)
      (by omega)).1
    rwa [Nat.add_sub_cancel' hone] at hmapped
  obtain ⟨k, hk, hslot⟩ := hcovers 1 (Nat.le_refl _) (by omega)
  obtain ⟨l, hl, hlast⟩ := hcovers (physicalAddresses.length - 1) (by omega) (by omega)
  rw [entrySlot_add] at hslot hlast
  have hone : entrySlot table 1 = table + 8 := by simp [entrySlot, size]
  have hlength : entrySlot table (physicalAddresses.length - 1) =
      table + 8 * (physicalAddresses.length - 1) := by
    simp only [entrySlot, size]
    omega
  obtain rfl | rfl : k = 0 ∨ k = 1 := by omega
  · -- the entries would be those from the second one on, which are not all free
    have hsame : ∀ i, entrySlot table' (index' + i) = entrySlot table (1 + i) := by
      intro i
      rw [entrySlot_add, entrySlot_add]
      omega
    have hout : ¬1 + physicalAddresses.length ≤ computeMaxEntries 3 p := by
      intro hinside
      refine hsecond ⟨hinside, fun i hi => ?_⟩
      have hfree := h.row.free i hi
      rw [free_iff] at hfree ⊢
      rwa [← hsame i]
    have hinside := h.row.inside
    have htable : table' = table + 8 := by
      simp only [entrySlot, size] at hslot hone
      omega
    obtain ⟨address', hreached'⟩ := h.reached
    obtain ⟨-, hroot, hpage⟩ := reached_base hreached
    obtain ⟨-, hroot', hpage'⟩ := reached_base hreached'
    by_cases hthree : p.firstLevel = 3
    · omega
    · omega
  · -- the first entry would have been written, which it has not
    have hzero : entrySlot table' (index' + 0) = entrySlot table 0 := by
      simp only [entrySlot, size] at hslot ⊢
      omega
    have hmapped := free_of_kind (h.mapped 0 (by omega)).1
    have hfree := hfirst.free 0 (by omega)
    rw [free_iff, hzero] at hmapped
    rw [Nat.add_zero, free_iff] at hfree
    refine hmapped ?_
    rwa [insertedAt, readUint64_outside (.inl (by simp [entrySlot, size]))]

end

theorem row_second (hfirst : Row mem p 3 table 0 count) (h : ¬Overrun mem p count)
    (htwo : 2 ≤ count) (hreached : ReachedAt mem p ⟨3, table, 0⟩) : Row mem p 3 table 1 count := by
  by_contra hsecond
  exact h ⟨htwo, table, hreached, hfirst, hsecond⟩

theorem allocatePages_eq_ok (hload : MMUParameters.load regs = .ok p)
    (h : allocatePages mem regs physicalAddresses = .ok r) :
    maybeInsertDescriptorInTable mem physicalAddresses p (3 - p.firstLevel) p.firstLevel p.tt1
      p.upperBits = .ok (some r) := by
  simp only [allocatePages, hload, bind, Except.bind] at h
  split at h
  · cases h
  · next allocation hallocation =>
    rw [hallocation]
    cases allocation with
    | none => cases h
    | some r' =>
      obtain rfl : r' = r := by simpa [pure, Except.pure] using h
      rfl

/-- What is written where, if the entries that have been found are not overrun. -/
theorem inserted_of_found (hsuitable : Suitable p physicalAddresses) (hlevel : p.firstLevel ≤ 3)
    (hoverrun : ¬Overrun mem p physicalAddresses.length)
    (h : maybeInsertDescriptorInTable mem physicalAddresses p (3 - p.firstLevel) p.firstLevel p.tt1
      p.upperBits = .ok (some r)) :
    ∃ table address index descriptors, ReachedAt mem p ⟨3, table, address⟩ ∧
      Row mem p 3 table index physicalAddresses.length ∧
      newDescriptors physicalAddresses p = .ok descriptors ∧
      r = insertedAt mem p 3 table address index descriptors := by
  obtain ⟨table, address, hreached, hleaf⟩ :=
    maybeInsert_reached hsuitable.nonempty _ _ _ _ (by omega) h
  obtain ⟨start, descriptors, hrow, hnew, rfl⟩ :=
    row_of_searchLeaf (by decide) hsuitable.nonempty hleaf
  refine ⟨table, address, _, descriptors, hreached, ?_, hnew, rfl⟩
  unfold takenStart
  split
  · next htaken =>
    obtain ⟨⟨rfl, rfl⟩, htwo⟩ := And.imp_left entryAddress_eq_zero.mp htaken
    exact row_second hrow hoverrun htwo hreached
  · exact hrow

/-- An allocation that succeeds is confined if and only if there are no levels before 0 or
behind 3, and it does not overrun the entries that it has found. -/
theorem confined_iff (hsuitable : Suitable p physicalAddresses)
    (h : maybeInsertDescriptorInTable mem physicalAddresses p (3 - p.firstLevel) p.firstLevel p.tt1
      p.upperBits = .ok (some r)) :
    Confined mem p physicalAddresses r.2 ↔
      p.firstLevel ≤ 3 ∧ ¬Overrun mem p physicalAddresses.length := by
  constructor
  · intro hconfined
    obtain ⟨table, index, hconf⟩ := id hconfined
    obtain ⟨address, hreached⟩ := hconf.reached
    have hlevel := (reached_base hreached).1
    refine ⟨hlevel, ?_⟩
    rintro ⟨htwo, table, hzero, hfirst, hsecond⟩
    -- the search starts with the table for address zero
    have hleaf := searchLeaf_first 0 (by decide) hsuitable.nonempty hfirst
    have htaken : takenStart (entryAddress p 3 0) 0 physicalAddresses.length = 1 := by
      simp [takenStart, htwo, entryAddress_eq_zero]
    rw [htaken] at hleaf
    cases hnew : newDescriptors physicalAddresses p with
    | error e =>
      rw [hnew] at hleaf
      rw [maybeInsert_first hsuitable.nonempty _ _ _ _ (by omega) hzero (by simp [hleaf, Except.map]),
        hleaf] at h
      cases h
    | ok descriptors =>
      rw [hnew] at hleaf
      rw [maybeInsert_first hsuitable.nonempty _ _ _ _ (by omega) hzero (by simp [hleaf, Except.map]),
        hleaf] at h
      obtain rfl : insertedAt mem p 3 table 0 1 descriptors = r := by simpa [Except.map] using h
      exact not_confined_of_overrun hsuitable hnew htwo hzero hfirst hsecond hconfined
  · rintro ⟨hlevel, hoverrun⟩
    obtain ⟨table, address, index, descriptors, hreached, hrow, hnew, rfl⟩ :=
      inserted_of_found hsuitable hlevel hoverrun h
    exact ⟨table, index, confinedTo_insertedAt hsuitable hnew hreached hrow⟩

end FridaCore.Barebone.Arm64
