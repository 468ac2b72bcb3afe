import FridaCore.Barebone.AllocationLaws
import FridaCore.Support.Machine

/-!
# Pages that are mapped for a while

While an allocation lasts its entries map pages, so allocations that are there at the same
time do not share entries, and taking them back in any order leaves the memory as it was.
-/

namespace FridaCore.Barebone.Arm64

open Option

variable {mem mem' : Memory} {p : MMUParameters} {physicalAddresses : List UInt64}

structure Mappings where
  memory : Memory
  allocations : List DescriptorAllocation

inductive MappingEvent
  | allocate (physicalAddresses : List UInt64)
  | deallocate (index : Nat)

namespace Mappings

def step (regs : Option MMURegisters) (s : Mappings) : MappingEvent → Option Mappings
  | .allocate physicalAddresses =>
    match allocatePages s.memory regs physicalAddresses with
    | .ok (allocation, memory) => some ⟨memory, s.allocations ++ [allocation]⟩
    | .error _ => some s
  | .deallocate index =>
    match s.allocations[index]? with
    | none => none
    | some allocation =>
      match allocation.deallocate s.memory with
      | .ok (allocation, memory) => some ⟨memory, s.allocations.set index allocation⟩
      | .error _ => some s

def Sound (p : MMUParameters) (s : Mappings) : MappingEvent → Prop
  | .allocate physicalAddresses => Suitable p physicalAddresses ∧ p.firstLevel ≤ 3 ∧
      ¬Overrun s.memory p physicalAddresses.length
  | .deallocate _ => True

def Restored (before : Memory) (s : Mappings) : Prop :=
  (∀ a ∈ s.allocations, a.oldDescriptors = none) → s.memory = before

structure Holds (p : MMUParameters) (before mem : Memory) (a : DescriptorAllocation)
    (count : Nat) : Prop where
  slot : ∃ k, a.firstSlot = gridBase p + 8 * k
  old : a.oldDescriptors = some (readByteArray before a.firstSlot (8 * count))
  mapped : ∀ i < count, readUint64 mem (a.firstSlot + 8 * i) &&& 3 = 3

def Covers (a : DescriptorAllocation) (address : Nat) : Prop :=
  ∃ old, a.oldDescriptors = some old ∧ a.firstSlot ≤ address ∧ address < a.firstSlot + old.length

structure Inv (p : MMUParameters) (before : Memory) (s : Mappings) : Prop where
  holds : ∀ a ∈ s.allocations, a.oldDescriptors = none ∨ ∃ count, Holds p before s.memory a count
  apart : ∀ (i j : Nat) (a b : DescriptorAllocation) (address : Nat), i ≠ j →
    s.allocations[i]? = some a → s.allocations[j]? = some b → Covers a address → ¬Covers b address
  rest : ∀ address, (∀ a ∈ s.allocations, ¬Covers a address) → s.memory address = before address

variable {before : Memory} {a b : DescriptorAllocation} {s s' : Mappings}

theorem inv_initial (p : MMUParameters) (before : Memory) : Inv p before ⟨before, []⟩ := by
  refine ⟨by simp, by simp, fun _ _ => rfl⟩

theorem Inv.restored (h : Inv p before s) : Restored before s := by
  intro hnone
  funext address
  refine h.rest address fun a ha hcovers => ?_
  obtain ⟨old, hold, -⟩ := hcovers
  rw [hnone a ha] at hold
  cases hold

section
variable (h : Holds p before mem a count)
include h

theorem Holds.covers_iff :
    Covers a address ↔ a.firstSlot ≤ address ∧ address < a.firstSlot + 8 * count := by
  simp [Covers, h.old]

theorem Holds.write
    (hout : ∀ address, a.firstSlot ≤ address → address < a.firstSlot + 8 * count → mem' address =
      mem address) :
    Holds p before mem' a count := by
  refine ⟨h.slot, h.old, fun i hi => ?_⟩
  have hword : readUint64 mem' (a.firstSlot + 8 * i) = readUint64 mem (a.firstSlot + 8 * i) := by
    rw [readUint64_eq_leValue, readUint64_eq_leValue, readByteArray_congr]
    exact fun address hle hlt => hout address (by omega) (by omega)
  rw [hword]
  exact h.mapped i hi

theorem Holds.not_covers (hreached : ReachedAt mem p ⟨3, table, upperBits⟩)
    (hrow : Row mem p 3 table index n) (hle : entrySlot table index ≤ address)
    (hlt : address < entrySlot table index + 8 * n) : ¬Covers a address := by
  rw [h.covers_iff]
  rintro ⟨hle', hlt'⟩
  obtain ⟨k, hk⟩ := h.slot
  obtain ⟨m, hm⟩ := reached_slot hreached index
  -- the word that the address is in
  have hfree := hrow.free ((address - gridBase p) / 8 - m) (by omega)
  have hmapped := h.mapped ((address - gridBase p) / 8 - k) (by omega)
  rw [free_iff, entrySlot_add] at hfree
  have hword : a.firstSlot + 8 * ((address - gridBase p) / 8 - k) =
      entrySlot table index + 8 * ((address - gridBase p) / 8 - m) := by omega
  exact hfree (hword ▸ hmapped)

end

theorem not_covers_of_none (h : a.oldDescriptors = none) : ¬Covers a address := by
  rintro ⟨old, hold, -⟩
  rw [h] at hold
  cases hold

theorem inv_allocate (h : Inv p before s) (hsuitable : Suitable p physicalAddresses)
    (hreached : ReachedAt s.memory p ⟨3, table, upperBits⟩)
    (hrow : Row s.memory p 3 table index physicalAddresses.length)
    (hnew : newDescriptors physicalAddresses p = .ok descriptors) :
    Inv p before ⟨(insertedAt s.memory p 3 table upperBits index descriptors).2,
      s.allocations ++ [(insertedAt s.memory p 3 table upperBits index descriptors).1]⟩ := by
  have hlength := length_newDescriptors hnew
  -- nothing that has been allocated before is in the entries
  have hclear : ∀ address, entrySlot table index ≤ address →
      address < entrySlot table index + 8 * physicalAddresses.length →
      ∀ a ∈ s.allocations, ¬Covers a address := by
    intro address hle hlt a ha
    rcases h.holds a ha with hnone | ⟨count, hholds⟩
    · exact not_covers_of_none hnone
    · exact hholds.not_covers hreached hrow hle hlt
  have hframe : ∀ address, address < entrySlot table index ∨
      entrySlot table index + 8 * physicalAddresses.length ≤ address →
      (insertedAt s.memory p 3 table upperBits index descriptors).2 address = s.memory address := by
    intro address haddress
    rw [← hlength, ← entrySlot_add] at haddress
    exact insertedAt_frame haddress
  have hholds : Holds p before (insertedAt s.memory p 3 table upperBits index descriptors).2
      (insertedAt s.memory p 3 table upperBits index descriptors).1 physicalAddresses.length := by
    refine ⟨reached_slot hreached index, ?_, fun i hi => ?_⟩
    · simp only [insertedAt, length_descriptorBytes, hlength]
      rw [readByteArray_congr fun address hle hlt => h.rest address (hclear address hle hlt)]
    · have hmapped := free_of_kind
        (mapped_insertedAt s.memory 3 table upperBits index hsuitable hnew i hi).1
      rw [free_iff, entrySlot_add, not_not] at hmapped
      exact hmapped
  have hcovers : ∀ address, Covers (insertedAt s.memory p 3 table upperBits index descriptors).1
      address → ∀ a ∈ s.allocations, ¬Covers a address := by
    intro address hcovers
    obtain ⟨hle, hlt⟩ := hholds.covers_iff.mp hcovers
    exact hclear address hle hlt
  refine ⟨?_, ?_, ?_⟩
  · intro a ha
    rcases List.mem_append.mp ha with hold | hnew
    · refine (h.holds a hold).imp_right ?_
      rintro ⟨count, ha⟩
      refine ⟨count, ha.write fun address hle hlt => hframe address ?_⟩
      by_contra hin
      exact hclear address (by omega) (by omega) a hold (ha.covers_iff.mpr ⟨hle, hlt⟩)
    · rw [List.mem_singleton.mp hnew]
      exact .inr ⟨_, hholds⟩
  · intro i j a b address hne ha hb hcovered hcovered'
    simp only [List.getElem?_append] at ha hb
    split at ha
    · split at hb
      · exact h.apart i j a b address hne ha hb hcovered hcovered'
      · obtain rfl := List.mem_singleton.mp (List.mem_of_getElem? hb)
        exact hcovers address hcovered' a (List.mem_of_getElem? ha) hcovered
    · obtain rfl := List.mem_singleton.mp (List.mem_of_getElem? ha)
      split at hb
      · exact hcovers address hcovered b (List.mem_of_getElem? hb) hcovered'
      · have hi := (List.getElem?_eq_some_iff.mp ha).1
        have hj := (List.getElem?_eq_some_iff.mp hb).1
        rw [List.length_singleton] at hi hj
        omega
  · intro address hnone
    have hout : address < entrySlot table index ∨
        entrySlot table index + 8 * physicalAddresses.length ≤ address := by
      by_contra hin
      exact hnone _ (List.mem_append_right _ List.mem_cons_self)
        (hholds.covers_iff.mpr ⟨Nat.le_of_not_lt (not_or.mp hin).1,
          Nat.lt_of_not_le (not_or.mp hin).2⟩)
    exact (hframe address hout).trans
      (h.rest address fun a ha => hnone a (List.mem_append_left _ ha))

theorem inv_deallocate (h : Inv p before s) (ha : s.allocations[i]? = some a)
    (hd : a.deallocate s.memory = .ok (a', mem')) :
    Inv p before ⟨mem', s.allocations.set i a'⟩ := by
  rcases h.holds a (List.mem_of_getElem? ha) with hnone | ⟨count, hholds⟩
  · simp [DescriptorAllocation.deallocate, hnone] at hd
  simp only [DescriptorAllocation.deallocate, hholds.old, Except.ok.injEq, Prod.mk.injEq] at hd
  obtain ⟨rfl, rfl⟩ := hd
  have hinside : ∀ address, Covers a address → writeByteArray s.memory a.firstSlot
      (readByteArray before a.firstSlot (8 * count)) address = before address := by
    intro address hcovers
    obtain ⟨hle, hlt⟩ := hholds.covers_iff.mp hcovers
    exact writeByteArray_readByteArray _ hle hlt
  have hframe : ∀ address, ¬Covers a address → writeByteArray s.memory a.firstSlot
      (readByteArray before a.firstSlot (8 * count)) address = s.memory address := by
    intro address hcovers
    rw [hholds.covers_iff] at hcovers
    exact writeByteArray_outside (by rw [length_readByteArray]; omega)
  -- what is at another place is as before, and not in these entries
  have hother : ∀ j b, i ≠ j → (s.allocations.set i { a with oldDescriptors := none })[j]? = some b →
      s.allocations[j]? = some b := by
    intro j b hne hb
    rwa [List.getElem?_set_ne hne] at hb
  have hself : ∀ b, (s.allocations.set i { a with oldDescriptors := none })[i]? = some b →
      b.oldDescriptors = none := by
    intro b hb
    rw [List.getElem?_set_self (List.getElem?_eq_some_iff.mp ha).1] at hb
    rw [← some.inj hb]
  refine ⟨?_, ?_, ?_⟩
  · intro b hb
    obtain ⟨j, hj⟩ := List.getElem?_of_mem hb
    by_cases hij : i = j
    · subst hij
      exact .inl (hself b hj)
    · have hb' := hother j b hij hj
      refine (h.holds b (List.mem_of_getElem? hb')).imp_right fun ⟨n, hn⟩ => ⟨n, hn.write ?_⟩
      intro address hle hlt
      refine hframe address fun hcovers => ?_
      exact h.apart i j a b address hij ha hb' hcovers (hn.covers_iff.mpr ⟨hle, hlt⟩)
  · intro j k b c address hne hb hc hcovers
    by_cases hj : i = j
    · subst hj
      exact absurd hcovers (not_covers_of_none (hself b hb))
    by_cases hk : i = k
    · subst hk
      exact not_covers_of_none (hself c hc)
    · exact h.apart j k b c address hne (hother j b hj hb) (hother k c hk hc) hcovers
  · intro address hnone
    by_cases hcovers : Covers a address
    · exact hinside address hcovers
    · refine (hframe address hcovers).trans (h.rest address fun b hb => ?_)
      obtain ⟨j, hj⟩ := List.getElem?_of_mem hb
      by_cases hij : i = j
      · subst hij
        obtain rfl : a = b := by simpa [ha] using hj
        exact hcovers
      · exact hnone b (List.mem_of_getElem? ((List.getElem?_set_ne hij).trans hj))

theorem inv_step (hload : MMUParameters.load regs = .ok p) (h : Inv p before s)
    (hsound : Sound p s event) (hstep : step regs s event = some s') : Inv p before s' := by
  cases event with
  | allocate physicalAddresses =>
    obtain ⟨hsuitable, hlevel, hoverrun⟩ := hsound
    simp only [step] at hstep
    cases hallocate : allocatePages s.memory regs physicalAddresses with
    | error e =>
      simp only [hallocate, some.injEq] at hstep
      exact hstep ▸ h
    | ok r =>
      simp only [hallocate, some.injEq] at hstep
      obtain ⟨table, address, index, descriptors, hreached, hrow, hnew, rfl⟩ :=
        inserted_of_found hsuitable hlevel hoverrun (allocatePages_eq_ok hload hallocate)
      exact hstep ▸ inv_allocate h hsuitable hreached hrow hnew
  | deallocate index =>
    simp only [step] at hstep
    cases ha : s.allocations[index]? with
    | none => simp [ha] at hstep
    | some a =>
      cases hd : a.deallocate s.memory with
      | error e =>
        simp only [ha, hd, some.injEq] at hstep
        exact hstep ▸ h
      | ok r =>
        simp only [ha, hd, some.injEq] at hstep
        exact hstep ▸ inv_deallocate h ha hd

/-- An allocation that succeeds is confined if and only if there are no levels before 0 or
behind 3 and the row at virtual address zero is not overrun; and as long as that is so for
every allocation, deallocating all of them in any order restores the memory. -/
theorem allocation_confined_and_reversible (regs : Option MMURegisters) (p : MMUParameters)
    (hload : MMUParameters.load regs = .ok p) :
    (∀ mem physicalAddresses allocation mem', Suitable p physicalAddresses →
      allocatePages mem regs physicalAddresses = .ok (allocation, mem') →
      (Confined mem p physicalAddresses mem' ↔
        p.firstLevel ≤ 3 ∧ ¬Overrun mem p physicalAddresses.length)) ∧
    ∀ before events, Machine.EachStep (step regs) (Sound p) ⟨before, []⟩ events →
      Machine.Always (step regs) (Restored before) ⟨before, []⟩ events := by
  constructor
  · intro mem physicalAddresses allocation mem' hsuitable h
    exact confined_iff hsuitable (allocatePages_eq_ok hload h)
  · intro before events hsound
    have hinv : Machine.Always (step regs) (Inv p before) ⟨before, []⟩ events :=
      Machine.always_of_eachStep (fun _ _ _ hi hok ht => inv_step hload hi hok ht)
        (inv_initial p before) hsound
    exact hinv.mono fun _ hi => hi.restored

theorem not_overrun_of_upperBits (h : p.upperBits ≠ 0) : ¬Overrun mem p count := by
  rintro ⟨-, table, hreached, -⟩
  exact h (leads_address hreached rfl)

theorem suitable_pair {a b : UInt64}
    (ha : a.toNat % p.granule.size = 0 ∧ a.toNat < 2 ^ 48)
    (hb : b.toNat % p.granule.size = 0 ∧ b.toNat < 2 ^ 48) : Suitable p [a, b] := by
  refine ⟨List.cons_ne_nil _ _, ?_, ?_⟩
  · simp [ha.1, hb.1]
  · simpa using ⟨ha.2, hb.2⟩

theorem fourK_suitable : Suitable fourKParameters [0x5000, 0x6000] :=
  suitable_pair (by decide) (by decide)

/-- Two pages are mapped in the table there is, and unmapped again. -/
theorem allocation_confined_and_reversible_fourK :
    (∃ allocation mem',
      allocatePages fourKTables (some fourKRegisters) [0x5000, 0x6000] = .ok (allocation, mem') ∧
        Confined fourKTables fourKParameters [0x5000, 0x6000] mem') ∧
    Machine.Always (step (some fourKRegisters)) (Restored fourKTables) ⟨fourKTables, []⟩
      [.allocate [0x5000, 0x6000], .allocate [0x5000, 0x6000], .deallocate 0, .deallocate 1] := by
  have hclaim := allocation_confined_and_reversible (some fourKRegisters) fourKParameters
    (by decide)
  have hupper : fourKParameters.upperBits ≠ 0 := by decide
  have hsound : ∀ s, Sound fourKParameters s (.allocate [0x5000, 0x6000]) := fun s =>
    ⟨fourK_suitable, by decide, not_overrun_of_upperBits hupper⟩
  constructor
  · have hsuccess : (allocatePages fourKTables (some fourKRegisters) [0x5000, 0x6000]).isOk := by
      decide +kernel
    cases hresult : allocatePages fourKTables (some fourKRegisters) [0x5000, 0x6000] with
    | error e => simp [hresult, Except.isOk, Except.toBool] at hsuccess
    | ok r =>
      exact ⟨r.1, r.2, rfl, (hclaim.1 _ _ r.1 r.2 fourK_suitable hresult).mpr
        ⟨by decide, not_overrun_of_upperBits hupper⟩⟩
  · exact hclaim.2 _ _ fun _ _ => ⟨hsound _, fun _ _ => ⟨hsound _, fun _ _ =>
      ⟨trivial, fun _ _ => ⟨trivial, trivial⟩⟩⟩⟩

def sixtyFourKRegisters : MMURegisters where
  tcr := 0xc0000000
  ttbr1 := 0x10000

def sixtyFourKParameters : MMUParameters where
  granule := .g64K
  firstLevel := 0
  upperBits := 0
  tt1 := 0x10000
  t1sz := 0
  sprrEnabled := false
  sprrPerm := 0

def sixtyFourKTables : Memory :=
  .ofWords [(0x10000, 0x20003), (0x20000, 0x30003), (0x30000, 0x40003), (0x40010, 0x50403)]

/-- Two pages are mapped behind address zero: the page that was mapped there is replaced. -/
theorem mapped_page_replaced :
    MMUParameters.load (some sixtyFourKRegisters) = .ok sixtyFourKParameters ∧
    Suitable sixtyFourKParameters [0x60000, 0x70000] ∧
    (descriptorAt sixtyFourKTables sixtyFourKParameters 3 0x40000 2).kind = .block ∧
    (descriptorAt sixtyFourKTables sixtyFourKParameters 3 0x40000 2).targetAddress = 0x50000 ∧
    (allocatePages sixtyFourKTables (some sixtyFourKRegisters) [0x60000, 0x70000]).map
      (fun r => (r.1.firstSlot,
        (descriptorAt r.2 sixtyFourKParameters 3 0x40000 2).targetAddress)) =
      .ok (0x40008, 0x70000) := by
  refine ⟨by decide, suitable_pair (by decide) (by decide), ?_, ?_, ?_⟩
  · decide +kernel
  · decide +kernel
  · decide +kernel

end Mappings

end FridaCore.Barebone.Arm64
