import FridaCore.Barebone.Allocation

/-!
# Where pages are mapped

The search goes through the tables in order. In a level 3 table it finds the first entries
in a row that are enough, but for the one at virtual address zero: zero stands for no entry
in a row so far, so the row is taken to begin at the entry behind it.
-/

namespace FridaCore.Barebone.Arm64

open Descriptor Outcome List

variable {mem : Memory} {p : MMUParameters} {physicalAddresses : List UInt64}

section
variable {inspectAt : Nat → Search → Except Error Outcome} {numPages : Nat}

theorem scanChunk_of_enough (h : s.numAvailableSlots = numPages) (count index : Nat) :
    scanChunk inspectAt numPages count index s = .ok (.goOn s) := by
  cases count with
  | zero => rfl
  | succ count => rw [scanChunk, if_pos h]

def Outcome.andThen (next : Search → Except Error Outcome) : Outcome → Except Error Outcome
  | .found r => .ok (.found r)
  | .goOn s => next s

theorem scanChunk_succ (h : s.numAvailableSlots ≠ numPages) (count index : Nat) :
    scanChunk inspectAt numPages (count + 1) index s =
      inspectAt index s >>= andThen (scanChunk inspectAt numPages count (index + 1)) := by
  rw [scanChunk, if_neg h]
  rfl

theorem scanChunk_add (count more index : Nat) (s : Search) :
    scanChunk inspectAt numPages (count + more) index s =
      scanChunk inspectAt numPages count index s >>=
        andThen (scanChunk inspectAt numPages more (index + count)) := by
  induction count generalizing index s with
  | zero =>
    rw [Nat.zero_add]
    rfl
  | succ count ih =>
    by_cases henough : s.numAvailableSlots = numPages
    · rw [scanChunk_of_enough henough, scanChunk_of_enough henough]
      exact (scanChunk_of_enough henough _ _).symm
    · rw [Nat.succ_add, scanChunk_succ henough, scanChunk_succ henough, bind_assoc]
      congr 1
      funext outcome
      cases outcome with
      | found r => rfl
      | goOn t =>
        rw [andThen, ih, Nat.add_assoc, Nat.add_comm 1 count]
        rfl

theorem scanTable_eq (inspectAt : Nat → Search → Except Error Outcome) (numPages maxEntries : Nat)
    (hchunk : 0 < chunkMaxSize) (fuel chunkOffset : Nat) (s : Search)
    (hle : chunkOffset ≤ maxEntries) (hfuel : maxEntries - chunkOffset ≤ fuel) :
    scanTable inspectAt numPages chunkMaxSize maxEntries fuel chunkOffset s =
      scanChunk inspectAt numPages (maxEntries - chunkOffset) chunkOffset s := by
  induction fuel generalizing chunkOffset s with
  | zero =>
    rw [Nat.le_zero.mp hfuel]
    rfl
  | succ fuel ih =>
    rw [scanTable]
    by_cases hend : chunkOffset = maxEntries
    · rw [if_pos (.inl hend), hend, Nat.sub_self]
      rfl
    by_cases henough : s.numAvailableSlots = numPages
    · rw [if_pos (.inr henough), scanChunk_of_enough henough]
    rw [if_neg (not_or.mpr ⟨hend, henough⟩)]
    have hsplit : maxEntries - chunkOffset = min chunkMaxSize (maxEntries - chunkOffset) +
        (maxEntries - (chunkOffset + min chunkMaxSize (maxEntries - chunkOffset))) := by omega
    conv => rhs; rw [hsplit, scanChunk_add]
    dsimp only
    congr 1
    funext outcome
    cases outcome with
    | found r => rfl
    | goOn t => exact ih _ t (by omega) (by omega)

end

def takenStart (address : Nat → Nat) (start count : Nat) : Nat :=
  if address start = 0 ∧ 2 ≤ count then start + 1 else start

/-- What the variables say once the entries before `k` have been looked at. -/
structure Trail (free : Nat → Prop) (address slot : Nat → Nat) (k : Nat) (s : Search) : Prop where
  le : s.numAvailableSlots ≤ k
  row : ∀ i, k - s.numAvailableSlots ≤ i → i < k → free i
  whole : (∀ i < k, free i) → s.numAvailableSlots = k
  unset : s.numAvailableSlots = 0 → s.firstAvailableVa = 0
  taken : s.numAvailableSlots ≠ 0 →
    s.firstAvailableVa = address (takenStart address (k - s.numAvailableSlots)
      s.numAvailableSlots) ∧
    s.firstAvailableSlot = slot (takenStart address (k - s.numAvailableSlots)
      s.numAvailableSlots)

section
variable {free : Nat → Prop} {address slot : Nat → Nat} {k : Nat} {s : Search}

theorem trail_zero : Trail free address slot 0 {} := by
  refine ⟨Nat.le_refl _, fun i _ hi => absurd hi (Nat.not_lt_zero i), fun _ => rfl, fun _ => rfl,
    fun h => absurd rfl h⟩

theorem Trail.reset (h : ¬free k) : Trail free address slot (k + 1) {} := by
  refine ⟨Nat.zero_le _, fun i hi hi' => ?_, fun hall => absurd (hall k (Nat.lt_succ_self k)) h,
    fun _ => rfl, fun h => absurd rfl h⟩
  simp only at hi
  omega

theorem Trail.extend (h : Trail free address slot k s) (hfree : free k)
    (haddress : ∀ i, address i = 0 → i = 0) :
    Trail free address slot (k + 1) (s.extend (address k) (slot k)) := by
  have hnum : (s.extend (address k) (slot k)).numAvailableSlots = s.numAvailableSlots + 1 := by
    simp only [Search.extend]
    split <;> rfl
  have hle := h.le
  have hstart : k + 1 - (s.numAvailableSlots + 1) = k - s.numAvailableSlots := by omega
  refine ⟨by omega, ?_, ?_, by omega, fun _ => ?_⟩
  · intro i hi hi'
    by_cases hik : i = k
    · exact hik ▸ hfree
    · exact h.row i (by omega) (by omega)
  · intro hall
    rw [hnum, h.whole fun i hi => hall i (Nat.lt_succ_of_lt hi)]
  · rw [hnum, hstart]
    by_cases hzero : s.numAvailableSlots = 0
    · simp [Search.extend, h.unset hzero, hzero, takenStart]
    obtain ⟨hva, hslot⟩ := h.taken hzero
    by_cases hone : s.numAvailableSlots = 1
    · by_cases hva0 : address (k - 1) = 0
      · have hk : k - 1 + 1 = k := by omega
        simp [Search.extend, hone, hva, hva0, takenStart, hk]
      · simp [Search.extend, hone, hva, hva0, takenStart, hslot]
    · have htwo : 2 ≤ s.numAvailableSlots := by omega
      have hsame : takenStart address (k - s.numAvailableSlots) (s.numAvailableSlots + 1) =
          takenStart address (k - s.numAvailableSlots) s.numAvailableSlots := by
        simp [takenStart, htwo, Nat.le_succ_of_le htwo]
      have hva0 : s.firstAvailableVa ≠ 0 := by
        rw [hva]
        unfold takenStart
        split
        · exact fun h0 => absurd (haddress _ h0) (Nat.succ_ne_zero _)
        · next hnot => exact fun h0 => hnot ⟨h0, htwo⟩
      simp only [Search.extend, hva0, if_false, hsame]
      exact ⟨hva, hslot⟩

end

def Free (mem : Memory) (p : MMUParameters) (level table i : Nat) : Prop :=
  (descriptorAt mem p level table i).kind = .invalid

instance : Decidable (Free mem p level table i) := inferInstanceAs (Decidable (_ = _))

def entryAddress (p : MMUParameters) (level upperBits i : Nat) : Nat :=
  upperBits ||| (i <<< addressShiftAtLevel level p.granule)

theorem entryAddress_eq_zero :
    entryAddress p level upperBits i = 0 ↔ upperBits = 0 ∧ i = 0 := by
  rw [entryAddress, Nat.or_eq_zero_iff, Nat.shiftLeft_eq, Nat.mul_eq_zero]
  simp

def entrySlot (table i : Nat) : Nat := table + i * Descriptor.size

/-- What `searchTable` does with an entry. -/
def inspectAt (mem : Memory) (p : MMUParameters) (level : Nat)
    (inner : Nat → Nat → Except Error (Option Inserted)) (table upperBits i : Nat) (s : Search) :
    Except Error Outcome :=
  inspect p level inner (readUint64 mem (entrySlot table i)) (entryAddress p level upperBits i)
    (entrySlot table i) s

theorem searchTable_eq (inner : Nat → Nat → Except Error (Option Inserted)) :
    searchTable mem physicalAddresses p level inner table upperBits =
      (scanChunk (inspectAt mem p level inner table upperBits) physicalAddresses.length
        (computeMaxEntries level p) 0 {} >>= fun outcome =>
          match outcome with
          | .found r => .ok (some r)
          | .goOn s => insertDescriptors mem physicalAddresses p s) := by
  have hchunk : 0 < if level < 3 then 4 else 64 := by split <;> decide
  have hscan := scanTable_eq (inspectAt mem p level inner table upperBits)
    physicalAddresses.length (computeMaxEntries level p) hchunk (computeMaxEntries level p) 0 {}
    (Nat.zero_le _) (Nat.le_refl _)
  rw [Nat.sub_zero] at hscan
  rw [← hscan]
  rfl

section
variable {inner : Nat → Nat → Except Error (Option Inserted)} {table upperBits level : Nat}
  {s : Search}

theorem parse_slot : parse (readUint64 mem (entrySlot table i)) level p.granule =
    descriptorAt mem p level table i := rfl

theorem inspectAt_leaf (hlevel : ¬level < 3) :
    inspectAt mem p level inner table upperBits i s =
      .ok (.goOn (if Free mem p level table i then
        s.extend (entryAddress p level upperBits i) (entrySlot table i) else {})) := by
  unfold Free
  rw [inspectAt, inspect, if_neg hlevel, parse_slot]
  by_cases hkind : (descriptorAt mem p level table i).kind = .invalid <;> simp [hkind]

abbrev LeafTrail (mem : Memory) (p : MMUParameters) (level table upperBits : Nat) :=
  Trail (Free mem p level table) (entryAddress p level upperBits) (entrySlot table)

/-- The loop over a level 3 table ends with enough entries, or at the end of the table. -/
theorem scanChunk_leaf (numPages : Nat) (hlevel : ¬level < 3) (count index : Nat)
    (h : LeafTrail mem p level table upperBits index s) :
    ∃ k t, scanChunk (inspectAt mem p level inner table upperBits) numPages count index s =
        .ok (.goOn t) ∧ LeafTrail mem p level table upperBits k t ∧ index ≤ k ∧ k ≤ index + count ∧
      (t.numAvailableSlots = numPages ∨ k = index + count) := by
  induction count generalizing index s with
  | zero => exact ⟨index, s, rfl, h, Nat.le_refl _, Nat.le_refl _, .inr rfl⟩
  | succ count ih =>
    by_cases henough : s.numAvailableSlots = numPages
    · exact ⟨index, s, scanChunk_of_enough henough _ _, h, Nat.le_refl _, Nat.le_add_right _ _,
        .inl henough⟩
    · rw [scanChunk_succ henough, inspectAt_leaf hlevel]
      have hnext : LeafTrail mem p level table upperBits (index + 1)
          (if Free mem p level table index then
            s.extend (entryAddress p level upperBits index) (entrySlot table index) else {}) := by
        split
        · next hfree => exact h.extend hfree fun i hi => (entryAddress_eq_zero.mp hi).2
        · next hused => exact .reset hused
      obtain ⟨k, t, hscan, htrail, hle, hle', hend⟩ := ih (index + 1) hnext
      exact ⟨k, t, hscan, htrail, by omega, by omega, by omega⟩

end

def searchLeaf (mem : Memory) (physicalAddresses : List UInt64) (p : MMUParameters)
    (level table upperBits : Nat) : Except Error (Option Inserted) :=
  searchTable mem physicalAddresses p level (fun _ _ => .ok none) table upperBits

/-- The allocation that writes descriptors from an entry on, and its memory. -/
def insertedAt (mem : Memory) (p : MMUParameters) (level table upperBits i : Nat)
    (descriptors : List UInt64) : Inserted :=
  let bytes := descriptorBytes descriptors
  ({ baseVa := entryAddress p level upperBits i
     size := descriptors.length * p.granule.size
     firstSlot := entrySlot table i
     oldDescriptors := some (readByteArray mem (entrySlot table i) bytes.length) },
    writeByteArray mem (entrySlot table i) bytes)

theorem length_newDescriptors (h : newDescriptors physicalAddresses p = .ok descriptors) :
    descriptors.length = physicalAddresses.length := by
  induction physicalAddresses generalizing descriptors with
  | nil =>
    cases h
    rfl
  | cons address rest ih =>
    rw [newDescriptors, mapM_cons] at h
    obtain ⟨d, -, h⟩ := bind_eq_ok h
    obtain ⟨ds, hds, h⟩ := bind_eq_ok h
    cases h
    simpa using ih hds

structure Row (mem : Memory) (p : MMUParameters) (level table start count : Nat) : Prop where
  inside : start + count ≤ computeMaxEntries level p
  free : ∀ i < count, Free mem p level table (start + i)

section
variable {level table upperBits : Nat}

theorem insertDescriptors_eq (hpages : physicalAddresses ≠ [])
    (h : LeafTrail mem p level table upperBits k s)
    (henough : s.numAvailableSlots = physicalAddresses.length) :
    insertDescriptors mem physicalAddresses p s =
      (newDescriptors physicalAddresses p).map fun descriptors =>
        some (insertedAt mem p level table upperBits
          (takenStart (entryAddress p level upperBits) (k - physicalAddresses.length)
            physicalAddresses.length) descriptors) := by
  have hne : physicalAddresses.length ≠ 0 := fun h => hpages (length_eq_zero_iff.mp h)
  obtain ⟨hva, hslot⟩ := h.taken (henough ▸ hne)
  rw [henough] at hva hslot
  simp only [insertDescriptors, henough, ne_eq, not_true_eq_false, if_false]
  cases hnew : newDescriptors physicalAddresses p with
  | error e => rfl
  | ok descriptors =>
    simp only [bind, Except.bind, pure, Except.pure, Except.map, insertedAt, hva, hslot,
      length_newDescriptors hnew]

theorem searchLeaf_eq (h : scanChunk (inspectAt mem p level (fun _ _ => .ok none) table upperBits)
      physicalAddresses.length (computeMaxEntries level p) 0 {} = .ok (.goOn s)) :
    searchLeaf mem physicalAddresses p level table upperBits =
      insertDescriptors mem physicalAddresses p s := by
  rw [searchLeaf, searchTable_eq, h]
  rfl

theorem row_of_searchLeaf (hlevel : ¬level < 3) (hpages : physicalAddresses ≠ [])
    (h : searchLeaf mem physicalAddresses p level table upperBits = .ok (some r)) :
    ∃ start descriptors, Row mem p level table start physicalAddresses.length ∧
      newDescriptors physicalAddresses p = .ok descriptors ∧
      r = insertedAt mem p level table upperBits (takenStart (entryAddress p level upperBits) start
        physicalAddresses.length) descriptors := by
  have hzero : LeafTrail mem p level table upperBits 0 {} := trail_zero
  obtain ⟨k, s, hscan, htrail, -, hk, hend⟩ := scanChunk_leaf physicalAddresses.length hlevel
    (computeMaxEntries level p) 0 hzero
  rw [searchLeaf_eq hscan] at h
  by_cases henough : s.numAvailableSlots = physicalAddresses.length
  · rw [insertDescriptors_eq hpages htrail henough] at h
    obtain ⟨descriptors, hnew, hr⟩ := map_eq_ok h
    refine ⟨k - physicalAddresses.length, descriptors, ⟨?_, fun i hi => ?_⟩, hnew,
      (Option.some.inj hr).symm⟩
    · have := htrail.le
      omega
    · have := htrail.le
      exact htrail.row _ (by omega) (by omega)
  · simp [insertDescriptors, henough] at h

theorem searchLeaf_first (upperBits : Nat) (hlevel : ¬level < 3) (hpages : physicalAddresses ≠ [])
    (hrow : Row mem p level table 0 physicalAddresses.length) :
    searchLeaf mem physicalAddresses p level table upperBits =
      (newDescriptors physicalAddresses p).map fun descriptors =>
        some (insertedAt mem p level table upperBits
          (takenStart (entryAddress p level upperBits) 0 physicalAddresses.length)
          descriptors) := by
  have hzero : LeafTrail mem p level table upperBits 0 {} := trail_zero
  obtain ⟨k, s, hscan, htrail, -, hk, hend⟩ := scanChunk_leaf physicalAddresses.length hlevel
    physicalAddresses.length 0 hzero
  have hinside := hrow.inside
  have hwhole := htrail.whole fun i hi => Nat.zero_add i ▸ hrow.free i (by omega)
  have henough : s.numAvailableSlots = physicalAddresses.length := by omega
  have hk' : k - physicalAddresses.length = 0 := by omega
  have hsplit : computeMaxEntries level p = physicalAddresses.length +
      (computeMaxEntries level p - physicalAddresses.length) := by omega
  rw [searchLeaf_eq (s := s), insertDescriptors_eq hpages htrail henough, hk']
  rw [hsplit, scanChunk_add, hscan]
  exact scanChunk_of_enough henough _ _

end

structure Place where
  level : Nat
  table : Nat
  address : Nat

inductive Leads (mem : Memory) (p : MMUParameters) : Place → Place → Prop
  | entry {level table address i : Nat} : level < 3 → i < computeMaxEntries level p →
      (descriptorAt mem p level table i).kind = .table →
      (descriptorAt mem p level table i).flags.pxntable = false →
      Leads mem p ⟨level, table, address⟩
        ⟨level + 1, (descriptorAt mem p level table i).targetAddress,
          entryAddress p level address i⟩

def firstPlace (p : MMUParameters) : Place := ⟨p.firstLevel, p.tt1, p.upperBits⟩

abbrev ReachedAt (mem : Memory) (p : MMUParameters) (place : Place) : Prop :=
  Relation.ReflTransGen (Leads mem p) (firstPlace p) place

section
variable {inner : Nat → Nat → Except Error (Option Inserted)} {level table upperBits : Nat}

def Followed (mem : Memory) (p : MMUParameters) (level table i : Nat) : Prop :=
  (descriptorAt mem p level table i).kind = .table ∧
    (descriptorAt mem p level table i).flags.pxntable = false

def followEntry (mem : Memory) (p : MMUParameters) (level : Nat)
    (inner : Nat → Nat → Except Error (Option Inserted)) (table upperBits i : Nat) :
    Except Error (Option Inserted) :=
  inner (descriptorAt mem p level table i).targetAddress (entryAddress p level upperBits i)

section
variable (hlevel : level < 3)
include hlevel

theorem inspectAt_followed (h : Followed mem p level table i) :
    inspectAt mem p level inner table upperBits i s =
      (followEntry mem p level inner table upperBits i).map fun allocation =>
        match allocation with
        | some r => .found r
        | none => .goOn s := by
  rw [inspectAt, inspect, if_pos hlevel, parse_slot]
  simp only [h.1, h.2, ne_eq, not_true_eq_false, if_false, Bool.false_eq_true]
  rfl

theorem inspectAt_passed (h : ¬Followed mem p level table i) :
    inspectAt mem p level inner table upperBits i s = .ok (.goOn s) := by
  rw [inspectAt, inspect, if_pos hlevel, parse_slot]
  by_cases hkind : (descriptorAt mem p level table i).kind = .table
  · have hflags : (descriptorAt mem p level table i).flags.pxntable = true := by
      by_contra hflags
      exact h ⟨hkind, Bool.eq_false_iff.mpr hflags⟩
    simp only [hkind, hflags, ne_eq, not_true_eq_false, if_false, if_true]
  · simp only [hkind, ne_eq, not_false_eq_true, if_true]

theorem scanChunk_upper (count index : Nat)
    (h : scanChunk (inspectAt mem p level inner table upperBits) numPages count index s =
      .ok outcome) :
    outcome = .goOn s ∨ ∃ r i, outcome = .found r ∧ i < index + count ∧
      Followed mem p level table i ∧ followEntry mem p level inner table upperBits i =
        .ok (some r) := by
  induction count generalizing index with
  | zero =>
    cases h
    exact .inl rfl
  | succ count ih =>
    by_cases henough : s.numAvailableSlots = numPages
    · rw [scanChunk_of_enough henough] at h
      exact .inl (Except.ok.inj h).symm
    rw [scanChunk_succ henough] at h
    rw [← Nat.add_assoc, Nat.add_right_comm]
    by_cases hfollowed : Followed mem p level table index
    · rw [inspectAt_followed hlevel hfollowed] at h
      cases hentry : followEntry mem p level inner table upperBits index with
      | error e => simp [hentry, Except.map, bind, Except.bind] at h
      | ok allocation =>
        rw [hentry] at h
        cases allocation with
        | none => exact ih (index + 1) h
        | some r => exact .inr ⟨r, index, (Except.ok.inj h).symm, by omega, hfollowed, hentry⟩
    · rw [inspectAt_passed hlevel hfollowed] at h
      exact ih (index + 1) h

theorem searchTable_upper (hpages : physicalAddresses ≠ [])
    (h : searchTable mem physicalAddresses p level inner table upperBits = .ok (some r)) :
    ∃ i < computeMaxEntries level p, Followed mem p level table i ∧
      followEntry mem p level inner table upperBits i = .ok (some r) := by
  have hne : physicalAddresses.length ≠ 0 := fun h => hpages (length_eq_zero_iff.mp h)
  rw [searchTable_eq] at h
  obtain ⟨outcome, hscan, h⟩ := bind_eq_ok h
  rcases scanChunk_upper hlevel _ 0 hscan with rfl | ⟨r', i, rfl, hi, hfollowed, hentry⟩
  · simp [insertDescriptors, Ne.symm hne] at h
  · obtain rfl : r' = r := by simpa using h
    exact ⟨i, by omega, hfollowed, hentry⟩

theorem searchTable_first (hpages : physicalAddresses ≠ [])
    (hentries : 0 < computeMaxEntries level p) (hfollowed : Followed mem p level table 0)
    (h : followEntry mem p level inner table upperBits 0 ≠ .ok none) :
    searchTable mem physicalAddresses p level inner table upperBits =
      followEntry mem p level inner table upperBits 0 := by
  have hne : (0 : Nat) ≠ physicalAddresses.length :=
    fun h => hpages (length_eq_zero_iff.mp h.symm)
  obtain ⟨count, hcount⟩ := Nat.exists_eq_succ_of_ne_zero (Nat.ne_of_gt hentries)
  rw [searchTable_eq, hcount, scanChunk_succ hne, inspectAt_followed hlevel hfollowed]
  cases hentry : followEntry mem p level inner table upperBits 0 with
  | error e => rfl
  | ok allocation =>
    cases allocation with
    | none => exact absurd hentry h
    | some r => rfl

end

end

theorem maybeInsert_reached (hpages : physicalAddresses ≠ []) (below level table upperBits : Nat)
    (hlevel : level + below = 3)
    (h : maybeInsertDescriptorInTable mem physicalAddresses p below level table upperBits =
      .ok (some r)) :
    ∃ table' address, Relation.ReflTransGen (Leads mem p) ⟨level, table, upperBits⟩
        ⟨3, table', address⟩ ∧
      searchLeaf mem physicalAddresses p 3 table' address = .ok (some r) := by
  induction below generalizing level table upperBits with
  | zero =>
    obtain rfl : level = 3 := hlevel
    exact ⟨table, upperBits, .refl, h⟩
  | succ below ih =>
    obtain ⟨i, hi, hfollowed, hentry⟩ := searchTable_upper (by omega) hpages h
    obtain ⟨table', address, hreach, hleaf⟩ := ih (level + 1) _ _ (by omega) hentry
    exact ⟨table', address, .head (.entry (by omega) hi hfollowed.1 hfollowed.2) hreach, hleaf⟩

theorem leads_address (h : Relation.ReflTransGen (Leads mem p) a b) (hb : b.address = 0) :
    a.address = 0 := by
  induction h with
  | refl => exact hb
  | tail _ hstep ih =>
    cases hstep
    exact ih (entryAddress_eq_zero.mp hb).1

theorem maybeInsert_first (hpages : physicalAddresses ≠ []) (below level table upperBits : Nat)
    (hlevel : level + below = 3)
    (hreach : Relation.ReflTransGen (Leads mem p) ⟨level, table, upperBits⟩ ⟨3, table', 0⟩)
    (hleaf : searchLeaf mem physicalAddresses p 3 table' 0 ≠ .ok none) :
    maybeInsertDescriptorInTable mem physicalAddresses p below level table upperBits =
      searchLeaf mem physicalAddresses p 3 table' 0 := by
  induction below generalizing level table upperBits with
  | zero =>
    rcases Relation.ReflTransGen.cases_head hreach with heq | ⟨next, hstep, -⟩
    · cases heq
      rfl
    · cases hstep
      omega
  | succ below ih =>
    rcases Relation.ReflTransGen.cases_head hreach with heq | ⟨next, hstep, hrest⟩
    · cases heq
      omega
    · cases hstep with
      | @entry _ _ _ i hupper hi hkind hflags =>
        -- only entry 0 leads to address zero
        obtain ⟨-, rfl⟩ := entryAddress_eq_zero.mp (leads_address hrest rfl)
        have hentry : followEntry mem p level
            (maybeInsertDescriptorInTable mem physicalAddresses p below (level + 1)) table upperBits
            0 = searchLeaf mem physicalAddresses p 3 table' 0 :=
          ih (level + 1) _ _ (by omega) hrest
        rw [← hentry] at hleaf ⊢
        exact searchTable_first hupper hpages hi ⟨hkind, hflags⟩ hleaf

end FridaCore.Barebone.Arm64
