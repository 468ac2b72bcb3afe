import FridaCore.Barebone.Translation

/-!
# From TTBR1 to the ranges

The first table is found through TTBR1, and its number of entries follows from T1SZ.
What is enumerated from there on is what the architecture translates, for tables in
memory that are `Orderly`.
-/

namespace FridaCore.Barebone.Arm64

open List Option Descriptor

open Armv8

variable {mem : Memory} {p : MMUParameters} {regs : MMURegisters} {level top s v q : Nat}
  {below table u i : Nat}

theorem exists_maps_of_block (h : desc.kind = .block) (a : Nat) :
    ∃ v q, Maps (collectEntry p level collect desc a) v q :=
  ⟨a, _, (maps_of_block h).mpr ⟨⟨le_rfl, Nat.lt_add_of_pos_right (Nat.two_pow_pos _)⟩, rfl⟩⟩

theorem Vacant.not_maps (h : Vacant mem p below table) :
    ¬Maps (collectRangesInTable mem p below table u) v q := by
  induction below generalizing table u with
  | zero =>
    intro hmaps
    obtain ⟨i, hi, hmaps⟩ := maps_collectEntries.mp hmaps
    exact not_maps_of_invalid (h i hi) hmaps
  | succ below ih =>
    intro hmaps
    obtain ⟨i, hi, hmaps⟩ := maps_collectEntries.mp hmaps
    obtain ⟨hblock, htable⟩ := h i hi
    cases hk : (descriptorAt mem p (3 - (below + 1)) table i).kind with
    | invalid => exact not_maps_of_invalid hk hmaps
    | block => exact hblock hk
    | table => exact ih (htable hk) ((maps_of_table hk).mp hmaps)

theorem not_block_of_not_maps (h : ∀ v q, ¬Maps (collectEntries mem p level collect table u) v q)
    (hi : i < computeMaxEntries level p) : (descriptorAt mem p level table i).kind ≠ .block := by
  intro hblock
  obtain ⟨v, q, hmaps⟩ : ∃ v q, Maps (collectEntry p level collect (descriptorAt mem p level table i)
      (u ||| (i <<< addressShiftAtLevel level p.granule))) v q := exists_maps_of_block hblock _
  exact h v q (maps_collectEntries.mpr ⟨i, hi, hmaps⟩)

theorem vacant_of_not_maps (h : ∀ v q, ¬Maps (collectRangesInTable mem p below table u) v q) :
    Vacant mem p below table := by
  induction below generalizing table u with
  | zero =>
    intro i hi
    cases hk : (descriptorAt mem p 3 table i).kind with
    | invalid => rfl
    | block => exact absurd hk (not_block_of_not_maps h hi)
    | table => exact absurd hk parse_kind_ne_table
  | succ below ih =>
    intro i hi
    refine ⟨not_block_of_not_maps h hi, fun htable => ?_⟩
    refine ih (u := u ||| (i <<< addressShiftAtLevel (3 - (below + 1)) p.granule)) fun v q hmaps => ?_
    exact h v q (maps_collectEntries.mpr ⟨i, hi, (maps_of_table htable).mpr hmaps⟩)

theorem Legal.of_vacant (h : Vacant mem p below table) : Legal mem p below table := by
  induction below generalizing table with
  | zero => trivial
  | succ below ih =>
    exact fun i hi => ⟨fun hblock => absurd hblock (h i hi).1, fun htable => ih ((h i hi).2 htable)⟩

theorem Vacant.walk_eq_none (h : Vacant mem p below table) (hplace : InPlace p below top) :
    walkFrom mem p.granule v below top table = none := by
  rw [eq_none_iff_forall_ne_some]
  intro q hwalk
  -- a table at the address the walk is about maps what is walked to
  have hdvd : 2 ^ top ∣ v / 2 ^ top * 2 ^ top := Dvd.intro_left _ rfl
  refine h.not_maps ((maps_iff_walk hplace hdvd (.of_vacant h)).mpr ⟨?_, hwalk⟩)
  rw [Nat.mul_div_cancel _ (Nat.two_pow_pos top)]

theorem first_level_eq (ht : t1sz < 64) (hl : uintSub 4 (MMUParameters.numLevels t1sz g) ≤ 3) :
    initialLevel g t1sz = uintSub 4 (MMUParameters.numLevels t1sz g) := by
  revert t1sz
  cases g <;> decide +kernel

theorem first_bits_eq (ht : t1sz < 64) (hl : uintSub 4 (MMUParameters.numLevels t1sz g) ≤ 3) :
    ∀ s ∈ indexLsb g (uintSub 4 (MMUParameters.numLevels t1sz g)), s < 64 - t1sz ∧
      3 + (64 - t1sz - s) ≤ 48 ∧
      uintSub (uintSub (64 - t1sz) (inpageBitsForGranule g))
        ((range' (uintSub 4 (MMUParameters.numLevels t1sz g) + 1)
          (3 - uintSub 4 (MMUParameters.numLevels t1sz g))).map
            (unclippedAddressBitsAtLevel · g)).sum = 64 - t1sz - s := by
  revert t1sz
  cases g <;> decide +kernel

theorem upperBitsFor_eq (ht : t1sz < 64) :
    MMUParameters.upperBitsFor t1sz = 2 ^ (64 - t1sz) * (2 ^ t1sz - 1) := by
  revert t1sz
  decide +kernel

structure Loaded (regs : MMURegisters) (p : MMUParameters) : Prop where
  t1sz_lt : p.t1sz < 64
  firstLevel_eq : p.firstLevel = uintSub 4 (MMUParameters.numLevels p.t1sz p.granule)
  upperBits_eq : p.upperBits = 2 ^ (64 - p.t1sz) * (2 ^ p.t1sz - 1)
  tt1_eq : p.tt1 = regs.ttbr1.toNat % 2 ^ 48

theorem loaded_of_load (h : MMUParameters.load (some regs) = .ok p) : Loaded regs p := by
  obtain ⟨granule, -, h⟩ := bind_eq_ok h
  cases h
  have ht : (regs.tcr.toNat >>> 16) &&& 0x3f < 64 := by
    rw [show 0x3f = 2 ^ 6 - 1 from rfl, Nat.and_two_pow_sub_one_eq_mod]
    exact Nat.mod_lt _ (by decide)
  exact ⟨ht, rfl, upperBitsFor_eq ht, Nat.and_two_pow_sub_one_eq_mod _ 48⟩

theorem Loaded.initialLevel_eq (h : Loaded regs p) (hl : p.firstLevel ≤ 3) :
    initialLevel p.granule p.t1sz = p.firstLevel := by
  rw [h.firstLevel_eq] at hl ⊢
  exact first_level_eq h.t1sz_lt hl

theorem Loaded.fits (h : Loaded regs p) (hl : p.firstLevel ≤ 3)
    (hs : indexLsb p.granule p.firstLevel = some s) : Fits p p.firstLevel (64 - p.t1sz) s := by
  have hblock : ∀ g : Granule, ∀ l ≤ 3, ∀ s ∈ indexLsb g l, numBlockBitsAtLevel l g ≤ s ∧
      (leafAllowed g l = true → numBlockBitsAtLevel l g = s) := by
    intro g
    cases g <;> decide
  have hbits := first_bits_eq h.t1sz_lt (h.firstLevel_eq ▸ hl) s (h.firstLevel_eq ▸ hs)
  rw [← h.firstLevel_eq] at hbits
  obtain ⟨hle, heq⟩ := hblock p.granule p.firstLevel hl s hs
  refine ⟨hs, hbits.1, ?_, hle, heq⟩
  rw [computeMaxEntries, numAddressBitsAtLevel, if_pos rfl, Nat.one_shiftLeft]
  exact congrArg (2 ^ ·) hbits.2.2

def Placed (p : MMUParameters) : Prop :=
  indexLsb p.granule p.firstLevel = some (addressShiftAtLevel p.firstLevel p.granule)

theorem Loaded.inPlace (h : Loaded regs p) (hl : p.firstLevel ≤ 3) (hp : Placed p) :
    InPlace p (3 - p.firstLevel) (64 - p.t1sz) := by
  have hfits := h.fits hl hp
  cases hb : 3 - p.firstLevel with
  | zero =>
    obtain hlevel : p.firstLevel = 3 := by omega
    rw [hlevel] at hfits
    exact ⟨_, hfits, rfl⟩
  | succ below =>
    have hlevel : p.firstLevel = 3 - (below + 1) := by omega
    rw [hlevel] at hfits
    exact ⟨_, hfits, rfl, inPlace_below (by omega) (by omega) hfits.lsb⟩

theorem lt_of_no_index (hl : l ≤ 3) (hs : indexLsb g l = none) : l < 3 := by
  by_contra hlt
  obtain rfl : l = 3 := by omega
  cases g <;> cases hs

theorem misplaced_cases (hl : l ≤ 3) (hs : indexLsb g l = some s)
    (hne : s ≠ addressShiftAtLevel l g) : l < 3 ∧ blockAllowed g l = false ∧
      addressShiftAtLevel l g < s ∧ ∀ s' ∈ indexLsb g (l + 1), s' ≤ addressShiftAtLevel l g := by
  have hall : ∀ g : Granule, ∀ l ≤ 3, ∀ s ∈ indexLsb g l, s ≠ addressShiftAtLevel l g →
      l < 3 ∧ blockAllowed g l = false ∧ addressShiftAtLevel l g < s ∧
        ∀ s' ∈ indexLsb g (l + 1), s' ≤ addressShiftAtLevel l g := by
    intro g
    cases g <;> decide
  exact hall g l hl s hs hne

/-- An entry of the first table through which there is no block and no page. -/
def EmptyEntry (mem : Memory) (p : MMUParameters) (i : Nat) : Prop :=
  let desc := descriptorAt mem p p.firstLevel p.tt1 i
  desc.kind ≠ .block ∧ (desc.kind = .table → Vacant mem p (2 - p.firstLevel) desc.targetAddress)

/-- There is something only where the index is zero, if there is such a level at all. -/
def OnlyFirstEntry (mem : Memory) (p : MMUParameters) : Prop :=
  ∀ i < computeMaxEntries p.firstLevel p,
    i ≠ 0 ∨ indexLsb p.granule p.firstLevel = none → EmptyEntry mem p i

def Aligned (regs : MMURegisters) (p : MMUParameters) : Prop :=
  Descriptor.size * computeMaxEntries p.firstLevel p ∣ regs.ttbr1.toNat

structure Orderly (regs : MMURegisters) (p : MMUParameters) (mem : Memory) : Prop where
  aligned : Aligned regs p
  legal : Legal mem p (3 - p.firstLevel) p.tt1
  placed : Placed p ∨ OnlyFirstEntry mem p

def Agrees (regs : MMURegisters) (p : MMUParameters) (mem : Memory) : Prop :=
  ∀ v q, Maps (collectRangesUsingMmu mem p) v q ↔
    walk mem p.granule p.t1sz regs.ttbr1.toNat v = some q

theorem Loaded.upper_dvd (h : Loaded regs p) : 2 ^ (64 - p.t1sz) ∣ p.upperBits := by
  rw [h.upperBits_eq]
  exact Nat.dvd_mul_right _ _

theorem Loaded.walk_eq (h : Loaded regs p) (hl : p.firstLevel ≤ 3) (ha : Aligned regs p)
    (hs : indexLsb p.granule p.firstLevel = some s) :
    walk mem p.granule p.t1sz regs.ttbr1.toNat v = some q ↔
      v / 2 ^ (64 - p.t1sz) = p.upperBits / 2 ^ (64 - p.t1sz) ∧
        walkFrom mem p.granule v (3 - p.firstLevel) (64 - p.t1sz) p.tt1 = some q := by
  have hfits := h.fits hl hs
  obtain ⟨-, hle, -⟩ := first_bits_eq h.t1sz_lt (h.firstLevel_eq ▸ hl) s (h.firstLevel_eq ▸ hs)
  have hbase : field regs.ttbr1.toNat 48 (3 + (64 - p.t1sz) - s) = p.tt1 := by
    have hdvd : 2 ^ (3 + (64 - p.t1sz) - s) ∣ regs.ttbr1.toNat := by
      have hsize : size * computeMaxEntries p.firstLevel p =
          2 ^ (3 + (64 - p.t1sz) - s) := by
        have hlt := hfits.lt
        rw [hfits.entries, show 3 + (64 - p.t1sz) - s = 3 + (64 - p.t1sz - s) by omega, Nat.pow_add]
        rfl
      exact hsize ▸ ha
    rw [field, h.tt1_eq]
    exact Nat.div_mul_cancel ((Nat.dvd_mod_iff (Nat.pow_dvd_pow 2 (by omega))).mpr hdvd)
  rw [walk, h.initialLevel_eq hl, hs, h.upperBits_eq, Nat.mul_div_cancel_left _ (Nat.two_pow_pos _)]
  split <;> simp_all

theorem EmptyEntry.not_maps (h : EmptyEntry mem p i) :
    ¬Maps (collectEntry p p.firstLevel (collectRangesInTable mem p (2 - p.firstLevel))
      (descriptorAt mem p p.firstLevel p.tt1 i) a) v q := by
  intro hmaps
  cases hk : (descriptorAt mem p p.firstLevel p.tt1 i).kind with
  | invalid => exact not_maps_of_invalid hk hmaps
  | block => exact h.1 hk
  | table => exact (h.2 hk).not_maps ((maps_of_table hk).mp hmaps)

theorem EmptyEntry.walk_eq_none (h : EmptyEntry mem p i) (hl : p.firstLevel ≤ 3)
    (hplace : InPlace p (2 - p.firstLevel) s) :
    walkEntry p.granule p.firstLevel s (walkFrom mem p.granule v (2 - p.firstLevel) s) v
      (readUint64 mem (p.tt1 + i * size)) = none := by
  cases hk : (descriptorAt mem p p.firstLevel p.tt1 i).kind with
  | invalid => exact walkEntry_of_invalid hk hl
  | block => exact absurd hk h.1
  | table => exact (walkEntry_of_table hk).trans ((h.2 hk).walk_eq_none hplace)

theorem emptyEntry_of_not_maps
    (h : ∀ v q, ¬Maps (collectEntry p p.firstLevel (collectRangesInTable mem p (2 - p.firstLevel))
      (descriptorAt mem p p.firstLevel p.tt1 i) a) v q) : EmptyEntry mem p i := by
  refine ⟨fun hblock => ?_, fun htable => vacant_of_not_maps (u := a) fun v q hmaps => ?_⟩
  · obtain ⟨v, q, hmaps⟩ := exists_maps_of_block hblock a
    exact h v q hmaps
  · exact h v q ((maps_of_table htable).mpr hmaps)

section
variable (hlt : p.firstLevel < 3)
include hlt

theorem below_first : 3 - p.firstLevel = 2 - p.firstLevel + 1 := by omega

theorem level_first : 3 - (2 - p.firstLevel + 1) = p.firstLevel := by omega

theorem maps_using_mmu : Maps (collectRangesUsingMmu mem p) v q ↔
    ∃ i < computeMaxEntries p.firstLevel p,
      Maps (collectEntry p p.firstLevel (collectRangesInTable mem p (2 - p.firstLevel))
        (descriptorAt mem p p.firstLevel p.tt1 i)
        (p.upperBits ||| (i <<< addressShiftAtLevel p.firstLevel p.granule))) v q := by
  rw [← maps_collectEntries, collectRangesUsingMmu, below_first hlt, collectRangesInTable,
    level_first hlt]

theorem walkFrom_first (hfits : Fits p p.firstLevel top s) :
    walkFrom mem p.granule v (3 - p.firstLevel) top p.tt1 =
      walkEntry p.granule p.firstLevel s (walkFrom mem p.granule v (2 - p.firstLevel) s) v
        (readUint64 mem (p.tt1 + v % 2 ^ top / 2 ^ s * size)) := by
  rw [below_first hlt, walkFrom, level_first hlt, walkLevel_eq hfits]

theorem legal_entry (hlegal : Legal mem p (3 - p.firstLevel) p.tt1)
    (hi : i < computeMaxEntries p.firstLevel p) :
    ((descriptorAt mem p p.firstLevel p.tt1 i).kind = .block →
        blockAllowed p.granule p.firstLevel = true) ∧
      ((descriptorAt mem p p.firstLevel p.tt1 i).kind = .table →
        Legal mem p (2 - p.firstLevel) (descriptorAt mem p p.firstLevel p.tt1 i).targetAddress) := by
  rw [below_first hlt, Legal, level_first hlt] at hlegal
  exact hlegal i hi

theorem inPlace_second (hfits : Fits p p.firstLevel top s) : InPlace p (2 - p.firstLevel) s := by
  refine inPlace_below (by omega) (by omega) ?_
  rw [level_first hlt]
  exact hfits.lsb

end

theorem Loaded.agrees_of_first (h : Loaded regs p) (hl : p.firstLevel ≤ 3) (ha : Aligned regs p)
    (hlegal : Legal mem p (3 - p.firstLevel) p.tt1) (honly : OnlyFirstEntry mem p)
    (hs : indexLsb p.granule p.firstLevel = some s)
    (hne : s ≠ addressShiftAtLevel p.firstLevel p.granule) : Agrees regs p mem := by
  intro v q
  obtain ⟨hlt, hnoblock, -, -⟩ := misplaced_cases hl hs hne
  have hfits := h.fits hl hs
  have hplace := inPlace_second hlt hfits
  have hu := h.upper_dvd
  have hus := hfits.dvd hu
  have hpos : 0 < computeMaxEntries p.firstLevel p := by
    rw [hfits.entries]
    exact Nat.two_pow_pos _
  have hzero := div_entry_iff (i := 0) (v := v) hfits.lt.le hu (Nat.two_pow_pos _)
  rw [Nat.zero_shiftLeft, Nat.or_zero] at hzero
  obtain ⟨hblock, htable⟩ := legal_entry hlt hlegal hpos
  have hentry : Maps (collectEntry p p.firstLevel (collectRangesInTable mem p (2 - p.firstLevel))
        (descriptorAt mem p p.firstLevel p.tt1 0) p.upperBits) v q ↔
      v / 2 ^ s = p.upperBits / 2 ^ s ∧
        walkEntry p.granule p.firstLevel s (walkFrom mem p.granule v (2 - p.firstLevel) s) v
          (readUint64 mem (p.tt1 + 0 * size)) = some q :=
    entry_iff_walk hus hl rfl hfits.block_eq
      (fun hk => by rw [leafAllowed, hblock hk, Bool.or_true])
      (fun hk => maps_iff_walk hplace hus (htable hk))
  rw [h.walk_eq hl ha hs, maps_using_mmu hlt, walkFrom_first hlt hfits]
  constructor
  · rintro ⟨i, hi, hmaps⟩
    obtain rfl : i = 0 := by
      by_contra hi0
      exact (honly i hi (.inl hi0)).not_maps hmaps
    rw [Nat.zero_shiftLeft, Nat.or_zero, hentry] at hmaps
    obtain ⟨htop, hindex⟩ := hzero.mp hmaps.1
    rw [hindex]
    exact ⟨htop, hmaps.2⟩
  · rintro ⟨htop, hwalk⟩
    have hindex : v % 2 ^ (64 - p.t1sz) / 2 ^ s = 0 := by
      by_contra hi0
      rw [(honly _ hfits.index_lt (.inl hi0)).walk_eq_none hl hplace] at hwalk
      cases hwalk
    rw [hindex] at hwalk
    refine ⟨0, hpos, ?_⟩
    rw [Nat.zero_shiftLeft, Nat.or_zero, hentry]
    exact ⟨hzero.mpr ⟨htop, hindex⟩, hwalk⟩

theorem Loaded.agrees_of_orderly (h : Loaded regs p) (hl : p.firstLevel ≤ 3)
    (ho : Orderly regs p mem) : Agrees regs p mem := by
  by_cases hp : Placed p
  · intro v q
    rw [h.walk_eq hl ho.aligned hp, collectRangesUsingMmu,
      maps_iff_walk (h.inPlace hl hp) h.upper_dvd ho.legal]
  have honly := ho.placed.resolve_left hp
  cases hs : indexLsb p.granule p.firstLevel with
  | some s =>
    refine h.agrees_of_first hl ho.aligned ho.legal honly hs fun hne => hp ?_
    rw [Placed, hs, hne]
  | none =>
    intro v q
    have hlt := lt_of_no_index hl hs
    rw [maps_using_mmu hlt, walk, h.initialLevel_eq hl, hs]
    constructor
    · rintro ⟨i, hi, hmaps⟩
      exact absurd hmaps (honly i hi (.inr hs)).not_maps
    · intro hwalk
      split at hwalk <;> cases hwalk

/-- An entry other than the first ends up below where it belongs: what it is at the place of
a later one that is in use. -/
theorem index_of_misplaced (hks : k ≤ s) (hst : s ≤ top) (hu : 2 ^ top ∣ u)
    (hi : i < 2 ^ (top - s)) (hj : j < 2 ^ (top - s))
    (h : (u ||| (i <<< s)) / 2 ^ s = (u ||| (j <<< k)) / 2 ^ s) : i = j / 2 ^ (s - k) := by
  obtain ⟨d, rfl⟩ := Nat.exists_eq_add_of_le hst
  obtain ⟨e, rfl⟩ := Nat.exists_eq_add_of_le hks
  obtain ⟨c, rfl⟩ := hu
  rw [Nat.add_sub_cancel_left] at hi hj ⊢
  have hshift : j / 2 ^ e < 2 ^ d := (Nat.div_le_self _ _).trans_lt hj
  have hupper : 2 ^ (k + e + d) * c / 2 ^ (k + e) = 2 ^ d * c := by
    rw [Nat.pow_add, Nat.mul_assoc, Nat.mul_div_cancel_left _ (Nat.two_pow_pos _)]
  rw [← Nat.shiftRight_eq_div_pow, ← Nat.shiftRight_eq_div_pow, Nat.shiftRight_or_distrib,
    Nat.shiftRight_or_distrib, Nat.shiftLeft_shiftRight, Nat.shiftRight_add (j <<< k),
    Nat.shiftLeft_shiftRight, Nat.shiftRight_eq_div_pow, Nat.shiftRight_eq_div_pow, hupper,
    ← Nat.two_pow_add_eq_or_of_lt hi, ← Nat.two_pow_add_eq_or_of_lt hshift] at h
  exact Nat.add_left_cancel h

theorem Loaded.only_of_agrees (h : Loaded regs p) (hl : p.firstLevel ≤ 3) (ha : Aligned regs p)
    (hlegal : Legal mem p (3 - p.firstLevel) p.tt1) (hagrees : Agrees regs p mem)
    (hs : indexLsb p.granule p.firstLevel = some s)
    (hne : s ≠ addressShiftAtLevel p.firstLevel p.granule) : OnlyFirstEntry mem p := by
  obtain ⟨hlt, hnoblock, hshift, hsecond⟩ := misplaced_cases hl hs hne
  have hfits := h.fits hl hs
  have hplace := inPlace_second hlt hfits
  have hu := h.upper_dvd
  have hus := hfits.dvd hu
  have hentry : ∀ i < computeMaxEntries p.firstLevel p, i ≠ 0 → EmptyEntry mem p i := by
    intro i hi hi0
    -- from the last entry down: what is walked to through an entry would have to be
    -- mapped through a later one
    induction hk : computeMaxEntries p.firstLevel p - i using Nat.strong_induction_on
      generalizing i with
    | _ k ih =>
      have hilt : i < 2 ^ (64 - p.t1sz - s) := hfits.entries ▸ hi
      refine ⟨fun hblock => ?_, fun htable => ?_⟩
      · have := (legal_entry hlt hlegal hi).1 hblock
        rw [hnoblock] at this
        cases this
      · refine vacant_of_not_maps (u := p.upperBits ||| (i <<< s)) fun v q hmaps => ?_
        obtain ⟨hv, hwalk⟩ := (maps_iff_walk hplace (dvd_or_shiftLeft hus le_rfl)
          ((legal_entry hlt hlegal hi).2 htable)).mp hmaps
        obtain ⟨htop, hindex⟩ := (div_entry_iff hfits.lt.le hu hilt).mp hv
        have hfirst : walk mem p.granule p.t1sz regs.ttbr1.toNat v = some q := by
          rw [h.walk_eq hl ha hs, walkFrom_first hlt hfits, hindex]
          exact ⟨htop, (walkEntry_of_table htable).trans hwalk⟩
        obtain ⟨j, hj, hmaps⟩ := (maps_using_mmu hlt).mp ((hagrees v q).mpr hfirst)
        have hjlt : j < 2 ^ (64 - p.t1sz - s) := hfits.entries ▸ hj
        have hspan : v / 2 ^ s =
            (p.upperBits ||| (j <<< addressShiftAtLevel p.firstLevel p.granule)) / 2 ^ s := by
          cases hk : (descriptorAt mem p p.firstLevel p.tt1 j).kind with
          | invalid => exact absurd hmaps (not_maps_of_invalid hk)
          | block =>
            have := (legal_entry hlt hlegal hj).1 hk
            rw [hnoblock] at this
            cases this
          | table =>
            refine table_span hplace (fun s' hs' => ?_) ((maps_of_table hk).mp hmaps)
            rw [show 3 - (2 - p.firstLevel) = p.firstLevel + 1 by omega] at hs'
            obtain ⟨s'', hfits'', -⟩ := hplace.fits
            rw [show 3 - (2 - p.firstLevel) = p.firstLevel + 1 by omega] at hfits''
            obtain rfl : s' = s'' := some.inj (hs'.symm.trans hfits''.lsb)
            exact dvd_or_shiftLeft (hfits''.dvd hus) (hsecond s' hs')
        have hij := index_of_misplaced hshift.le hfits.lt.le hu hilt hjlt (hv.symm.trans hspan)
        have htwo : 2 ^ 1 ≤ 2 ^ (s - addressShiftAtLevel p.firstLevel p.granule) :=
          Nat.pow_le_pow_right (by decide) (by omega)
        have hmul := Nat.div_mul_le_self j (2 ^ (s - addressShiftAtLevel p.firstLevel p.granule))
        rw [← hij] at hmul
        have hlater : i * 2 ^ 1 ≤ j := (Nat.mul_le_mul_left i htwo).trans hmul
        exact (ih _ (by omega) j hj (by omega) rfl).not_maps hmaps
  rintro i hi (hi0 | hnone)
  · exact hentry i hi hi0
  · rw [hs] at hnone
    cases hnone

theorem Loaded.orderly_of_agrees (h : Loaded regs p) (hl : p.firstLevel ≤ 3)
    (ha : Aligned regs p) (hpl : Placed p ∨ Legal mem p (3 - p.firstLevel) p.tt1)
    (hagrees : Agrees regs p mem) : Orderly regs p mem := by
  by_cases hp : Placed p
  · refine ⟨ha, legal_of_agrees (h.inPlace hl hp) h.upper_dvd fun v q hv => ?_, .inl hp⟩
    have := hagrees v q
    rwa [h.walk_eq hl ha hp, and_iff_right hv] at this
  have hlegal := hpl.resolve_left hp
  refine ⟨ha, hlegal, .inr ?_⟩
  cases hs : indexLsb p.granule p.firstLevel with
  | some s =>
    refine h.only_of_agrees hl ha hlegal hagrees hs fun hne => hp ?_
    rw [Placed, hs, hne]
  | none =>
    have hlt := lt_of_no_index hl hs
    refine fun i hi _ => emptyEntry_of_not_maps (a := p.upperBits |||
      (i <<< addressShiftAtLevel p.firstLevel p.granule)) fun v q hmaps => ?_
    have hwalk := (hagrees v q).mp ((maps_using_mmu hlt).mpr ⟨i, hi, hmaps⟩)
    rw [walk, h.initialLevel_eq hl, hs] at hwalk
    split at hwalk <;> cases hwalk

/-- The ranges map what the architecture translates if the tables are orderly. If they do so
nevertheless, it is because TTBR1 is not aligned, or because a block that should not be there
happens to end up at the place of a mapping that is not enumerated. -/
theorem collectRanges_agrees (h : MMUParameters.load (some regs) = .ok p)
    (hl : p.firstLevel ≤ 3) : (Orderly regs p mem → Agrees regs p mem) ∧
      (Aligned regs p → Placed p ∨ Legal mem p (3 - p.firstLevel) p.tt1 →
        Agrees regs p mem → Orderly regs p mem) :=
  ⟨(loaded_of_load h).agrees_of_orderly hl, (loaded_of_load h).orderly_of_agrees hl⟩

def Memory.ofWords (words : List (Nat × Nat)) : Memory := fun a =>
  .ofNat ((words.lookup (a / 8 * 8)).getD 0 / 256 ^ (a % 8))

def fourKRegisters : MMURegisters where
  tcr := 0x802a0000
  ttbr1 := 0x1000

def fourKParameters : MMUParameters where
  granule := .g4K
  firstLevel := 2
  upperBits := 0xffffffffffc00000
  tt1 := 0x1000
  t1sz := 42
  sprrEnabled := false
  sprrPerm := 0

def fourKTables : Memory := .ofWords [(0x1000, 0x2003), (0x1008, 0x200001), (0x2028, 0x7003)]

theorem collectRanges_agrees_fourK : Agrees fourKRegisters fourKParameters fourKTables :=
  (collectRanges_agrees (p := fourKParameters) (by decide) (by decide)).1
    ⟨⟨0x100, rfl⟩, by decide +kernel, .inl rfl⟩

def sixteenKRegisters : MMURegisters where
  tcr := 0x40100000
  ttbr1 := 0x4000

def sixteenKParameters : MMUParameters where
  granule := .g16K
  firstLevel := 0
  upperBits := 0xffff000000000000
  tt1 := 0x4000
  t1sz := 16
  sprrEnabled := false
  sprrPerm := 0

def sixteenKTables : Memory := .ofWords [(0x4008, 0x8003), (0x8000, 0xc003), (0xc000, 0x2000001)]

/-- The block is mapped at bit 47, and enumerated at bit 37. -/
theorem upper_half_misplaced :
    MMUParameters.load (some sixteenKRegisters) = .ok sixteenKParameters ∧
      walk sixteenKTables .g16K 16 0x4000 0xffff800000000000 = some 0x2000000 ∧
      walk sixteenKTables .g16K 16 0x4000 0xffff002000000000 = none ∧
      Maps (collectRangesUsingMmu sixteenKTables sixteenKParameters)
        0xffff002000000000 0x2000000 := by
  refine ⟨by decide, by decide +kernel, by decide +kernel, ?_⟩
  rw [maps_using_mmu (by decide)]
  refine ⟨1, by decide, (maps_of_table (by decide +kernel)).mpr (maps_collectEntries.mpr ?_)⟩
  refine ⟨0, by decide, (maps_of_table (by decide +kernel)).mpr (maps_collectEntries.mpr ?_)⟩
  refine ⟨0, by decide, (maps_of_block (by decide +kernel)).mpr ?_⟩
  decide +kernel

end FridaCore.Barebone.Arm64
