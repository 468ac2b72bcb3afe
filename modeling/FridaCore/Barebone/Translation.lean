import FridaCore.Barebone.StageOne

/-!
# Ranges and translations

The ranges that are enumerated are compared with what the architecture translates.
The two agree on tables in memory that have blocks only where these are allowed
(`Legal`), if the indices of the first level are where the code has them. They are
not at level 0 with 16K pages and at level 1 with 64K pages; there, only what is
reached through the first entry is put in its place.
-/

namespace FridaCore.Barebone.Arm64

open Armv8 Descriptor

variable {mem : Memory} {p : MMUParameters} {g : Granule} {level top s v q : Nat}
  {bits i n below a : Nat} {inner : Nat → Option Nat}

theorem addressFrom_eq_field (hn : n ≤ 48) : addressFrom bits n = field bits 48 n := by
  obtain ⟨k, hk⟩ := Nat.exists_eq_add_of_le hn
  have hmask : int48Mask = 2 ^ 48 - 1 := rfl
  rw [addressFrom, hmask, Nat.and_two_pow_sub_one_eq_mod, Nat.shiftLeft_eq,
    Nat.shiftRight_eq_div_pow, field, hk, Nat.pow_add, Nat.mod_mul_right_div_self,
    Nat.mul_comm (2 ^ n) (2 ^ k), Nat.mul_mod_mul_right]

theorem numBlockBits_le : numBlockBitsAtLevel level g ≤ 48 := by
  unfold numBlockBitsAtLevel
  split
  · split
    · split <;> decide
    · decide
    · decide
  · cases g <;> decide

theorem and_two_ne_zero : bits &&& 2 ≠ 0 ↔ bits / 2 % 2 = 1 := by
  have h := Nat.and_two_pow bits 1
  rw [Nat.testBit, Nat.shiftRight_eq_div_pow, Nat.one_and_eq_mod_two] at h
  rw [show (2 : Nat) = 2 ^ 1 from rfl, h, pow_one]
  rcases Nat.mod_two_eq_zero_or_one (bits / 2) with h2 | h2 <;> simp [h2]

theorem walkEntry_of_invalid (h : (parse bits level g).kind = .invalid)
    (hl : level ≤ 3) : walkEntry g level s inner v bits = none := by
  unfold parse at h
  unfold walkEntry
  rw [Nat.and_one_is_mod, show (3 : Nat) = 2 ^ 2 - 1 from rfl,
    Nat.and_two_pow_sub_one_eq_mod] at h
  split at h
  · split at h
    · rename_i hbit
      rw [if_pos hbit]
    · split at h <;> cases h
  · split at h
    · obtain rfl : level = 3 := by omega
      split
      · rfl
      · rw [if_pos (by omega)]
        cases g <;> rfl
    · cases h

theorem walkEntry_of_table (h : (parse bits level g).kind = .table) :
    walkEntry g level s inner v bits = inner (parse bits level g).targetAddress := by
  unfold parse at h ⊢
  unfold walkEntry
  split at h
  · split at h
    · cases h
    · split at h
      · rename_i hlevel hbit htable
        have hpage : inpageBitsForGranule g = pageBits g := by cases g <;> rfl
        rw [if_pos hlevel, if_neg hbit, if_pos htable, addressFrom_eq_field (by cases g <;> decide),
          hpage]
        rw [Nat.and_one_is_mod] at hbit
        rw [and_two_ne_zero] at htable
        rw [if_neg hbit, if_neg (by omega), if_neg (by omega)]
      · cases h
  · split at h <;> cases h

theorem walkEntry_of_block (h : (parse bits level g).kind = .block) (hl : level ≤ 3)
    (hs : leafAllowed g level = true → numBlockBitsAtLevel level g = s) :
    walkEntry g level s inner v bits =
      if leafAllowed g level then some ((parse bits level g).targetAddress + v % 2 ^ s)
      else none := by
  unfold parse at h ⊢
  unfold walkEntry
  split at h
  · split at h
    · cases h
    · split at h
      · cases h
      · rename_i hlevel hbit hblock
        rw [if_pos hlevel, if_neg hbit, if_neg hblock, addressFrom_eq_field numBlockBits_le]
        rw [Nat.and_one_is_mod] at hbit
        rw [and_two_ne_zero] at hblock
        rw [if_neg hbit, if_pos (by omega)]
        have hleaf : leafAllowed g level = blockAllowed g level := by
          simp [leafAllowed, show level ≠ 3 by omega]
        rw [hleaf] at hs ⊢
        split
        · rename_i hallowed
          rw [hs hallowed]
        · rfl
  · split at h
    · cases h
    · rename_i hlevel hbits
      obtain rfl : level = 3 := by omega
      obtain rfl : inpageBitsForGranule g = s := hs rfl
      rw [if_neg hlevel, if_neg hbits, addressFrom_eq_field (by cases g <;> decide)]
      rw [show (3 : Nat) = 2 ^ 2 - 1 from rfl, Nat.and_two_pow_sub_one_eq_mod] at hbits
      rw [if_neg (by omega), if_neg (by omega), if_pos rfl]
      rfl

theorem parse_kind_ne_table : (parse bits 3 g).kind ≠ .table := by
  unfold parse
  rw [if_neg (by decide)]
  split <;> simp

theorem mem_block_iff (ha : 2 ^ s ∣ a) :
    a ≤ v ∧ v < a + 2 ^ s ↔ v / 2 ^ s = a / 2 ^ s := by
  obtain ⟨c, rfl⟩ := ha
  have hpos : 0 < 2 ^ s := Nat.two_pow_pos s
  rw [Nat.mul_div_cancel_left c hpos, Nat.div_eq_iff hpos, Nat.mul_comm]
  omega

theorem sub_eq_mod (ha : 2 ^ s ∣ a) (h : v / 2 ^ s = a / 2 ^ s) :
    v - a = v % 2 ^ s := by
  have hv := Nat.div_add_mod v (2 ^ s)
  rw [h, Nat.mul_div_cancel' ha] at hv
  omega

theorem or_shiftLeft_div (hst : s ≤ top) (hi : i < 2 ^ (top - s)) :
    (u ||| (i <<< s)) / 2 ^ top = u / 2 ^ top := by
  have hsmall : i <<< s / 2 ^ top = 0 := by
    rw [Nat.div_eq_zero_iff_lt (Nat.two_pow_pos top), Nat.shiftLeft_eq]
    calc i * 2 ^ s < 2 ^ (top - s) * 2 ^ s := Nat.mul_lt_mul_of_pos_right hi (Nat.two_pow_pos s)
      _ = 2 ^ top := by rw [← Nat.pow_add, Nat.sub_add_cancel hst]
  rw [← Nat.shiftRight_eq_div_pow] at hsmall ⊢
  rw [Nat.shiftRight_or_distrib, hsmall, Nat.or_zero, Nat.shiftRight_eq_div_pow]

theorem dvd_or_shiftLeft (hu : 2 ^ k ∣ u) (hk : k ≤ s) : 2 ^ k ∣ u ||| (i <<< s) := by
  have hshift : (i <<< s) % 2 ^ k = 0 := by
    rw [Nat.shiftLeft_eq]
    exact Nat.mod_eq_zero_of_dvd (Dvd.dvd.mul_left (Nat.pow_dvd_pow 2 hk) i)
  refine Nat.dvd_of_mod_eq_zero ?_
  rw [Nat.or_mod_two_pow, Nat.mod_eq_zero_of_dvd hu, hshift]
  rfl

theorem div_eq_of_div_eq (hst : s ≤ top) (h : v / 2 ^ s = a / 2 ^ s) :
    v / 2 ^ top = a / 2 ^ top := by
  obtain ⟨d, rfl⟩ := Nat.exists_eq_add_of_le hst
  rw [Nat.pow_add, ← Nat.div_div_eq_div_mul, h, Nat.div_div_eq_div_mul]

theorem div_entry_iff (hst : s ≤ top) (hu : 2 ^ top ∣ u) (hi : i < 2 ^ (top - s)) :
    v / 2 ^ s = (u ||| (i <<< s)) / 2 ^ s ↔
      v / 2 ^ top = u / 2 ^ top ∧ v % 2 ^ top / 2 ^ s = i := by
  obtain ⟨d, rfl⟩ := Nat.exists_eq_add_of_le hst
  obtain ⟨c, rfl⟩ := hu
  rw [Nat.add_sub_cancel_left] at hi
  have haddr : (2 ^ (s + d) * c ||| (i <<< s)) / 2 ^ s = 2 ^ d * c + i := by
    rw [← Nat.shiftRight_eq_div_pow, Nat.shiftRight_or_distrib, Nat.shiftLeft_shiftRight,
      Nat.shiftRight_eq_div_pow, Nat.pow_add, Nat.mul_assoc,
      Nat.mul_div_cancel_left _ (Nat.two_pow_pos s), Nat.two_pow_add_eq_or_of_lt hi]
  rw [haddr, Nat.pow_add, Nat.mod_mul_right_div_self, ← Nat.div_div_eq_div_mul, ← Nat.pow_add,
    Nat.mul_div_cancel_left c (Nat.two_pow_pos _)]
  constructor
  · intro h
    rw [h, Nat.mul_add_div (Nat.two_pow_pos d), Nat.div_eq_of_lt hi, Nat.mul_add_mod,
      Nat.mod_eq_of_lt hi]
    exact ⟨rfl, rfl⟩
  · rintro ⟨rfl, rfl⟩
    exact (Nat.div_add_mod _ _).symm

/-- One of the ranges covers the address and leads to `q`. The last page of all is covered like
any other, although the end of its range is zero in the source. -/
def Maps (ranges : List RangeDetails) (v q : Nat) : Prop :=
  ∃ r ∈ ranges, (r.baseVa ≤ v ∧ v < r.baseVa + r.size) ∧ r.basePa + (v - r.baseVa) = q

variable {collect : Nat → Nat → List RangeDetails} {desc : Descriptor} {table u : Nat}

theorem maps_nil : ¬Maps [] v q := by
  rintro ⟨r, hr, -⟩
  cases hr

theorem maps_collectEntries :
    Maps (collectEntries mem p level collect table u) v q ↔
      ∃ i < computeMaxEntries level p, Maps (collectEntry p level collect
        (descriptorAt mem p level table i)
        (u ||| (i <<< addressShiftAtLevel level p.granule))) v q := by
  simp only [Maps, collectEntries, List.mem_flatMap, List.mem_range]
  constructor
  · rintro ⟨r, ⟨i, hi, hr⟩, hv⟩
    exact ⟨i, hi, r, hr, hv⟩
  · rintro ⟨i, hi, r, hr, hv⟩
    exact ⟨r, ⟨i, hi, hr⟩, hv⟩

theorem maps_of_block (h : desc.kind = .block) :
    Maps (collectEntry p level collect desc a) v q ↔
      (a ≤ v ∧ v < a + 2 ^ numBlockBitsAtLevel level p.granule) ∧
        desc.targetAddress + (v - a) = q := by
  simp [Maps, collectEntry, h, Nat.one_shiftLeft]

theorem maps_of_table (h : desc.kind = .table) :
    Maps (collectEntry p level collect desc a) v q ↔
      Maps (collect desc.targetAddress a) v q := by
  simp [collectEntry, h]

theorem not_maps_of_invalid (h : desc.kind = .invalid) :
    ¬Maps (collectEntry p level collect desc a) v q := by
  simp [collectEntry, h, maps_nil]

theorem entry_span (ha : 2 ^ s ∣ a) (hle : numBlockBitsAtLevel level p.granule ≤ s)
    (htable : Maps (collect desc.targetAddress a) v q → v / 2 ^ s = a / 2 ^ s)
    (h : Maps (collectEntry p level collect desc a) v q) : v / 2 ^ s = a / 2 ^ s := by
  cases hk : desc.kind with
  | invalid => exact absurd h (not_maps_of_invalid hk)
  | table => exact htable ((maps_of_table hk).mp h)
  | block =>
    obtain ⟨⟨hlow, hhigh⟩, -⟩ := (maps_of_block hk).mp h
    have hpow := Nat.pow_le_pow_right (n := 2) (by decide) hle
    exact (mem_block_iff ha).mp ⟨hlow, by omega⟩

theorem entry_iff_walk (ha : 2 ^ s ∣ a) (hl : level ≤ 3)
    (hdesc : desc = .parse bits level p.granule)
    (hs : leafAllowed p.granule level = true → numBlockBitsAtLevel level p.granule = s)
    (hblock : desc.kind = .block → leafAllowed p.granule level = true)
    (htable : desc.kind = .table → (Maps (collect desc.targetAddress a) v q ↔
      v / 2 ^ s = a / 2 ^ s ∧ inner desc.targetAddress = some q)) :
    Maps (collectEntry p level collect desc a) v q ↔
      v / 2 ^ s = a / 2 ^ s ∧ walkEntry p.granule level s inner v bits = some q := by
  subst hdesc
  cases hk : (parse bits level p.granule).kind with
  | invalid => simp [not_maps_of_invalid hk, walkEntry_of_invalid hk hl]
  | table => rw [maps_of_table hk, htable hk, walkEntry_of_table hk]
  | block =>
    rw [maps_of_block hk, hs (hblock hk), mem_block_iff ha, walkEntry_of_block hk hl hs,
      if_pos (hblock hk), Option.some.injEq]
    refine and_congr_right fun hv => ?_
    rw [sub_eq_mod ha hv]

def Legal (mem : Memory) (p : MMUParameters) : (below table : Nat) → Prop
  | 0, _ => True
  | below + 1, table => ∀ i < computeMaxEntries (3 - (below + 1)) p,
      let desc := descriptorAt mem p (3 - (below + 1)) table i
      (desc.kind = .block → blockAllowed p.granule (3 - (below + 1)) = true) ∧
        (desc.kind = .table → Legal mem p below desc.targetAddress)

instance decidableLegal (mem : Memory) (p : MMUParameters) :
    ∀ below table, Decidable (Legal mem p below table)
  | 0, _ => .isTrue trivial
  | below + 1, _ =>
    have := decidableLegal mem p below
    inferInstanceAs (Decidable (∀ i < _, _ ∧ _))

def Vacant (mem : Memory) (p : MMUParameters) : (below table : Nat) → Prop
  | 0, table => ∀ i < computeMaxEntries 3 p, (descriptorAt mem p 3 table i).kind = .invalid
  | below + 1, table => ∀ i < computeMaxEntries (3 - (below + 1)) p,
      let desc := descriptorAt mem p (3 - (below + 1)) table i
      desc.kind ≠ .block ∧ (desc.kind = .table → Vacant mem p below desc.targetAddress)

theorem walkLevel_eq {inner : Nat → Nat → Option Nat} (hfits : Fits p level top s) :
    walkLevel mem p.granule v level inner top table =
      walkEntry p.granule level s (inner s) v
        (readUint64 mem (table + v % 2 ^ top / 2 ^ s * size)) := by
  simp only [walkLevel, hfits.lsb, Nat.mul_comm 8]
  rfl

theorem Fits.index_lt (hfits : Fits p level top s) :
    v % 2 ^ top / 2 ^ s < computeMaxEntries level p := by
  rw [hfits.entries, Nat.div_lt_iff_lt_mul (Nat.two_pow_pos s), ← Nat.pow_add,
    Nat.sub_add_cancel hfits.lt.le]
  exact Nat.mod_lt _ (Nat.two_pow_pos top)

theorem Fits.dvd (hfits : Fits p level top s) (hu : 2 ^ top ∣ u) : 2 ^ s ∣ u :=
  (Nat.pow_dvd_pow 2 hfits.lt.le).trans hu

theorem table_iff_walk {inner : Nat → Nat → Option Nat} (hfits : Fits p level top s)
    (hshift : addressShiftAtLevel level p.granule = s) (hl : level ≤ 3) (hu : 2 ^ top ∣ u)
    (hentry : ∀ i < computeMaxEntries level p,
      let desc := descriptorAt mem p level table i
      (desc.kind = .block → leafAllowed p.granule level = true) ∧
        (desc.kind = .table → (Maps (collect desc.targetAddress (u ||| (i <<< s))) v q ↔
          v / 2 ^ s = (u ||| (i <<< s)) / 2 ^ s ∧ inner s desc.targetAddress = some q))) :
    Maps (collectEntries mem p level collect table u) v q ↔
      v / 2 ^ top = u / 2 ^ top ∧ walkLevel mem p.granule v level inner top table = some q := by
  have hone : ∀ i < computeMaxEntries level p,
      (Maps (collectEntry p level collect (descriptorAt mem p level table i)
          (u ||| (i <<< s))) v q ↔
        (v / 2 ^ top = u / 2 ^ top ∧ v % 2 ^ top / 2 ^ s = i) ∧
          walkEntry p.granule level s (inner s) v
            (readUint64 mem (table + i * size)) = some q) := by
    intro i hi
    obtain ⟨hblock, htable⟩ := hentry i hi
    have hdvd := dvd_or_shiftLeft (i := i) (hfits.dvd hu) (le_refl s)
    rw [← div_entry_iff hfits.lt.le hu (hfits.entries ▸ hi)]
    exact entry_iff_walk hdvd hl rfl hfits.block_eq hblock htable
  rw [maps_collectEntries, walkLevel_eq hfits, hshift]
  constructor
  · rintro ⟨i, hi, hmaps⟩
    obtain ⟨⟨hv, rfl⟩, hwalk⟩ := (hone i hi).mp hmaps
    exact ⟨hv, hwalk⟩
  · rintro ⟨hv, hwalk⟩
    exact ⟨_, hfits.index_lt, (hone _ hfits.index_lt).mpr ⟨⟨hv, rfl⟩, hwalk⟩⟩

theorem maps_iff_walk (hplace : InPlace p below top) (hu : 2 ^ top ∣ u)
    (hlegal : Legal mem p below table) :
    Maps (collectRangesInTable mem p below table u) v q ↔
      v / 2 ^ top = u / 2 ^ top ∧ walkFrom mem p.granule v below top table = some q := by
  induction below generalizing top table u with
  | zero =>
    obtain ⟨s, hfits, hshift⟩ := hplace
    refine table_iff_walk hfits hshift le_rfl hu fun i _ => ⟨fun _ => rfl, fun htable => ?_⟩
    exact absurd htable parse_kind_ne_table
  | succ below ih =>
    obtain ⟨s, hfits, hshift, hplace⟩ := hplace
    refine table_iff_walk hfits hshift (by omega) hu fun i hi => ⟨fun hblock => ?_, fun htable => ?_⟩
    · rw [leafAllowed, (hlegal i hi).1 hblock, Bool.or_true]
    · refine ih hplace ?_ ((hlegal i hi).2 htable)
      exact dvd_or_shiftLeft (hfits.dvd hu) le_rfl

theorem entries_span (hfits : Fits p level top s)
    (hshift : addressShiftAtLevel level p.granule = s) (hu : 2 ^ s ∣ u)
    (htable : ∀ t a, 2 ^ s ∣ a → Maps (collect t a) v q → v / 2 ^ s = a / 2 ^ s)
    (h : Maps (collectEntries mem p level collect table u) v q) : v / 2 ^ top = u / 2 ^ top := by
  obtain ⟨i, hi, h⟩ := maps_collectEntries.mp h
  rw [hshift] at h
  rw [hfits.entries] at hi
  have hdvd := dvd_or_shiftLeft (i := i) hu (le_refl s)
  rw [← or_shiftLeft_div (u := u) hfits.lt.le hi]
  exact div_eq_of_div_eq hfits.lt.le (entry_span hdvd hfits.block_le (htable _ _ hdvd) h)

/-- A table stays within the addresses it is for, also where its own is not aligned. -/
theorem table_span (hplace : InPlace p below top)
    (hu : ∀ s, indexLsb p.granule (3 - below) = some s → 2 ^ s ∣ u)
    (h : Maps (collectRangesInTable mem p below table u) v q) : v / 2 ^ top = u / 2 ^ top := by
  induction below generalizing top table u with
  | zero =>
    obtain ⟨s, hfits, hshift⟩ := hplace
    exact entries_span hfits hshift (hu s hfits.lsb) (fun _ _ _ h => absurd h maps_nil) h
  | succ below ih =>
    obtain ⟨s, hfits, hshift, hplace⟩ := hplace
    refine entries_span hfits hshift (hu s hfits.lsb) (fun t a ha h => ih hplace ?_ h) h
    intro k hk
    obtain ⟨s', hfits', -⟩ := hplace.fits
    rw [hfits'.lsb] at hk
    cases hk
    exact hfits'.dvd ha

theorem legal_of_agrees (hplace : InPlace p below top) (hu : 2 ^ top ∣ u)
    (h : ∀ v q, v / 2 ^ top = u / 2 ^ top →
      (Maps (collectRangesInTable mem p below table u) v q ↔
        walkFrom mem p.granule v below top table = some q)) :
    Legal mem p below table := by
  induction below generalizing top table u with
  | zero => trivial
  | succ below ih =>
    obtain ⟨s, hfits, hshift, hplace⟩ := hplace
    intro i hi
    have hlt : i < 2 ^ (top - s) := hfits.entries ▸ hi
    have hdvd := dvd_or_shiftLeft (i := i) (hfits.dvd hu) (le_refl s)
    -- the addresses of the entry are walked through it
    have hwalk : ∀ v, v / 2 ^ s = (u ||| (i <<< s)) / 2 ^ s → v / 2 ^ top = u / 2 ^ top ∧
        walkFrom mem p.granule v (below + 1) top table =
          walkEntry p.granule (3 - (below + 1)) s (walkFrom mem p.granule v below s) v
            (readUint64 mem (table + i * size)) := by
      intro v hv
      obtain ⟨htop, hindex⟩ := (div_entry_iff hfits.lt.le hu hlt).mp hv
      refine ⟨htop, ?_⟩
      rw [walkFrom, walkLevel_eq hfits, hindex]
    have hmaps : ∀ v q, v / 2 ^ s = (u ||| (i <<< s)) / 2 ^ s →
        (Maps (collectRangesInTable mem p (below + 1) table u) v q ↔
          Maps (collectEntry p (3 - (below + 1)) (collectRangesInTable mem p below)
            (descriptorAt mem p (3 - (below + 1)) table i) (u ||| (i <<< s))) v q) := by
      intro v q hv
      rw [collectRangesInTable, maps_collectEntries, hshift]
      refine ⟨?_, fun h => ⟨i, hi, h⟩⟩
      rintro ⟨j, hj, hmaps⟩
      rw [hfits.entries] at hj
      have hdvd := dvd_or_shiftLeft (i := j) (hfits.dvd hu) (le_refl s)
      obtain ⟨s', hfits', -⟩ := hplace.fits
      have hspan := entry_span hdvd hfits.block_le (fun h => table_span hplace (fun k hk => by
        rw [hfits'.lsb] at hk
        cases hk
        exact hfits'.dvd hdvd) h) hmaps
      have hi := ((div_entry_iff hfits.lt.le hu hlt).mp hv).2
      have hj := ((div_entry_iff hfits.lt.le hu hj).mp hspan).2
      rwa [← hi, hj]
    constructor
    · intro hblock
      by_contra hno
      have hself := hwalk (u ||| (i <<< s)) rfl
      have hleaf : leafAllowed p.granule (3 - (below + 1)) = false := by
        rw [leafAllowed, Bool.eq_false_iff.mpr hno, Bool.or_false, decide_eq_false_iff_not]
        omega
      have hnone := hself.2.trans (walkEntry_of_block hblock (by omega) hfits.block_eq)
      rw [hleaf] at hnone
      have hsome := (h _ (descriptorAt mem p (3 - (below + 1)) table i).targetAddress hself.1).mp
        ((hmaps _ _ rfl).mpr ((maps_of_block hblock).mpr
          ⟨⟨le_rfl, Nat.lt_add_of_pos_right (Nat.two_pow_pos _)⟩, by simp⟩))
      rw [hnone] at hsome
      cases hsome
    · intro htable
      refine ih hplace hdvd fun v q hv => ?_
      have htarget := (h v q (hwalk v hv).1).symm.trans ((hmaps v q hv).trans (maps_of_table htable))
      rw [(hwalk v hv).2, walkEntry_of_table htable] at htarget
      exact htarget.symm

end FridaCore.Barebone.Arm64
