import FridaCore.Fruity.PlistKept

/-!
# Round trips of property lists

A property list that is a tree of booleans, integers below 2³², strings, data, arrays and
dicts is parsed as it was written. If objects are shared it is not, unless the values of
each dict that is shared are its own keys. Not all that can be parsed can be written
again, and not all of that is parsed again as it was.
-/

namespace FridaCore.Fruity

open BinaryWriter BinaryParser Option GLib

variable [GLib] {valid : Str → Prop} {plist v w : Value Nat} {bytes : List UInt8} {r : Nat}
  {s : Scalar} {out : List (Str × Tree)}

/-- `Plist.to_binary`. The length of an array is an `int`. -/
def toBinary (plist : Value Nat) : Option (List UInt8 × Int32) := do
  let data ← writePlist plist
  return (data, .ofNat data.length)

theorem toBinary_eq (hw : writePlist plist = some bytes) :
    toBinary plist = some (bytes, .ofNat bytes.length) := by
  simp [toBinary, hw]

omit [GLib] in
theorem take_intLength (h : bytes.length < 2 ^ 31) :
    bytes.take (Int32.ofNat bytes.length).toInt.toNat = bytes := by
  rw [Int32.toInt_ofNat_of_lt h, Int.toNat_natCast, List.take_length]

/-- The property list is in the data, all of it, as long as its length is one of an array. -/
theorem fromBinary_ofNat (h : bytes.length < 2 ^ 31) (fuel : Nat) :
    fromBinary fuel bytes (.ofNat bytes.length) = parse fuel bytes := by
  have hlt : Int32.ofNat bytes.length < 26 ↔ bytes.length < 26 := by
    rw [Int32.lt_iff_toInt_lt, Int32.toInt_ofNat_of_lt h]
    exact Int.ofNat_lt
  unfold fromBinary
  rw [take_intLength h]
  by_cases hshort : bytes.length < 26
  · rw [if_pos (hlt.mpr hshort)]
    unfold parse parseTop readTrailer
    rw [if_pos hshort]
    cases magic.isPrefixOf bytes <;> rfl
  · rw [if_neg fun h => hshort (hlt.mp h)]

/-- The length of what is 2 GiB or more is negative. -/
theorem fromBinary_negative (hw : writePlist plist = some bytes) (h : 2 ^ 31 ≤ bytes.length)
    (hlt : bytes.length < 2 ^ 32) (fuel : Nat) :
    fromBinary fuel bytes (.ofNat bytes.length) =
      invalidData "Invalid binary plist: Invalid seek request" := by
  have hneg : Int32.ofNat bytes.length < 26 := by
    have hint : (26 : Int32).toInt = 26 := rfl
    have hlength : (Int32.ofNat bytes.length).toInt = (bytes.length : Int).bmod (2 ^ 32) :=
      Int32.toInt_ofNat'
    rw [Int32.lt_iff_toInt_lt, hint, hlength, Int.bmod_def]
    omega
  have hmagic : magic.isPrefixOf bytes = true := by
    obtain ⟨⟨root, entries⟩, -, hw⟩ := bind_eq_some_iff.mp hw
    obtain ⟨⟨body, offsets⟩, -, hw⟩ := bind_eq_some_iff.mp hw
    cases hw
    rfl
  rw [fromBinary, if_pos hneg, if_pos hmagic]

/-- The conversions of `GLib` are inverse to each other on strings that are valid. -/
structure Conversions (valid : Str → Prop) : Prop where
  inverse : ∀ s, valid s → ∃ units, GLib.toUtf16 s = some units ∧ GLib.toUtf8 units = some s
  noNul : ∀ s units, valid s → 0 ∉ s → GLib.toUtf16 s = some units → 0 ∉ units

omit [GLib] in
theorem conversions_ascii : @Conversions asciiGLib fun _ => True := by
  let _ := asciiGLib
  refine ⟨fun s _ => ⟨_, rfl, ?_⟩, fun s units _ hnul h => ?_⟩
  · change some ((s.map (·.toUInt16)).map (·.toUInt8)) = some s
    simp [Function.comp_def]
  · cases h
    intro h0
    obtain ⟨b, hb, hzero⟩ := List.mem_map.mp h0
    have hb0 : b = 0 := by simpa using congrArg UInt16.toUInt8 hzero
    exact hnul (hb0 ▸ hb)

omit [GLib] in
theorem enoughMemory_ascii : @EnoughMemory asciiGLib := by
  let _ := asciiGLib
  unfold EnoughMemory
  decide

/-- What can be written with references of some size, and is read as itself. -/
def Scalar.InRange (valid : Str → Prop) (r : Nat) : Scalar → Prop
  | .null | .date _ => False
  | .integer i => i < 4294967296
  | .string s => GLib.charCount s = s.length ∨ valid s
  | .uid u => u.toNat < 256 ^ r
  | _ => True

omit [GLib] in
theorem takeWhile_eq_self [DecidableEq α] [Zero α] {l : List α} (h : 0 ∉ l) :
    l.takeWhile (· ≠ 0) = l :=
  List.takeWhile_eq_self_iff.2 fun _ ha => decide_eq_true fun h0 => h (h0 ▸ ha)

theorem readBackString_eq (hconv : Conversions valid) {s : Str} (hnul : 0 ∉ s)
    (hs : charCount s = s.length ∨ valid s) (hsize : stringSize s ≤ maxObjectSize) :
    readBackString s = some s := by
  unfold stringSize at hsize
  unfold readBackString
  by_cases hcount : charCount s = s.length
  · rw [if_pos hcount] at hsize ⊢
    rw [if_pos hsize, takeWhile_eq_self hnul]
  · have hvalid := hs.resolve_left hcount
    obtain ⟨units, hunits, hback⟩ := hconv.inverse s hvalid
    rw [if_neg hcount, hunits] at hsize
    rw [if_neg hcount, hunits]
    simp only [getD_some] at hsize
    simp only [hsize, ↓reduceIte, takeWhile_eq_self (hconv.noNul s units hvalid hnul hunits), hback]

omit [GLib] in
theorem uid_readBack_iff (hr : r ∈ [1, 2, 4]) :
    UInt64.ofNat (u.toNat % 2 ^ 32 % 256 ^ r) = u ↔ u.toNat < 256 ^ r := by
  have hle : 256 ^ r ≤ 2 ^ 32 := by
    simp only [List.mem_cons, List.not_mem_nil, or_false] at hr
    rcases hr with rfl | rfl | rfl <;> decide
  rw [← UInt64.toNat_inj, UInt64.toNat_ofNat', Nat.mod_eq_of_lt (by omega : _ < 2 ^ 64)]
  constructor
  · omega
  · intro h
    rw [Nat.mod_eq_of_lt (by omega : u.toNat < 2 ^ 32), Nat.mod_eq_of_lt h]

theorem readBack_of_inRange (hconv : Conversions valid) (hr : r ∈ [1, 2, 4])
    (hnul : ∀ str, s = .string str → 0 ∉ str) (hs : s.InRange valid r)
    (hsize : objectSize r (.scalar s) ≤ maxObjectSize) : s.readBack r = some s := by
  cases s <;> simp only [Scalar.readBack]
  case date => cases hs
  case integer i => exact if_pos hs
  case data bytes => exact if_pos hsize
  case string str =>
    rw [readBackString_eq hconv (hnul str rfl) hs hsize]
    rfl
  case uid u => rw [(uid_readBack_iff hr).mpr hs]

omit [GLib] in
def OneZero (plist : Value Nat) : Prop :=
  ∀ s, .scalar s ∈ plist.visited → ∀ s', .scalar s' ∈ plist.visited → s.isZero = true →
    s.unsigned = s'.unsigned → s = s'

omit [GLib] in
theorem representative_eq_self (h : OneZero plist) (hs : .scalar s ∈ plist.visited) :
    representative plist.visited s = s := by
  rcases representative_cases plist.visited s with hself | ⟨hmem, hcmp⟩
  · exact hself
  · have heq := (compareEq_iff.mp hcmp).2
    by_cases hz : s.isZero = true
    · exact (h s hs _ hmem hz heq.symm).symm
    · exact (unsigned_eq_iff (by simpa using hz)).mp heq

structure Fits (plist : Value Nat) : Prop where
  count : (distinct plist.visited).length ≤ maxObjectCount
  sizes : ∀ w ∈ plist.visited, objectSize (refSize plist) w ≤ maxObjectSize

structure Ranged (valid : Str → Prop) (plist : Value Nat) : Prop where
  inRange : ∀ s, .scalar s ∈ plist.visited → s.InRange valid (refSize plist)
  oneZero : OneZero plist

theorem kept_scalar (hconv : Conversions valid) (hwf : WellFormed plist) (hfits : Fits plist)
    (hranged : Ranged valid plist) (hs : .scalar s ∈ plist.visited) :
    Kept plist (refSize plist) (.scalar s) := by
  rw [Kept, representative_eq_self hranged.oneZero hs]
  exact readBack_of_inRange hconv (refSize_mem plist) (fun str hstr => hwf.strings str (hstr ▸ hs))
    (hranged.inRange s hs) (hfits.sizes _ hs)

theorem hashes_of_inRange (h : ∀ s, .scalar s ∈ plist.visited → s.InRange valid r)
    (hw : w ∈ plist.visited) : hashes w = true := by
  cases w with
  | scalar s =>
    have := h s hw
    cases s <;> first | rfl | cases this
  | array | dict => rfl

theorem exists_writePlist (hconv : Conversions valid) (hwf : WellFormed plist) (hfits : Fits plist)
    (hranged : Ranged valid plist) : ∃ bytes, writePlist plist = some bytes := by
  refine writePlist_isSome hwf.coherent (fun w => hashes_of_inRange hranged.inRange) hfits.sizes
    fun s hs => ?_
  refine (hranged.inRange _ hs).imp_right fun hvalid => ?_
  obtain ⟨units, hunits, -⟩ := hconv.inverse s hvalid
  rw [hunits]
  rfl

/-- A property list that is written comes back as it was if all of it that is reached is kept. -/
theorem parse_written_iff (hmem : EnoughMemory) (hwf : WellFormed plist)
    (hstr : ∀ s, .scalar (.string s) ∈ plist.visited → ∀ key, readBackString s = some key → key = s)
    (hsize : encodedSize plist < 2 ^ 63) (hw : writePlist plist = some bytes)
    (hroot : plist.content = .dict () out) :
    (∃ fuel, parse fuel bytes = .ok out) ↔ (distinct plist.visited).length ≤ maxObjectCount ∧
      ∀ u ∈ reached plist plist, Kept plist (refSize plist) u := by
  have hlen : bytes.length < 2 ^ 63 := length_writePlist hwf.coherent hw ▸ hsize
  rw [parse_writePlist hmem hwf.coherent hw hlen, ← hroot,
    readBack_eq_content_iff hwf hstr (mem_visited_self plist)]

section
variable (hconv : Conversions valid) (hwf : WellFormed plist) (hfits : Fits plist)
  (hranged : Ranged valid plist)
include hconv hwf hfits hranged

theorem readBackString_eq_self (s : Str) (hs : .scalar (.string s) ∈ plist.visited) (key : Str)
    (hkey : readBackString s = some key) : key = s := by
  rw [readBackString_eq hconv (hwf.strings s hs) (hranged.inRange _ hs) (hfits.sizes _ hs)] at hkey
  exact (some_inj.mp hkey).symm

theorem kept_iff (hw : w ∈ plist.visited) : Kept plist (refSize plist) w ↔
    ∀ o dict, w = .dict o dict → Shared plist o →
      ∀ e ∈ dict, e.2.content = .scalar (.string e.1) := by
  cases w with
  | scalar s => exact iff_of_true (kept_scalar hconv hwf hfits hranged hw) nofun
  | array o elements => exact iff_of_true (hfits.sizes _ hw) nofun
  | dict o dict =>
    refine ⟨fun h => ?_, fun h => ⟨hfits.sizes _ hw, h o dict rfl⟩⟩
    rintro o dict ⟨⟩
    exact h.2

/-- A property list with all its scalars in range comes back as the tree it unfolds to if and
only if the values of each dict that is in two places are its own keys. -/
theorem shared_roundTrip_iff (hmem : EnoughMemory) (hsize : encodedSize plist < 2 ^ 31)
    (hroot : plist.content = .dict () out) :
    (∃ bytes, writePlist plist = some bytes ∧ ∃ fuel, parse fuel bytes = .ok out) ↔
      ∀ o dict, .dict o dict ∈ plist.visited → Shared plist o →
        ∀ e ∈ dict, e.2.content = .scalar (.string e.1) := by
  obtain ⟨bytes, hw⟩ := exists_writePlist hconv hwf hfits hranged
  have hkept : ∀ u ∈ plist.visited, Kept plist (refSize plist) u ↔ ∀ o dict, u = .dict o dict →
      Shared plist o → ∀ e ∈ dict, e.2.content = .scalar (.string e.1) :=
    fun u hu => kept_iff hconv hwf hfits hranged hu
  have hparse := parse_written_iff hmem hwf (readBackString_eq_self hconv hwf hfits hranged)
    (by omega) hw hroot
  simp only [hw, some.injEq, exists_eq_left', hparse, hfits.count, true_and]
  constructor
  · intro h o dict hdict
    -- nothing is inside of a dict that is shared, so all is reached
    have hreached := mem_reached_of_kept (fun o dict hd => (h _ hd).2) hdict
    exact (hkept _ hdict).mp (h _ hreached) o dict rfl
  · intro h u hu
    have hvisited := reached_subset hu
    exact (hkept u hvisited).mpr fun o dict heq => h o dict (heq ▸ hvisited)

end

def sharedArray : Value Nat :=
  .dict 0 [([0x62], .array 1 [.scalar (.boolean true)]), ([0x61], .array 1 [.scalar (.boolean true)])]

omit [GLib] in
theorem shared_roundTrip_iff_array : ∃ bytes, @writePlist asciiGLib sharedArray = some bytes ∧
    ∃ fuel, @parse asciiGLib fuel bytes = .ok [([0x61], .array () [.scalar (.boolean true)]),
      ([0x62], .array () [.scalar (.boolean true)])] := by
  let _ := asciiGLib
  have hvisited : ∀ w ∈ sharedArray.visited, w = sharedArray ∨ w = .scalar (.string [0x62]) ∨
      w = .scalar (.string [0x61]) ∨ w = .array 1 [.scalar (.boolean true)] ∨
      w = .scalar (.boolean true) := by decide
  refine (shared_roundTrip_iff conversions_ascii ⟨by decide, fun o dict h => ?_, fun s h => ?_⟩
    ⟨by decide, by decide⟩ ⟨fun s h => ?_, fun s h s' _ hz => ?_⟩ enoughMemory_ascii (by decide)
    rfl).mpr fun o dict h hshared => ?_
  · rcases hvisited _ h with hw | hw | hw | hw | hw <;> cases hw
    decide
  · rcases hvisited _ h with hw | hw | hw | hw | hw <;> cases hw <;> decide
  · rcases hvisited _ h with hw | hw | hw | hw | hw <;> cases hw
    · exact .inl rfl
    · exact .inl rfl
    · trivial
  · rcases hvisited _ h with hw | hw | hw | hw | hw <;> cases hw <;> cases hz
  · rcases hvisited _ h with hw | hw | hw | hw | hw <;> cases hw
    exact absurd hshared (by decide)

/-- The values of a dict in two places are lost: `d` is 5 there, and comes back as `d`. -/
def sharedDict : Value Nat :=
  .dict 0 [([0x62], .dict 1 [([0x64], .scalar (.integer 5))]),
    ([0x61], .dict 1 [([0x64], .scalar (.integer 5))])]

omit [GLib] in
theorem sharedDict_values_lost :
    sharedDict.content = .dict () [([0x61], .dict () [([0x64], .scalar (.integer 5))]),
        ([0x62], .dict () [([0x64], .scalar (.integer 5))])] ∧
      (@writePlist asciiGLib sharedDict).map (@parse asciiGLib 9) =
        some (.ok [([0x61], .dict () [([0x64], .scalar (.string [0x64]))]),
          ([0x62], .dict () [([0x64], .scalar (.string [0x64]))])]) := by
  decide +kernel

omit [GLib] in
def IsTree (plist : Value Nat) : Prop := (plist.visited.filterMap Value.owner?).Nodup

omit [GLib] in
theorem IsTree.occurrences_le (h : IsTree plist) (o : Bool × Nat) :
    (occurrences plist o).length ≤ 1 := by
  have hle := List.nodup_iff_count_le_one.mp h o
  simpa only [occurrences, List.count_filterMap, List.countP_eq_length_filter,
    beq_eq_decide] using hle

omit [GLib] in
theorem IsTree.not_shared (h : IsTree plist) (o : Nat) : ¬Shared plist o :=
  Nat.not_lt.mpr (h.occurrences_le (true, o))

omit [GLib] in
theorem IsTree.mem_reached (h : IsTree plist) (hw : w ∈ plist.visited) : w ∈ reached plist plist :=
  mem_reached_of_kept (fun o _ _ hshared => absurd hshared (h.not_shared o)) hw

omit [GLib] in
theorem IsTree.coherent (h : IsTree plist) : Coherent plist := by
  intro c hc c' hc' o ho ho'
  have hmem : ∀ {c : Value Nat}, c ∈ plist.visited → c.owner? = some o → c ∈ occurrences plist o :=
    fun hc ho => List.mem_filter.mpr ⟨hc, decide_eq_true ho⟩
  have hle := h.occurrences_le o
  have h1 := hmem hc ho
  have h2 := hmem hc' ho'
  match hocc : occurrences plist o with
  | [] => rw [hocc] at h1; cases h1
  | [a] =>
    rw [hocc, List.mem_singleton] at h1 h2
    rw [h1, h2]
  | a :: b :: rest =>
    rw [hocc] at hle
    simp at hle

omit [GLib] in
theorem headerSize_le (n : Nat) : headerSize n ≤ 6 := by
  unfold headerSize
  split_ifs <;> omega

theorem encodedSize_scalar_le (hr : r ≤ 4) (h : objectSize r (.scalar s) ≤ limit) :
    s.encodedSize r ≤ limit + 16 := by
  cases s <;> simp only [Scalar.encodedSize, objectSize] at h ⊢
  case integer i => split_ifs <;> omega
  case data bytes =>
    have := headerSize_le bytes.length
    omega
  case string s =>
    have := headerSize_le (stringUnits s)
    omega
  all_goals omega

theorem entrySize_le (h : IsTree plist) (hr : r ≤ 4) (hw : objectSize r w ≤ limit) :
    entrySize r plist w ≤ limit + 16 := by
  have honce : ∀ o n, (occurrences plist o).length * n ≤ n := fun o n =>
    (Nat.mul_le_mul_right n (h.occurrences_le o)).trans_eq (Nat.one_mul n)
  cases w with
  | scalar s => exact encodedSize_scalar_le hr hw
  | array o elements =>
    have hheader := headerSize_le elements.length
    have hrefs := (Nat.mul_le_mul_right r (honce (false, o) elements.length)).trans hw
    rw [entrySize]
    omega
  | dict o dict =>
    have hheader := headerSize_le dict.length
    have hrefs := (Nat.mul_le_mul_right (2 * r) (honce (true, o) dict.length)).trans hw
    rw [entrySize]
    omega

theorem encodedSize_le (h : IsTree plist) (hcount : (distinct plist.visited).length ≤ count)
    (hsizes : ∀ w ∈ plist.visited, objectSize (refSize plist) w ≤ limit) :
    encodedSize plist ≤ count * (limit + 24) + 40 := by
  have hr : refSize plist ≤ 4 := by
    have := refSize_mem plist
    simp only [List.mem_cons, List.not_mem_nil, or_false] at this
    omega
  have hsum := List.sum_le_card_nsmul
    ((distinct plist.visited).map (entrySize (refSize plist) plist)) (limit + 16) (by
      intro n hn
      obtain ⟨w, hw, rfl⟩ := List.mem_map.mp hn
      exact entrySize_le h hr (hsizes w (mem_of_mem_distinct hw)))
  rw [List.length_map, smul_eq_mul] at hsum
  have htotal := hsum.trans (Nat.mul_le_mul_right _ hcount)
  have hoffsets : ∀ n, computeOffsetSize n ≤ 8 := fun n => by
    unfold computeOffsetSize
    split_ifs <;> omega
  have htable := Nat.mul_le_mul hcount (hoffsets (header.length +
    ((distinct plist.visited).map (entrySize (refSize plist) plist)).sum))
  have hheader : header.length = 8 := rfl
  have hsplit : count * (limit + 24) = count * (limit + 16) + count * 8 := by ring
  simp only [encodedSize]
  omega

theorem encodedSize_lt (h : IsTree plist) (hfits : Fits plist) : encodedSize plist < 2 ^ 63 :=
  (encodedSize_le h hfits.count hfits.sizes).trans_lt (by decide)

theorem parse_ranged_tree (hconv : Conversions valid) (hmem : EnoughMemory) (htree : IsTree plist)
    (hwf : WellFormed plist) (hfits : Fits plist) (hranged : Ranged valid plist)
    (hroot : plist.content = .dict () out) :
    ∃ bytes, writePlist plist = some bytes ∧ ∃ fuel, parse fuel bytes = .ok out := by
  obtain ⟨bytes, hw⟩ := exists_writePlist hconv hwf hfits hranged
  refine ⟨bytes, hw, (parse_written_iff hmem hwf (readBackString_eq_self hconv hwf hfits hranged)
    (encodedSize_lt htree hfits) hw hroot).mpr ⟨hfits.count, fun u hu => ?_⟩⟩
  exact (kept_iff hconv hwf hfits hranged (reached_subset hu)).mpr
    fun o dict _ hshared => absurd hshared (htree.not_shared o)

theorem stringSize_le_of_readBack {s : Str} (h : readBackString s = some key) :
    stringSize s ≤ maxObjectSize := by
  unfold readBackString at h
  unfold stringSize
  split at h
  · next hcount =>
    rw [if_pos hcount]
    exact (ite_none_right_eq_some.mp h).1
  · next hcount =>
    rw [if_neg hcount]
    split at h
    · next units hunits =>
      rw [hunits]
      exact (ite_none_right_eq_some.mp h).1
    · cases h

theorem fits_of_parse (hmem : EnoughMemory) (htree : IsTree plist)
    (hsize : encodedSize plist < 2 ^ 63) (hw : writePlist plist = some bytes)
    (h : parse fuel bytes = .ok out) :
    Fits plist ∧ ∀ i, .scalar (.integer i) ∈ plist.visited → i < 4294967296 := by
  have hlen : bytes.length < 2 ^ 63 := length_writePlist htree.coherent hw ▸ hsize
  obtain ⟨hcount, hread⟩ := (parse_writePlist hmem htree.coherent hw hlen).mp ⟨fuel, h⟩
  have hall : ∀ w ∈ plist.visited, Readable plist (refSize plist) w := fun w hmem =>
    readBack_isSome_iff.mp (isSome_iff_exists.mpr ⟨_, hread⟩) w (htree.mem_reached hmem)
  have hscalar : ∀ s, .scalar s ∈ plist.visited → s.isZero = false →
      (s.readBack (refSize plist)).isSome := by
    intro s hs hz
    have hreadable := hall _ hs
    rwa [Readable, representative_of_not_zero hz] at hreadable
  refine ⟨⟨hcount, fun w hw => ?_⟩, fun i hi => ?_⟩
  · cases w with
    | array o elements | dict o dict => exact hall _ hw
    | scalar s =>
      cases s with
      | data bytes =>
        have hsome := hscalar _ hw rfl
        exact isSome_ite.mp hsome
      | string str =>
        have hsome := hscalar _ hw rfl
        rw [Scalar.readBack, isSome_map] at hsome
        obtain ⟨key, hkey⟩ := isSome_iff_exists.mp hsome
        exact stringSize_le_of_readBack hkey
      | _ => exact Nat.zero_le _
  · exact isSome_ite.mp (hscalar _ hi rfl)

def Scalar.Plain (valid : Str → Prop) : Scalar → Prop
  | .boolean _ | .data _ => True
  | .integer i => i < 4294967296
  | .string s => valid s ∧ 0 ∉ s
  | _ => False

/-- A tree of plain scalars in arrays and dicts, within the limits of the parser. -/
structure PlainTree (valid : Str → Prop) (plist : Value Nat) : Prop where
  tree : IsTree plist
  keys : ∀ o dict, .dict o dict ∈ plist.visited → (dict.map Prod.fst).Nodup
  scalars : ∀ s, .scalar s ∈ plist.visited → s.Plain valid
  fits : Fits plist

theorem PlainTree.wellFormed (h : PlainTree valid plist) : WellFormed plist :=
  ⟨h.tree.coherent, h.keys, fun _ hs => (h.scalars _ hs).2⟩

theorem PlainTree.ranged (h : PlainTree valid plist) : Ranged valid plist := by
  constructor
  · intro s hs
    have hplain := h.scalars s hs
    cases s <;> first | trivial | exact hplain | exact .inr hplain.1
  · intro s hs s' _ hz
    have hplain := h.scalars s hs
    cases s with
    | float | double => cases hplain
    | _ => cases hz

/-- A tree of plain values that takes less than 2 GiB is parsed as it was written. -/
theorem fromBinary_toBinary_tree (hconv : Conversions valid) (hmem : EnoughMemory)
    (h : PlainTree valid plist) (hroot : plist.content = .dict () out)
    (hsize : encodedSize plist < 2 ^ 31) :
    ∃ array length, toBinary plist = some (array, length) ∧
      ∃ fuel, fromBinary fuel array length = .ok out := by
  obtain ⟨bytes, hw, fuel, hparse⟩ :=
    parse_ranged_tree hconv hmem h.tree h.wellFormed h.fits h.ranged hroot
  have hlen : bytes.length < 2 ^ 31 := length_writePlist h.tree.coherent hw ▸ hsize
  exact ⟨bytes, _, toBinary_eq hw, fuel, (fromBinary_ofNat hlen fuel).trans hparse⟩

/-- The dict of `k`, an array, and `s`, a string. -/
def sampleTree : Value Nat :=
  .dict 0 [([0x6b], .array 1 [.scalar (.boolean true), .scalar (.integer 300),
    .scalar (.integer (-5)), .scalar (.data [0, 1])]), ([0x73], .scalar (.string [0x6b]))]

def sampleContent : List (Str × Tree) :=
  [([0x6b], .array () [.scalar (.boolean true), .scalar (.integer 300), .scalar (.integer (-5)),
    .scalar (.data [0, 1])]), ([0x73], .scalar (.string [0x6b]))]

omit [GLib] in
theorem plainTree_sample : @PlainTree asciiGLib (fun _ => True) sampleTree := by
  let _ := asciiGLib
  refine ⟨by unfold IsTree; decide, fun o dict h => ?_, fun s h => ?_, by decide, by decide⟩
  · simp only [sampleTree, Value.visited, visitedValues, visitedAll] at h
    simp at h
    simp [h]
  · simp only [sampleTree, Value.visited, visitedValues, visitedAll] at h
    simp at h
    rcases h with rfl | rfl | rfl | rfl | rfl | rfl | rfl <;> simp [Scalar.Plain]

omit [GLib] in
theorem fromBinary_toBinary_tree_sample : ∃ array length,
    @toBinary asciiGLib sampleTree = some (array, length) ∧
      ∃ fuel, @fromBinary asciiGLib fuel array length = .ok sampleContent :=
  @fromBinary_toBinary_tree asciiGLib _ _ _ conversions_ascii enoughMemory_ascii plainTree_sample
    rfl (by decide)

abbrev dataValue (b : List UInt8) : Value Nat := .scalar (.data b)

/-- The dict of `a`, an array of data. -/
def dataArray (blobs : List (List UInt8)) : Value Nat :=
  .dict 0 [([0x61], .array 1 (blobs.map dataValue))]

section
variable {blobs : List (List UInt8)}

omit [GLib] in
theorem visited_dataArray : (dataArray blobs).visited = dataArray blobs ::
    .scalar (.string [0x61]) :: .array 1 (blobs.map dataValue) :: blobs.map dataValue := by
  have hself : (blobs.map dataValue).flatMap Value.visited = blobs.map dataValue := by
    rw [List.flatMap_map, List.map_eq_flatMap]
    rfl
  simp only [dataArray, Value.visited, visitedValues, visitedAll_eq, hself, List.append_nil]
  rfl

omit [GLib] in
theorem plainTree_dataArray (hcount : blobs.length ≤ 250)
    (hsizes : ∀ b ∈ blobs, b.length ≤ maxObjectSize) :
    @PlainTree asciiGLib (fun _ => True) (dataArray blobs) := by
  let _ := asciiGLib
  have hlength : (distinct (dataArray blobs).visited).length ≤ 253 := by
    refine (length_distinct_le _).trans ?_
    simp only [visited_dataArray, List.length_cons, List.length_map]
    omega
  have hr : refSize (dataArray blobs) = 1 := by
    unfold refSize computeObjectRefSize
    rw [if_pos (by omega)]
  have hvisited {w} (h : w ∈ (dataArray blobs).visited) : w = dataArray blobs ∨
      w = .scalar (.string [0x61]) ∨ w = .array 1 (blobs.map dataValue) ∨
      ∃ b ∈ blobs, dataValue b = w := by
    simpa only [visited_dataArray, List.mem_cons, List.mem_map] using h
  refine ⟨?_, fun o dict h => ?_, fun s h => ?_, hlength.trans (by decide), fun w h => ?_⟩
  · have howners : (dataArray blobs).visited.filterMap Value.owner? = [(true, 0), (false, 1)] := by
      have hnone : (blobs.map dataValue).filterMap Value.owner? = [] := by simp [Value.owner?]
      rw [visited_dataArray]
      exact congrArg ((true, 0) :: (false, 1) :: ·) hnone
    rw [IsTree, howners]
    decide
  · rcases hvisited h with h | h | h | ⟨b, -, h⟩ <;> cases h
    exact List.nodup_singleton _
  · rcases hvisited h with h | h | h | ⟨b, -, h⟩ <;> cases h
    · exact ⟨trivial, by decide⟩
    · trivial
  · rw [hr]
    rcases hvisited h with rfl | rfl | rfl | ⟨b, hb, rfl⟩
    · show 1 * (2 * 1) ≤ maxObjectSize
      decide
    · decide
    · simp only [objectSize, List.length_map, maxObjectSize]
      omega
    · exact hsizes b hb

omit [GLib] in
theorem mem_distinct_data (h : dataValue b ∈ vs) : dataValue b ∈ distinct vs := by
  have hself : compareValuesEq (dataValue b) (dataValue b) = true := decide_eq_true rfl
  obtain ⟨first, hfirst⟩ : ∃ first,
      (distinct vs).find? (compareValuesEq · (dataValue b)) = some first := by
    rw [find?_distinct]
    exact isSome_iff_exists.mp (List.find?_isSome.mpr ⟨_, h, hself⟩)
  have hsame := List.find?_some hfirst
  cases first with
  | scalar s =>
    rw [(unsigned_eq_iff rfl).mp (compareEq_iff.mp hsame).2] at hfirst
    exact List.mem_of_find?_eq_some hfirst
  | array | dict => cases hsame

/-- Data that is not the same is written once each. -/
theorem le_encodedSize_dataArray (hnodup : blobs.Nodup) :
    (blobs.map List.length).sum ≤ encodedSize (dataArray blobs) := by
  let f := entrySize (refSize (dataArray blobs)) (dataArray blobs)
  have hinj : (blobs.map dataValue).Nodup :=
    hnodup.map fun _ _ h => by cases h; rfl
  have hsubset : blobs.map dataValue ⊆ distinct (dataArray blobs).visited := by
    intro w hw
    obtain ⟨b, hb, rfl⟩ := List.mem_map.mp hw
    refine mem_distinct_data ?_
    rw [visited_dataArray]
    exact List.mem_cons_of_mem _ (List.mem_cons_of_mem _ (List.mem_cons_of_mem _ hw))
  obtain ⟨l, hperm, hsub⟩ := List.subperm_of_subset hinj hsubset
  have hsum : (blobs.map List.length).sum ≤ ((blobs.map dataValue).map f).sum := by
    rw [List.map_map]
    exact List.sum_le_sum fun b _ => Nat.le_add_left ..
  calc (blobs.map List.length).sum ≤ (l.map f).sum := hsum.trans_eq (hperm.map f).sum_eq.symm
    _ ≤ ((distinct (dataArray blobs).visited).map f).sum :=
      (hsub.map f).sum_le_sum fun _ _ => Nat.zero_le _
    _ ≤ encodedSize (dataArray blobs) := by
      simp only [encodedSize, f]
      omega

end

/-- 21 times 100 MiB, each of another byte. -/
def hugeBlobs : List (List UInt8) :=
  (List.range 21).map fun i => List.replicate maxObjectSize (UInt8.ofNat i)

omit [GLib] in
/-- A tree within all limits that is written and not read: the length of its array is negative. -/
theorem hugeBlobs_refused : @PlainTree asciiGLib (fun _ => True) (dataArray hugeBlobs) ∧
    ∃ array length, @toBinary asciiGLib (dataArray hugeBlobs) = some (array, length) ∧
      ∀ fuel, @fromBinary asciiGLib fuel array length =
        invalidData "Invalid binary plist: Invalid seek request" := by
  let _ := asciiGLib
  have hlengths : hugeBlobs.map List.length = List.replicate 21 maxObjectSize := by
    simp [hugeBlobs, List.map_const', Function.comp_def]
  have hcount : hugeBlobs.length = 21 := by simp [hugeBlobs]
  have hsizes : ∀ b ∈ hugeBlobs, b.length ≤ maxObjectSize := by
    intro b hb
    obtain ⟨i, -, rfl⟩ := List.mem_map.mp hb
    rw [List.length_replicate]
  have hnodup : hugeBlobs.Nodup := by
    refine List.Nodup.map_on (fun i hi j hj heq => ?_) List.nodup_range
    rw [List.replicate_right_inj (by decide)] at heq
    have hmod := congrArg UInt8.toNat heq
    simp only [UInt8.toNat_ofNat'] at hmod
    rw [List.mem_range] at hi hj
    omega
  have htree := plainTree_dataArray (by omega) hsizes
  obtain ⟨bytes, hw⟩ := exists_writePlist conversions_ascii htree.wellFormed htree.fits htree.ranged
  have hlen := length_writePlist htree.tree.coherent hw
  have hle := le_encodedSize_dataArray hnodup
  have hdistinct : (distinct (dataArray hugeBlobs).visited).length ≤ 24 :=
    (length_distinct_le _).trans (by simp [visited_dataArray, hcount])
  have hlt := encodedSize_le htree.tree hdistinct htree.fits.sizes
  rw [hlengths, List.sum_replicate, smul_eq_mul] at hle
  have hmax : maxObjectSize = 104857600 := rfl
  exact ⟨htree, bytes, _, toBinary_eq hw, fromBinary_negative hw (by omega) (by omega)⟩

omit [GLib] in
theorem oneZero_of_representative
    (h : ∀ s, .scalar s ∈ plist.visited → representative plist.visited s = s) : OneZero plist := by
  intro s hs s' hs' hz heq
  have hsame : (fun v : Value Nat => compareValuesEq v (.scalar s')) =
      fun v => compareValuesEq v (.scalar s) := by
    funext v
    cases v with
    | scalar a =>
      rw [Bool.eq_iff_iff]
      simp only [compareValuesEq, compareEq_iff, heq]
    | array | dict => rfl
  have hself : compareValuesEq (.scalar s : Value Nat) (.scalar s) = true :=
    compareEq_iff.mpr ⟨isNan_eq_false_of_isZero hz, rfl⟩
  -- one that compares equal to both is found for each of them
  have hrep : representative plist.visited s = representative plist.visited s' := by
    obtain ⟨first, hfirst⟩ : ∃ first,
        plist.visited.find? (fun v => compareValuesEq v (.scalar s)) = some first :=
      isSome_iff_exists.mp (List.find?_isSome.mpr ⟨_, hs, hself⟩)
    have hcmp := List.find?_some hfirst
    unfold representative
    rw [hsame, hfirst]
    cases first with
    | scalar => rfl
    | array | dict => cases hcmp
  rw [← h s hs, hrep, h s' hs']

theorem representative_readBack (h : s.isZero = true) :
    (representative vs s).readBack r = some (representative vs s) := by
  have hcmp : representative vs s = s ∨ (representative vs s).compareEq s = true :=
    (representative_cases vs s).imp_right And.right
  generalize representative vs s = first at hcmp ⊢
  cases s with
  | float | double =>
    cases first with
    | float | double => rfl
    | _ => rcases hcmp with hcmp | hcmp <;> cases hcmp
  | _ => cases h

theorem representative_eq_of_readBack
    (h : (representative vs s).readBack r = some s) : representative vs s = s := by
  by_cases hz : s.isZero = true
  · rw [representative_readBack hz] at h
    exact some_inj.mp h
  · exact representative_of_not_zero (by simpa using hz)

theorem readBackString_inj (hconv : Conversions valid)
    (hinvalid : ∀ s, ¬valid s → toUtf16 s = none) {s key : Str} (hnul : 0 ∉ s)
    (h : readBackString s = some key) :
    key = s ∧ (charCount s = s.length ∨ valid s) ∧ stringSize s ≤ maxObjectSize := by
  have hsize := stringSize_le_of_readBack h
  have hs : charCount s = s.length ∨ valid s := by
    by_contra hnot
    rw [not_or] at hnot
    rw [readBackString, if_neg hnot.1, hinvalid s hnot.2] at h
    cases h
  rw [readBackString_eq hconv hnul hs hsize] at h
  exact ⟨(some_inj.mp h).symm, hs, hsize⟩

theorem inRange_of_readBack (hconv : Conversions valid)
    (hinvalid : ∀ s, ¬valid s → toUtf16 s = none) (hr : r ∈ [1, 2, 4])
    (hnul : ∀ str, s = .string str → 0 ∉ str) (hhash : hashes (.scalar s : Value Nat) = true)
    (h : s.readBack r = some s) :
    s.InRange valid r ∧ objectSize r (.scalar s) ≤ maxObjectSize := by
  cases s <;> simp only [Scalar.readBack] at h
  case null => cases hhash
  case date => cases h
  case integer i => exact ⟨(ite_none_right_eq_some.mp h).1, Nat.zero_le _⟩
  case data bytes => exact ⟨trivial, (ite_none_right_eq_some.mp h).1⟩
  case string str =>
    obtain ⟨key, hkey, -⟩ := map_eq_some_iff.mp h
    exact (readBackString_inj hconv hinvalid (hnul str rfl) hkey).2
  case uid u =>
    simp only [some.injEq, Scalar.uid.injEq] at h
    exact ⟨(uid_readBack_iff hr).mp h, Nat.zero_le _⟩
  all_goals exact ⟨trivial, Nat.zero_le _⟩

/-- What was parsed can be written, and comes back as it was, if and only if it fits and is in
range, all of it. -/
theorem parse_toBinary_iff (hconv : Conversions valid)
    (hinvalid : ∀ s, ¬valid s → toUtf16 s = none) (hmem : EnoughMemory) {fuel : Nat}
    {data : List UInt8} (_ : parse fuel data = .ok out) (hwf : WellFormed plist)
    (htree : IsTree plist) (hroot : plist.content = .dict () out)
    (hsize : encodedSize plist < 2 ^ 31) :
    (∃ array length, toBinary plist = some (array, length) ∧
        ∃ fuel, parse fuel (array.take length.toInt.toNat) = .ok out) ↔
      Fits plist ∧ Ranged valid plist := by
  have harray : ∀ bytes, writePlist plist = some bytes →
      bytes.take (Int32.ofNat bytes.length).toInt.toNat = bytes := fun bytes hw =>
    take_intLength (length_writePlist htree.coherent hw ▸ hsize)
  constructor
  · rintro ⟨array, length, hbinary, fuel, hfuel⟩
    obtain ⟨bytes, hw, harr⟩ := bind_eq_some_iff.mp hbinary
    cases harr
    rw [harray array hw] at hfuel
    obtain ⟨hcount, hkept⟩ := (parse_written_iff hmem hwf
      (fun s hs key hkey => (readBackString_inj hconv hinvalid (hwf.strings s hs) hkey).1)
      (by omega) hw hroot).mp ⟨fuel, hfuel⟩
    have hall : ∀ w ∈ plist.visited, Kept plist (refSize plist) w := fun w hw =>
      hkept w (htree.mem_reached hw)
    have hrep : ∀ s, .scalar s ∈ plist.visited → representative plist.visited s = s :=
      fun s hs => representative_eq_of_readBack (hall _ hs)
    have hscalar : ∀ s, .scalar s ∈ plist.visited → s.InRange valid (refSize plist) ∧
        objectSize (refSize plist) (.scalar s) ≤ maxObjectSize := fun s hs =>
      inRange_of_readBack hconv hinvalid (refSize_mem plist)
        (fun str hstr => hwf.strings str (hstr ▸ hs)) (hashes_of_writePlist hw _ hs)
        (by simpa only [Kept, hrep s hs] using hall _ hs)
    refine ⟨⟨hcount, fun w hw => ?_⟩, fun s hs => (hscalar s hs).1, oneZero_of_representative hrep⟩
    cases w with
    | scalar s => exact (hscalar s hw).2
    | array o elements => exact hall _ hw
    | dict o dict => exact (hall _ hw).1
  · rintro ⟨hfits, hranged⟩
    obtain ⟨bytes, hw, hparse⟩ := parse_ranged_tree hconv hmem htree hwf hfits hranged hroot
    refine ⟨bytes, .ofNat bytes.length, toBinary_eq hw, ?_⟩
    rwa [harray bytes hw]

omit [GLib] in
theorem parse_toBinary_iff_sample : ∃ array length,
    @toBinary asciiGLib sampleTree = some (array, length) ∧ ∃ fuel,
      @parse asciiGLib fuel (array.take length.toInt.toNat) = .ok sampleContent := by
  let _ := asciiGLib
  have hparse : ∃ bytes, parse 9 bytes = .ok sampleContent :=
    ⟨((writePlist sampleTree).getD []), by decide +kernel⟩
  obtain ⟨bytes, hparse⟩ := hparse
  exact (parse_toBinary_iff conversions_ascii (fun s h => absurd trivial h) enoughMemory_ascii
    hparse plainTree_sample.wellFormed plainTree_sample.tree rfl (by decide)).mpr
    ⟨plainTree_sample.fits, plainTree_sample.ranged⟩

/-- The dict of `a`, which is null. -/
def nullData : List UInt8 :=
  [0x62, 0x70, 0x6c, 0x69, 0x73, 0x74, 0x30, 0x30, 0xd1, 0x01, 0x02, 0x51, 0x61, 0x00, 0x08, 0x0b,
    0x0d, 0, 0, 0, 0, 0, 0, 1, 1, 0, 0, 0, 0, 0, 0, 0, 3, 0, 0, 0, 0, 0, 0, 0, 0, 0, 0, 0, 0, 0, 0,
    0, 14]

omit [GLib] in
/-- What was parsed can not be written. -/
theorem null_not_written :
    @parse asciiGLib 9 nullData = .ok [([0x61], .scalar .null)] ∧
      (Value.dict 0 [([0x61], .scalar .null)]).content = .dict () [([0x61], .scalar .null)] ∧
      @toBinary asciiGLib (.dict 0 [([0x61], .scalar .null)]) = none := by
  decide +kernel

end FridaCore.Fruity
