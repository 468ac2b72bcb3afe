import FridaCore.Fruity.PlistRoundTrip

/-!
# Numbers in their places

A place in a property list is a path of indices and keys. A number comes back at its place
if the whole can be parsed, which takes that no integer is 2³² or more, no dict on the
path is shared, and a uid is no wider than a reference.
-/

namespace FridaCore.Fruity

open List Option Prod

open BinaryWriter BinaryParser

inductive Place
  | index (i : Nat)
  | key (k : Str)

def Value.at : Value ι → List Place → Option (Value ι)
  | v, [] => some v
  | .array _ elements, .index i :: rest => elements[i]?.bind (·.at rest)
  | .dict _ entries, .key k :: rest => (entries.lookup k).bind (·.at rest)
  | _, _ :: _ => none

variable {plist v w : Value Nat} {path : List Place} {r : Nat} {s : Scalar}

def Apart (plist : Value Nat) : Value Nat → List Place → Prop
  | _, [] => True
  | .array _ elements, .index i :: rest => ∀ v, elements[i]? = some v → Apart plist v rest
  | .dict o entries, .key k :: rest =>
    ¬Shared plist o ∧ ∀ v, entries.lookup k = some v → Apart plist v rest
  | _, _ :: _ => True

theorem at_cons (h : w.at (step :: rest) = some v) :
    (∃ o elements i u, w = .array o elements ∧ step = .index i ∧ elements[i]? = some u ∧
        u.at rest = some v) ∨
      ∃ o dict k u, w = .dict o dict ∧ step = .key k ∧ dict.lookup k = some u ∧
        u.at rest = some v := by
  cases w <;> cases step <;> simp only [Value.at, reduceCtorEq, bind_eq_some_iff] at h
  · obtain ⟨u, hu, hrest⟩ := h
    exact .inl ⟨_, _, _, u, rfl, rfl, hu, hrest⟩
  · obtain ⟨u, hu, hrest⟩ := h
    exact .inr ⟨_, _, _, u, rfl, rfl, hu, hrest⟩

theorem mem_reached_of_at (h : w.at path = some v) (hapart : Apart plist w path) :
    v ∈ reached plist w := by
  induction path generalizing w with
  | nil =>
    cases h
    cases v <;> simp [reached]
  | cons step rest ih =>
    rcases at_cons h with ⟨o, elements, i, u, rfl, rfl, hu, hrest⟩ |
      ⟨o, dict, k, u, rfl, rfl, hu, hrest⟩
    · have hv := ih hrest (hapart u hu)
      simp only [reached, reachedAll_eq, mem_cons, mem_flatMap]
      exact .inr ⟨u, mem_of_getElem? hu, hv⟩
    · have hv := ih hrest (hapart.2 u hu)
      simp only [reached, reachedValues_eq, if_neg hapart.1, mem_append, mem_flatMap]
      exact .inr ⟨(k, u), mem_of_lookup hu, hv⟩

theorem getElem?_of_mapM {l : List α} {i : Nat} {a : α}
    (h : l.mapM f = some l') (ha : l[i]? = some a) : ∃ b, f a = some b ∧ l'[i]? = some b := by
  induction l generalizing l' i with
  | nil => cases ha
  | cons a' rest ih =>
    simp only [List.mapM_cons, Option.bind_eq_bind, Option.bind_eq_some_iff, Option.pure_def,
      Option.some.injEq] at h
    obtain ⟨b, hb, more, hmore, rfl⟩ := h
    cases i with
    | zero =>
      cases ha
      exact ⟨b, hb, rfl⟩
    | succ i => simpa using ih hmore (by simpa using ha)

section
variable [GLib] {t : Tree}

theorem readBack_array (h : readBack r plist (.array o elements) = some t) :
    ∃ ts, t = .array () ts ∧ ∀ (i : Nat) v, elements[i]? = some v →
      ∃ u, readBack r plist v = some u ∧ ts[i]? = some u := by
  rw [readBack, readBackAll_eq_mapM] at h
  split at h
  · obtain ⟨ts, hts, rfl⟩ := map_eq_some_iff.mp h
    exact ⟨ts, rfl, fun i v hv => getElem?_of_mapM hts hv⟩
  · cases h

variable (hwf : WellFormed plist)
  (hstr : ∀ s, .scalar (.string s) ∈ plist.visited → ∀ key, readBackString s = some key → key = s)
include hwf hstr

/-- The values of a dict, read back; those of a dict that is shared are its keys. -/
theorem readBack_dict {dict : List (Str × Value Nat)}
    (hw : .dict o dict ∈ plist.visited) (h : readBack r plist (.dict o dict) = some t) :
    ∃ entries, t = .dict () entries ∧ ∀ k v, dict.lookup k = some v → ∃ u,
      entries.lookup k = some u ∧
        if Shared plist o then u = .scalar (.string k) else readBack r plist v = some u := by
  have hkey : ∀ e ∈ dict, ∀ key, readBackString e.1 = some key → key = e.1 := fun e he =>
    hstr e.1 (visited_trans (by simpa [Value.visited] using .inl ⟨e.2, he⟩) hw)
  rw [readBack] at h
  split at h
  · obtain ⟨entries, hentries, rfl⟩ := map_eq_some_iff.mp h
    rw [readBackEntries_eq] at hentries
    obtain ⟨pairs, hpairs, rfl⟩ := map_eq_some_iff.mp hentries
    refine ⟨_, rfl, fun k v hk => ?_⟩
    have hkeys : pairs.map fst = dict.map fst :=
      map_eq_of_mapM hpairs fun e he p hp => hkey e he p.1 (readBackEntry_eq_some.mp hp).1
    obtain ⟨i, hi⟩ := getElem?_of_mem (mem_of_lookup hk)
    obtain ⟨⟨key, u⟩, hentry, hp⟩ := getElem?_of_mapM hpairs hi
    obtain ⟨hread, hval⟩ := readBackEntry_eq_some.mp hentry
    obtain rfl : key = k := hkey _ (mem_of_lookup hk) key hread
    refine ⟨u, lookup_toDict (hkeys ▸ hwf.keys o dict hw) (mem_of_getElem? hp), ?_⟩
    by_cases hshared : Shared plist o
    · have hdecide : decide (1 < (occurrences plist (true, o)).length) = true :=
        decide_eq_true hshared
      rw [if_pos hdecide] at hval
      rw [if_pos hshared]
      exact (some_inj.mp hval).symm
    · have hdecide : ¬decide (1 < (occurrences plist (true, o)).length) = true :=
        fun h => hshared (of_decide_eq_true h)
      rw [if_neg hdecide] at hval
      rw [if_neg hshared]
      exact hval
  · cases h

theorem at_of_apart (hw : w ∈ plist.visited) (h : readBack r plist w = some t)
    (hplace : w.at path = some v) (hapart : Apart plist w path) :
    t.at path = readBack r plist v := by
  induction path generalizing w t with
  | nil =>
    cases hplace
    exact h.symm
  | cons step rest ih =>
    rcases at_cons hplace with ⟨o, elements, i, u, rfl, rfl, hu, hrest⟩ |
      ⟨o, dict, k, u, rfl, rfl, hu, hrest⟩
    · obtain ⟨ts, rfl, hts⟩ := readBack_array h
      obtain ⟨t', ht', hi⟩ := hts i u hu
      have hmem := visited_trans ((visited_sublist_array (mem_of_getElem? hu)).subset
        (mem_visited_self u)) hw
      simp only [Value.at, hi, bind_some]
      exact ih hmem ht' hrest (hapart u hu)
    · obtain ⟨entries, rfl, hentries⟩ := readBack_dict hwf hstr hw h
      obtain ⟨t', hk, hval⟩ := hentries k u hu
      have hmem := visited_trans ((visited_sublist_dict (mem_of_lookup hu)).subset
        (mem_visited_self u)) hw
      rw [if_neg hapart.1] at hval
      simp only [Value.at, hk, bind_some]
      exact ih hmem hval hrest (hapart.2 u hu)

theorem at_of_not_apart {u : Tree} (hw : w ∈ plist.visited) (h : readBack r plist w = some t)
    (hplace : w.at path = some v) (hapart : ¬Apart plist w path) (hu : t.at path = some u) :
    ∃ k, u = .scalar (.string k) := by
  induction path generalizing w t with
  | nil => exact absurd trivial hapart
  | cons step rest ih =>
    rcases at_cons hplace with ⟨o, elements, i, c, rfl, rfl, hc, hrest⟩ |
      ⟨o, dict, k, c, rfl, rfl, hc, hrest⟩
    · obtain ⟨ts, rfl, hts⟩ := readBack_array h
      obtain ⟨t', ht', hi⟩ := hts i c hc
      have hmem := visited_trans ((visited_sublist_array (mem_of_getElem? hc)).subset
        (mem_visited_self c)) hw
      simp only [Value.at, hi, bind_some] at hu
      refine ih hmem ht' hrest (fun hc' => hapart fun c' hc'' => ?_) hu
      rw [hc] at hc''
      cases hc''
      exact hc'
    · obtain ⟨entries, rfl, hentries⟩ := readBack_dict hwf hstr hw h
      obtain ⟨t', hk, hval⟩ := hentries k c hc
      have hmem := visited_trans ((visited_sublist_dict (mem_of_lookup hc)).subset
        (mem_visited_self c)) hw
      simp only [Value.at, hk, bind_some] at hu
      by_cases hshared : Shared plist o
      · rw [if_pos hshared] at hval
        subst hval
        cases rest with
        | nil => exact ⟨k, (some_inj.mp hu).symm⟩
        | cons step => cases step <;> cases hu
      · rw [if_neg hshared] at hval
        refine ih hmem hval hrest (fun hc' => hapart ⟨hshared, fun c' hc'' => ?_⟩) hu
        rw [hc] at hc''
        cases hc''
        exact hc'

end

def Scalar.isNumber : Scalar → Bool
  | .integer _ | .uid _ => true
  | _ => false

variable [GLib] {valid : Str → Prop}

theorem readable_scalar_iff (hconv : Conversions valid) (hwf : WellFormed plist)
    (hfits : Fits plist) (hs : .scalar s ∈ plist.visited)
    (hother : s.isNumber = false → s.InRange valid (refSize plist)) :
    Readable plist (refSize plist) (.scalar s) ↔ ∀ i, s = .integer i → i < 4294967296 := by
  rw [Readable]
  cases hnum : s.isNumber with
  | true =>
    cases s with
    | integer i =>
      rw [representative_of_not_zero rfl, Scalar.readBack]
      by_cases hi : i < 4294967296 <;> simp [hi]
    | uid u =>
      rw [representative_of_not_zero rfl]
      refine iff_of_true rfl fun i hi => ?_
      cases hi
    | _ => cases hnum
  | false =>
    refine iff_of_true ?_ fun i hi => by rw [hi] at hnum; cases hnum
    by_cases hz : s.isZero = true
    · rw [representative_readBack hz]
      rfl
    · rw [representative_of_not_zero (by simpa using hz), readBack_of_inRange hconv
        (refSize_mem plist) (fun str hstr => hwf.strings str (hstr ▸ hs)) (hother hnum)
        (hfits.sizes _ hs)]
      rfl

theorem exists_writePlist_numbers (hconv : Conversions valid) (hwf : WellFormed plist)
    (hfits : Fits plist) (hothers : ∀ s, .scalar s ∈ plist.visited → s.isNumber = false →
      s.InRange valid (refSize plist)) : ∃ bytes, writePlist plist = some bytes := by
  refine writePlist_isSome hwf.coherent (fun w hw => ?_) hfits.sizes fun s hs => ?_
  · cases w with
    | scalar s =>
      have hrange := hothers s hw
      cases s <;> first | rfl | cases hrange rfl
    | array | dict => rfl
  · refine (hothers _ hs rfl).imp_right fun hvalid => ?_
    obtain ⟨units, hunits, -⟩ := hconv.inverse s hvalid
    rw [hunits]
    rfl

theorem readBack_number_iff (hs : s.isNumber = true) :
    readBack (refSize plist) plist (.scalar s) = some (.scalar s) ↔
      (∀ i, s = .integer i → i < 4294967296) ∧ ∀ u, s = .uid u → u.toNat < 256 ^ refSize plist := by
  cases s with
  | integer i =>
    rw [readBack, representative_of_not_zero rfl, Scalar.readBack]
    by_cases hi : i < 4294967296 <;> simp [hi]
  | uid u =>
    rw [readBack, representative_of_not_zero rfl, Scalar.readBack]
    have := uid_readBack_iff (refSize_mem plist) (u := u)
    simpa using this
  | _ => cases hs

/-- A number comes back at its place if and only if no integer that is read is 2³² or more,
no dict on the path is in two places, and a uid is no wider than a reference. -/
theorem number_roundTrip_iff (hconv : Conversions valid) (hmem : EnoughMemory)
    (hwf : WellFormed plist) (hfits : Fits plist)
    (hothers : ∀ s, .scalar s ∈ plist.visited → s.isNumber = false → s.InRange valid (refSize plist))
    (hsize : encodedSize plist < 2 ^ 31) (hroot : ∃ o entries, plist = .dict o entries)
    (hs : s.isNumber = true) (hplace : plist.at path = some (.scalar s)) :
    (∃ bytes, writePlist plist = some bytes ∧ ∃ fuel out, parse fuel bytes = .ok out ∧
        (Value.dict () out).at path = some (.scalar s)) ↔
      (∀ i, .scalar (.integer i) ∈ reached plist plist → i < 4294967296) ∧
        Apart plist plist path ∧ ∀ u, s = .uid u → u.toNat < 256 ^ refSize plist := by
  obtain ⟨bytes, hw⟩ := exists_writePlist_numbers hconv hwf hfits hothers
  have hlen := length_writePlist hwf.coherent hw
  have hstr : ∀ s, .scalar (.string s) ∈ plist.visited → ∀ key, readBackString s = some key →
      key = s := by
    intro s hs key hkey
    rw [readBackString_eq hconv (hwf.strings s hs) (hothers _ hs rfl) (hfits.sizes _ hs)] at hkey
    exact (some_inj.mp hkey).symm
  have hreadable : (readBack (refSize plist) plist plist).isSome ↔
      ∀ i, .scalar (.integer i) ∈ reached plist plist → i < 4294967296 := by
    rw [readBack_isSome_iff]
    constructor
    · intro h i hi
      exact (readable_scalar_iff hconv hwf hfits (reached_subset hi) nofun).mp (h _ hi) i rfl
    · intro h u hu
      have hvisited := reached_subset hu
      cases u with
      | scalar s =>
        exact (readable_scalar_iff hconv hwf hfits hvisited (hothers s hvisited)).mpr
          fun i hi => h i (hi ▸ hu)
      | array o elements | dict o dict => exact hfits.sizes _ hvisited
  have hself := mem_visited_self plist
  constructor
  · rintro ⟨_, hw', fuel, out, hparse, hat⟩
    rw [hw] at hw'
    cases hw'
    obtain ⟨-, hread⟩ := (parse_writePlist hmem hwf.coherent hw (by omega)).mp ⟨fuel, hparse⟩
    have hapart : Apart plist plist path := by
      by_contra hnot
      obtain ⟨k, hk⟩ := at_of_not_apart hwf hstr hself hread hplace hnot hat
      cases hk
      cases hs
    rw [at_of_apart hwf hstr hself hread hplace hapart, readBack_number_iff hs] at hat
    exact ⟨hreadable.mp (by rw [hread]; rfl), hapart, hat.2⟩
  · rintro ⟨hints, hapart, huid⟩
    obtain ⟨t, hread⟩ := isSome_iff_exists.mp (hreadable.mpr hints)
    obtain ⟨o, entries, rfl⟩ := hroot
    obtain ⟨out, rfl, -⟩ := readBack_dict hwf hstr hself hread
    obtain ⟨fuel, hparse⟩ := (parse_writePlist hmem hwf.coherent hw (by omega)).mpr ⟨hfits.count, hread⟩
    refine ⟨bytes, hw, fuel, out, hparse, ?_⟩
    rw [at_of_apart hwf hstr hself hread hplace hapart, readBack_number_iff hs]
    exact ⟨fun i hi => hints i (hi ▸ mem_reached_of_at hplace hapart), huid⟩

def numbers (u : UInt64) (i : Int64) : Value Nat :=
  .dict 0 [([0x75], .scalar (.uid u)), ([0x69], .scalar (.integer i))]

omit [GLib] in
theorem number_roundTrip_iff_uid : ∃ bytes, @writePlist asciiGLib (numbers 200 300) = some bytes ∧
    ∃ fuel out, @parse asciiGLib fuel bytes = .ok out ∧
      (Value.dict () out).at [.key [0x75]] = some (.scalar (.uid 200)) := by
  let _ := asciiGLib
  have hvisited : ∀ w ∈ (numbers 200 300).visited, w = numbers 200 300 ∨
      w = .scalar (.string [0x75]) ∨ w = .scalar (.string [0x69]) ∨ w = .scalar (.uid 200) ∨
      w = .scalar (.integer 300) := by decide
  refine (number_roundTrip_iff conversions_ascii enoughMemory_ascii
    ⟨by decide, fun o dict h => ?_, fun s h => ?_⟩ ⟨by decide, by decide⟩ (fun s h hnum => ?_)
    (by decide) ⟨0, _, rfl⟩ rfl rfl).mpr ⟨fun i h => ?_, ⟨by decide, fun v _ => trivial⟩, ?_⟩
  · rcases hvisited _ h with hw | hw | hw | hw | hw <;> cases hw
    decide
  · rcases hvisited _ h with hw | hw | hw | hw | hw <;> cases hw <;> decide
  · rcases hvisited _ h with hw | hw | hw | hw | hw <;> cases hw
    · exact .inl rfl
    · exact .inl rfl
    · cases hnum
    · cases hnum
  · rcases hvisited _ (reached_subset h) with hw | hw | hw | hw | hw <;> cases hw
    decide
  · rintro u ⟨⟩
    decide

omit [GLib] in
/-- A uid of 300 comes back as 44, and with an integer of 2³² nothing comes back. -/
theorem numbers_lost :
    (@writePlist asciiGLib (numbers 300 1)).map (@parse asciiGLib 9) =
        some (.ok [([0x69], .scalar (.integer 1)), ([0x75], .scalar (.uid 44))]) ∧
      (@writePlist asciiGLib (numbers 1 4294967296)).map (@parse asciiGLib 9) =
        some (invalidData "Invalid binary plist: Unsupported integer size: 16") := by
  decide +kernel

end FridaCore.Fruity
