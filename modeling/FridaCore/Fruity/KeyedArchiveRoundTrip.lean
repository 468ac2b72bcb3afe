import FridaCore.Fruity.KeyedArchiveDocument
import FridaCore.Fruity.KeyedArchiveNumbers

/-!
# Round trips of keyed archives

What was encoded is decoded as it was, if there is no set in it, its integers are below
2³², its reals are integers that fit into an `int64`, and the archive is within the limits
of the parser. What is not like that does not come back.
-/

namespace FridaCore.Fruity

open List Option Prod NSNumber NSObject

open BinaryWriter BinaryParser

namespace NSKeyedArchive

mutual
/-- Two objects of kinds that can be encoded are equal, in all that they are made of. -/
def same : NSObject → NSObject → Bool
  | .null, .null => true
  | .number a, .number b => a.isEqualTo b
  | .string a, .string b => a = b
  | .dictionary as, .dictionary bs => as.length = bs.length && sameEntries as bs
  | .array as, .array bs => sameAll as bs
  | .set as, .set bs => as.length = bs.length && sameItems as bs
  | _, _ => false
termination_by structural v => v
def sameAll : List NSObject → List NSObject → Bool
  | [], [] => true
  | a :: as, b :: bs => same a b && sameAll as bs
  | _, _ => false
termination_by structural vs => vs
def sameEntries : List (Str × NSObject) → List (Str × NSObject) → Bool
  | [], _ => true
  | (key, a) :: as, bs => (bs.lookup key).any (same a) && sameEntries as bs
termination_by structural es => es
def sameItems : List NSObject → List NSObject → Bool
  | [], _ => true
  | a :: as, bs => bs.any (same a) && sameItems as bs
termination_by structural vs => vs
end

theorem sameEntries_iff : sameEntries as bs = true ↔
    ∀ e ∈ as, ∃ b, bs.lookup e.1 = some b ∧ same e.2 b = true := by
  induction as with
  | nil => simp [sameEntries]
  | cons e rest ih =>
    rw [sameEntries, Bool.and_eq_true, ih, List.forall_mem_cons, Option.any_eq_true]

def Returns : NSObject → Prop
  | .null | .string _ | .dictionary _ | .array _ => True
  | .number (.boolean _) | .number (.integer _) => True
  | .number (.float bits) => WholeInt64 .binary32 bits.toNat
  | .number (.double bits) => WholeInt64 .binary64 bits.toNat
  | _ => False

def ComesBack (v : NSObject) : Prop := ∃ w, decoded v = some w ∧ same v w = true

theorem comesBack_number (n : NSNumber) : ComesBack (.number n) ↔ Returns (.number n) := by
  cases n with
  | boolean val | integer val => exact iff_of_true ⟨_, rfl, decide_eq_true rfl⟩ trivial
  | float bits =>
    constructor
    · rintro ⟨w, hw, hsame⟩
      simp only [decoded, numberScalar, toInteger, bind_eq_some_iff,
        map_eq_some_iff, int64OfReal_eq_some] at hw
      obtain ⟨_, ⟨val, ⟨i, hi, hrange, rfl⟩, rfl⟩, hw⟩ := hw
      cases hw
      exact ⟨(floatEq_ofInt_iff hi).mp hsame, _, hi, hrange⟩
    · rintro ⟨hintegral, i, hi, hrange⟩
      obtain ⟨val, hval, hto⟩ := int64OfReal_of_range hi hrange
      refine ⟨.number (.float (.ofNat (BinaryFormat.binary32.ofInt i))), ?_,
        (floatEq_ofInt_iff hi).mpr hintegral⟩
      simp only [decoded, numberScalar, toInteger, hval, map_some,
        bind_some, hto, decodeScalar]
  | double bits =>
    constructor
    · rintro ⟨w, hw, hsame⟩
      simp only [decoded, numberScalar, toInteger, bind_eq_some_iff,
        map_eq_some_iff, int64OfReal_eq_some] at hw
      obtain ⟨_, ⟨val, ⟨i, hi, hrange, rfl⟩, rfl⟩, hw⟩ := hw
      cases hw
      exact ⟨(doubleEq_ofInt_iff hi).mp hsame, _, hi, hrange⟩
    · rintro ⟨hintegral, i, hi, hrange⟩
      obtain ⟨val, hval, hto⟩ := int64OfReal_of_range hi hrange
      refine ⟨.number (.double (.ofNat (BinaryFormat.binary64.ofInt i))), ?_,
        (doubleEq_ofInt_iff hi).mpr hintegral⟩
      simp only [decoded, numberScalar, toInteger, hval, map_some,
        bind_some, hto, decodeScalar]

theorem comesBack_array :
    ComesBack (.array vs) ↔ ∀ v ∈ vs, ComesBack v := by
  have hall : (∃ ws, decodedAll vs = some ws ∧ sameAll vs ws = true) ↔ ∀ v ∈ vs, ComesBack v := by
    induction vs with
    | nil => exact iff_of_true ⟨[], rfl, rfl⟩ (by simp)
    | cons v rest ih =>
      rw [List.forall_mem_cons, ← ih]
      constructor
      · rintro ⟨ws, hws, hsame⟩
        simp only [decodedAll, Option.bind_eq_bind, Option.bind_eq_some_iff, Option.pure_def,
          Option.some.injEq] at hws
        obtain ⟨w, hw, more, hmore, rfl⟩ := hws
        rw [sameAll, Bool.and_eq_true] at hsame
        exact ⟨⟨w, hw, hsame.1⟩, more, hmore, hsame.2⟩
      · rintro ⟨⟨w, hw, hsame⟩, more, hmore, hrest⟩
        refine ⟨w :: more, by simp [decodedAll, hw, hmore], ?_⟩
        rw [sameAll, hsame, hrest]
        rfl
  rw [← hall]
  constructor
  · rintro ⟨w, hw, hsame⟩
    obtain ⟨ws, hws, rfl⟩ := Option.map_eq_some_iff.mp hw
    exact ⟨ws, hws, hsame⟩
  · rintro ⟨ws, hws, hsame⟩
    exact ⟨.array ws, by rw [decoded, hws]; rfl, hsame⟩

theorem decodedEntries_eq_some :
    decodedEntries es = some es' ↔
      List.Forall₂ (fun e e' => e'.1 = e.1 ∧ decoded e.2 = some e'.2) es es' := by
  induction es generalizing es' with
  | nil => simp [decodedEntries, eq_comm]
  | cons e rest ih =>
    simp only [decodedEntries, Option.bind_eq_bind, Option.bind_eq_some_iff, Option.pure_def,
      Option.some.injEq, List.forall₂_cons_left_iff, ih]
    constructor
    · rintro ⟨w, hw, more, hmore, rfl⟩
      exact ⟨(e.1, w), more, ⟨rfl, hw⟩, hmore, rfl⟩
    · rintro ⟨⟨key, w⟩, more, ⟨hkey, hw⟩, hmore, rfl⟩
      exact ⟨w, hw, more, hmore, by rw [← hkey]⟩

theorem keys_decodedEntries (h : decodedEntries es = some es') :
    es'.map fst = es.map fst := by
  have hall := decodedEntries_eq_some.mp h
  clear h
  induction hall with
  | nil => rfl
  | cons h _ ih => rw [map_cons, map_cons, h.1, ih]

theorem exists_decodedEntries
    (h : ∀ e ∈ es, ∃ w, decoded e.2 = some w) : ∃ es', decodedEntries es = some es' := by
  induction es with
  | nil => exact ⟨[], rfl⟩
  | cons e rest ih =>
    obtain ⟨⟨w, hw⟩, hrest⟩ := forall_mem_cons.mp h
    obtain ⟨es', hes⟩ := ih hrest
    exact ⟨(e.1, w) :: es', by simp [decodedEntries, hw, hes]⟩

theorem comesBack_dictionary (hkeys : (es.map fst).Nodup) :
    ComesBack (.dictionary es) ↔ ∀ e ∈ es, ComesBack e.2 := by
  have hback : ∀ {es'}, decodedEntries es = some es' → es.length = (toDict es').length ∧
      ∀ e ∈ es, ∃ w, decoded e.2 = some w ∧ (toDict es').lookup e.1 = some w := by
    intro es' hes
    have hnodup : (es'.map fst).Nodup := keys_decodedEntries hes ▸ hkeys
    have hall := decodedEntries_eq_some.mp hes
    refine ⟨by rw [(perm_toDict hnodup).length_eq, hall.length_eq], fun e he => ?_⟩
    obtain ⟨e', he', hkey, hw⟩ := exists_of_forall₂ hall he
    exact ⟨e'.2, hw, lookup_toDict hnodup (hkey ▸ he')⟩
  constructor
  · rintro ⟨w, hw, hsame⟩ e he
    obtain ⟨es', hes, rfl⟩ := map_eq_some_iff.mp hw
    obtain ⟨-, hlookup⟩ := hback hes
    rw [same, Bool.and_eq_true, sameEntries_iff] at hsame
    obtain ⟨b, hb, hsame⟩ := hsame.2 e he
    obtain ⟨w, hw, hfound⟩ := hlookup e he
    cases hb.symm.trans hfound
    exact ⟨b, hw, hsame⟩
  · intro h
    obtain ⟨es', hes⟩ := exists_decodedEntries fun e he => (h e he).imp fun _ h => h.1
    obtain ⟨hlength, hlookup⟩ := hback hes
    refine ⟨.dictionary (toDict es'), by rw [decoded, hes]; rfl, ?_⟩
    rw [same, Bool.and_eq_true, sameEntries_iff, decide_eq_true_eq]
    refine ⟨hlength, fun e he => ?_⟩
    obtain ⟨w, hw, hsame⟩ := h e he
    obtain ⟨b, hb, hfound⟩ := hlookup e he
    cases hw.symm.trans hb
    exact ⟨w, hfound, hsame⟩

theorem comesBack_iff (v : NSObject)
    (hkeys : ∀ es, .dictionary es ∈ v.parts → (es.map fst).Nodup) :
    ComesBack v ↔ ∀ p ∈ v.parts, Returns p := by
  induction v using induct with
  | null => exact iff_of_true ⟨_, rfl, rfl⟩ (by simp [parts, Returns])
  | number n => exact (comesBack_number n).trans (by simp [parts])
  | string str =>
    exact iff_of_true ⟨_, rfl, decide_eq_true rfl⟩ (by simp [parts, Returns])
  | dictionary es ih =>
    rw [comesBack_dictionary (hkeys es (mem_parts_self _)), parts,
      forall_mem_cons, partsOfEntries_eq, forall_mem_flatMap, Returns, true_and]
    exact forall₂_congr fun e he => ih e he fun es hes => hkeys es (parts_entry he hes)
  | array vs ih =>
    rw [comesBack_array, parts, forall_mem_cons, partsOfAll_eq,
      forall_mem_flatMap, Returns, true_and]
    exact forall₂_congr fun v hv => ih v hv fun es hes =>
      hkeys es ((parts_element hv).1 hes)
  | set vs =>
    refine iff_of_false ?_ fun h => h _ (mem_parts_self _)
    rintro ⟨w, hw, -⟩
    cases hw
  | other v hnull henc =>
    refine iff_of_false ?_ fun h => ?_
    · rintro ⟨w, hw, -⟩
      cases v <;> first | exact absurd rfl hnull | cases henc; cases hw | cases henc
    · have hself := h v v.mem_parts_self
      cases v <;> first | exact absurd rfl hnull | exact hself | cases henc

/-- The objects in memory: a string is valid and ends at its first NUL, and a dictionary has
one value for a key. -/
structure Stored (valid : Str → Prop) (v : NSObject) : Prop where
  strings : ∀ str, .string str ∈ v.parts → valid str ∧ 0 ∉ str
  keys : ∀ es, .dictionary es ∈ v.parts → (es.map Prod.fst).Nodup
  keyStrings : ∀ es, .dictionary es ∈ v.parts → ∀ e ∈ es, valid e.1 ∧ 0 ∉ e.1

section
variable {valid : Str → Prop} {integers : Int64 → Prop} {v : NSObject}

theorem archived_number (h : numberScalar n = some s)
    (hint : ∀ i, n = .integer i → integers i) : Archived valid integers s := by
  cases n with
  | boolean val =>
    cases h
    trivial
  | integer val =>
    cases h
    exact hint val rfl
  | float bits =>
    simp only [numberScalar, toInteger, map_eq_some_iff, int64OfReal_eq_some] at h
    obtain ⟨val, ⟨i, hi, -, rfl⟩, rfl⟩ := h
    exact ⟨unsigned_ofInt_float hi, notNan_ofInt_float hi⟩
  | double bits =>
    simp only [numberScalar, toInteger, map_eq_some_iff, int64OfReal_eq_some] at h
    obtain ⟨val, ⟨i, hi, -, rfl⟩, rfl⟩ := h
    exact ⟨unsigned_ofInt_double hi, notNan_ofInt_double hi⟩

theorem Stored.archived (h : Stored valid v)
    (hint : ∀ i, .number (.integer i) ∈ v.parts → integers i) :
    ∀ w ∈ v.parts, ∀ s ∈ ownScalars w, Archived valid integers s := by
  intro w hw s hs
  cases w with
  | number n =>
    refine archived_number (n := n) (by simpa [ownScalars] using hs) fun i hi => hint i ?_
    rwa [← hi]
  | string str =>
    cases mem_singleton.mp hs
    exact h.strings str hw
  | dictionary es =>
    obtain ⟨e, he, rfl⟩ := mem_map.mp hs
    exact h.keyStrings es hw e he
  | _ => cases hs

theorem integer_mem [HashOrder]
    (h : Represents objects v uid) (hi : .number (.integer i) ∈ v.parts) :
    .scalar (.integer i) ∈ objects := by
  induction v using induct generalizing uid with
  | null => simp [parts] at hi
  | number n =>
    obtain ⟨s, hs, h⟩ := h
    have hn : n = .integer i := by simpa [parts, eq_comm] using hi
    rw [hn] at hs
    cases hs
    exact mem_of_getElem? h.2
  | string str => simp [parts] at hi
  | dictionary es ih =>
    obtain ⟨uids, -, h⟩ := h
    simp only [parts, partsOfEntries_eq, mem_cons, reduceCtorEq, false_or,
      mem_flatMap] at hi
    obtain ⟨e, he, hi⟩ := hi
    have hall := settlesEntries_of (P := fun uid e => Represents objects e.2 uid.2)
      (fun _ _ _ _ _ h => h) h
    obtain ⟨uid, -, hrep⟩ := exists_of_forall₂ hall.flip he
    exact ih e he hrep hi
  | array vs ih | set vs ih =>
    obtain ⟨uids, -, h⟩ := h
    simp only [parts, partsOfAll_eq, mem_cons, reduceCtorEq, false_or,
      mem_flatMap] at hi
    obtain ⟨v, hv, hi⟩ := hi
    have hall := settlesAll_of (P := fun uid v => Represents objects v uid) (fun _ _ _ h => h) h
    obtain ⟨uid, -, hrep⟩ := exists_of_forall₂ hall.flip hv
    exact ih v hv hrep hi
  | other v hnull henc => exact absurd h (not_represents hnull henc)

end

section
variable [GLib] {plist : Value Nat}

theorem toBinary_eq_some (hc : Coherent plist) (hsize : encodedSize plist < 2 ^ 31) :
    (∃ array length, toBinary plist = some (array, length) ∧
      array.take length.toInt.toNat = bytes) ↔ writePlist plist = some bytes := by
  have htake : ∀ bytes, writePlist plist = some bytes →
      bytes.take (Int32.ofNat bytes.length).toInt.toNat = bytes := fun bytes hw =>
    take_intLength (length_writePlist hc hw ▸ hsize)
  constructor
  · rintro ⟨array, length, hbinary, rfl⟩
    obtain ⟨bytes, hw, heq⟩ := bind_eq_some_iff.mp hbinary
    cases heq
    rw [htake array hw, hw]
  · intro hw
    exact ⟨bytes, .ofNat bytes.length, toBinary_eq hw, htake bytes hw⟩

end

def Decodable : NSObject → Prop
  | .number (.integer i) => i < 4294967296
  | v => Returns v

theorem decodable_parts_iff (hkeys : ∀ es, .dictionary es ∈ v.parts → (es.map fst).Nodup) :
    (∀ p ∈ v.parts, Decodable p) ↔
      (∀ i, .number (.integer i) ∈ v.parts → i < 4294967296) ∧ ComesBack v := by
  rw [comesBack_iff v hkeys]
  constructor
  · intro h
    refine ⟨fun i hi => h _ hi, fun p hp => ?_⟩
    have hp := h p hp
    unfold Decodable at hp
    split at hp
    · trivial
    · exact hp
  · rintro ⟨hsmall, h⟩ p hp
    unfold Decodable
    split
    · exact hsmall _ hp
    · exact h p hp

/-- Booleans, integers that are small enough, strings, arrays, dictionaries, and null. -/
def Plain : NSObject → Prop
  | .null | .string _ | .dictionary _ | .array _ | .number (.boolean _) => True
  | .number (.integer i) => i < 4294967296
  | _ => False

theorem Plain.decodable (h : Plain p) : Decodable p := by
  cases p with
  | number n => cases n <;> first | exact h | cases h
  | _ => exact h

theorem exists_archive [HashOrder] (h : ∀ p ∈ v.parts, Plain p) :
    ∃ plist, archive v = some plist := by
  have henc : ∀ p ∈ v.parts, p = .null ∨ p.hasEncoder = true := by
    intro p hp
    have hplain := h p hp
    cases p <;> first | exact .inl rfl | exact .inr rfl | cases hplain
  have hnumber : ∀ n, .number n ∈ v.parts → (numberScalar n).isSome := by
    intro n hn
    have hplain := h _ hn
    cases n <;> first | rfl | cases hplain
  obtain ⟨root, ctx, hencode⟩ := exists_encodeValue v henc hnumber initial
  exact ⟨_, archive_eq_some.mpr ⟨root, ctx, hencode, rfl⟩⟩

section
variable [GLib] [HashOrder] {valid : Str → Prop} {v : NSObject} {plist : Value Nat}
  (hconv : Conversions valid) (hmem : EnoughMemory)
  (hnames : ∀ name ∈ names, valid (.ofString name)) (hv : Stored valid v)
include hconv hmem hnames

theorem Table.decode_written (h : Table (Archived valid (· < 4294967296)) v root ctx)
    (hfits : Fits (document root ctx.objects)) :
    ∃ bytes, writePlist (document root ctx.objects) = some bytes ∧
      ∀ w, (∃ parserFuel fuel, decode parserFuel fuel bytes = .ok w) ↔ decoded v = some w := by
  have hP := admits_archived hnames (· < 4294967296)
  have hversion : (100000 : Int64) < 4294967296 := by decide
  have hintegers : ∀ i, .scalar (.integer i) ∈ (document root ctx.objects).visited →
      i < 4294967296 := by
    intro i hi
    rcases h.scalars hP hversion hi with hi | ⟨u, hi, -⟩
    · exact hi
    · cases hi
  obtain ⟨out, hout, hdocument⟩ := decodeDocument_eq root ctx.objects
  obtain ⟨bytes, hw, parserFuel, hparse⟩ := parse_ranged_tree hconv hmem h.isTree
    (h.wellFormed hnames hversion) hfits (h.ranged hnames hversion hfits.count hintegers) hout
  have hlen : bytes.length < 2 ^ 63 :=
    length_writePlist h.isTree.coherent hw ▸ encodedSize_lt h.isTree hfits
  have hread : ∀ out, (∃ fuel, parse fuel bytes = .ok out) ↔ _ := fun out =>
    parse_writePlist hmem h.isTree.coherent hw hlen
  have hcount : ctx.objects.length < 2 ^ 31 :=
    ((h.length_le hP).trans hfits.count).trans_lt (by decide)
  have hsettles : ∀ w, (∃ fuel, decodeDocument fuel out = .ok w) ↔ decoded v = some w := by
    intro w
    rw [← (settles_decodeValue hcount v root h.represents).exists_iff]
    refine exists_congr fun fuel => ?_
    rw [hdocument]
    cases decodeValue (ctx.objects.map Value.content) fuel (.ofNat root) <;> simp [Except.toOption]
  refine ⟨bytes, hw, fun w => ?_⟩
  simp only [decode_eq_ok, ← hsettles]
  constructor
  · rintro ⟨parserFuel', fuel, out', hparse', hdecode⟩
    have hsame := ((hread out').mp ⟨parserFuel', hparse'⟩).2
    rw [((hread out).mp ⟨parserFuel, hparse⟩).2] at hsame
    cases hsame
    exact ⟨fuel, hdecode⟩
  · rintro ⟨fuel, hdecode⟩
    exact ⟨parserFuel, fuel, out, hparse, hdecode⟩

include hv

theorem decode_encode_iff (hnull : v ≠ .null)
    (hsize : ∀ plist, archive v = some plist → encodedSize plist < 2 ^ 31) (w : NSObject) :
    (∃ bytes, encode v = some bytes ∧ ∃ parserFuel fuel, decode parserFuel fuel bytes = .ok w) ↔
      (∃ plist, archive v = some plist ∧ Fits plist) ∧
        (∀ i, .number (.integer i) ∈ v.parts → i < 4294967296) ∧ decoded v = some w := by
  simp only [encode_eq_some hnull]
  constructor
  · rintro ⟨bytes, ⟨plist, array, length, harchive, hbinary, hbytes⟩, parserFuel, fuel, hdecode⟩
    obtain ⟨root, ctx, hplist, htable⟩ := table_of_archive
      (admits_archived hnames fun _ => True) (hv.archived fun _ _ => trivial) harchive
    have htree : IsTree plist := hplist ▸ htable.isTree
    have hw := (toBinary_eq_some htree.coherent (hsize plist harchive)).mp
      ⟨array, length, hbinary, hbytes⟩
    obtain ⟨out, hparse, -⟩ := decode_eq_ok.mp hdecode
    obtain ⟨hfits, hintegers⟩ := fits_of_parse hmem htree
      ((hsize plist harchive).trans (by decide)) hw hparse
    have hsmall : ∀ i, .number (.integer i) ∈ v.parts → i < 4294967296 := by
      intro i hi
      refine hintegers i (hplist ▸ mem_visited_document root ?_)
      exact (sublist_visitedAll _).subset (integer_mem htable.represents hi)
    obtain ⟨root', ctx', hplist', htable'⟩ := table_of_archive
      (admits_archived hnames (· < 4294967296)) (hv.archived hsmall) harchive
    obtain ⟨bytes', hw', hback⟩ := htable'.decode_written hconv hmem hnames (hplist' ▸ hfits)
    rw [hplist', hw] at hw'
    cases hw'
    exact ⟨⟨plist, harchive, hfits⟩, hsmall, (hback w).mp ⟨parserFuel, fuel, hdecode⟩⟩
  · rintro ⟨⟨plist, harchive, hfits⟩, hsmall, hdecoded⟩
    obtain ⟨root, ctx, rfl, htable⟩ := table_of_archive
      (admits_archived hnames (· < 4294967296)) (hv.archived hsmall) harchive
    obtain ⟨bytes, hw, hback⟩ := htable.decode_written hconv hmem hnames hfits
    obtain ⟨array, length, hbinary, hbytes⟩ :=
      (toBinary_eq_some htable.isTree.coherent (hsize _ harchive)).mpr hw
    exact ⟨bytes, ⟨_, array, length, harchive, hbinary, hbytes⟩, (hback w).mpr hdecoded⟩

/-- Exactly the objects that are decodable in all their parts come back equal, if the archive
is within the limits of the parser. -/
theorem archive_roundTrip_iff (hnull : v ≠ .null)
    (hsize : ∀ plist, archive v = some plist → encodedSize plist < 2 ^ 31) :
    (∃ bytes, encode v = some bytes ∧
      ∃ parserFuel fuel w, decode parserFuel fuel bytes = .ok w ∧ same v w = true) ↔
      (∀ p ∈ v.parts, Decodable p) ∧ ∃ plist, archive v = some plist ∧ Fits plist := by
  rw [decodable_parts_iff hv.keys]
  constructor
  · rintro ⟨bytes, hencode, parserFuel, fuel, w, hdecode, hsame⟩
    obtain ⟨hfits, hsmall, hdecoded⟩ := (decode_encode_iff hconv hmem hnames hv hnull hsize w).mp
      ⟨bytes, hencode, parserFuel, fuel, hdecode⟩
    exact ⟨⟨hsmall, w, hdecoded, hsame⟩, hfits⟩
  · rintro ⟨⟨hsmall, w, hdecoded, hsame⟩, hfits⟩
    obtain ⟨bytes, hencode, parserFuel, fuel, hdecode⟩ :=
      (decode_encode_iff hconv hmem hnames hv hnull hsize w).mpr ⟨hfits, hsmall, hdecoded⟩
    exact ⟨bytes, hencode, parserFuel, fuel, w, hdecode, hsame⟩

/-- A plain object comes back as it was, if it can be parsed. No uid is too wide. -/
theorem plain_roundTrip (hnull : v ≠ .null) (hplain : ∀ p ∈ v.parts, Plain p) :
    ∃ plist, archive v = some plist ∧
      ((distinct plist.visited).length ≤ maxObjectCount →
        (∀ u, .scalar (.uid u) ∈ plist.visited → u.toNat < 256 ^ refSize plist) ∧
        ((∀ w ∈ plist.visited, objectSize (refSize plist) w ≤ maxObjectSize) →
          encodedSize plist < 2 ^ 31 →
          ∃ bytes, encode v = some bytes ∧
            ∃ parserFuel fuel w, decode parserFuel fuel bytes = .ok w ∧ same v w = true)) := by
  obtain ⟨plist, harchive⟩ := exists_archive hplain
  refine ⟨plist, harchive, fun hcount => ⟨fun u hu => ?_, fun hsizes hsize => ?_⟩⟩
  · obtain ⟨root, ctx, rfl, htable⟩ := table_of_archive
      (admits_archived hnames fun _ => True) (hv.archived fun _ _ => trivial) harchive
    exact htable.uid_lt hnames trivial hcount hu
  · have hsize' : ∀ plist, archive v = some plist → encodedSize plist < 2 ^ 31 := by
      intro plist' harchive'
      cases harchive.symm.trans harchive'
      exact hsize
    obtain ⟨hsmall, w, hdecoded, hsame⟩ :=
      (decodable_parts_iff hv.keys).mp fun p hp => (hplain p hp).decodable
    obtain ⟨bytes, hencode, parserFuel, fuel, hdecode⟩ :=
      (decode_encode_iff hconv hmem hnames hv hnull hsize' w).mpr
        ⟨⟨plist, harchive, hcount, hsizes⟩, hsmall, hdecoded⟩
    exact ⟨bytes, hencode, parserFuel, fuel, w, hdecode, hsame⟩

end

@[reducible] def inOrder : HashOrder := ⟨id, fun _ => .refl _⟩

/-- The dictionary of `k`, an array, and `n`, which is null. -/
def sampleObject : NSObject :=
  .dictionary [([0x6b], .array [.number (.boolean true), .number (.integer (-5)), .string [0x6b]]),
    ([0x6e], .null)]

theorem stored_sampleObject : Stored (fun _ => True) sampleObject := by
  refine ⟨fun str h => ?_, fun es h => ?_, fun es h => ?_⟩ <;>
    simp [sampleObject, parts, partsOfAll_eq, partsOfEntries_eq] at h <;> simp [h]

theorem plain_roundTrip_sample : ∃ bytes, @encode asciiGLib inOrder sampleObject = some bytes ∧
    ∃ parserFuel fuel w, @decode asciiGLib parserFuel fuel bytes = .ok w ∧
      same sampleObject w = true := by
  let _ := asciiGLib
  let _ := inOrder
  obtain ⟨plist, harchive, hback⟩ := plain_roundTrip conversions_ascii enoughMemory_ascii
    (by simp) stored_sampleObject (by simp [sampleObject])
    (by simp [sampleObject, parts, partsOfAll_eq, partsOfEntries_eq, Plain])
  have hlimits : ∀ plist ∈ archive sampleObject,
      (distinct plist.visited).length ≤ maxObjectCount ∧
        (∀ w ∈ plist.visited, objectSize (refSize plist) w ≤ maxObjectSize) ∧
          encodedSize plist < 2 ^ 31 := by
    decide +kernel
  obtain ⟨hcount, hsizes, hsize⟩ := hlimits plist harchive
  exact (hback hcount).2 hsizes hsize

/-- Three as a `float`, in an array. -/
def sampleReal : NSObject := .array [.number (.float 0x40400000)]

theorem archive_roundTrip_iff_real : ∃ bytes, @encode asciiGLib inOrder sampleReal = some bytes ∧
    ∃ parserFuel fuel w, @decode asciiGLib parserFuel fuel bytes = .ok w ∧
      same sampleReal w = true := by
  let _ := asciiGLib
  let _ := inOrder
  have hlimits : ∀ plist ∈ archive sampleReal,
      (distinct plist.visited).length ≤ maxObjectCount ∧
        (∀ w ∈ plist.visited, objectSize (refSize plist) w ≤ maxObjectSize) ∧
          encodedSize plist < 2 ^ 31 := by
    decide +kernel
  have hstored : Stored (fun _ => True) sampleReal := by
    refine ⟨fun str h => ?_, fun es h => ?_, fun es h => ?_⟩ <;>
      simp [sampleReal, parts, partsOfAll_eq] at h
  have hdecodable : ∀ p ∈ sampleReal.parts, Decodable p := by
    have hthree : Decodable (.number (.float 0x40400000)) :=
      ⟨by decide +kernel, 3, by decide +kernel, by decide⟩
    simpa [sampleReal, parts, partsOfAll_eq] using ⟨trivial, hthree⟩
  obtain ⟨plist, harchive⟩ : ∃ plist, archive sampleReal = some plist :=
    isSome_iff_exists.mp (by decide +kernel)
  obtain ⟨hcount, hsizes, -⟩ := hlimits plist harchive
  exact (archive_roundTrip_iff conversions_ascii enoughMemory_ascii (by simp) hstored
    (by simp [sampleReal]) fun plist hplist => (hlimits plist hplist).2.2).mpr
    ⟨hdecodable, plist, harchive, hcount, hsizes⟩

/-- There is an encoder for sets, and no decoder. -/
theorem set_not_decoded : ∃ bytes, @encode asciiGLib inOrder (.set []) = some bytes ∧
    ∀ parserFuel fuel w, @decode asciiGLib parserFuel fuel bytes ≠ .ok w := by
  let _ := asciiGLib
  let _ := inOrder
  obtain ⟨bytes, hencode⟩ : ∃ bytes, encode (.set []) = some bytes :=
    isSome_iff_exists.mp (by decide +kernel)
  have hsize : ∀ plist ∈ archive (.set []), encodedSize plist < 2 ^ 31 := by decide +kernel
  have hstored : Stored (fun _ => True) (.set []) := by
    refine ⟨fun str h => ?_, fun es h => ?_, fun es h => ?_⟩ <;>
      simp [parts, partsOfAll_eq] at h
  refine ⟨bytes, hencode, fun parserFuel fuel w hdecode => ?_⟩
  obtain ⟨-, -, hdecoded⟩ := (decode_encode_iff conversions_ascii enoughMemory_ascii (by simp)
    hstored (by simp) hsize w).mp ⟨bytes, hencode, parserFuel, fuel, hdecode⟩
  cases hdecoded

def stringArchive (str : Str) : Value Nat :=
  @document inOrder 1 [.scalar (.string (.ofString "$null")), .scalar (.string str)]

theorem isTree_stringArchive (str : Str) : IsTree (stringArchive str) := by
  have howners : (stringArchive str).visited.filterMap Value.owner? =
      [(true, 0), (false, 1), (true, 2)] := rfl
  rw [IsTree, howners]
  decide

theorem count_stringArchive (str : Str) : (distinct (stringArchive str).visited).length ≤ 13 :=
  length_distinct_le _

theorem iterate_inOrder (entries : List (Str × Value Nat)) :
    @HashOrder.iterate inOrder entries = entries := rfl

theorem objectSize_stringArchive (h : 15 ≤ str.length) :
    ∀ w ∈ (stringArchive str).visited,
      @objectSize asciiGLib (refSize (stringArchive str)) w ≤ str.length := by
  let _ := asciiGLib
  have hr : refSize (stringArchive str) = 1 := by
    have := count_stringArchive str
    unfold refSize computeObjectRefSize
    rw [if_pos (by omega)]
  have hstring : ∀ s : Str, stringSize s = s.length := fun s => if_pos rfl
  have hle : ∀ n, n ≤ 15 → n ≤ str.length := fun n hn => hn.trans h
  rw [hr]
  simp only [stringArchive, document, newDict, iterate_inOrder, Value.visited, visitedAll,
    visitedValues, map_cons, map_nil, cons_append, nil_append,
    append_nil, forall_mem_cons, objectSize, uidValue, hstring, length_cons,
    length_nil]
  refine ⟨hle _ ?_, hle _ ?_, hle _ ?_, hle _ ?_, hle _ ?_, hle _ ?_, hle _ ?_, hle _ ?_,
    Nat.le_refl _, hle _ ?_, hle _ ?_, hle _ ?_, hle _ ?_, by simp⟩
  all_goals decide

theorem string_not_decoded (hnul : 0 ∉ str) (h : maxObjectSize < str.length)
    (hlt : str.length < 150000000) :
    ¬∃ bytes, @encode asciiGLib inOrder (.string str) = some bytes ∧
      ∃ parserFuel fuel w, @decode asciiGLib parserFuel fuel bytes = .ok w := by
  let _ := asciiGLib
  let _ := inOrder
  have hstored : Stored (fun _ => True) (.string str) := by
    refine ⟨fun s hs => ?_, fun es hes => ?_, fun es hes => ?_⟩
    · cases mem_singleton.mp hs
      exact ⟨trivial, hnul⟩
    · cases mem_singleton.mp hes
    · cases mem_singleton.mp hes
  have hlong : 15 ≤ str.length := by
    unfold maxObjectSize at h
    omega
  have hsize : ∀ plist, archive (.string str) = some plist → encodedSize plist < 2 ^ 31 := by
    intro plist hplist
    cases hplist
    exact (encodedSize_le (isTree_stringArchive str) (count_stringArchive str)
      (objectSize_stringArchive hlong)).trans_lt (by omega)
  rintro ⟨bytes, hencode, parserFuel, fuel, w, hdecode⟩
  obtain ⟨⟨plist, harchive, hfits⟩, -, -⟩ :=
    (decode_encode_iff conversions_ascii enoughMemory_ascii (by simp) hstored (by simp) hsize w).mp
      ⟨bytes, hencode, parserFuel, fuel, hdecode⟩
  cases harchive
  have hstring : stringSize str = str.length := if_pos rfl
  have hle := hfits.sizes (.scalar (.string str)) (mem_visited_document 1 (by simp [Value.visited]))
  rw [objectSize, hstring] at hle
  omega

/-- A string that is too large as it is written, though there are few objects. -/
theorem largeString_not_decoded : ∃ str : Str, 0 ∉ str ∧
    (∃ plist, @archive inOrder (.string str) = some plist ∧
      (distinct plist.visited).length ≤ maxObjectCount) ∧
    ¬∃ bytes, @encode asciiGLib inOrder (.string str) = some bytes ∧
      ∃ parserFuel fuel w, @decode asciiGLib parserFuel fuel bytes = .ok w := by
  refine ⟨replicate (maxObjectSize + 1) 0x61, by simp, ⟨_, rfl, ?_⟩, ?_⟩
  · exact (count_stringArchive _).trans (by decide)
  · have hlength : (replicate (maxObjectSize + 1) (0x61 : UInt8)).length =
        maxObjectSize + 1 := length_replicate ..
    exact string_not_decoded (by simp) (by omega) (by rw [hlength]; decide)

end NSKeyedArchive

end FridaCore.Fruity
