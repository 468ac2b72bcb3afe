import FridaCore.Fruity.PlistCalls
import FridaCore.Support.Except

/-!
# When parsing comes to an end

A parse comes to an end if and only if no value is reached again while it is still
being read, and no array or dict asks for more memory than there is. How many objects
are being parsed at a time is bounded by the number of objects if the references that
are followed are among them, and lengths are integers.
-/

namespace FridaCore.Fruity.BinaryParser

open List Prod

section
variable [GLib] (data : List UInt8) (t : Trailer)

/-- Reading the value at one position comes to reading the one at the other. -/
def Enters (p q : Nat) : Prop := ∃ n ref, .value ref q ∈ calls data t n p

def Overdraws (p : Nat) : Prop := ∃ n, .oversized ∈ calls data t n p

def Nested : Nat → List (Option Nat × Nat) → Prop
  | _, [] => True
  | p, c :: rest => (∃ n, .value c.1 c.2 ∈ calls data t n p) ∧ Nested c.2 rest

end

section
variable [GLib] {data : List UInt8} {t : Trailer} {p q : Nat}

theorem not_out_of_enters (h : Enters data t p q) (hfin : ¬Out (readValue data t n p)) :
    ∃ m < n, ¬Out (readValue data t m q) := by
  obtain ⟨k, ref, hc⟩ := h
  cases n with
  | zero => exact absurd (out_error.mpr rfl) hfin
  | succ n => exact ⟨n, Nat.lt_succ_self n, not_out_of_mem_calls hfin hc⟩

theorem not_out_of_transGen (h : Relation.TransGen (Enters data t) p q)
    (hfin : ¬Out (readValue data t n p)) : ∃ m < n, ¬Out (readValue data t m q) := by
  induction h with
  | single h => exact not_out_of_enters h hfin
  | tail _ h ih =>
    obtain ⟨m, hm, hfin⟩ := ih
    obtain ⟨k, hk, hfin⟩ := not_out_of_enters h hfin
    exact ⟨k, hk.trans hm, hfin⟩

theorem not_out_of_reflTransGen (h : Relation.ReflTransGen (Enters data t) p q)
    (hfin : ¬Out (readValue data t n p)) : ∃ m, ¬Out (readValue data t m q) := by
  rcases Relation.reflTransGen_iff_eq_or_transGen.mp h with rfl | h
  · exact ⟨n, hfin⟩
  · obtain ⟨m, -, hm⟩ := not_out_of_transGen h hfin
    exact ⟨m, hm⟩

theorem out_of_cycle (h : Relation.TransGen (Enters data t) p p) (n : Nat) :
    Out (readValue data t n p) := by
  by_contra hfin
  induction n using Nat.strong_induction_on with
  | _ n ih =>
    obtain ⟨m, hm, hfin⟩ := not_out_of_transGen h hfin
    exact ih m hm hfin

theorem out_of_overdraws (h : Overdraws data t p) (n : Nat) : Out (readValue data t n p) := by
  by_contra hfin
  obtain ⟨k, hk⟩ := h
  cases n with
  | zero => exact hfin (out_error.mpr rfl)
  | succ n => exact not_out_of_mem_calls hfin hk trivial

/-- What comes to nothing has a long chain of values in it, or asks for too much memory. -/
theorem exists_nested_of_out (n : Nat) (h : Out (readValue data t n p)) :
    (∃ cs, cs.length = n ∧ Nested data t p cs) ∨
      ∃ q, Relation.ReflTransGen (Enters data t) p q ∧ Overdraws data t q := by
  induction n generalizing p with
  | zero => exact .inl ⟨[], rfl, trivial⟩
  | succ n ih =>
    obtain ⟨c, hc, hout⟩ := (out_readValue n).mp h
    cases c with
    | oversized => exact .inr ⟨p, .refl, n, hc⟩
    | value ref q =>
      rcases ih hout with ⟨cs, hlen, hcs⟩ | ⟨r, hr, hover⟩
      · exact .inl ⟨(ref, q) :: cs, by simp [hlen], ⟨n, hc⟩, hcs⟩
      · exact .inr ⟨r, .head ⟨n, ref, hc⟩ hr, hover⟩

theorem Nested.transGen (h : Nested data t p cs) :
    (p :: cs.map snd).IsChain (Relation.TransGen (Enters data t)) := by
  induction cs generalizing p with
  | nil => exact .singleton p
  | cons c rest ih =>
    obtain ⟨⟨n, hc⟩, hrest⟩ := h
    exact .cons_cons (.single ⟨n, c.1, hc⟩) (ih hrest)

theorem Nested.nodup (h : Nested data t p cs)
    (hacyclic : ∀ q, Relation.ReflTransGen (Enters data t) p q →
      ¬Relation.TransGen (Enters data t) q q) : (p :: cs.map snd).Nodup := by
  have hpairs := isChain_iff_pairwise.mp h.transGen
  refine hpairs.imp_of_mem fun {q _} hq _ hcycle heq => ?_
  subst heq
  refine hacyclic q ?_ hcycle
  rcases mem_cons.mp hq with rfl | hq
  · exact .refl
  · exact (rel_of_pairwise_cons hpairs hq).to_reflTransGen

end

def Call.Located (data : List UInt8) (t : Trailer) : Call → Prop
  | .value none pos => pos ≤ data.length
  | .value (some ref) pos => seekToObject data t ref = .ok pos
  | .oversized => True

section
variable {data : List UInt8} {t : Trailer} {x : Reading Tree} {pos : Nat}

theorem seek_le (h : seek data n = .ok pos) : pos ≤ data.length := by
  unfold seek at h
  split at h
  · cases h
    assumption
  · cases h

theorem seekToObject_le (h : seekToObject data t ref = .ok pos) :
    pos ≤ data.length := by
  obtain ⟨p, -, h⟩ := bind_eq_ok h
  obtain ⟨r, -, h⟩ := bind_eq_ok h
  exact seek_le h

theorem Call.Located.le (h : (Call.value ref pos).Located data t) :
    pos ≤ data.length := by
  cases ref with
  | none => exact h
  | some ref => exact seekToObject_le h

theorem readUint_le (h : readUint data size pos = .ok r) :
    r.2 = pos + size ∧ (0 < size → r.2 ≤ data.length) := by
  unfold readUint at h
  simp only at h
  split at h
  · rename_i hlen
    cases h
    rw [length_take, length_drop] at hlen
    exact ⟨rfl, fun hpos => by simp only; omega⟩
  · cases h

theorem located_objectCall {next : Tree → List Call} (h : ∀ v, ∀ c ∈ next v, c.Located data t) :
    ∀ c ∈ objectCall data t x ref next, c.Located data t := by
  unfold objectCall
  cases hs : seekToObject data t ref with
  | error e => simp
  | ok start =>
    refine forall_mem_cons.mpr ⟨hs, ?_⟩
    cases x start with
    | error e => simp
    | ok r => exact h r.1

theorem located_elementCalls (refs : List Nat) :
    ∀ c ∈ elementCalls data t x refs, c.Located data t := by
  induction refs with
  | nil => simp [elementCalls]
  | cons ref rest ih => exact located_objectCall fun _ => ih

theorem located_entryCalls (refs : List (Nat × Nat)) :
    ∀ c ∈ entryCalls data t x refs, c.Located data t := by
  induction refs with
  | nil => simp [entryCalls]
  | cons pair rest ih =>
    refine located_objectCall fun key => located_objectCall fun _ => ?_
    split
    · exact ih
    · simp

theorem located_lengthCall {next : Nat → Nat → List Call} (hpos : pos ≤ data.length)
    (h : ∀ length pos, ∀ c ∈ next length pos, c.Located data t) :
    ∀ c ∈ lengthCall x info next pos, c.Located data t := by
  unfold lengthCall
  split
  · refine forall_mem_cons.mpr ⟨hpos, ?_⟩
    cases readLength x pos with
    | error e => simp
    | ok r => exact h r.1 r.2
  · exact h info pos

theorem located_refCalls {next : α → List Call}
    (h : ∀ a, ∀ c ∈ next a, c.Located data t) : ∀ c ∈ refCalls refs next, c.Located data t := by
  unfold refCalls
  split
  · exact h _
  · split
    · simp [Call.Located]
    · simp

theorem located_bodyCalls [GLib] (hpos : pos ≤ data.length) (objectType info : Nat) :
    ∀ c ∈ bodyCalls data t x objectType info pos, c.Located data t := by
  unfold bodyCalls
  split
  iterate 3 exact located_lengthCall hpos (by simp)
  · exact located_lengthCall hpos fun _ _ => located_refCalls located_elementCalls
  · exact located_lengthCall hpos fun _ _ => located_refCalls located_entryCalls
  · simp

theorem located_calls [GLib] : ∀ c ∈ calls data t n pos, c.Located data t := by
  unfold calls
  cases hmarker : readUint data 1 pos with
  | error e => simp
  | ok r => exact located_bodyCalls ((readUint_le hmarker).2 (by decide)) _ _

theorem Nested.located [GLib] (h : Nested data t pos cs) :
    ∀ c ∈ cs, (Call.value c.1 c.2).Located data t := by
  induction cs generalizing pos with
  | nil => simp
  | cons c rest ih => exact forall_mem_cons.mpr ⟨located_calls _ h.1.choose_spec, ih h.2⟩

end

theorem length_le_of_nodup {l : List Nat} (h : l.Nodup) (hlt : ∀ a ∈ l, a < n) :
    l.length ≤ n := by
  have hsub := subperm_of_subset h fun a ha => mem_range.mpr (hlt a ha)
  simpa using hsub.length_le

theorem nodup_refs (cs : List (Option Nat × Nat)) (hnodup : (cs.map snd).Nodup)
    (hlocated : ∀ c ∈ cs, (Call.value c.1 c.2).Located data t) :
    (cs.filterMap fst).Nodup := by
  induction cs with
  | nil => simp
  | cons c rest ih =>
    obtain ⟨hc, hrest⟩ := forall_mem_cons.mp hlocated
    rw [map_cons, nodup_cons] at hnodup
    obtain ⟨ref, pos⟩ := c
    cases ref with
    | none => simpa using ih hnodup.2 hrest
    | some ref =>
      refine nodup_cons.mpr ?_
      refine ⟨fun hmem => hnodup.1 ?_, ih hnodup.2 hrest⟩
      obtain ⟨d, hd, href⟩ := mem_filterMap.mp hmem
      have hdpos := hrest d hd
      rw [href] at hdpos
      have hpos : d.2 = pos := Except.ok.inj (hdpos.symm.trans hc)
      exact mem_map.mpr ⟨d, hd, hpos⟩

structure Starts (data : List UInt8) (t : Trailer) (start : Nat) : Prop where
  magic : magic.isPrefixOf data = true
  trailer : readTrailer data = .ok t
  top : seekToObject data t t.topObjectRef = .ok start

theorem not_out_readTrailer (data : List UInt8) : ¬Out (readTrailer data) := by
  have hfields : Direct (readTrailerFields data) := by
    refine .bind (direct_readUint _ _) fun _ => .bind (direct_readUint _ _) fun _ =>
      .bind (direct_readUint _ _) fun n => .bind ?_ fun _ => .bind (direct_readUint _ _) fun _ =>
        .bind (direct_readUint _ _) fun _ => .pure _
    unfold checkObjectCount
    split
    · exact direct_invalidData _
    · exact fun _ => not_out_ok _
  unfold readTrailer
  split
  · exact not_out_io _
  · have hfin := hfields (data.length - 26)
    cases hr : readTrailerFields data (data.length - 26) with
    | ok r => exact not_out_ok _
    | error e =>
      rw [hr, out_error] at hfin
      exact fun h => hfin (out_error.mp h)

theorem not_out_toplevelDict (v : Tree) : ¬Out (toplevelDict v) := by
  unfold toplevelDict
  split
  · exact not_out_ok _
  · exact not_out_invalidData _

section
variable [GLib]

theorem out_parseTop : Out (parseTop fuel data) ↔
    ∃ t start, readTrailer data = .ok t ∧ seekToObject data t t.topObjectRef = .ok start ∧
      Out (readValue data t fuel start) := by
  rw [parseTop, out_bind, or_iff_right (not_out_readTrailer data)]
  refine exists_congr fun t => ?_
  rw [exists_and_left]
  refine and_congr_right fun _ => ?_
  rw [out_bind, or_iff_left fun ⟨r, _, h⟩ => not_out_toplevelDict r.1 h, parseObject, out_bind,
    or_iff_right (not_out_seekToObject data t t.topObjectRef)]
  refine exists_congr fun start => and_congr_right fun _ => ?_
  rw [out_bind, or_iff_left]
  rintro ⟨r, -, h⟩
  exact not_out_ok _ h

theorem out_parse : Out (parse fuel data) ↔
    ∃ t start, Starts data t start ∧ Out (readValue data t fuel start) := by
  have hwrap : Out (parse fuel data) ↔
      magic.isPrefixOf data = true ∧ Out (parseTop fuel data) := by
    unfold parse
    cases magic.isPrefixOf data with
    | false => simp [not_out_invalidData]
    | true =>
      simp only [Bool.not_true, Bool.false_eq_true, ↓reduceIte, true_and]
      split
      · simp_all [not_out_ok]
      · simp_all [not_out_invalidData, out_error, Stop.fatal]
      · simp_all [not_out_invalidData, out_error, Stop.fatal]
      · simp_all [out_error]
  rw [hwrap, out_parseTop]
  constructor
  · rintro ⟨hmagic, t, start, ht, hs, hout⟩
    exact ⟨t, start, ⟨hmagic, ht, hs⟩, hout⟩
  · rintro ⟨t, start, ⟨hmagic, ht, hs⟩, hout⟩
    exact ⟨hmagic, t, start, ht, hs, hout⟩

def Reached (data : List UInt8) (t : Trailer) (p : Nat) : Prop :=
  ∃ start, Starts data t start ∧ Relation.ReflTransGen (Enters data t) start p

def Cyclic (data : List UInt8) : Prop :=
  ∃ t p, Reached data t p ∧ Relation.TransGen (Enters data t) p p

def Oversized (data : List UInt8) : Prop := ∃ t p, Reached data t p ∧ Overdraws data t p

theorem terminates_iff (data : List UInt8) :
    (∃ fuel, ¬Out (parse fuel data)) ↔ ¬Cyclic data ∧ ¬Oversized data := by
  constructor
  · rintro ⟨fuel, hfin⟩
    have hread : ∀ {t p}, Reached data t p → ∃ m, ¬Out (readValue data t m p) := by
      rintro t p ⟨start, hstarts, hreach⟩
      exact not_out_of_reflTransGen (n := fuel) hreach fun hout =>
        hfin (out_parse.mpr ⟨t, start, hstarts, hout⟩)
    constructor
    · rintro ⟨t, p, hreach, hcycle⟩
      obtain ⟨m, hm⟩ := hread hreach
      exact hm (out_of_cycle hcycle m)
    · rintro ⟨t, p, hreach, hover⟩
      obtain ⟨m, hm⟩ := hread hreach
      exact hm (out_of_overdraws hover m)
  · rintro ⟨hacyclic, hsized⟩
    refine ⟨data.length + 1, fun hout => ?_⟩
    obtain ⟨t, start, hstarts, hout⟩ := out_parse.mp hout
    rcases exists_nested_of_out _ hout with ⟨cs, hlen, hcs⟩ | ⟨q, hq, hover⟩
    · -- there are more values in the chain than there are positions
      have hnodup := hcs.nodup fun q hq hcycle => hacyclic ⟨t, q, ⟨start, hstarts, hq⟩, hcycle⟩
      have hlt : ∀ a ∈ start :: cs.map snd, a < data.length + 1 := by
        refine forall_mem_cons.mpr ⟨Nat.lt_succ_of_le (seekToObject_le hstarts.top), ?_⟩
        refine forall_mem_map.mpr fun c hc => ?_
        exact Nat.lt_succ_of_le (hcs.located c hc).le
      have hle := length_le_of_nodup hnodup hlt
      rw [length_cons, length_map, hlen] at hle
      omega
    · exact hsized ⟨t, q, ⟨start, hstarts, hq⟩, hover⟩

def Call.Declared (data : List UInt8) (t : Trailer) : Call → Prop
  | .value none pos => ∀ marker next, readUint data 1 pos = .ok (marker, next) →
      (marker &&& 0xf0) >>> 4 = 1
  | .value (some ref) _ => ref < t.numObjects
  | .oversized => True

/-- All references that are followed are to objects the trailer has declared. -/
def Declared (data : List UInt8) : Prop :=
  (∀ t start, Starts data t start → t.topObjectRef < t.numObjects) ∧
    ∀ t p, Reached data t p → ∀ n, ∀ c ∈ calls data t n p, c.Declared data t

/-- The objects that are being parsed at a time, the topmost one among them, are no more than
there are, and besides them there is at most a length. -/
def DepthBounded (data : List UInt8) : Prop :=
  ∀ t start, Starts data t start → ∀ cs, Nested data t start cs →
    (cs.filterMap Prod.fst).length + 1 ≤ t.numObjects ∧
      cs.length ≤ (cs.filterMap Prod.fst).length + 1

section
variable {data : List UInt8} {t : Trailer} {p start : Nat} {cs : List (Option Nat × Nat)}

theorem calls_eq_nil_of_declared (h : (Call.value none p).Declared data t) :
    calls data t n p = [] := by
  unfold calls
  cases hmarker : readUint data 1 p with
  | error e => rfl
  | ok r =>
    simp only [h r.1 r.2 hmarker]
    rfl

theorem Nested.declared (h : Nested data t p cs)
    (hall : ∀ q, Relation.ReflTransGen (Enters data t) p q →
      ∀ n, ∀ c ∈ calls data t n q, c.Declared data t) :
    ∀ c ∈ cs, (Call.value c.1 c.2).Declared data t := by
  induction cs generalizing p with
  | nil => simp
  | cons c rest ih =>
    obtain ⟨⟨n, hc⟩, hrest⟩ := h
    refine forall_mem_cons.mpr ⟨hall p .refl n _ hc, ih hrest fun q hq => ?_⟩
    exact hall q (.head ⟨n, c.1, hc⟩ hq)

theorem Nested.length_le (h : Nested data t p cs)
    (hall : ∀ c ∈ cs, (Call.value c.1 c.2).Declared data t) :
    cs.length ≤ (cs.filterMap fst).length + 1 := by
  induction cs generalizing p with
  | nil => simp
  | cons c rest ih =>
    obtain ⟨hc, hrest⟩ := h
    obtain ⟨hdecl, hdecls⟩ := forall_mem_cons.mp hall
    have hle := ih hrest hdecls
    obtain ⟨ref, pos⟩ := c
    cases ref with
    | some ref =>
      have hcons : ((some ref, pos) :: rest).filterMap fst = ref :: rest.filterMap fst :=
        rfl
      rw [hcons, length_cons, length_cons]
      omega
    | none =>
      -- a length has no values in it, so it is the last one
      cases rest with
      | nil => simp
      | cons d rest =>
        obtain ⟨n, hd⟩ := hrest.1
        rw [calls_eq_nil_of_declared hdecl] at hd
        cases hd

end

theorem depthBounded_of_declared {data : List UInt8} (hacyclic : ¬Cyclic data)
    (hdecl : Declared data) : DepthBounded data := by
  intro t start hstarts cs hcs
  have hdecls : ∀ c ∈ cs, (Call.value c.1 c.2).Declared data t :=
    hcs.declared fun q hq => hdecl.2 t q ⟨start, hstarts, hq⟩
  refine ⟨?_, hcs.length_le hdecls⟩
  have hnodup := hcs.nodup fun q hq hcycle => hacyclic ⟨t, q, ⟨start, hstarts, hq⟩, hcycle⟩
  -- the topmost object is one of them
  have hrefs : (t.topObjectRef :: cs.filterMap fst).Nodup :=
    nodup_refs ((some t.topObjectRef, start) :: cs) hnodup
      (forall_mem_cons.mpr ⟨hstarts.top, hcs.located⟩)
  refine length_le_of_nodup hrefs (forall_mem_cons.mpr ⟨hdecl.1 t start hstarts, ?_⟩)
  intro ref hmem
  obtain ⟨c, hc, href⟩ := mem_filterMap.mp hmem
  have := hdecls c hc
  rw [href] at this
  exact this

/-- A parse comes to an end if no value is reached again inside itself and there is enough
memory, and its depth is bounded by the number of objects if only these are referred to. -/
theorem parse_terminates (data : List UInt8) :
    ((∃ fuel, ¬Out (parse fuel data)) ↔ ¬Cyclic data ∧ ¬Oversized data) ∧
      (¬Cyclic data → Declared data → DepthBounded data) :=
  ⟨terminates_iff data, depthBounded_of_declared⟩

end

def selfReference : List UInt8 :=
  [0x62, 0x70, 0x6c, 0x69, 0x73, 0x74, 0x30, 0x30, 0xd1, 0x01, 0x00, 0x51, 0x61, 0x08, 0x0b,
    0, 0, 0, 0, 0, 0, 1, 1, 0, 0, 0, 0, 0, 0, 0, 2, 0, 0, 0, 0, 0, 0, 0, 0, 0, 0, 0, 0, 0, 0, 0, 13]

theorem selfReference_never_parsed : ¬∃ fuel, ¬Out (@parse asciiGLib fuel selfReference) := by
  rintro ⟨fuel, hnot⟩
  have hstarts : Starts selfReference ⟨1, 1, 2, 0, 13⟩ 8 := ⟨by decide, by decide, by decide⟩
  have henters : @Enters asciiGLib selfReference ⟨1, 1, 2, 0, 13⟩ 8 8 :=
    ⟨1, some 0, by decide +kernel⟩
  exact hnot ((@out_parse asciiGLib _ _).mpr
    ⟨_, _, hstarts, @out_of_cycle asciiGLib _ _ _ (.single henters) fuel⟩)

end FridaCore.Fruity.BinaryParser
