import FridaCore.Barebone.ScanLaws

/-!
# The occurrences of a pattern

A pattern occurs where all its bytes agree on the bits that count. A scan for the
tokens of the pattern reports the first occurrences, whatever is in memory, if and
only if the tokens with a mask make no difference (`Maskable`).
-/

namespace FridaCore.Barebone.MatchPattern

open List Option Prod PatternByte

variable {runs : List (TokenKind × List PatternByte)} {run : TokenKind × List PatternByte}
  {bytes : List PatternByte} {chunk data : List UInt8} {location : Nat}

def PatternByte.agrees (p : PatternByte) (byte : UInt8) : Bool :=
  byte &&& p.mask = p.value &&& p.mask

def agreesAll : List PatternByte → List UInt8 → Bool
  | p :: bytes, byte :: chunk => p.agrees byte && agreesAll bytes chunk
  | _, _ => true

def occurrences (bytes : List PatternByte) (data : List UInt8) : List Nat :=
  (List.range (data.length + 1 - bytes.length)).filter fun x => agreesAll bytes (data.drop x)

def firstOccurrences (bytes : List PatternByte) (ranges : List MemoryRange) (maxMatches : Nat) :
    List Nat :=
  (ranges.flatMap fun range => (occurrences bytes range.bytes).map (range.base + ·)).take maxMatches

def Maskable (bytes : List PatternByte) : Prop :=
  (∀ p ∈ bytes, kindOf p = .mask → p.value = p.mask) ∧
    bytes.IsChain fun p q => ¬(kindOf p = .mask ∧ kindOf q = .mask)

instance (bytes : List PatternByte) : Decidable (Maskable bytes) := by
  unfold Maskable
  infer_instance

theorem agreesAll_append (first rest : List PatternByte) (h : first.length ≤ chunk.length) :
    agreesAll (first ++ rest) chunk =
      (agreesAll first (chunk.take first.length) && agreesAll rest (chunk.drop first.length)) := by
  induction first generalizing chunk with
  | nil => simp [agreesAll]
  | cons p first ih =>
    cases chunk with
    | nil => simp at h
    | cons byte chunk =>
      simp [agreesAll, ih (by simpa using h), Bool.and_assoc]

theorem agreesAll_take (chunk : List UInt8) :
    agreesAll bytes (chunk.take bytes.length) = agreesAll bytes chunk := by
  induction bytes generalizing chunk with
  | nil => simp [agreesAll]
  | cons p bytes ih =>
    cases chunk with
    | nil => rfl
    | cons byte chunk => simp [agreesAll, ih]

def Faithful (run : TokenKind × List PatternByte) : Prop :=
  ∀ chunk : List UInt8, chunk.length = run.2.length → runMatches run chunk = agreesAll run.2 chunk

theorem agrees_exact (hk : kindOf p = .exact) (byte : UInt8) :
    p.agrees byte = decide (byte = p.value) := by
  have hmask : p.mask = 0xff := by
    unfold kindOf at hk
    split at hk
    · assumption
    · split at hk <;> cases hk
  simp [agrees, hmask, show (255 : UInt8) = -1 by decide]

theorem agrees_wildcard (hk : kindOf p = .wildcard) (byte : UInt8) :
    p.agrees byte = true := by
  have hmask : p.mask = 0 := by
    unfold kindOf at hk
    split at hk
    · cases hk
    · split at hk
      · assumption
      · cases hk
  simp [agrees, hmask]

theorem faithful_exact (h : ∀ p ∈ bytes, kindOf p = .exact) :
    Faithful (.exact, bytes) := by
  intro chunk hlen
  simp only [runMatches]
  induction bytes generalizing chunk with
  | nil => simp_all [agreesAll]
  | cons p bytes ih =>
    cases chunk with
    | nil => cases hlen
    | cons byte chunk =>
      obtain ⟨hp, hbytes⟩ := forall_mem_cons.mp h
      rw [agreesAll, agrees_exact hp, ← ih hbytes chunk (by simpa using hlen)]
      simp

theorem faithful_wildcard (h : ∀ p ∈ bytes, kindOf p = .wildcard) :
    Faithful (.wildcard, bytes) := by
  intro chunk hlen
  induction bytes generalizing chunk with
  | nil => rfl
  | cons p bytes ih =>
    cases chunk with
    | nil => cases hlen
    | cons byte chunk =>
      obtain ⟨hp, hbytes⟩ := forall_mem_cons.mp h
      rw [agreesAll, agrees_wildcard hp, ← ih hbytes chunk (by simpa using hlen)]
      rfl

theorem runsMatch_eq (hf : ∀ run ∈ runs, Faithful run)
    (hlen : chunk.length = (runs.map snd).flatten.length) :
    runsMatch runs chunk = agreesAll (runs.map snd).flatten chunk := by
  induction runs generalizing chunk with
  | nil => simp [runsMatch, agreesAll]
  | cons run rest ih =>
    obtain ⟨hrun, hrest⟩ := forall_mem_cons.mp hf
    simp only [map_cons, flatten_cons, length_append] at hlen ⊢
    rw [runsMatch, agreesAll_append _ _ (by omega), hrun _ (by rw [length_take]; omega),
      ih hrest (by rw [length_drop]; omega)]

def fill (run : TokenKind × List PatternByte) : List UInt8 :=
  run.2.map fun p => if run.1 = .exact then p.value else 0xff

theorem runMatches_fill (hne : run.2 ≠ []) : runMatches run (fill run) = true := by
  obtain ⟨kind, bytes⟩ := run
  cases kind with
  | exact => simp [runMatches, fill]
  | wildcard => rfl
  | mask =>
    cases bytes with
    | nil => exact absurd rfl hne
    | cons p bytes =>
      simp [runMatches, fill, chunkMatchesValuesWithMasks, show (255 : UInt8) = -1 by decide]

theorem runsMatch_flatMap (hg : ∀ run ∈ runs, (g run).length = run.2.length) :
    runsMatch runs (runs.flatMap g) = runs.all fun run => runMatches run (g run) := by
  induction runs with
  | nil => rfl
  | cons run rest ih =>
    obtain ⟨hrun, hrest⟩ := forall_mem_cons.mp hg
    simp [runsMatch, ← hrun, ih hrest]

theorem agreesAll_flatMap (hg : ∀ run ∈ runs, (g run).length = run.2.length) :
    agreesAll (runs.map snd).flatten (runs.flatMap g) =
      runs.all fun run => agreesAll run.2 (g run) := by
  induction runs with
  | nil => rfl
  | cons run rest ih =>
    obtain ⟨hrun, hrest⟩ := forall_mem_cons.mp hg
    simp only [map_cons, flatten_cons, flatMap_cons]
    rw [agreesAll_append _ _ (by simp [hrun])]
    simp [← hrun, ih hrest]

/-- If the tokens say what the pattern says, each of them does: the others can be filled in. -/
theorem faithful_of_runsMatch (hne : ∀ run ∈ runs, run.2 ≠ [])
    (h : ∀ chunk : List UInt8, chunk.length = (runs.map snd).flatten.length →
      runsMatch runs chunk = agreesAll (runs.map snd).flatten chunk) :
    ∀ run ∈ runs, Faithful run := by
  have hall : ∀ g : TokenKind × List PatternByte → List UInt8,
      (∀ run ∈ runs, (g run).length = run.2.length) →
      (runs.all fun run => runMatches run (g run)) = runs.all fun run => agreesAll run.2 (g run) := by
    intro g hg
    rw [← runsMatch_flatMap hg, ← agreesAll_flatMap hg]
    refine h _ ?_
    rw [List.length_flatMap, List.length_flatten, List.map_map]
    exact congrArg List.sum (List.map_congr_left hg)
  have hfill := hall fill fun run _ => by simp [fill]
  rw [all_eq_true.mpr fun run hrun => runMatches_fill (hne run hrun), eq_comm,
    List.all_eq_true] at hfill
  intro run hrun chunk hlen
  let g r := if r = run then chunk else fill r
  have hg : ∀ r ∈ runs, (g r).length = r.2.length := by
    intro r _
    by_cases hr : r = run <;> simp [g, hr, hlen, fill]
  have hrest : ∀ P : TokenKind × List PatternByte → List UInt8 → Bool,
      (∀ r ∈ runs, P r (fill r) = true) → (runs.all fun r => P r (g r)) = P run chunk := by
    intro P hP
    rw [Bool.eq_iff_iff, List.all_eq_true]
    refine ⟨fun hr => by simpa [g] using hr run hrun, fun hc r hr => ?_⟩
    by_cases heq : r = run
    · simpa [g, heq] using hc
    · simpa [g, heq] using hP r hr
  have := hall g hg
  rwa [hrest runMatches fun r hr => runMatches_fill (hne r hr),
    hrest (fun r => agreesAll r.2) hfill] at this

theorem faithful_mask_iff (hne : bytes ≠ []) (hk : ∀ p ∈ bytes, kindOf p = .mask) :
    Faithful (.mask, bytes) ↔ ∃ p, bytes = [p] ∧ p.value = p.mask := by
  constructor
  · intro h
    have hones := (h (fill (.mask, bytes)) (by simp [fill])).symm
    rw [runMatches_fill hne] at hones
    match bytes, hne with
    | [p], _ =>
      refine ⟨p, rfl, ?_⟩
      have hfull : p.mask = p.value &&& p.mask := by
        simpa [agreesAll, fill, agrees, show (255 : UInt8) = -1 by decide]
          using hones
      have hmask := h [p.mask] rfl
      simp only [runMatches, map_cons, map_nil, chunkMatchesValuesWithMasks, agreesAll,
        agrees, UInt8.and_self, ← hfull, decide_true, Bool.and_true] at hmask
      have hand : p.mask &&& p.value = p.value := by simpa using hmask
      rw [← hand, UInt8.and_comm, ← hfull]
    | p :: q :: rest, _ =>
      -- the first byte is enough for the token, but not for the second one
      simp only [agreesAll, fill, map_cons, Bool.and_eq_true] at hones
      have hfull : q.mask = q.value &&& q.mask := by
        simpa [agrees, show (255 : UInt8) = -1 by decide] using hones.2.1
      have hzero := (h (0xff :: 0 :: rest.map fun _ => 0) (by simp)).symm
      have hmatch : runMatches (.mask, p :: q :: rest) (0xff :: 0 :: rest.map fun _ => 0) = true := by
        simp [runMatches, chunkMatchesValuesWithMasks, show (255 : UInt8) = -1 by decide]
      simp only [hmatch, agreesAll, Bool.and_eq_true] at hzero
      have hqzero : 0 = q.value &&& q.mask := by
        simpa [agrees, eq_comm] using hzero.2.1
      have hkq := hk q (by simp)
      simp [kindOf, hfull.trans hqzero.symm] at hkq
  · rintro ⟨p, rfl, hp⟩ chunk hlen
    obtain ⟨byte, rfl⟩ := length_eq_one_iff.mp hlen
    simp [runMatches, chunkMatchesValuesWithMasks, agreesAll, agrees, hp]

theorem faithful_iff (hne : run.2 ≠ []) (hk : ∀ p ∈ run.2, kindOf p = run.1) :
    Faithful run ↔ (run.1 = .mask → ∃ p, run.2 = [p] ∧ p.value = p.mask) := by
  obtain ⟨kind, bytes⟩ := run
  cases kind with
  | exact => simp [faithful_exact hk]
  | wildcard => simp [faithful_wildcard hk]
  | mask => simpa using faithful_mask_iff hne hk

theorem maskable_run_iff (hne : run.2 ≠ []) (hk : ∀ p ∈ run.2, kindOf p = run.1) :
    Maskable run.2 ↔ (run.1 = .mask → ∃ p, run.2 = [p] ∧ p.value = p.mask) := by
  obtain ⟨kind, bytes⟩ := run
  by_cases hkind : kind = .mask
  · subst hkind
    match bytes, hne with
    | [p], _ => simp [Maskable, hk p (by simp)]
    | p :: q :: rest, _ => simp [Maskable, hk p (by simp), hk q (by simp)]
  · have hno : ∀ p ∈ bytes, kindOf p ≠ .mask := fun p hp hm => hkind ((hk p hp).symm.trans hm)
    simp only [hkind, false_implies, iff_true]
    refine ⟨fun p hp hm => absurd hm (hno p hp), ?_⟩
    rw [isChain_iff_getElem]
    exact fun i hi hm => hno _ (getElem_mem _) hm.1

/-- The pattern is maskable if its runs are: runs of the same kind are never adjacent. -/
theorem maskable_iff (h : Runs runs bytes) : Maskable bytes ↔ ∀ run ∈ runs, Maskable run.2 := by
  have hnil : [] ∉ runs.map snd := by
    intro hmem
    obtain ⟨run, hrun, hrun'⟩ := mem_map.mp hmem
    exact h.nonempty run hrun hrun'
  have hjoin : (runs.map snd).IsChain fun first rest =>
      ∀ p ∈ first.getLast?, ∀ q ∈ rest.head?, ¬(kindOf p = .mask ∧ kindOf q = .mask) := by
    rw [isChain_map]
    rw [isChain_iff_getElem]
    intro i hi p hp q hq hm
    have hne := isChain_iff_getElem.mp h.alternate i hi
    refine hne ?_
    rw [← h.kinds _ (getElem_mem _) p (mem_of_getLast? hp), hm.1, ← hm.2]
    exact h.kinds _ (getElem_mem _) q (mem_of_mem_head? hq)
  rw [Maskable, ← h.flatten, isChain_flatten hnil]
  simp only [hjoin, and_true, List.mem_flatten, List.mem_map]
  constructor
  · exact fun ⟨hvalue, hchain⟩ run hrun =>
      ⟨fun p hp => hvalue p ⟨run.2, ⟨run, hrun, rfl⟩, hp⟩, hchain run.2 ⟨run, hrun, rfl⟩⟩
  · intro hruns
    constructor
    · rintro p ⟨-, ⟨run, hrun, rfl⟩, hp⟩
      exact (hruns run hrun).1 p hp
    · rintro - ⟨run, hrun, rfl⟩
      exact (hruns run hrun).2

theorem scan_place (h : Runs runs bytes) (hw : ∃ run ∈ runs, run.1 ≠ .wildcard)
    {ranges : List MemoryRange}
    (hlong : ∀ range ∈ ranges, bytes.length ≤ range.bytes.length) (hmax : 1 ≤ maxMatches) :
    scan (placeTokens location (runs.map tokenOf)) ranges maxMatches =
      some ((ranges.flatMap (places (fun data x => runsMatch runs (slice data x bytes.length))
        bytes.length)).take maxMatches) := by
  obtain ⟨run, hrun, hkind⟩ := hw
  obtain ⟨t, ht, htype⟩ := exists_mem_place hrun location
  obtain ⟨z, hnew, hz⟩ := TokenCtx.exists_new ht (htype ▸ hkind)
  have htotal : z.totalSize = bytes.length := by
    rw [hz.total, sum_size_place, h.flatten]
  have hbefore := hz.longest_le h.nonempty
  have hpos := size_pos h.nonempty hz.longest
  have hrest := hz.rest
  rw [scan, hnew, map_some, ← htotal]
  rw [scanRanges_eq (M := fun data x => runsMatch runs (slice data x z.totalSize))
    (fun _ _ _ _ => isMatch_eq h.nonempty hz) (by omega) (by omega) (by rwa [htotal]) hmax,
    nil_append]

theorem places_eq_occurrences {range : MemoryRange}
    (h : ∀ chunk : List UInt8, chunk.length = bytes.length →
      runsMatch runs chunk = agreesAll bytes chunk) :
    places (fun data x => runsMatch runs (slice data x bytes.length)) bytes.length range =
      (occurrences bytes range.bytes).map (range.base + ·) := by
  rw [places, placesFrom, occurrences, Nat.sub_zero, ← range_eq_range']
  congr 1
  refine filter_congr fun x hx => ?_
  have hfits : x < range.bytes.length + 1 - bytes.length := mem_range.mp hx
  rw [h _ (by rw [slice, length_take, length_drop]; omega), slice, agreesAll_take]

theorem runsMatch_of_scan (h : Runs runs bytes) (hw : ∃ run ∈ runs, run.1 ≠ .wildcard)
    (hscan : scan (placeTokens location (runs.map tokenOf)) [⟨0, chunk⟩] 1 =
      some (firstOccurrences bytes [⟨0, chunk⟩] 1)) (hlen : chunk.length = bytes.length) :
    runsMatch runs chunk = agreesAll bytes chunk := by
  rw [scan_place h hw (by simp [hlen]) le_rfl] at hscan
  simp only [firstOccurrences, places, placesFrom, occurrences, hlen, slice, flatMap_cons,
    flatMap_nil, append_nil, Nat.add_sub_cancel_left, Nat.sub_zero, Nat.zero_add,
    List.range'_one, range_one, filter_cons, filter_nil, drop_zero,
    Option.some.injEq, List.map_id'] at hscan
  rw [← hlen, List.take_length] at hscan
  cases hr : runsMatch runs chunk <;> cases ha : agreesAll bytes chunk <;> simp_all

/-- A scan for the tokens of a pattern reports the first occurrences of the pattern. -/
theorem scan_firstOccurrences_iff (h : fromString pattern = .ok p) :
    ∃ bytes, patternBytes pattern = .ok bytes ∧
      ((∀ location ranges maxMatches, (∀ range ∈ ranges, p.size ≤ range.bytes.length) →
          1 ≤ maxMatches →
          scan (placeTokens location p.tokens) ranges maxMatches =
            some (firstOccurrences bytes ranges maxMatches)) ↔
        Maskable bytes) := by
  obtain ⟨bytes, runs, hbytes, hruns, htokens, hsize, hw⟩ := fromString_ok h
  refine ⟨bytes, hbytes, ?_⟩
  have hfaithful : Maskable bytes ↔ ∀ run ∈ runs, Faithful run := by
    rw [maskable_iff hruns]
    refine forall₂_congr fun run hrun => ?_
    rw [maskable_run_iff (hruns.nonempty run hrun) (hruns.kinds run hrun),
      faithful_iff (hruns.nonempty run hrun) (hruns.kinds run hrun)]
  rw [hfaithful, htokens, hsize]
  constructor
  · intro hscan
    refine faithful_of_runsMatch hruns.nonempty fun chunk hlen => ?_
    rw [hruns.flatten] at hlen ⊢
    exact runsMatch_of_scan hruns hw (hscan 0 [⟨0, chunk⟩] 1 (by simp [hlen]) le_rfl) hlen
  · intro hf location ranges maxMatches hlong hmax
    have hmatch : ∀ chunk : List UInt8, chunk.length = bytes.length →
        runsMatch runs chunk = agreesAll bytes chunk := by
      intro chunk hlen
      rw [← hruns.flatten] at hlen ⊢
      exact runsMatch_eq hf hlen
    rw [scan_place hruns hw hlong hmax, firstOccurrences,
      flatMap_congr fun range _ => places_eq_occurrences hmatch]

/-- A pattern with a gap in it, and a byte of which the lower digit counts. -/
theorem scan_firstOccurrences_gap : ∃ bytes, patternBytes "13 ?? 37 0f : ff 00 ff 0f" = .ok bytes ∧
    ((∀ location ranges maxMatches, (∀ range ∈ ranges, 4 ≤ range.bytes.length) →
        1 ≤ maxMatches →
        scan (placeTokens location [{ kind := .exact, values := [0x13], size := 1 },
            { kind := .wildcard, size := 1 }, { kind := .exact, values := [0x37], size := 1 },
            { kind := .mask, values := [0x0f], masks := [0x0f], size := 1 }]) ranges maxMatches =
          some (firstOccurrences bytes ranges maxMatches)) ↔
      Maskable bytes) :=
  scan_firstOccurrences_iff
    (p := ⟨4, [{ kind := .exact, values := [0x13], size := 1 },
      { kind := .wildcard, size := 1 }, { kind := .exact, values := [0x37], size := 1 },
      { kind := .mask, values := [0x0f], masks := [0x0f], size := 1 }]⟩)
    (by decide +kernel)

/-- Looking for `1?` right after `13` finds neither of the two places: the token asks for
all the bits of `12`. -/
theorem scan_misses_upperDigit :
    (fromString "13 1?").map (fun p =>
      (scan (placeTokens 0x1000 p.tokens) [⟨0x8000, [0x13, 0x10, 0x13, 0x1d]⟩] 10, p.size)) =
        .ok (some [], 2) ∧
      (patternBytes "13 1?").map (fun bytes =>
        firstOccurrences bytes [⟨0x8000, [0x13, 0x10, 0x13, 0x1d]⟩] 10) =
        .ok [0x8000, 0x8002] := by
  decide +kernel

end FridaCore.Barebone.MatchPattern
