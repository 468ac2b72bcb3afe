import FridaCore.Barebone.MemoryScanner
import FridaCore.Support.Except

/-!
# What a scan reports

The bytes of a pattern are compiled to tokens in runs of one kind, and a scan
reports the places where all the tokens match. That is where all the bytes agree on
the bits that count, unless the pattern has bytes with a mask: such a token matches
if one of its bytes does, and it has its values in the place of its masks. It makes
no difference for a run of a single byte whose value is its mask (`Maskable`).
-/

namespace FridaCore.Barebone

open List Option Function Prod ScanToken TokenCtx Slice

namespace MatchPattern

variable {tokens out : List MatchToken} {byte : PatternByte} {run : List PatternByte}

def parseBytes : List Char → Option (List Char) → Except Error (List PatternByte)
  | upper :: lower :: rest, some (mu :: ml :: mrest) => do
    let byte ← parseByte upper lower (some (mu, ml))
    return byte :: (← parseBytes rest (some mrest))
  | upper :: lower :: rest, none => do
    let byte ← parseByte upper lower none
    return byte :: (← parseBytes rest none)
  | _, _ => return []

def patternBytes (pattern : String) : Except Error (List PatternByte) := do
  let (matchStr, maskStr) ← digits pattern
  parseBytes matchStr maskStr

theorem exists_bytes_of_compile (h : compile matchStr maskStr tokens = .ok out) :
    ∃ bytes, parseBytes matchStr maskStr = .ok bytes ∧ out = bytes.foldl pushByte tokens := by
  fun_induction compile matchStr maskStr tokens with
  | case1 upper lower rest mu ml mrest tokens ih | case2 upper lower rest tokens ih =>
    obtain ⟨byte, hbyte, h⟩ := bind_eq_ok h
    obtain ⟨bytes, hbytes, rfl⟩ := ih byte h
    exact ⟨byte :: bytes, by simp [parseBytes, hbyte, hbytes]; rfl, rfl⟩
  | case3 matchStr maskStr tokens hmask hnone =>
    cases h
    refine ⟨[], ?_, rfl⟩
    unfold parseBytes
    split
    · exact absurd rfl (hmask _ _ _ _ _ _ rfl)
    · exact absurd rfl (hnone _ _ _ rfl)
    · rfl

def tokenOf (run : TokenKind × List PatternByte) : MatchToken where
  kind := run.1
  values := if run.1 = .wildcard then [] else run.2.map (·.value)
  masks := if run.1 = .mask then run.2.map (·.value) else []
  size := run.2.length

structure Runs (runs : List (TokenKind × List PatternByte)) (bytes : List PatternByte) : Prop where
  flatten : (runs.map Prod.snd).flatten = bytes
  nonempty : ∀ run ∈ runs, run.2 ≠ []
  kinds : ∀ run ∈ runs, ∀ byte ∈ run.2, kindOf byte = run.1
  alternate : runs.IsChain fun run next => run.1 ≠ next.1

theorem pushByte_new (tokens : List MatchToken)
    (hlast : ∀ t ∈ tokens.getLast?, t.kind ≠ kindOf byte) :
    pushByte tokens byte = tokens ++ [tokenOf (kindOf byte, [byte])] := by
  have hnew : appendByte { kind := kindOf byte } byte = tokenOf (kindOf byte, [byte]) := by
    unfold appendByte
    cases kindOf byte <;> rfl
  rw [← hnew]
  cases h : tokens.getLast? with
  | none => simp [pushByte, h]
  | some t => simp [pushByte, h, hlast t h]

theorem pushByte_last :
    pushByte (tokens ++ [tokenOf (kindOf byte, run)]) byte =
      tokens ++ [tokenOf (kindOf byte, run ++ [byte])] := by
  have happend : appendByte (tokenOf (kindOf byte, run)) byte =
      tokenOf (kindOf byte, run ++ [byte]) := by
    unfold appendByte
    cases kindOf byte <;> simp [tokenOf, MatchToken.append, MatchToken.appendWithMask]
  have hkind : (tokenOf (kindOf byte, run)).kind = kindOf byte := rfl
  simp [pushByte, hkind, happend]

theorem exists_runs (bytes : List PatternByte) :
    ∃ runs, Runs runs bytes ∧ bytes.foldl pushByte [] = runs.map tokenOf := by
  induction bytes using reverseRecOn with
  | nil => exact ⟨[], ⟨rfl, by simp, by simp, .nil⟩, rfl⟩
  | append_singleton bytes byte ih =>
    obtain ⟨runs, hruns, hfold⟩ := ih
    rw [foldl_append, hfold]
    rcases runs.eq_nil_or_concat' with rfl | ⟨before, run, rfl⟩
    · refine ⟨[(kindOf byte, [byte])], ⟨?_, by simp, by simp, .singleton _⟩, ?_⟩
      · simp [← hruns.flatten]
      · exact pushByte_new [] (by simp)
    · by_cases hk : run.1 = kindOf byte
      · obtain ⟨kind, run⟩ := run
        obtain rfl : kind = kindOf byte := hk
        refine ⟨before ++ [(kindOf byte, run ++ [byte])], ⟨?_, ?_, ?_, ?_⟩, ?_⟩
        · simp [← hruns.flatten]
        · refine forall_mem_append.mpr ⟨fun r hr => ?_, by simp⟩
          exact hruns.nonempty r (mem_append_left _ hr)
        · refine forall_mem_append.mpr ⟨fun r hr => ?_, ?_⟩
          · exact hruns.kinds r (mem_append_left _ hr)
          · have hlast := hruns.kinds (kindOf byte, run) (by simp)
            simpa [or_imp, forall_and] using hlast
        · have halt := hruns.alternate
          simp only [isChain_append, head?_cons] at halt ⊢
          exact ⟨halt.1, .singleton _, by simpa using halt.2.2⟩
        · simp only [map_append, map_cons, map_nil, foldl_cons, foldl_nil]
          exact pushByte_last
      · refine ⟨before ++ [run] ++ [(kindOf byte, [byte])], ⟨?_, ?_, ?_, ?_⟩, ?_⟩
        · simp [← hruns.flatten]
        · exact forall_mem_append.mpr ⟨hruns.nonempty, by simp⟩
        · exact forall_mem_append.mpr ⟨hruns.kinds, by simp⟩
        · refine isChain_append.mpr ⟨hruns.alternate, .singleton _, ?_⟩
          simpa using hk
        · have hmap : (before ++ [run] ++ [(kindOf byte, [byte])]).map tokenOf =
              (before ++ [run]).map tokenOf ++ [tokenOf (kindOf byte, [byte])] := map_append
          rw [hmap]
          exact pushByte_new _ (by simpa [tokenOf] using hk)

theorem fromString_ok (h : fromString pattern = .ok p) : ∃ bytes runs,
    patternBytes pattern = .ok bytes ∧ Runs runs bytes ∧ p.tokens = runs.map tokenOf ∧
      p.size = bytes.length ∧ ∃ run ∈ runs, run.1 ≠ .wildcard := by
  obtain ⟨⟨matchStr, maskStr⟩, hdigits, h⟩ := bind_eq_ok h
  obtain ⟨tokens, hcompile, h⟩ := bind_eq_ok h
  obtain ⟨bytes, hbytes, rfl⟩ := exists_bytes_of_compile hcompile
  obtain ⟨runs, hruns, hfold⟩ := exists_runs bytes
  rw [hfold] at h
  refine ⟨bytes, runs, ?_, hruns, ?_⟩
  · simp only [patternBytes, hdigits]
    exact hbytes
  split at h
  · rename_i first last hfirst hlast
    split at h
    · cases h
    · rename_i hwild
      cases h
      obtain ⟨run, hrun, rfl⟩ := mem_map.mp (mem_of_mem_head? hfirst)
      refine ⟨rfl, ?_, run, hrun, fun hk => hwild (.inl hk)⟩
      rw [← hruns.flatten, length_flatten]
      simp [tokenOf, comp_def]
  · cases h

end MatchPattern

open MatchPattern

variable {runs : List (TokenKind × List PatternByte)} {run : TokenKind × List PatternByte}
  {chunk data : List UInt8} {t u : ScanToken} {z : TokenCtx} {location x : Nat}

@[simp] theorem Slice.place_bytes (location : Nat) (bytes : List UInt8) :
    (place location bytes).bytes = bytes := by
  unfold place
  split <;> simp_all

def runMatches (run : TokenKind × List PatternByte) (chunk : List UInt8) : Bool :=
  match run.1 with
  | .exact => chunk = run.2.map (·.value)
  | .wildcard => true
  | .mask => chunkMatchesValuesWithMasks chunk (run.2.map (·.value)) (run.2.map (·.value))

def runsMatch : List (TokenKind × List PatternByte) → List UInt8 → Bool
  | [], _ => true
  | run :: rest, chunk =>
    runMatches run (chunk.take run.2.length) && runsMatch rest (chunk.drop run.2.length)

theorem chunkMatchesToken_tokenOf (run : TokenKind × List PatternByte) (values masks : Nat) :
    chunkMatchesToken chunk ⟨(tokenOf run).kind, .place values (tokenOf run).values,
      .place masks (tokenOf run).masks, (tokenOf run).size⟩ = runMatches run chunk := by
  obtain ⟨kind, bytes⟩ := run
  cases kind <;> simp [chunkMatchesToken, runMatches, tokenOf]

theorem chunkMatchesTokens_place (offset : Nat) :
    chunkMatchesTokens chunk (placeTokens location (runs.map tokenOf)) offset =
      runsMatch runs (chunk.drop offset) := by
  induction runs generalizing location offset with
  | nil => rfl
  | cons run rest ih =>
    simp only [map_cons, placeTokens, chunkMatchesTokens, chunkMatchesToken_tokenOf, ih,
      runsMatch, slice, drop_drop]
    change (if (!runMatches run ((chunk.drop offset).take run.2.length)) = true then false
      else runsMatch rest (chunk.drop (offset + run.2.length))) = _
    cases runMatches run ((chunk.drop offset).take run.2.length) <;> simp

theorem le_location (hne : ∀ run ∈ runs, run.2 ≠ [])
    (hu : u ∈ placeTokens location (runs.map tokenOf)) (hw : u.ttype ≠ .wildcard) :
    location ≤ u.values.location := by
  induction runs generalizing location with
  | nil => cases hu
  | cons run rest ih =>
    obtain ⟨hrun, hrest⟩ := forall_mem_cons.mp hne
    rcases mem_cons.mp hu with rfl | hu
    · have hw : run.1 ≠ .wildcard := hw
      have hvalues : (tokenOf run).values ≠ [] := by simpa [tokenOf, hw] using hrun
      simp [place, hvalues]
    · exact le_trans (by omega) (ih hrest hu)

theorem eq_of_same (hne : ∀ run ∈ runs, run.2 ≠ [])
    (ht : t ∈ placeTokens location (runs.map tokenOf))
    (hu : u ∈ placeTokens location (runs.map tokenOf)) (hw : u.ttype ≠ .wildcard)
    (hs : t.same u = true) : t = u := by
  simp only [same, Bool.and_eq_true, decide_eq_true_eq] at hs
  obtain ⟨⟨⟨htype, hloc⟩, -⟩, -⟩ := hs
  have htw : t.ttype ≠ .wildcard := htype ▸ hw
  induction runs generalizing location with
  | nil => cases ht
  | cons run rest ih =>
    obtain ⟨hrun, hrest⟩ := forall_mem_cons.mp hne
    -- the values of the first token take up some room
    have hfirst : run.1 ≠ .wildcard → (tokenOf run).values ≠ [] := by
      intro hw
      simpa [tokenOf, hw] using hrun
    have hlater : ∀ {v : ScanToken}, run.1 ≠ .wildcard → v ∈ placeTokens
        (location + (tokenOf run).values.length + (tokenOf run).masks.length)
        (rest.map tokenOf) → v.ttype ≠ .wildcard → location < v.values.location := by
      intro v hw hv hvw
      have := le_location hrest hv hvw
      have := length_pos_iff.mpr (hfirst hw)
      omega
    have hplace : run.1 ≠ .wildcard →
        (place location (tokenOf run).values).location = location := by
      intro hw
      simp [place, hfirst hw]
    rcases mem_cons.mp ht with rfl | ht <;> rcases mem_cons.mp hu with rfl | hu
    · rfl
    · have := hlater htw hu hw
      have := hplace htw
      exact absurd hloc (by simp only; omega)
    · have := hlater hw ht htw
      have := hplace hw
      exact absurd hloc (by simp only; omega)
    · exact ih hrest ht hu

theorem sum_size_place (location : Nat) :
    ((placeTokens location (runs.map tokenOf)).map (·.size)).sum =
      (runs.map snd).flatten.length := by
  induction runs generalizing location with
  | nil => rfl
  | cons run rest ih => simp [placeTokens, ih, tokenOf]

theorem exists_mem_place (h : run ∈ runs) (location : Nat) :
    ∃ t ∈ placeTokens location (runs.map tokenOf), t.ttype = run.1 := by
  induction runs generalizing location with
  | nil => cases h
  | cons first rest ih =>
    rcases mem_cons.mp h with rfl | h
    · exact ⟨_, mem_cons_self, rfl⟩
    · obtain ⟨t, ht, htype⟩ := ih h (location + (tokenOf first).values.length +
        (tokenOf first).masks.length)
      exact ⟨t, mem_cons_of_mem _ ht, htype⟩

theorem size_pos (hne : ∀ run ∈ runs, run.2 ≠ [])
    (ht : t ∈ placeTokens location (runs.map tokenOf)) : 0 < t.size := by
  induction runs generalizing location with
  | nil => cases ht
  | cons run rest ih =>
    obtain ⟨hrun, hrest⟩ := forall_mem_cons.mp hne
    rcases mem_cons.mp ht with rfl | ht
    · exact length_pos_iff.mpr hrun
    · exact ih hrest ht

theorem maxBySize_mem {tokens : List ScanToken} (h : maxBySize tokens = some t) : t ∈ tokens := by
  induction tokens with
  | nil => cases h
  | cons u rest ih =>
    simp only [maxBySize] at h
    split at h
    · rename_i v hv
      split at h
      · cases h
        exact mem_cons_self
      · cases h
        exact mem_cons_of_mem _ (ih hv)
    · cases h
      exact mem_cons_self

theorem maxBySize_isSome {tokens : List ScanToken} (h : tokens ≠ []) :
    (maxBySize tokens).isSome := by
  cases tokens with
  | nil => exact absurd rfl h
  | cons u rest =>
    simp only [maxBySize]
    split
    · split <;> rfl
    · rfl

theorem findLongestToken_some {tokens : List ScanToken} {ttype : TokenKind}
    (h : findLongestToken tokens ttype = some t) : t ∈ tokens ∧ t.ttype = ttype := by
  have hmem := maxBySize_mem h
  rw [mem_filter, decide_eq_true_eq] at hmem
  exact hmem

theorem findLongestToken_isSome {tokens : List ScanToken} (h : t ∈ tokens) :
    (findLongestToken tokens t.ttype).isSome := by
  refine maxBySize_isSome (ne_nil_of_mem (mem_filter.mpr ⟨h, ?_⟩))
  simp

structure TokenCtx.Searches (z : TokenCtx) (tokens : List ScanToken) : Prop where
  all : z.tokens = tokens
  longest : z.longest ∈ tokens
  ttype : z.longest.ttype ≠ .wildcard
  before : z.lenBeforeLongest =
    ((tokens.takeWhile fun t => !t.same z.longest).map (·.size)).sum
  total : z.totalSize = (tokens.map (·.size)).sum
  rest : z.lenFromLongest = z.totalSize - z.lenBeforeLongest

theorem TokenCtx.exists_new {tokens : List ScanToken} (ht : t ∈ tokens)
    (hw : t.ttype ≠ .wildcard) : ∃ z, new tokens = some z ∧ z.Searches tokens := by
  have hsome : ((findLongestToken tokens .exact).or (findLongestToken tokens .mask)).isSome := by
    have hfound := findLongestToken_isSome ht
    cases htype : t.ttype with
    | exact | mask => simp [htype ▸ hfound]
    | wildcard => exact absurd htype hw
  obtain ⟨longest, hlongest⟩ := isSome_iff_exists.mp hsome
  obtain ⟨hmem, htype⟩ : longest ∈ tokens ∧ longest.ttype ≠ .wildcard := by
    rcases or_eq_some_iff.mp hlongest with h | ⟨-, h⟩
    · exact (findLongestToken_some h).imp_right fun h => by simp [h]
    · exact (findLongestToken_some h).imp_right fun h => by simp [h]
  refine ⟨_, by rw [new, hlongest], ⟨rfl, hmem, htype, rfl, rfl, rfl⟩⟩

theorem exists_before {tokens : List ScanToken} (hmem : u ∈ tokens)
    (hsame : ∀ t ∈ tokens, t.same u = true → t = u) : ∃ before after,
      tokens = before ++ u :: after ∧ (tokens.takeWhile fun t => !t.same u) = before := by
  induction tokens with
  | nil => cases hmem
  | cons t rest ih =>
    by_cases ht : t.same u = true
    · obtain rfl := hsame t mem_cons_self ht
      exact ⟨[], rest, rfl, by simp [ht]⟩
    · have hne : u ≠ t := by
        rintro rfl
        simp [same] at ht
      obtain ⟨before, after, rfl, hbefore⟩ := ih ((mem_cons.mp hmem).resolve_left hne)
        fun v hv => hsame v (mem_cons_of_mem _ hv)
      exact ⟨t :: before, after, rfl, by simp [ht, hbefore]⟩

theorem token_matches {before after : List ScanToken} (offset : Nat)
    (h : chunkMatchesTokens chunk (before ++ u :: after) offset = true) :
    chunkMatchesToken (slice chunk (offset + (before.map (·.size)).sum) u.size) u = true := by
  induction before generalizing offset with
  | nil => simp_all [chunkMatchesTokens]
  | cons t rest ih =>
    simp only [cons_append, chunkMatchesTokens] at h
    split at h
    · cases h
    · simpa [Nat.add_assoc] using ih (offset + t.size) h

theorem slice_slice {start size start' size' : Nat} (h : start' + size' ≤ size) :
    slice (slice data start size) start' size' = slice data (start + start') size' := by
  simp only [slice, drop_take, take_take, drop_drop]
  rw [Nat.min_eq_left (by omega)]

section
variable (hne : ∀ run ∈ runs, run.2 ≠ [])
  (hz : z.Searches (placeTokens location (runs.map tokenOf)))
include hne hz

theorem TokenCtx.Searches.split : ∃ before after,
    placeTokens location (runs.map tokenOf) = before ++ z.longest :: after ∧
      z.lenBeforeLongest = (before.map (·.size)).sum := by
  obtain ⟨before, after, htokens, hbefore⟩ := exists_before hz.longest fun t ht hs =>
    eq_of_same hne ht hz.longest hz.ttype hs
  exact ⟨before, after, htokens, hbefore ▸ hz.before⟩

theorem TokenCtx.Searches.longest_le : z.lenBeforeLongest + z.longest.size ≤ z.totalSize := by
  obtain ⟨before, after, htokens, hbefore⟩ := hz.split hne
  rw [hz.total, hbefore, htokens]
  simp

theorem isMatch_eq :
    (z.isPotentialMatch (slice data (z.lenBeforeLongest + x) z.longest.size) &&
        z.isMatch data x) = runsMatch runs (slice data x z.totalSize) := by
  obtain ⟨before, after, htokens, hbefore⟩ := hz.split hne
  have hslice : slice (slice data x z.totalSize) z.lenBeforeLongest z.longest.size =
      slice data (z.lenBeforeLongest + x) z.longest.size := by
    rw [Nat.add_comm, slice_slice (hz.longest_le hne)]
  have hpotential : z.isPotentialMatch (slice data (z.lenBeforeLongest + x) z.longest.size) =
      chunkMatchesToken (slice data (z.lenBeforeLongest + x) z.longest.size) z.longest := by
    have := hz.ttype
    unfold isPotentialMatch chunkMatchesToken
    cases htype : z.longest.ttype <;> simp_all
  have hall : chunkMatchesTokens (slice data x z.totalSize) z.tokens 0 =
      runsMatch runs (slice data x z.totalSize) := by
    rw [hz.all, chunkMatchesTokens_place, drop_zero]
  have himp : runsMatch runs (slice data x z.totalSize) = true →
      chunkMatchesToken (slice data (z.lenBeforeLongest + x) z.longest.size) z.longest = true := by
    intro h
    rw [← hall, hz.all, htokens] at h
    have hlongest := token_matches 0 h
    rwa [Nat.zero_add, ← hbefore, hslice] at hlongest
  rw [hpotential, isMatch, hall]
  by_cases hone : z.tokens.length = 1
  · -- with a single token there is nothing else to check
    obtain ⟨t, ht⟩ := length_eq_one_iff.mp hone
    have hlongest : z.longest = t := by
      have := hz.longest
      rw [← hz.all, ht] at this
      exact mem_singleton.mp this
    have hsingle : runsMatch runs (slice data x z.totalSize) =
        chunkMatchesToken (slice data (z.lenBeforeLongest + x) z.longest.size) z.longest := by
      rw [← hslice, ← hall, ht, hlongest]
      have hbefore : z.lenBeforeLongest = 0 := by
        rw [hz.before, ← hz.all, ht, hlongest]
        simp [same]
      simp [chunkMatchesTokens, hbefore]
    simp [hone, hsingle]
  · simp only [hone, decide_false, Bool.false_or]
    cases h : runsMatch runs (slice data x z.totalSize) with
    | true => simp [himp h]
    | false => simp

end

/-- The places from `x` on where `M` holds and the pattern fits in. -/
def placesFrom (M : Nat → Bool) (length size x : Nat) : List Nat :=
  (List.range' x (length + 1 - size - x)).filter M

theorem placesFrom_eq_nil {M : Nat → Bool} {length size : Nat} (h : length < x + size) :
    placesFrom M length size x = [] := by
  simp [placesFrom, show length + 1 - size - x = 0 by omega]

theorem placesFrom_eq {M : Nat → Bool} {length size : Nat} (h : x + size ≤ length) :
    placesFrom M length size x =
      if M x then x :: placesFrom M length size (x + 1) else placesFrom M length size (x + 1) := by
  rw [placesFrom, show length + 1 - size - x = (length + 1 - size - (x + 1)) + 1 by omega,
    range'_succ, filter_cons]
  rfl

section
variable {M : Nat → Bool} (hM : ∀ x, x + z.totalSize ≤ data.length →
    (z.isPotentialMatch (slice data (z.lenBeforeLongest + x) z.longest.size) &&
      z.isMatch data x) = M x)
  (hsplit : z.lenBeforeLongest + z.lenFromLongest = z.totalSize) (hpos : 0 < z.lenFromLongest)

include hM hsplit hpos

theorem next_spec {remainder : Nat} (hr : remainder + (z.lenBeforeLongest + x) = data.length) :
    (placesFrom M data.length z.totalSize x = [] ∧
        z.next data remainder (z.lenBeforeLongest + x) = none) ∨
      ∃ y remainder', placesFrom M data.length z.totalSize x =
          y :: placesFrom M data.length z.totalSize (y + 1) ∧
        z.next data remainder (z.lenBeforeLongest + x) =
          some (y, remainder', z.lenBeforeLongest + (y + 1)) ∧
        remainder' + (z.lenBeforeLongest + (y + 1)) = data.length := by
  induction remainder generalizing x with
  | zero => exact .inl ⟨placesFrom_eq_nil (by omega), rfl⟩
  | succ remainder ih =>
    simp only [TokenCtx.next]
    split
    · have hfits : x + z.totalSize ≤ data.length := by omega
      rw [Nat.add_sub_cancel_left, hM x hfits, placesFrom_eq hfits]
      cases M x with
      | true => exact .inr ⟨x, remainder, rfl, rfl, by omega⟩
      | false => exact ih (x := x + 1) (by omega)
    · exact .inl ⟨placesFrom_eq_nil (by omega), rfl⟩

end

theorem scanRange_eq {M : Nat → Bool} {range : MemoryRange} {maxMatches turns remainder : Nat}
    {found : List Nat}
    (hM : ∀ x, x + z.totalSize ≤ range.bytes.length →
      (z.isPotentialMatch (slice range.bytes (z.lenBeforeLongest + x) z.longest.size) &&
        z.isMatch range.bytes x) = M x)
    (hsplit : z.lenBeforeLongest + z.lenFromLongest = z.totalSize) (hpos : 0 < z.lenFromLongest)
    (hr : remainder + (z.lenBeforeLongest + x) = range.bytes.length)
    (hturns : (placesFrom M range.bytes.length z.totalSize x).length ≤ turns)
    (hfound : found.length < maxMatches) :
    z.scanRange range maxMatches turns remainder (z.lenBeforeLongest + x) found =
      let places := (placesFrom M range.bytes.length z.totalSize x).map (range.base + ·)
      ((found ++ places).take maxMatches, decide (maxMatches ≤ found.length + places.length)) := by
  induction turns generalizing x remainder found with
  | zero =>
    have hnil : placesFrom M range.bytes.length z.totalSize x = [] :=
      length_eq_zero_iff.mp (Nat.le_zero.mp hturns)
    simp [scanRange, hnil, take_of_length_le hfound.le, hfound]
  | succ turns ih =>
    rcases next_spec hM hsplit hpos hr with ⟨hnil, hnext⟩ | ⟨y, remainder', hcons, hnext, hr'⟩
    · simp [scanRange, hnext, hnil, take_of_length_le hfound.le, hfound]
    · rw [hcons] at hturns ⊢
      simp only [scanRange, hnext, map_cons, length_append, length_cons,
        length_nil, Nat.zero_add, length_map]
      split
      · rename_i hmax
        have htake : (found ++ [range.base + y]).length = maxMatches := by simpa using hmax
        rw [append_cons found (range.base + y) (map _ _), take_left' htake]
        simp only [Prod.mk.injEq, true_and]
        exact (decide_eq_true (by omega)).symm
      · rw [ih hr' (by simpa using hturns) (by simp; omega)]
        simp only [length_append, length_cons, length_nil, length_map,
          append_assoc, cons_append, nil_append, Prod.mk.injEq, true_and]
        congr 1
        simp only [eq_iff_iff]
        omega

def places (M : List UInt8 → Nat → Bool) (size : Nat) (range : MemoryRange) : List Nat :=
  (placesFrom (M range.bytes) range.bytes.length size 0).map (range.base + ·)

theorem scanRanges_eq {M : List UInt8 → Nat → Bool} {ranges : List MemoryRange} {maxMatches : Nat}
    {found : List Nat}
    (hM : ∀ range ∈ ranges, ∀ x, x + z.totalSize ≤ range.bytes.length →
      (z.isPotentialMatch (slice range.bytes (z.lenBeforeLongest + x) z.longest.size) &&
        z.isMatch range.bytes x) = M range.bytes x)
    (hsplit : z.lenBeforeLongest + z.lenFromLongest = z.totalSize) (hpos : 0 < z.lenFromLongest)
    (hlong : ∀ range ∈ ranges, z.totalSize ≤ range.bytes.length)
    (hfound : found.length < maxMatches) :
    z.scanRanges maxMatches ranges found =
      (found ++ ranges.flatMap (places M z.totalSize)).take maxMatches := by
  induction ranges generalizing found with
  | nil => simp [scanRanges, take_of_length_le hfound.le]
  | cons range rest ih =>
    obtain ⟨hMr, hMrest⟩ := forall_mem_cons.mp hM
    obtain ⟨hlongr, hlongrest⟩ := forall_mem_cons.mp hlong
    have hturns : (placesFrom (M range.bytes) range.bytes.length z.totalSize 0).length ≤
        range.bytes.length := by
      refine (length_filter_le _ _).trans ?_
      rw [length_range']
      omega
    have hlen : range.bytes.length - z.lenBeforeLongest + (z.lenBeforeLongest + 0) =
        range.bytes.length := by omega
    have hscan : z.scanRange range maxMatches range.bytes.length
        (range.bytes.length - z.lenBeforeLongest) z.lenBeforeLongest found =
          ((found ++ places M z.totalSize range).take maxMatches,
            decide (maxMatches ≤ found.length + (places M z.totalSize range).length)) :=
      scanRange_eq hMr hsplit hpos hlen hturns hfound
    rw [scanRanges, hscan, flatMap_cons]
    by_cases hmax : maxMatches ≤ found.length + (places M z.totalSize range).length
    · rw [decide_eq_true hmax]
      have hle : maxMatches ≤ (found ++ places M z.totalSize range).length := by simpa using hmax
      rw [← append_assoc, take_append_of_le_length hle]
    · rw [decide_eq_false hmax]
      simp only
      rw [take_of_length_le (by simp; omega), ih hMrest hlongrest (by simp; omega),
        append_assoc]

end FridaCore.Barebone
