import FridaCore.Fruity.PlistFuel

/-!
# The values that are read for a value

Reading a value comes to reading other values: the length that follows its marker,
and the objects it refers to, up to the first one that fails. They are listed here,
and reading the value comes to nothing if and only if reading one of them does.
-/

namespace FridaCore.Fruity.BinaryParser

/-- What a value asks for: a value further down, which is a length or an object with the
reference to it, or more memory than there is. -/
inductive Call
  | value (ref : Option Nat) (pos : Nat)
  | oversized
  deriving DecidableEq, Repr

section
variable [GLib] (data : List UInt8) (t : Trailer) (readValue : Reading Tree)

def objectCall (ref : Nat) (next : Tree → List Call) : List Call :=
  match seekToObject data t ref with
  | .error _ => []
  | .ok start => .value (some ref) start ::
    match readValue start with
    | .ok (v, _) => next v
    | .error _ => []

def elementCalls : List Nat → List Call
  | [] => []
  | ref :: rest => objectCall data t readValue ref fun _ => elementCalls rest

def entryCalls : List (Nat × Nat) → List Call
  | [] => []
  | (keyRef, valRef) :: rest =>
    objectCall data t readValue keyRef fun key => objectCall data t readValue valRef fun _ =>
      match key with
      | .scalar (.string _) => entryCalls rest
      | _ => []

def lengthCall (info : Nat) (next : Nat → Nat → List Call) (pos : Nat) : List Call :=
  if info = 0xf then
    .value none pos ::
      match readLength readValue pos with
      | .ok (length, pos) => next length pos
      | .error _ => []
  else next info pos

def arrayRefs (length : Nat) : Reading (List Nat) := do
  checkObjectSize (length * t.objectRefSize % 2 ^ 64)
  allocateRefs length
  readRefs data t length

def dictRefs (length : Nat) : Reading (List (Nat × Nat)) := do
  checkObjectSize (length * (2 * t.objectRefSize) % 2 ^ 64)
  allocateRefs length
  let keyRefs ← readRefs data t length
  let valRefs ← readRefs data t length
  return keyRefs.zip valRefs

def refCalls (refs : Except Stop (α × Nat)) (next : α → List Call) : List Call :=
  match refs with
  | .ok (refs, _) => next refs
  | .error e => if e.fatal then [.oversized] else []

def arrayCalls (length pos : Nat) : List Call :=
  refCalls (arrayRefs data t length pos) (elementCalls data t readValue)

def dictCalls (length pos : Nat) : List Call :=
  refCalls (dictRefs data t length pos) (entryCalls data t readValue)

def bodyCalls (objectType info pos : Nat) : List Call :=
  match objectType with
  | 0x4 | 0x5 | 0x6 => lengthCall readValue info (fun _ _ => []) pos
  | 0xa => lengthCall readValue info (arrayCalls data t readValue) pos
  | 0xd => lengthCall readValue info (dictCalls data t readValue) pos
  | _ => []

end

def calls [GLib] (data : List UInt8) (t : Trailer) (fuel pos : Nat) : List Call :=
  match readUint data 1 pos with
  | .ok (marker, pos) =>
    bodyCalls data t (readValue data t fuel) ((marker &&& 0xf0) >>> 4) (marker &&& 0x0f) pos
  | .error _ => []

section
variable {data : List UInt8} {t : Trailer} {x y : Reading Tree} {pos : Nat}

def Call.Out (x : Reading Tree) : Call → Prop
  | .value _ pos => BinaryParser.Out (x pos)
  | .oversized => True

def OutIn (x : Reading Tree) (cs : List Call) : Prop := ∃ c ∈ cs, c.Out x

theorem outIn_cons : OutIn x (c :: cs) ↔ c.Out x ∨ OutIn x cs := by
  simp [OutIn]

theorem not_outIn_nil : ¬OutIn x [] := by simp [OutIn]

theorem out_parseObject (h : ∀ v pos, Out (f v pos) ↔ OutIn x (next v)) :
    Out ((parseObject data t x ref >>= f) pos) ↔ OutIn x (objectCall data t x ref next) := by
  unfold objectCall
  rw [bind_apply, parseObject]
  cases hs : seekToObject data t ref with
  | error e =>
    have hfin := not_out_seekToObject data t ref
    rw [hs, out_error] at hfin
    rw [error_bind, error_bind, out_error]
    exact iff_of_false hfin not_outIn_nil
  | ok start =>
    simp only [ok_bind, outIn_cons, Call.Out]
    cases hx : x start with
    | error e =>
      rw [error_bind, error_bind, or_iff_left not_outIn_nil, out_error, out_error]
    | ok r =>
      rw [or_iff_right (not_out_ok r)]
      exact h r.1 pos

theorem out_bind_direct {x : Reading α} (hx : Direct x) :
    Out ((x >>= f) pos) ↔ ∃ r, x pos = .ok r ∧ Out (f r.1 r.2) := by
  rw [bind_apply, out_bind, or_iff_right (hx pos)]

theorem out_bind_pure {x : Reading α} {f : α → β} :
    Out ((x >>= fun a => pure (f a)) pos) ↔ Out (x pos) := by
  rw [bind_apply, out_bind, or_iff_left]
  rintro ⟨r, -, h⟩
  exact not_out_ok _ h

theorem out_readElements (refs : List Nat) :
    Out (readElements data t x refs pos) ↔ OutIn x (elementCalls data t x refs) := by
  induction refs generalizing pos with
  | nil => simp [readElements, elementCalls, not_outIn_nil, Direct.pure _ pos]
  | cons ref rest ih => exact out_parseObject fun v pos => by rw [out_bind_pure, ih]

theorem out_readEntries (refs : List (Nat × Nat)) (dict : List (Str × Tree)) :
    Out (readEntries data t x refs dict pos) ↔ OutIn x (entryCalls data t x refs) := by
  induction refs generalizing dict pos with
  | nil => simp [readEntries, entryCalls, not_outIn_nil, Direct.pure _ pos]
  | cons pair rest ih =>
    refine out_parseObject fun key pos => out_parseObject fun val pos => ?_
    cases key with
    | scalar s =>
      cases s with
      | string s => exact ih _
      | _ => exact iff_of_false (direct_invalidData _ _) not_outIn_nil
    | array => exact iff_of_false (direct_invalidData _ _) not_outIn_nil
    | dict => exact iff_of_false (direct_invalidData _ _) not_outIn_nil

theorem out_lengthFor (h : ∀ length pos, Out (f length pos) ↔ OutIn x (next length pos)) :
    Out ((lengthFor x info >>= f) pos) ↔ OutIn x (lengthCall x info next pos) := by
  unfold lengthFor lengthCall
  split
  · rw [bind_apply, out_bind, outIn_cons]
    have hlength : Out (readLength x pos) ↔ Out (x pos) := by
      rw [readLength, bind_apply, out_bind, or_iff_left]
      rintro ⟨r, -, hr⟩
      exact direct_lengthOf r.1 r.2 hr
    refine or_congr hlength ?_
    cases hr : readLength x pos with
    | error e => simp [not_outIn_nil]
    | ok r => simpa using h r.1 r.2
  · exact h info pos

theorem out_refCalls {f : α → Reading β} (h : ∀ a pos, Out (f a pos) ↔ OutIn x (next a)) :
    Out ((r >>= f) pos) ↔ OutIn x (refCalls (r pos) next) := by
  rw [bind_apply]
  cases r pos with
  | ok a => exact h a.1 a.2
  | error e =>
    rw [error_bind, out_error, refCalls.eq_2]
    cases e.fatal with
    | true => simp [OutIn, Call.Out]
    | false => simp [not_outIn_nil]

theorem readArray_eq [GLib] (length : Nat) : readArray data t x length =
    arrayRefs data t length >>= fun refs => do
      return .array () (← readElements data t x refs) := by
  simp only [arrayRefs, bind_assoc]
  rfl

theorem readDict_eq [GLib] (length : Nat) : readDict data t x length =
    dictRefs data t length >>= fun refs => do
      return .dict () (← readEntries data t x refs []) := by
  simp only [dictRefs, bind_assoc, pure_bind]
  rfl

theorem out_readArray [GLib] (length : Nat) :
    Out (readArray data t x length pos) ↔ OutIn x (arrayCalls data t x length pos) := by
  rw [readArray_eq]
  refine out_refCalls fun refs pos => ?_
  rw [out_bind_pure, out_readElements]

theorem out_readDict [GLib] (length : Nat) :
    Out (readDict data t x length pos) ↔ OutIn x (dictCalls data t x length pos) := by
  rw [readDict_eq]
  refine out_refCalls fun refs pos => ?_
  rw [out_bind_pure, out_readEntries]

theorem out_readBody [GLib] (objectType info : Nat) :
    Out (readBody data t x objectType info pos) ↔
      OutIn x (bodyCalls data t x objectType info pos) := by
  have hdirect : ∀ {r : Reading Tree}, Direct r → (Out (r pos) ↔ OutIn x []) :=
    fun hr => iff_of_false (hr pos) not_outIn_nil
  have hscalar : ∀ {f : Nat → Reading Tree}, (∀ n, Direct (f n)) →
      (Out ((lengthFor x info >>= f) pos) ↔ OutIn x (lengthCall x info (fun _ _ => []) pos)) :=
    fun hf => out_lengthFor fun length pos => iff_of_false (hf length pos) not_outIn_nil
  unfold readBody bodyCalls
  split
  · exact hdirect (direct_readConstant info)
  · exact hdirect (direct_readInteger data info)
  · exact hdirect (direct_readReal data info)
  · exact hdirect (.bind (direct_readUint _ _) fun _ => .pure _)
  · exact hscalar (direct_readData data)
  · exact hscalar (direct_readAsciiString data)
  · exact hscalar (direct_readUtf16String data)
  · exact hdirect (.bind (direct_readUintOfSize _ _) fun _ => .pure _)
  · exact out_lengthFor fun length pos => out_readArray length
  · exact out_lengthFor fun length pos => out_readDict length
  · rename_i h0 h1 h2 h3 h4 h5 h6 h8 ha hd
    split
    · exact absurd rfl h4
    · exact absurd rfl h5
    · exact absurd rfl h6
    · exact absurd rfl ha
    · exact absurd rfl hd
    · exact hdirect (direct_invalidData _)

theorem out_readValue [GLib] (fuel : Nat) :
    Out (readValue data t (fuel + 1) pos) ↔
      OutIn (readValue data t fuel) (calls data t fuel pos) := by
  rw [readValue, out_bind_direct (direct_readUint data 1), calls]
  cases hmarker : readUint data 1 pos with
  | error e => simp [not_outIn_nil]
  | ok r => simp [out_readBody]

/-- With the better reader there is more to read, and the same if nothing ran out. -/
structure Extends (x : Reading Tree) (cs cs' : List Call) : Prop where
  subset : cs ⊆ cs'
  stable : ¬OutIn x cs → cs' = cs

theorem Extends.refl (cs : List Call) : Extends x cs cs := ⟨List.Subset.refl cs, fun _ => rfl⟩

theorem Extends.cons (h : ¬c.Out x → Extends x cs cs')
    (hout : c.Out x → cs = []) : Extends x (c :: cs) (c :: cs') := by
  by_cases hc : c.Out x
  · rw [hout hc]
    refine ⟨by simp, fun hno => absurd (outIn_cons.mpr (.inl hc)) hno⟩
  · refine ⟨List.cons_subset_cons c (h hc).subset, fun hno => ?_⟩
    rw [(h hc).stable fun hin => hno (outIn_cons.mpr (.inr hin))]

theorem extends_refCalls (h : ∀ a, Extends x (next a) (next' a)) :
    Extends x (refCalls refs next) (refCalls refs next') := by
  unfold refCalls
  split
  · exact h _
  · exact .refl _

section
variable (h : Refines x y)
include h

theorem extends_objectCall (hnext : ∀ v, Extends x (next v) (next' v)) :
    Extends x (objectCall data t x ref next) (objectCall data t y ref next') := by
  unfold objectCall
  cases hs : seekToObject data t ref with
  | error e => exact .refl _
  | ok start =>
    refine .cons (fun hfin => ?_) fun hout => ?_
    · rw [h start hfin]
      cases x start with
      | error e => exact .refl _
      | ok r => exact hnext r.1
    · obtain ⟨e, he, -⟩ := hout
      rw [he]

theorem extends_elementCalls (refs : List Nat) :
    Extends x (elementCalls data t x refs) (elementCalls data t y refs) := by
  induction refs with
  | nil => exact .refl _
  | cons ref rest ih => exact extends_objectCall h fun _ => ih

theorem extends_entryCalls (refs : List (Nat × Nat)) :
    Extends x (entryCalls data t x refs) (entryCalls data t y refs) := by
  induction refs with
  | nil => exact .refl _
  | cons pair rest ih =>
    refine extends_objectCall h fun key => extends_objectCall h fun _ => ?_
    split
    · exact ih
    · exact .refl _

theorem extends_lengthCall (hnext : ∀ length pos, Extends x (next length pos) (next' length pos)) :
    Extends x (lengthCall x info next pos) (lengthCall y info next' pos) := by
  unfold lengthCall
  split
  · refine .cons (fun hfin => ?_) fun hout => ?_
    · have hlength : readLength y pos = readLength x pos := by
        rw [readLength, bind_apply, h pos hfin]
        rfl
      rw [hlength]
      cases readLength x pos with
      | error e => exact .refl _
      | ok r => exact hnext r.1 r.2
    · obtain ⟨e, he, -⟩ := hout
      rw [readLength, bind_apply, he]
      rfl
  · exact hnext info pos

theorem extends_bodyCalls [GLib] (objectType info : Nat) :
    Extends x (bodyCalls data t x objectType info pos)
      (bodyCalls data t y objectType info pos) := by
  unfold bodyCalls
  split
  iterate 3 exact extends_lengthCall h fun _ _ => .refl _
  · exact extends_lengthCall h fun _ _ => extends_refCalls (extends_elementCalls h)
  · exact extends_lengthCall h fun _ _ => extends_refCalls (extends_entryCalls h)
  · exact .refl _

end

theorem extends_calls [GLib] (h : m ≤ n) :
    Extends (readValue data t m) (calls data t m pos) (calls data t n pos) := by
  unfold calls
  split
  · exact extends_bodyCalls (readValue_refines data t h) _ _
  · exact .refl _

theorem calls_subset [GLib] (h : ¬Out (readValue data t (n + 1) pos)) :
    calls data t m pos ⊆ calls data t n pos := by
  rw [out_readValue] at h
  intro c hc
  have hsub : c ∈ calls data t (max m n) pos := (extends_calls (Nat.le_max_left m n)).subset hc
  rwa [(extends_calls (Nat.le_max_right m n)).stable h] at hsub

theorem not_out_of_mem_calls [GLib]
    (h : ¬Out (readValue data t (n + 1) pos)) (hc : c ∈ calls data t m pos) :
    ¬c.Out (readValue data t n) := by
  have hmem := calls_subset h hc
  rw [out_readValue] at h
  exact fun hout => h ⟨c, hmem, hout⟩

end

end FridaCore.Fruity.BinaryParser
