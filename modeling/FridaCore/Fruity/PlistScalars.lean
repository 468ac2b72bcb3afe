import FridaCore.Fruity.PlistFuel
import FridaCore.Fruity.PlistWriter
import FridaCore.Support.Except

/-!
# Reading scalars that have been written

Where the bytes of a scalar are in place, reading it comes to `Scalar.readBack`: an
integer may be too large to be read, a uid is cut off, and strings and data may exceed
the size of an object. An object that starts with a header has its length read first.
-/

namespace FridaCore.Fruity

open BinaryWriter BinaryParser List

variable {data bytes : List UInt8} {t : Trailer} {pos r : Nat}

theorem readUint_at {size n : Nat} (h : BytesAt data pos (beBytes size n)) :
    readUint data size pos = .ok (n % 256 ^ size, pos + size) := by
  have htake := h.take
  rw [length_beBytes] at htake
  simp [readUint, htake, beValue_beBytes]

theorem readUint_byte (h : BytesAt data pos [b]) :
    readUint data 1 pos = .ok (b.toNat, pos + 1) := by
  have htake := h.take
  rw [length_singleton] at htake
  simp [readUint, htake, beValue]

theorem readAll_at (h : BytesAt data pos bytes) :
    readAll data bytes.length pos = .ok (bytes, pos + bytes.length) := by
  simp [readAll, h.take]

theorem marker_parts (ht : objectType < 16) (hi : info < 16) :
    (((UInt8.ofNat ((objectType <<< 4) ||| info)).toNat &&& 0xf0) >>> 4 = objectType) ∧
      (UInt8.ofNat ((objectType <<< 4) ||| info)).toNat &&& 0x0f = info := by
  have hall : ∀ objectType < 16, ∀ info < 16,
      ((UInt8.ofNat ((objectType <<< 4) ||| info)).toNat &&& 0xf0) >>> 4 = objectType ∧
        (UInt8.ofNat ((objectType <<< 4) ||| info)).toNat &&& 0x0f = info := by decide
  exact hall objectType ht info hi

theorem readValue_marker [GLib] (fuel : Nat) (ht : objectType < 16) (hi : info < 16)
    (h : BytesAt data pos (.ofNat ((objectType <<< 4) ||| info) :: rest)) :
    readValue data t (fuel + 1) pos =
        readBody data t (readValue data t fuel) objectType info (pos + 1) ∧
      BytesAt data (pos + 1) rest := by
  rw [← singleton_append] at h
  obtain ⟨htype, hinfo⟩ := marker_parts ht hi
  refine ⟨?_, h.right⟩
  rw [readValue, bind_apply, readUint_byte h.left, ok_bind]
  simp only [htype, hinfo]

theorem int64_ofNat_mod (h : 0 ≤ val)
    (hs : val.toInt.toNat < 256 ^ size) : Int64.ofNat (val.toInt.toNat % 256 ^ size) = val := by
  have h0 : 0 ≤ val.toInt := by simpa using Int64.le_iff_toInt_le.mp h
  rw [Nat.mod_eq_of_lt hs, ← Int64.ofInt_eq_ofNat, Int.toNat_of_nonneg h0, Int64.ofInt_toInt]

theorem int64_toNat_le (h : val ≤ Int64.ofNat n) (hn : n < 2 ^ 63) :
    val.toInt.toNat ≤ n := by
  have := Int64.le_iff_toInt_le.mp h
  rw [Int64.toInt_ofNat_of_lt hn] at this
  omega

theorem int64_bits (val : Int64) : (UInt64.ofNat (val.toUInt64.toNat % 256 ^ 8)).toInt64 = val := by
  simp

section
variable [GLib] {fuel : Nat} {val : Int64}

theorem readValue_integer (info size : Nat) (hsize : (info, size) ∈ [(0, 1), (1, 2), (2, 4)])
    (h : BytesAt data pos (.ofNat ((0x1 <<< 4) ||| info) :: beBytes size n)) :
    readValue data t (fuel + 1) pos =
      .ok (.scalar (.integer (.ofNat (n % 256 ^ size))), pos + (size + 1)) := by
  simp only [mem_cons, Prod.mk.injEq, not_mem_nil, or_false] at hsize
  obtain ⟨hread, hrest⟩ := readValue_marker (t := t) fuel (by decide) (by omega) h
  rw [hread, Nat.add_comm size, ← Nat.add_assoc]
  rcases hsize with ⟨rfl, rfl⟩ | ⟨rfl, rfl⟩ | ⟨rfl, rfl⟩
  · change (readUint data 1 (pos + 1) >>= fun r => _) = _
    rw [readUint_at hrest]
    rfl
  · change (readUint data 2 (pos + 1) >>= fun r => _) = _
    rw [readUint_at hrest]
    rfl
  · change (readUint data 4 (pos + 1) >>= fun r => _) = _
    rw [readUint_at hrest]
    rfl

/-- What is small enough is read back; what is too large has a marker for a size that is not. -/
theorem readValue_writeInteger (h : BytesAt data pos (writeInteger val)) :
    readValue data t (fuel + 1) pos =
      if val < 4294967296 then .ok (.scalar (.integer val), pos + (writeInteger val).length)
      else invalidData "Unsupported integer size: 16" := by
  unfold writeInteger at h ⊢
  split at h
  · rename_i hval
    have hle := int64_toNat_le (n := 0xff) hval.2 (by decide)
    rw [readValue_integer 0 1 (by decide) h, int64_ofNat_mod hval.1 (by omega),
      if_pos (Int64.lt_of_le_of_lt hval.2 (by decide)), if_pos hval]
    rfl
  · rename_i h1
    split at h
    · rename_i hval
      have hle := int64_toNat_le (n := 0xffff) hval.2 (by decide)
      rw [readValue_integer 1 2 (by decide) h, int64_ofNat_mod hval.1 (by omega),
        if_pos (Int64.lt_of_le_of_lt hval.2 (by decide)), if_neg h1, if_pos hval]
      rfl
    · rename_i h2
      split at h
      · rename_i hval
        have hle := int64_toNat_le (n := 0xffffffff) hval.2 (by decide)
        rw [readValue_integer 2 4 (by decide) h, int64_ofNat_mod hval.1 (by omega),
          if_pos (Int64.lt_of_le_of_lt hval.2 (by decide)), if_neg h1, if_neg h2, if_pos hval]
        rfl
      · rename_i h3
        split at h
        · rename_i hneg
          obtain ⟨hread, hrest⟩ := readValue_marker (t := t) fuel
            (by decide : 1 < 16) (by decide : 3 < 16) h
          rw [hread, if_pos (Int64.lt_trans hneg (by decide)), if_neg h1, if_neg h2, if_neg h3,
            if_pos hneg]
          change (readUint data 8 (pos + 1) >>= fun r => _) = _
          rw [readUint_at hrest, ok_bind]
          simp only [int64_bits, length_cons, length_beBytes]
          rfl
        · rename_i hneg
          have hbig : ¬val < 4294967296 := by
            intro hlt
            refine h3 ⟨Int64.not_lt.mp hneg, ?_⟩
            have := Int64.lt_iff_toInt_lt.mp hlt
            rw [Int64.le_iff_toInt_le]
            simp at this ⊢
            omega
          obtain ⟨hread, -⟩ := readValue_marker (t := t) fuel
            (by decide : 1 < 16) (by decide : 4 < 16) h
          rw [hread, if_neg hbig]
          rfl

theorem readLength_integer (hn : n < 2 ^ 32) (hlt : n < 256 ^ size)
    (hsize : (info, size) ∈ [(0, 1), (1, 2), (2, 4)])
    (h : BytesAt data pos (.ofNat ((0x1 <<< 4) ||| info) :: beBytes size n)) :
    readLength (readValue data t (fuel + 1)) pos = .ok (n, pos + (size + 1)) := by
  rw [readLength, bind_apply, readValue_integer info size hsize h, ok_bind, Nat.mod_eq_of_lt hlt]
  have hint : (Int64.ofNat n).toInt = n := Int64.toInt_ofNat_of_lt (by omega)
  have hpos : ¬Int64.ofNat n < 0 := by
    rw [Int64.lt_iff_toInt_lt, hint]
    simp
  simp only [lengthOf, hpos, ↓reduceIte, hint, Int.toNat_natCast]
  rfl

theorem header_parts {header rest : List UInt8} (ht : objectType < 16)
    (hw : writeSizeHeader objectType n = some header) (h : BytesAt data pos (header ++ rest)) :
    ∃ info, (∀ fuel, readValue data t (fuel + 1) pos =
        readBody data t (readValue data t fuel) objectType info (pos + 1)) ∧
      ∀ fuel, lengthFor (readValue data t (fuel + 1)) info (pos + 1) =
        .ok (n, pos + header.length) := by
  -- a length that follows the marker
  have hfollows : ∀ info size, n < 2 ^ 32 → n < 256 ^ size →
      (info, size) ∈ [(0, 1), (1, 2), (2, 4)] →
      header = .ofNat ((objectType <<< 4) ||| 0xf) :: .ofNat ((0x1 <<< 4) ||| info) ::
        beBytes size n →
      ∃ info, (∀ fuel, readValue data t (fuel + 1) pos =
          readBody data t (readValue data t fuel) objectType info (pos + 1)) ∧
        ∀ fuel, lengthFor (readValue data t (fuel + 1)) info (pos + 1) =
          .ok (n, pos + header.length) := by
    rintro info size hn hlt hsize rfl
    have hmarker := fun fuel => readValue_marker (t := t) fuel ht (by decide) h.left
    refine ⟨0xf, fun fuel => (hmarker fuel).1, fun fuel => ?_⟩
    rw [lengthFor, if_pos rfl, readLength_integer hn hlt hsize (hmarker fuel).2]
    simp only [length_cons, length_beBytes, Except.ok.injEq, Prod.mk.injEq, true_and]
    omega
  unfold writeSizeHeader at hw
  split at hw
  · cases hw
    have hmarker := fun fuel => readValue_marker (t := t) fuel ht (by omega) h.left
    refine ⟨n, fun fuel => (hmarker fuel).1, fun fuel => ?_⟩
    rw [lengthFor, if_neg (by omega)]
    rfl
  · split at hw
    · cases hw
      exact hfollows 0 1 (by omega) (by omega) (by decide) rfl
    · split at hw
      · cases hw
        exact hfollows 1 2 (by omega) (by omega) (by decide) rfl
      · split at hw
        · cases hw
          exact hfollows 2 4 (by omega) (by omega) (by decide) rfl
        · cases hw

end

def result (x : Except Stop (α × Nat)) : Option α :=
  match x with
  | .ok (a, _) => some a
  | .error _ => none

theorem result_eq_some :
    result x = some a ↔ ∃ p, x = .ok (a, p) := by
  rcases x with e | ⟨b, p⟩
  · simp [result]
  · simp only [result, Option.some.injEq, Except.ok.injEq, Prod.mk.injEq]
    constructor
    · rintro rfl
      exact ⟨p, rfl, rfl⟩
    · rintro ⟨-, rfl, -⟩
      rfl

theorem result_bind_pure {x : Reading α} {f : α → β} :
    result ((x >>= fun a => pure (f a)) pos) = (result (x pos)).map f := by
  rw [bind_apply]
  rcases x pos with e | ⟨a, p⟩
  · rfl
  · rfl

section
variable [GLib] {fuel : Nat}

theorem result_mono (h : m ≤ n) (hv : result (readValue data t m pos) = some v) :
    result (readValue data t n pos) = some v := by
  obtain ⟨p, hp⟩ := result_eq_some.mp hv
  rw [readValue_refines data t h pos (hp ▸ not_out_ok _), hp]
  rfl

theorem result_headed (fuel : Nat) {objectType n : Nat} {header rest : List UInt8}
    {f : Reading Tree → Nat → Reading Tree} (ht : objectType < 16)
    (hbody : ∀ x info, readBody data t x objectType info = lengthFor x info >>= f x)
    (hw : writeSizeHeader objectType n = some header) (h : BytesAt data pos (header ++ rest)) :
    result (readValue data t (fuel + 2) pos) =
        result (f (readValue data t (fuel + 1)) n (pos + header.length)) ∧
      ∀ v, result (readValue data t (fuel + 1) pos) = some v →
        result (f (readValue data t fuel) n (pos + header.length)) = some v := by
  obtain ⟨info, hread, hlength⟩ := header_parts (t := t) ht hw h
  constructor
  · rw [hread, hbody, bind_apply, hlength]
    rfl
  · intro v hv
    rw [hread, hbody, bind_apply] at hv
    obtain ⟨p, hp⟩ := result_eq_some.mp hv
    obtain ⟨r, hr, hp⟩ := bind_eq_ok hp
    have hmore := refines_lengthFor (readValue_refines data t (Nat.le_succ fuel)) info (pos + 1)
      (hr ▸ not_out_ok _)
    rw [hlength, hr] at hmore
    cases hmore
    rw [hp]
    rfl

end

def readBackString [GLib] (s : Str) : Option Str :=
  if GLib.charCount s = s.length then
    if s.length ≤ maxObjectSize then some (s.takeWhile (· ≠ 0)) else none
  else
    match GLib.toUtf16 s with
    | some units =>
      if units.length * 2 ≤ maxObjectSize then GLib.toUtf8 (units.takeWhile (· ≠ 0)) else none
    | none => none

/-- What is read where a scalar has been written, with references of some size. -/
def Scalar.readBack [GLib] (r : Nat) : Scalar → Option Scalar
  | .integer i => if i < 4294967296 then some (.integer i) else none
  | .date _ => none
  | .data bytes => if bytes.length ≤ maxObjectSize then some (.data bytes) else none
  | .string s => (readBackString s).map .string
  | .uid u => some (.uid (.ofNat (u.toNat % 2 ^ 32 % 256 ^ r)))
  | s => some s

theorem utf16Units_cons (unit : UInt16) (rest : List UInt8) :
    utf16Units (beBytes 2 unit.toNat ++ rest) = unit :: utf16Units rest := by
  have hunit : (UInt8.ofNat (unit.toNat / 256)).toUInt16 <<< 8 |||
      (UInt8.ofNat unit.toNat).toUInt16 = unit := by
    have hlt := unit.toNat_lt
    refine UInt16.toNat_inj.mp ?_
    have hlow : (UInt8.ofNat unit.toNat).toNat < 2 ^ 8 := UInt8.toNat_lt _
    simp only [UInt16.toNat_or, UInt16.toNat_shiftLeft, UInt8.toNat_toUInt16]
    rw [show (UInt16.toNat 8) % 16 = 8 from rfl, UInt8.toNat_ofNat']
    rw [Nat.mod_eq_of_lt (by omega : unit.toNat / 256 < 2 ^ 8), Nat.shiftLeft_eq,
      Nat.mod_eq_of_lt (by omega : unit.toNat / 256 * 2 ^ 8 < 2 ^ 16), ← Nat.shiftLeft_eq,
      ← Nat.shiftLeft_add_eq_or_of_lt hlow, UInt8.toNat_ofNat', Nat.shiftLeft_eq]
    omega
  simp only [beBytes, nil_append, cons_append, utf16Units, hunit]

theorem utf16Units_write (units : List UInt16) :
    utf16Units (units.flatMap fun unit => beBytes 2 unit.toNat) = units := by
  induction units with
  | nil => rfl
  | cons unit rest ih => rw [flatMap_cons, utf16Units_cons, ih]

theorem length_utf16_write (units : List UInt16) :
    (units.flatMap fun unit => beBytes 2 unit.toNat).length = units.length * 2 := by
  induction units with
  | nil => rfl
  | cons unit rest ih =>
    rw [flatMap_cons, length_append, length_beBytes, ih, length_cons]
    omega

theorem writeSizeHeader_lt {objectType n : Nat} {header : List UInt8}
    (h : writeSizeHeader objectType n = some header) : n < 2 ^ 32 := by
  unfold writeSizeHeader at h
  split at h
  · omega
  · split at h
    · omega
    · split at h
      · omega
      · split at h
        · omega
        · cases h

theorem checkObjectSize_bind (size : Nat) (f : Reading α) :
    ((liftM (checkObjectSize size) : Reading Unit) >>= fun _ => f) pos =
      if size ≤ maxObjectSize then f pos else invalidData "Object too large" := by
  unfold checkObjectSize
  by_cases hsize : size ≤ maxObjectSize
  · rw [if_neg (Nat.not_lt.mpr hsize), if_pos hsize]
    rfl
  · rw [if_pos (Nat.lt_of_not_le hsize), if_neg hsize]
    rfl

theorem result_readData {bytes : List UInt8} (h : BytesAt data pos bytes) :
    result (readData data bytes.length pos) =
      if bytes.length ≤ maxObjectSize then some (.scalar (.data bytes)) else none := by
  rw [readData, checkObjectSize_bind]
  split
  · rw [result_bind_pure, readAll_at h]
    rfl
  · rfl

theorem result_readAsciiString {s : Str} (h : BytesAt data pos s) :
    result (readAsciiString data s.length pos) =
      if s.length ≤ maxObjectSize then some (.scalar (.string (s.takeWhile (· ≠ 0)))) else none := by
  rw [readAsciiString, checkObjectSize_bind]
  split
  · rw [bind_apply, readAll_at h]
    rfl
  · rfl

theorem result_readUtf16String [GLib] {units : List UInt16} (hn : units.length < 2 ^ 32)
    (h : BytesAt data pos (units.flatMap fun unit => beBytes 2 unit.toNat)) :
    result (readUtf16String data units.length pos) =
      if units.length * 2 ≤ maxObjectSize then
        (GLib.toUtf8 (units.takeWhile (· ≠ 0))).map fun s => .scalar (.string s)
      else none := by
  have hread := readAll_at h
  rw [length_utf16_write] at hread
  simp only [readUtf16String]
  rw [checkObjectSize_bind, Nat.mod_eq_of_lt (by omega)]
  split
  · rw [bind_apply, hread, ok_bind]
    simp only [utf16Units_write]
    cases GLib.toUtf8 (units.takeWhile (· ≠ 0)) with
    | some s | none => rfl
  · rfl

section
variable [GLib] {fuel : Nat}

theorem result_string {s : Str} {body : List UInt8} (hw : writeString s = some body)
    (h : BytesAt data pos body) : result (readValue data t (fuel + 2) pos) =
      (readBackString s).map fun s => .scalar (.string s) := by
  unfold writeString at hw
  unfold readBackString
  split at hw
  · rename_i hcount
    obtain ⟨header, hheader, hbody⟩ := Option.bind_eq_some_iff.mp hw
    cases hbody
    rw [(result_headed _ (by decide) (fun _ _ => rfl) hheader h).1, if_pos hcount,
      result_readAsciiString h.right]
    split <;> rfl
  · rename_i hcount
    obtain ⟨units, hunits, hw⟩ := Option.bind_eq_some_iff.mp hw
    obtain ⟨header, hheader, hbody⟩ := Option.bind_eq_some_iff.mp hw
    cases hbody
    rw [(result_headed _ (by decide) (fun _ _ => rfl) hheader h).1, if_neg hcount, hunits,
      result_readUtf16String (writeSizeHeader_lt hheader) h.right]
    simp only
    split <;> rfl

theorem result_scalar (fuel : Nat) {e : Entry} {s : Scalar} (hr : r ∈ [1, 2, 4])
    (he : e.val = .scalar s) (hw : writeEntry r e = some body) (h : BytesAt data pos body) :
    result (readValue data t (fuel + 2) pos) = (s.readBack r).map .scalar := by
  -- a scalar without a header
  have hplain : ∀ objectType info {rest}, objectType < 16 → info < 16 →
      body = .ofNat ((objectType <<< 4) ||| info) :: rest →
      readValue data t (fuel + 2) pos =
          readBody data t (readValue data t (fuel + 1)) objectType info (pos + 1) ∧
        BytesAt data (pos + 1) rest := by
    rintro objectType info rest ht hi rfl
    exact readValue_marker _ ht hi h
  simp only [writeEntry, he] at hw
  cases s with
  | null =>
    cases hw
    rw [(hplain 0 0 (by decide) (by decide) rfl).1]
    rfl
  | boolean b =>
    cases hw
    cases b with
    | false =>
      rw [(hplain 0 8 (by decide) (by decide) rfl).1]
      rfl
    | true =>
      rw [(hplain 0 9 (by decide) (by decide) rfl).1]
      rfl
  | integer i =>
    cases hw
    rw [readValue_writeInteger h, Scalar.readBack]
    split <;> rfl
  | float bits =>
    cases hw
    obtain ⟨hread, hrest⟩ := hplain 2 2 (by decide) (by decide) rfl
    have hlt : bits.toNat < 256 ^ 4 := bits.toNat_lt
    have hbits : UInt32.ofNat (bits.toNat % 256 ^ 4) = bits := by
      rw [Nat.mod_eq_of_lt hlt, UInt32.ofNat_toNat]
    rw [hread]
    change result ((readUint data 4 >>= fun n =>
        pure (Value.scalar (.float (.ofNat n)) : Tree)) _) = _
    rw [result_bind_pure, readUint_at hrest]
    simp only [result, Option.map_some, hbits]
    rfl
  | double bits =>
    cases hw
    obtain ⟨hread, hrest⟩ := hplain 2 3 (by decide) (by decide) rfl
    have hlt : bits.toNat < 256 ^ 8 := bits.toNat_lt
    have hbits : UInt64.ofNat (bits.toNat % 256 ^ 8) = bits := by
      rw [Nat.mod_eq_of_lt hlt, UInt64.ofNat_toNat]
    rw [hread]
    change result ((readUint data 8 >>= fun n =>
        pure (Value.scalar (.double (.ofNat n)) : Tree)) _) = _
    rw [result_bind_pure, readUint_at hrest]
    simp only [result, Option.map_some, hbits]
    rfl
  | date bits => cases hw
  | data bytes =>
    obtain ⟨header, hheader, hbody⟩ := Option.bind_eq_some_iff.mp hw
    cases hbody
    rw [(result_headed _ (by decide) (fun _ _ => rfl) hheader h).1, result_readData h.right,
      Scalar.readBack]
    split <;> rfl
  | string s =>
    rw [result_string hw h, Scalar.readBack, Option.map_map]
    rfl
  | uid u =>
    cases hw
    simp only [mem_cons, not_mem_nil, or_false] at hr
    obtain ⟨hread, hrest⟩ := hplain 8 (r - 1) (by decide) (by omega) rfl
    have hsize : readUintOfSize data (r - 1 + 1) = readUint data r := by
      rw [Nat.sub_add_cancel (by omega), readUintOfSize, if_pos (by omega)]
    rw [hread]
    change result ((readUintOfSize data (r - 1 + 1) >>= fun n =>
      pure (Value.scalar (.uid (.ofNat n)) : Tree)) _) = _
    rw [result_bind_pure, hsize, readUint_at hrest]
    rfl

end

end FridaCore.Fruity
