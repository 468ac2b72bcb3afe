import FridaCore.Fruity.PlistTable

/-!
# A document that has been written

The bytes that are written have the entries, their offsets and the trailer where the
parser looks for them, so that parsing the whole is decoding the topmost entry.
-/

namespace FridaCore.Fruity

open BinaryWriter BinaryParser

variable [GLib] {data bytes : List UInt8} {entries : List Entry} {offsets : List Nat} {pos r : Nat}

omit [GLib] in
theorem writeSizeHeader_ne_nil {header : List UInt8}
    (h : writeSizeHeader objectType n = some header) : header ≠ [] := by
  unfold writeSizeHeader at h
  split at h
  · cases h
    simp
  · split at h
    · cases h
      simp
    · split at h
      · cases h
        simp
      · split at h
        · cases h
          simp
        · cases h

theorem writeEntry_ne_nil {body : List UInt8} (h : writeEntry r e = some body) :
    body ≠ [] := by
  have hheaded : ∀ {objectType n : Nat} {rest : List UInt8},
      (writeSizeHeader objectType n).bind (fun header => some (header ++ rest)) = some body →
      body ≠ [] := by
    intro objectType n rest hw
    obtain ⟨header, hheader, hbody⟩ := Option.bind_eq_some_iff.mp hw
    cases hbody
    simp [writeSizeHeader_ne_nil hheader]
  unfold writeEntry at h
  split at h
  · cases h
    simp
  · cases h
    simp [writeBoolean]
  · cases h
    unfold writeInteger
    split
    · simp
    · split
      · simp
      · split
        · simp
        · split <;> simp
  · cases h
    simp
  · cases h
    simp
  · cases h
  · exact hheaded h
  · unfold writeString at h
    split at h
    · exact hheaded h
    · obtain ⟨units, -, h⟩ := Option.bind_eq_some_iff.mp h
      exact hheaded h
  · cases h
    simp [writeUid]
  · exact hheaded h
  · obtain ⟨header, hheader, hbody⟩ := Option.bind_eq_some_iff.mp h
    cases hbody
    simp [writeSizeHeader_ne_nil hheader]

theorem writeEntries_spec (after : List UInt8)
    (h : writeEntries r entries before.length = some (bytes, offsets)) :
    offsets.length = entries.length ∧ entries.length ≤ bytes.length ∧
      ∀ (id : Nat) (e : Entry), entries[id]? = some e → ∃ offset body, offsets[id]? = some offset ∧
        offset ≤ before.length + bytes.length ∧ writeEntry r e = some body ∧
        BytesAt (before ++ bytes ++ after) offset body := by
  induction entries generalizing before bytes offsets with
  | nil =>
    cases h
    simp
  | cons e rest ih =>
    obtain ⟨body, hbody, h⟩ := Option.bind_eq_some_iff.mp h
    obtain ⟨⟨more, offsets'⟩, hmore, h⟩ := Option.bind_eq_some_iff.mp h
    cases h
    rw [← List.length_append] at hmore
    obtain ⟨hlen, hle, hat⟩ := ih hmore
    have hpos := List.length_pos_iff.mpr (writeEntry_ne_nil hbody)
    refine ⟨by simp [hlen], by simp only [List.length_cons, List.length_append]; omega, ?_⟩
    intro id e' he
    cases id with
    | zero =>
      cases he
      refine ⟨_, body, rfl, by omega, hbody, ?_⟩
      rw [← List.append_assoc before, List.append_assoc _ more]
      exact bytesAt_append before _ (more ++ after)
    | succ id =>
      obtain ⟨offset, body', hoffset, hle', hbody', hat'⟩ := hat id e' he
      refine ⟨offset, body', hoffset, ?_, hbody', ?_⟩
      · rw [List.length_append] at hle' ⊢
        omega
      · rwa [← List.append_assoc before]

omit [GLib] in
theorem bytesAt_offsets (before after : List UInt8) (size : Nat) {id offset : Nat}
    (h : offsets[id]? = some offset) :
    BytesAt (before ++ offsets.flatMap (beBytes size) ++ after) (before.length + id * size)
      (beBytes size offset) := by
  induction offsets generalizing before id with
  | nil => cases h
  | cons first rest ih =>
    rw [List.flatMap_cons]
    cases id with
    | zero =>
      cases h
      rw [Nat.zero_mul, Nat.add_zero, ← List.append_assoc before,
        List.append_assoc _ (List.flatMap _ _)]
      exact bytesAt_append before _ _
    | succ id =>
      have hrest := ih (before ++ beBytes size first) h
      rw [List.length_append, length_beBytes] at hrest
      rw [← List.append_assoc before, Nat.add_mul, Nat.one_mul, Nat.add_comm (id * size),
        ← Nat.add_assoc]
      exact hrest

omit [GLib] in
theorem computeOffsetSize_spec (h : n < 2 ^ 64) :
    (computeOffsetSize n = 1 ∨ computeOffsetSize n = 2 ∨ computeOffsetSize n = 4 ∨
      computeOffsetSize n = 8) ∧ n < 256 ^ computeOffsetSize n := by
  unfold computeOffsetSize
  split
  · omega
  · split
    · omega
    · split
      · omega
      · omega

omit [GLib] in
theorem computeObjectRefSize_spec (h : n < 2 ^ 32) :
    computeObjectRefSize n ∈ [1, 2, 4] ∧ n < 256 ^ computeObjectRefSize n := by
  unfold computeObjectRefSize
  split
  · exact ⟨by decide, by omega⟩
  · split
    · exact ⟨by decide, by omega⟩
    · exact ⟨by decide, by omega⟩

omit [GLib] in
theorem checkObjectCount_bind (count : Nat) (f : Reading α) :
    ((liftM (checkObjectCount count) : Reading Unit) >>= fun _ => f) pos =
      if count ≤ maxObjectCount then f pos else invalidData "Too many objects" := by
  unfold checkObjectCount
  by_cases hcount : count ≤ maxObjectCount
  · rw [if_neg (Nat.not_lt.mpr hcount), if_pos hcount]
    rfl
  · rw [if_pos (Nat.lt_of_not_le hcount), if_neg hcount]
    rfl

omit [GLib] in
theorem readTrailer_write (hos : offsetSize < 256) (hrs : refSize < 256) (hcount : count < 2 ^ 64)
    (hroot : root < 2 ^ 64) (htable : table < 2 ^ 64) :
    readTrailer (before ++ trailer offsetSize refSize count root table) =
      if count ≤ maxObjectCount then .ok ⟨offsetSize, refSize, count, root, table⟩
      else invalidData "Too many objects" := by
  have hlen : (trailer offsetSize refSize count root table).length = 32 := by
    simp [trailer]
  have hat : BytesAt (before ++ trailer offsetSize refSize count root table) (before.length + 6)
      (beBytes 1 offsetSize ++ (beBytes 1 refSize ++ (beBytes 8 count ++
        (beBytes 8 root ++ beBytes 8 table)))) := by
    have := bytesAt_append (before ++ List.replicate 6 0) (beBytes 1 offsetSize ++
      (beBytes 1 refSize ++ (beBytes 8 count ++ (beBytes 8 root ++ beBytes 8 table)))) []
    simpa [trailer] using this
  have hpos : (before ++ trailer offsetSize refSize count root table).length - 26 =
      before.length + 6 := by
    rw [List.length_append, hlen]
    omega
  have h1 := hat.right
  have h2 := h1.right
  have h3 := h2.right
  have h4 := h3.right
  simp only [length_beBytes] at h1 h2 h3 h4
  rw [readTrailer, if_neg (by rw [List.length_append, hlen]; omega), hpos, readTrailerFields,
    bind_apply, readUint_at hat.left, ok_bind, bind_apply, readUint_at h1.left, ok_bind, bind_apply,
    readUint_at h2.left, ok_bind, checkObjectCount_bind]
  simp only [show (256 : Nat) ^ 8 = 2 ^ 64 from rfl, Nat.pow_one, Nat.mod_eq_of_lt hos,
    Nat.mod_eq_of_lt hrs, Nat.mod_eq_of_lt hcount]
  split
  · rw [bind_apply, readUint_at h3.left, ok_bind, bind_apply, readUint_at h4, ok_bind]
    simp only [show (256 : Nat) ^ 8 = 2 ^ 64 from rfl, Nat.mod_eq_of_lt hroot,
      Nat.mod_eq_of_lt htable]
    rfl
  · rfl

def document (entries : List Entry) (root : Nat) (bytes : List UInt8) (offsets : List Nat) :
    List UInt8 :=
  let offsetTableOffset := header.length + bytes.length
  let offsetSize := computeOffsetSize offsetTableOffset
  header ++ bytes ++ offsets.flatMap (beBytes offsetSize) ++
    trailer offsetSize (computeObjectRefSize entries.length) entries.length root offsetTableOffset

omit [GLib] in
theorem magic_isPrefixOf_document (root : Nat) :
    magic.isPrefixOf (document entries root bytes offsets) = true := rfl

def trailerOf (entries : List Entry) (root : Nat) (bytes : List UInt8) : Trailer where
  offsetSize := computeOffsetSize (header.length + bytes.length)
  objectRefSize := computeObjectRefSize entries.length
  numObjects := entries.length
  topObjectRef := root
  offsetTableOffset := header.length + bytes.length

theorem entry_at_document (root : Nat)
    (hw : writeEntries (computeObjectRefSize entries.length) entries header.length =
      some (bytes, offsets)) (id : Nat) (e : Entry) (he : entries[id]? = some e) :
    ∃ offset body, offsets[id]? = some offset ∧ offset ≤ header.length + bytes.length ∧
      writeEntry (computeObjectRefSize entries.length) e = some body ∧
      BytesAt (document entries root bytes offsets) offset body := by
  obtain ⟨-, -, hat⟩ := writeEntries_spec
    (offsets.flatMap (beBytes (computeOffsetSize (header.length + bytes.length))) ++
      trailer (computeOffsetSize (header.length + bytes.length))
        (computeObjectRefSize entries.length) entries.length root (header.length + bytes.length)) hw
  rw [← List.append_assoc] at hat
  exact hat id e he

omit [GLib] in
theorem offset_at_document (root : Nat) {id offset : Nat} (h : offsets[id]? = some offset) :
    BytesAt (document entries root bytes offsets) (header.length + bytes.length +
        id * computeOffsetSize (header.length + bytes.length))
      (beBytes (computeOffsetSize (header.length + bytes.length)) offset) := by
  have hat := bytesAt_offsets (header ++ bytes)
    (trailer (computeOffsetSize (header.length + bytes.length))
      (computeObjectRefSize entries.length) entries.length root (header.length + bytes.length))
    (computeOffsetSize (header.length + bytes.length)) h
  rw [List.length_append] at hat
  exact hat

omit [GLib] in
theorem seekToObject_at {id offset : Nat} (hsize : data.length < 2 ^ 64)
    (hos : t.offsetSize = 1 ∨ t.offsetSize = 2 ∨ t.offsetSize = 4 ∨ t.offsetSize = 8)
    (h : BytesAt data (t.offsetTableOffset + id * t.offsetSize) (beBytes t.offsetSize offset))
    (hlt : offset < 256 ^ t.offsetSize) (hle : offset ≤ data.length) :
    seekToObject data t id = .ok offset := by
  have hne : beBytes t.offsetSize offset ≠ [] := by
    rw [← List.length_pos_iff, length_beBytes]
    omega
  have hend := h.length_le hne
  have hwrap : (t.offsetTableOffset + id * t.offsetSize) % 2 ^ 64 =
      t.offsetTableOffset + id * t.offsetSize := Nat.mod_eq_of_lt (by omega)
  have hseek : ∀ {n}, n ≤ data.length → seek data n = .ok n := fun hn => if_pos hn
  rw [seekToObject, hwrap, hseek (by omega), ok_bind, readUintOfSize, if_pos hos, readUint_at h,
    ok_bind, Nat.mod_eq_of_lt hlt]
  exact hseek hle

section
variable {root : Nat}
  (hw : writeEntries (computeObjectRefSize entries.length) entries header.length =
    some (bytes, offsets))
  (hsize : (document entries root bytes offsets).length < 2 ^ 63)
include hw hsize

theorem length_lt_of_document :
    header.length + bytes.length < 2 ^ 63 ∧ entries.length < 2 ^ 63 := by
  obtain ⟨-, hle, -⟩ := writeEntries_spec [] hw
  simp only [document, List.length_append] at hsize
  omega

theorem layout_document (hcount : entries.length ≤ maxObjectCount) :
    Layout (document entries root bytes offsets) (trailerOf entries root bytes) entries
      fun id => offsets[id]?.getD 0 := by
  obtain ⟨htable, -⟩ := length_lt_of_document hw hsize
  obtain ⟨hos, hlt⟩ := computeOffsetSize_spec (n := header.length + bytes.length) (by omega)
  obtain ⟨hrs, hfits⟩ := computeObjectRefSize_spec (n := entries.length)
    (Nat.lt_of_le_of_lt hcount (by decide))
  have hat := entry_at_document root hw
  refine ⟨hrs, Nat.le_of_lt hfits, fun id hid => ?_, fun id e he => ?_⟩
  · obtain ⟨offset, body, hoffset, hle, hbody, hbytes⟩ := hat id _ (List.getElem?_eq_getElem hid)
    have hstart := hbytes.length_le (writeEntry_ne_nil hbody)
    rw [hoffset]
    exact seekToObject_at (t := trailerOf entries root bytes) (Nat.lt_trans hsize (by decide)) hos
      (offset_at_document root hoffset) (Nat.lt_of_le_of_lt hle hlt)
      (Nat.le_trans (Nat.le_add_right _ _) hstart)
  · obtain ⟨offset, body, hoffset, -, hbody, hbytes⟩ := hat id e he
    refine ⟨body, hbody, ?_⟩
    rw [hoffset]
    exact hbytes

theorem parse_document (hmem : EnoughMemory) (hc : Complete entries)
    (hroot : root < entries.length) :
    (∃ fuel, parse fuel (document entries root bytes offsets) = .ok out) ↔
      entries.length ≤ maxObjectCount ∧
        ∃ fuel, decode (computeObjectRefSize entries.length) entries fuel root =
          some (.dict () out) := by
  obtain ⟨htable, hentries⟩ := length_lt_of_document hw hsize
  obtain ⟨hos, -⟩ := computeOffsetSize_spec (n := header.length + bytes.length) (by omega)
  have hrs : computeObjectRefSize entries.length < 256 := by
    unfold computeObjectRefSize
    split
    · decide
    · split <;> decide
  have htrailer : readTrailer (document entries root bytes offsets) =
      if entries.length ≤ maxObjectCount then .ok (trailerOf entries root bytes)
      else invalidData "Too many objects" :=
    readTrailer_write (by omega) hrs (by omega) (by omega) (by omega)
  have hparse : ∀ fuel, parse fuel (document entries root bytes offsets) = .ok out ↔
      parseTop fuel (document entries root bytes offsets) = .ok out := by
    intro fuel
    simp only [parse, magic_isPrefixOf_document, Bool.not_true, Bool.false_eq_true, ↓reduceIte]
    split <;> simp_all [invalidData]
  simp only [hparse]
  by_cases hcount : entries.length ≤ maxObjectCount
  · have hl := layout_document hw hsize hcount
    rw [and_iff_right hcount]
    refine Iff.trans (exists_congr fun fuel => ?_)
      (result_iff_decode hmem hl hc hroot (.dict () out))
    rw [parseTop, htrailer, if_pos hcount, ok_bind, parseObject,
      show (trailerOf entries root bytes).topObjectRef = root from rfl, hl.seek root hroot, ok_bind]
    rcases readValue _ _ fuel _ with e | ⟨v, p⟩
    · simp [result]
    · change toplevelDict v = .ok out ↔ some v = some (.dict () out)
      unfold toplevelDict
      split <;> simp_all [invalidData]
  · simp only [hcount, false_and, iff_false, not_exists]
    intro fuel hok
    rw [parseTop, htrailer, if_neg hcount] at hok
    cases hok

end

end FridaCore.Fruity
