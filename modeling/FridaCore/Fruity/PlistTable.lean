import FridaCore.Fruity.PlistScalars

/-!
# The table of objects

The entries of the writer are a table, and so are the objects of the parser. `decode`
unfolds the one the way the other one is unfolded: a scalar comes out as it is read back,
and an array or a dict has as many references as it is large, whatever its entry has.
Where the bytes of the entries are in place, parsing an object is decoding its entry.
-/

namespace FridaCore.Fruity

open BinaryWriter BinaryParser

variable {data bytes : List UInt8} {t : Trailer} {pos r : Nat}

def decodeEntries (decode : Nat → Option Tree) :
    List (Nat × Nat) → List (Str × Tree) → Option (List (Str × Tree))
  | [], dict => some dict
  | (keyRef, valRef) :: rest, dict => do
    let key ← decode keyRef
    let val ← decode valRef
    match key with
    | .scalar (.string s) => decodeEntries decode rest (setValue s val dict)
    | _ => none

/-- The references of a dict are the first ones of those its entry has, keys before values. -/
def BinaryWriter.Entry.dictRefs (e : Entry) (size : Nat) : List (Nat × Nat) :=
  ((e.keys ++ e.values).take size).zip (((e.keys ++ e.values).drop size).take size)

def decodeEntry [GLib] (r : Nat) (decode : Nat → Option Tree) (e : Entry) : Option Tree :=
  match e.val with
  | .scalar s => (s.readBack r).map .scalar
  | .array _ elements =>
    if elements.length * r ≤ maxObjectSize then
      ((e.elements.take elements.length).mapM decode).map (.array ())
    else none
  | .dict _ entries =>
    if entries.length * (2 * r) ≤ maxObjectSize then
      (decodeEntries decode (e.dictRefs entries.length) []).map (.dict ())
    else none

def decode [GLib] (r : Nat) (entries : List Entry) : (fuel id : Nat) → Option Tree
  | 0, _ => none
  | fuel + 1, id => entries[id]?.bind (decodeEntry r (decode r entries fuel))

theorem readRefs_at (hr : t.objectRefSize ∈ [1, 2, 4])
    (hids : ∀ id ∈ ids, id < 256 ^ t.objectRefSize) (hn : n ≤ ids.length)
    (h : BytesAt data pos (writeRefs t.objectRefSize ids)) :
    readRefs data t n pos = .ok (ids.take n, pos + n * t.objectRefSize) ∧
      BytesAt data (pos + n * t.objectRefSize) (writeRefs t.objectRefSize (ids.drop n)) := by
  induction n generalizing ids pos with
  | zero =>
    rw [Nat.zero_mul, Nat.add_zero]
    exact ⟨rfl, h⟩
  | succ n ih =>
    cases ids with
    | nil => simp at hn
    | cons id rest =>
      obtain ⟨hid, hrest⟩ := List.forall_mem_cons.mp hids
      have hright := h.right
      rw [length_beBytes] at hright
      obtain ⟨hmore, hafter⟩ := ih hrest (by simpa using hn) hright
      have hpos : pos + (n + 1) * t.objectRefSize = pos + t.objectRefSize + n * t.objectRefSize := by
        rw [Nat.add_mul]
        omega
      have hsize : t.objectRefSize = 1 ∨ t.objectRefSize = 2 ∨ t.objectRefSize = 4 ∨
          t.objectRefSize = 8 := by
        simp only [List.mem_cons, List.not_mem_nil, or_false] at hr
        omega
      rw [hpos]
      refine ⟨?_, hafter⟩
      rw [readRefs, bind_apply, readUintOfSize, if_pos hsize, readUint_at h.left, ok_bind,
        bind_apply, hmore, Nat.mod_eq_of_lt hid]
      rfl

structure Layout (data : List UInt8) (t : Trailer) (entries : List Entry) (offset : Nat → Nat)
    [GLib] : Prop where
  refSize : t.objectRefSize ∈ [1, 2, 4]
  fits : entries.length ≤ 256 ^ t.objectRefSize
  seek : ∀ id < entries.length, seekToObject data t id = .ok (offset id)
  body : ∀ id e, entries[id]? = some e →
    ∃ body, writeEntry t.objectRefSize e = some body ∧ BytesAt data (offset id) body

structure Complete (entries : List Entry) : Prop where
  elements_lt : ∀ e ∈ entries, ∀ id ∈ e.elements, id < entries.length
  keys_lt : ∀ e ∈ entries, ∀ id ∈ e.keys, id < entries.length
  values_lt : ∀ e ∈ entries, ∀ id ∈ e.values, id < entries.length
  array : ∀ e ∈ entries, ∀ o elements, e.val = .array o elements →
    elements.length ≤ e.elements.length
  dict : ∀ e ∈ entries, ∀ o dict, e.val = .dict o dict →
    dict.length ≤ e.keys.length ∧ dict.length ≤ e.values.length

def EnoughMemory [GLib] : Prop := maxObjectSize * 8 ≤ GLib.memory

section
variable {entries : List Entry} {offset : Nat → Nat} {x : Reading Tree}

theorem parseObject_bind {id start : Nat} (h : seekToObject data t id = .ok start)
    (f : Tree → Reading α) : result ((parseObject data t x id >>= f) pos) =
      (result (x start)).bind fun v => result (f v pos) := by
  rw [bind_apply, parseObject, h, ok_bind]
  rcases x start with e | ⟨v, p⟩
  · rfl
  · rfl

theorem result_readElements {ids : List Nat}
    (h : ∀ id ∈ ids, seekToObject data t id = .ok (offset id)) :
    result (readElements data t x ids pos) = ids.mapM fun id => result (x (offset id)) := by
  induction ids with
  | nil => rfl
  | cons id rest ih =>
    obtain ⟨hid, hrest⟩ := List.forall_mem_cons.mp h
    rw [readElements, parseObject_bind hid, List.mapM_cons]
    refine congrArg _ (funext fun v => ?_)
    rw [result_bind_pure, ih hrest, Option.map_eq_bind]
    rfl

theorem result_readEntries (h : ∀ ref ∈ refs, seekToObject data t ref.1 = .ok (offset ref.1) ∧
      seekToObject data t ref.2 = .ok (offset ref.2)) :
    result (readEntries data t x refs dict pos) =
      decodeEntries (fun id => result (x (offset id))) refs dict := by
  induction refs generalizing dict with
  | nil => rfl
  | cons ref rest ih =>
    obtain ⟨⟨hkey, hval⟩, hrest⟩ := List.forall_mem_cons.mp h
    rw [readEntries, parseObject_bind hkey, decodeEntries]
    refine congrArg _ (funext fun key => ?_)
    rw [parseObject_bind hval]
    refine congrArg _ (funext fun val => ?_)
    cases key with
    | scalar s =>
      cases s with
      | string s => exact ih hrest
      | _ => rfl
    | array => rfl
    | dict => rfl

theorem allocateRefs_bind [GLib] (h : length * 8 ≤ GLib.memory) (f : Reading α) :
    ((liftM (allocateRefs length) : Reading Unit) >>= fun _ => f) pos = f pos := by
  rw [allocateRefs, if_neg (Nat.not_lt.mpr h)]
  rfl

theorem result_readArray [GLib] (hmem : EnoughMemory) (hl : Layout data t entries offset)
    (hn : n ≤ ids.length) (hlt : n < 2 ^ 32)
    (hids : ∀ id ∈ ids, id < entries.length)
    (h : BytesAt data pos (writeRefs t.objectRefSize ids)) :
    result (readArray data t x n pos) =
      if n * t.objectRefSize ≤ maxObjectSize then
        ((ids.take n).mapM fun id => result (x (offset id))).map (.array ())
      else none := by
  have hsize : 1 ≤ t.objectRefSize ∧ t.objectRefSize ≤ 4 := by
    have := hl.refSize
    simp only [List.mem_cons, List.not_mem_nil, or_false] at this
    omega
  have hrefs := readRefs_at hl.refSize (fun id hid => Nat.lt_of_lt_of_le (hids id hid) hl.fits) hn h
  have hwrap : n * t.objectRefSize % 2 ^ 64 = n * t.objectRefSize :=
    Nat.mod_eq_of_lt (Nat.lt_of_le_of_lt (Nat.mul_le_mul_left n hsize.2) (by omega))
  rw [readArray, checkObjectSize_bind, hwrap]
  split
  · have hle : n ≤ n * t.objectRefSize := Nat.le_mul_of_pos_right n hsize.1
    have halloc : n * 8 ≤ GLib.memory := le_trans (by omega) hmem
    rw [allocateRefs_bind halloc, bind_apply, hrefs.1, ok_bind, result_bind_pure,
      result_readElements fun id hid => hl.seek id (hids id (List.mem_of_mem_take hid))]
  · rfl

theorem result_readDict [GLib] (hmem : EnoughMemory) (hl : Layout data t entries offset)
    (hn : 2 * n ≤ ids.length) (hlt : n < 2 ^ 32)
    (hids : ∀ id ∈ ids, id < entries.length)
    (h : BytesAt data pos (writeRefs t.objectRefSize ids)) :
    result (readDict data t x n pos) =
      if n * (2 * t.objectRefSize) ≤ maxObjectSize then
        (decodeEntries (fun id => result (x (offset id)))
          ((ids.take n).zip ((ids.drop n).take n)) []).map (.dict ())
      else none := by
  have hsize : 1 ≤ t.objectRefSize ∧ t.objectRefSize ≤ 4 := by
    have := hl.refSize
    simp only [List.mem_cons, List.not_mem_nil, or_false] at this
    omega
  have hfits : ∀ id ∈ ids, id < 256 ^ t.objectRefSize := fun id hid =>
    Nat.lt_of_lt_of_le (hids id hid) hl.fits
  have hkeys := readRefs_at hl.refSize hfits (by omega : n ≤ ids.length) h
  have hvalues := readRefs_at (n := n) hl.refSize
    (fun id hid => hfits id (List.mem_of_mem_drop hid)) (by rw [List.length_drop]; omega) hkeys.2
  have hwrap : n * (2 * t.objectRefSize) % 2 ^ 64 = n * (2 * t.objectRefSize) :=
    Nat.mod_eq_of_lt (Nat.lt_of_le_of_lt (Nat.mul_le_mul_left n (Nat.mul_le_mul_left 2 hsize.2))
      (by omega))
  rw [readDict, checkObjectSize_bind, hwrap]
  split
  · have hle : n ≤ n * (2 * t.objectRefSize) := Nat.le_mul_of_pos_right n (by omega)
    have halloc : n * 8 ≤ GLib.memory := le_trans (by omega) hmem
    rw [allocateRefs_bind halloc, bind_apply, hkeys.1, ok_bind, bind_apply, hvalues.1, ok_bind,
      result_bind_pure, result_readEntries]
    intro ref href
    obtain ⟨hkey, hval⟩ := List.of_mem_zip href
    exact ⟨hl.seek _ (hids _ (List.mem_of_mem_take hkey)),
      hl.seek _ (hids _ (List.mem_of_mem_drop (List.mem_of_mem_take hval)))⟩
  · rfl

theorem result_entry [GLib] (hmem : EnoughMemory) (hl : Layout data t entries offset)
    (hc : Complete entries) {id fuel : Nat} (he : entries[id]? = some e) :
    result (readValue data t (fuel + 2) (offset id)) =
        decodeEntry t.objectRefSize (fun id => result (readValue data t (fuel + 1) (offset id))) e ∧
      ∀ v, result (readValue data t (fuel + 1) (offset id)) = some v →
        decodeEntry t.objectRefSize (fun id => result (readValue data t fuel (offset id))) e =
          some v := by
  have hmem' := List.mem_of_getElem? he
  obtain ⟨body, hw, hbody⟩ := hl.body id e he
  cases hval : e.val with
  | scalar s =>
    have hscalar := result_scalar (t := t) fuel hl.refSize hval hw hbody
    simp only [decodeEntry, hval]
    refine ⟨hscalar, fun v hv => ?_⟩
    rw [← hscalar]
    exact result_mono (Nat.le_succ _) hv
  | array o elements =>
    simp only [writeEntry, hval] at hw
    obtain ⟨header, hheader, hw⟩ := Option.bind_eq_some_iff.mp hw
    cases hw
    have hread := fun x => result_readArray (x := x) hmem hl (hc.array e hmem' o elements hval)
      (writeSizeHeader_lt hheader) (hc.elements_lt e hmem') hbody.right
    obtain ⟨hmore, hsame⟩ := result_headed fuel (by decide) (fun _ _ => rfl) hheader hbody
    simp only [decodeEntry, hval]
    refine ⟨by rw [hmore, hread], fun v hv => ?_⟩
    rw [← hread, hsame v hv]
  | dict o dict =>
    simp only [writeEntry, hval] at hw
    obtain ⟨header, hheader, hw⟩ := Option.bind_eq_some_iff.mp hw
    cases hw
    have hids : ∀ id ∈ e.keys ++ e.values, id < entries.length :=
      List.forall_mem_append.mpr ⟨hc.keys_lt e hmem', hc.values_lt e hmem'⟩
    have hlen : 2 * dict.length ≤ (e.keys ++ e.values).length := by
      have := hc.dict e hmem' o dict hval
      rw [List.length_append]
      omega
    rw [List.append_assoc, writeRefs, writeRefs, ← List.flatMap_append] at hbody
    have hread := fun x => result_readDict (x := x) hmem hl hlen (writeSizeHeader_lt hheader) hids
      hbody.right
    obtain ⟨hmore, hsame⟩ := result_headed fuel (by decide) (fun _ _ => rfl) hheader hbody
    simp only [decodeEntry, hval, Entry.dictRefs]
    refine ⟨by rw [hmore, hread], fun v hv => ?_⟩
    rw [← hread, hsame v hv]

/-- For some references, one is defined where the other one is, and the same. -/
def Below (f g : Nat → Option Tree) (ids : List Nat) : Prop :=
  ∀ id ∈ ids, ∀ v, f id = some v → g id = some v

theorem Below.mono (h : Below f g more)
    (hsub : ids ⊆ more) : Below f g ids := fun id hid => h id (hsub hid)

theorem mapM_below (h : Below f g ids) (hv : ids.mapM f = some vs) : ids.mapM g = some vs := by
  induction ids generalizing vs with
  | nil => exact hv
  | cons id rest ih =>
    rw [List.mapM_cons] at hv ⊢
    obtain ⟨v, hid, hv⟩ := Option.bind_eq_some_iff.mp hv
    obtain ⟨ws, hrest, hv⟩ := Option.bind_eq_some_iff.mp hv
    rw [h id List.mem_cons_self v hid, Option.bind_eq_bind, Option.bind_some,
      ih (h.mono (List.subset_cons_self _ _)) hrest]
    exact hv

theorem decodeEntries_below
    (hkeys : Below f g (refs.map Prod.fst)) (hvals : Below f g (refs.map Prod.snd))
    (hv : decodeEntries f refs dict = some out) :
    decodeEntries g refs dict = some out := by
  induction refs generalizing dict with
  | nil => exact hv
  | cons ref rest ih =>
    obtain ⟨key, hkey, hv⟩ := Option.bind_eq_some_iff.mp hv
    obtain ⟨val, hval, hv⟩ := Option.bind_eq_some_iff.mp hv
    rw [decodeEntries, hkeys _ List.mem_cons_self _ hkey, hvals _ List.mem_cons_self _ hval]
    split at hv
    · exact ih (hkeys.mono (List.subset_cons_self _ _)) (hvals.mono (List.subset_cons_self _ _)) hv
    · cases hv

theorem decodeEntry_below [GLib]
    (h : Below f g (e.elements ++ (e.keys ++ e.values))) (hv : decodeEntry r f e = some v) :
    decodeEntry r g e = some v := by
  unfold decodeEntry at hv ⊢
  split at hv
  · exact hv
  · split at hv
    · rename_i hsize
      obtain ⟨vs, hvs, rfl⟩ := Option.map_eq_some_iff.mp hv
      have helements := h.mono fun id hid => List.mem_append_left (e.keys ++ e.values) hid
      rw [if_pos hsize, mapM_below (helements.mono fun id hid => List.mem_of_mem_take hid) hvs]
      rfl
    · cases hv
  · split at hv
    · rename_i hsize
      obtain ⟨out, hout, rfl⟩ := Option.map_eq_some_iff.mp hv
      have hrefs := h.mono fun id hid => List.mem_append_right e.elements hid
      rw [if_pos hsize, decodeEntries_below (hrefs.mono fun id hid => ?_)
        (hrefs.mono fun id hid => ?_) hout]
      · rfl
      · obtain ⟨ref, href, rfl⟩ := List.mem_map.mp hid
        exact List.mem_of_mem_take (List.of_mem_zip href).1
      · obtain ⟨ref, href, rfl⟩ := List.mem_map.mp hid
        exact List.mem_of_mem_drop (List.mem_of_mem_take (List.of_mem_zip href).2)
    · cases hv

theorem result_iff_decode [GLib] (hmem : EnoughMemory) (hl : Layout data t entries offset)
    (hc : Complete entries) {id : Nat} (hid : id < entries.length) (v : Tree) :
    (∃ fuel, result (readValue data t fuel (offset id)) = some v) ↔
      ∃ fuel, decode t.objectRefSize entries fuel id = some v := by
  have hread : ∀ fuel id v, id < entries.length →
      result (readValue data t fuel (offset id)) = some v →
      decode t.objectRefSize entries fuel id = some v := by
    intro fuel
    induction fuel with
    | zero =>
      intro id v _ hv
      cases hv
    | succ fuel ih =>
      intro id v hid hv
      have he := List.getElem?_eq_getElem hid
      have hentry := (result_entry hmem hl hc he).2 v hv
      rw [decode, he, Option.bind_some]
      refine decodeEntry_below (fun id hid v hv => ih id v ?_ hv) hentry
      simp only [List.mem_append] at hid
      rcases hid with hid | hid | hid
      · exact hc.elements_lt _ (List.mem_of_getElem? he) id hid
      · exact hc.keys_lt _ (List.mem_of_getElem? he) id hid
      · exact hc.values_lt _ (List.mem_of_getElem? he) id hid
  have hdecode : ∀ fuel id v, decode t.objectRefSize entries fuel id = some v →
      result (readValue data t (fuel + 1) (offset id)) = some v := by
    intro fuel
    induction fuel with
    | zero =>
      intro id v hv
      cases hv
    | succ fuel ih =>
      intro id v hv
      obtain ⟨e, he, hv⟩ := Option.bind_eq_some_iff.mp hv
      rw [(result_entry hmem hl hc he).1]
      exact decodeEntry_below (fun id _ => ih id) hv
  constructor
  · rintro ⟨fuel, hv⟩
    exact ⟨fuel, hread fuel id v hid hv⟩
  · rintro ⟨fuel, hv⟩
    exact ⟨fuel + 1, hdecode fuel id v hv⟩

end

end FridaCore.Fruity
