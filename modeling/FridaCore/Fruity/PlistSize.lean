import FridaCore.Fruity.PlistReadBack

/-!
# The size of what is written

A property list can be written if all in it has a hash and a size that fits a size header.
What is written is as large as the entries together with the offsets. Only references to
what is shared are written more than once.
-/

namespace FridaCore.Fruity

open List Option

open BinaryWriter BinaryParser

variable [GLib] {entries : List Entry} {plist v w : Value Nat} {id root r : Nat} {e : Entry}
  {body bytes : List UInt8}

def headerSize (n : Nat) : Nat :=
  if n < 15 then 1 else if n ≤ 0xff then 3 else if n ≤ 0xffff then 4 else 6

def stringSize (s : Str) : Nat :=
  if GLib.charCount s = s.length then s.length else ((GLib.toUtf16 s).getD []).length * 2

def stringUnits (s : Str) : Nat :=
  if GLib.charCount s = s.length then s.length else ((GLib.toUtf16 s).getD []).length

def Scalar.encodedSize (r : Nat) : Scalar → Nat
  | .null | .boolean _ => 1
  | .integer i =>
    if 0 ≤ i ∧ i ≤ 0xff then 2 else if 0 ≤ i ∧ i ≤ 0xffff then 3
    else if 0 ≤ i ∧ i ≤ 0xffffffff then 5 else 9
  | .float _ => 5
  | .double _ => 9
  | .date _ => 0
  | .data bytes => headerSize bytes.length + bytes.length
  | .string s => headerSize (stringUnits s) + stringSize s
  | .uid _ => 1 + r

def entrySize (r : Nat) (plist : Value Nat) : Value Nat → Nat
  | .scalar s => s.encodedSize r
  | .array o elements =>
    headerSize elements.length + (occurrences plist (false, o)).length * elements.length * r
  | .dict o dict =>
    headerSize dict.length + (occurrences plist (true, o)).length * dict.length * (2 * r)

def encodedSize (plist : Value Nat) : Nat :=
  let objects := header.length +
    ((distinct plist.visited).map (entrySize (refSize plist) plist)).sum
  objects + (distinct plist.visited).length * computeOffsetSize objects + 32

omit [GLib] in
theorem length_writeSizeHeader {header : List UInt8}
    (h : writeSizeHeader objectType n = some header) : header.length = headerSize n := by
  unfold writeSizeHeader at h
  unfold headerSize
  by_cases h15 : n < 15
  · rw [if_pos h15] at h ⊢
    cases h
    rfl
  rw [if_neg h15] at h ⊢
  by_cases hff : n ≤ 0xff
  · rw [if_pos hff] at h ⊢
    cases h
    rfl
  rw [if_neg hff] at h ⊢
  by_cases hffff : n ≤ 0xffff
  · rw [if_pos hffff] at h ⊢
    cases h
    rfl
  rw [if_neg hffff] at h ⊢
  split at h
  · cases h
    rfl
  · cases h

omit [GLib] in
theorem length_writeRefs (r : Nat) (ids : List Nat) :
    (writeRefs r ids).length = ids.length * r := by
  simp [writeRefs, length_flatMap]

omit [GLib] in
theorem length_writeInteger (i : Int64) :
    (writeInteger i).length = if 0 ≤ i ∧ i ≤ 0xff then 2 else if 0 ≤ i ∧ i ≤ 0xffff then 3
      else if 0 ≤ i ∧ i ≤ 0xffffffff then 5 else 9 := by
  unfold writeInteger
  split_ifs <;> simp

omit [GLib] in
theorem length_headed {rest : List UInt8}
    (h : (do return (← writeSizeHeader objectType n) ++ rest) = some body) :
    body.length = headerSize n + rest.length := by
  obtain ⟨header, hheader, hbody⟩ := bind_eq_some_iff.mp h
  cases hbody
  rw [length_append, length_writeSizeHeader hheader]

theorem length_writeString (h : writeString s = some body) :
    body.length = headerSize (stringUnits s) + stringSize s := by
  unfold writeString at h
  unfold stringUnits stringSize
  split at h
  · next hcount =>
    rw [if_pos hcount, if_pos hcount]
    exact length_headed h
  · next hcount =>
    obtain ⟨units, hunits, h⟩ := bind_eq_some_iff.mp h
    rw [if_neg hcount, if_neg hcount, hunits, length_headed h]
    simp [length_flatMap]

theorem length_writeScalar (he : e.val = .scalar s) (h : writeEntry r e = some body) :
    body.length = s.encodedSize r := by
  cases s <;> simp only [writeEntry, he] at h
  case integer i =>
    cases h
    exact length_writeInteger i
  case data bytes => exact length_headed h
  case string s => exact length_writeString h
  case uid u =>
    cases h
    simp [writeUid, Scalar.encodedSize, Nat.add_comm]
  all_goals
    cases h
    try simp [writeBoolean, Scalar.encodedSize]

theorem length_writeEntry (h : Represents entries plist) (he : entries[id]? = some e)
    (hw : writeEntry r e = some body) : body.length = entrySize r plist e.val := by
  have hrefs : ∀ kind o, e.val.owner? = some o → (e.refs kind).length =
      (occurrences plist o).length * (e.val.parts kind).length := by
    intro kind o ho
    rw [(h.refs he ho kind).length_eq, length_flatten, map_replicate,
      sum_replicate_nat]
  cases hv : e.val with
  | scalar s => exact length_writeScalar hv hw
  | array o elements =>
    have helements := hrefs .element (false, o) (by rw [hv]; rfl)
    simp only [hv, Entry.refs, Value.parts] at helements
    simp only [writeEntry, hv] at hw
    rw [length_headed hw, length_writeRefs, helements, entrySize]
  | dict o dict =>
    have hkeys := hrefs .key (true, o) (by rw [hv]; rfl)
    have hvalues := hrefs .value (true, o) (by rw [hv]; rfl)
    simp only [hv, Entry.refs, Value.parts, length_map] at hkeys hvalues
    simp only [writeEntry, hv, writeDict, append_assoc] at hw
    rw [length_headed hw, length_append, length_writeRefs, length_writeRefs, hkeys, hvalues,
      entrySize, Nat.two_mul, Nat.mul_add]

theorem length_writeEntries
    (hf : ∀ e ∈ entries, ∀ body, writeEntry r e = some body → body.length = f e)
    (h : writeEntries r entries pos = some (bytes, offsets)) :
    bytes.length = (entries.map f).sum ∧ offsets.length = entries.length := by
  induction entries generalizing pos bytes offsets with
  | nil =>
    cases h
    exact ⟨rfl, rfl⟩
  | cons e rest ih =>
    obtain ⟨hfirst, hrest⟩ := List.forall_mem_cons.mp hf
    simp only [writeEntries, bind_eq_bind, bind_eq_some_iff, Prod.exists,
      Option.pure_def, Option.some.injEq, Prod.mk.injEq] at h
    obtain ⟨body, hbody, more, offsets', hmore, rfl, rfl⟩ := h
    obtain ⟨hbytes, hoffsets⟩ := ih hrest hmore
    simp [hfirst body hbody, hbytes, hoffsets]

theorem length_writePlist (hc : Coherent plist) (hw : writePlist plist = some bytes) :
    bytes.length = encodedSize plist := by
  simp only [writePlist, bind_eq_bind, bind_eq_some_iff, Prod.exists,
    Option.pure_def, Option.some.injEq] at hw
  obtain ⟨root, entries, hcollect, body, offsets, hentries, rfl⟩ := hw
  obtain ⟨hrep, -⟩ := represents_collectValue hc hcollect
  have hlen : entries.length = (distinct plist.visited).length := by
    rw [← hrep.values, List.length_map]
  have hsize : ∀ e ∈ entries, ∀ body, writeEntry (computeObjectRefSize entries.length) e = some body →
      body.length = entrySize (refSize plist) plist e.val := by
    intro e he body hbody
    obtain ⟨id, he⟩ := List.getElem?_of_mem he
    rw [length_writeEntry hrep he hbody, refSize, hlen]
  obtain ⟨hbytes, hoffsets⟩ := length_writeEntries hsize hentries
  have hsum : body.length = ((distinct plist.visited).map (entrySize (refSize plist) plist)).sum := by
    rw [hbytes, ← hrep.values, List.map_map]
    rfl
  simp [encodedSize, trailer, List.length_flatMap, hoffsets, hlen, ← hsum]
  omega

def objectSize (r : Nat) : Value Nat → Nat
  | .scalar (.data bytes) => bytes.length
  | .scalar (.string s) => stringSize s
  | .scalar _ => 0
  | .array _ elements => elements.length * r
  | .dict _ dict => dict.length * (2 * r)

def Convertible (s : Str) : Prop := GLib.charCount s = s.length ∨ (GLib.toUtf16 s).isSome

omit [GLib] in
theorem writeSizeHeader_isSome (h : n ≤ maxObjectSize) :
    (writeSizeHeader objectType n).isSome := by
  unfold writeSizeHeader
  have hmax : maxObjectSize ≤ 0xffffffff := by decide
  split_ifs <;> first | rfl | omega

omit [GLib] in
theorem headed_isSome (h : n ≤ maxObjectSize) :
    (do return (← writeSizeHeader objectType n) ++ rest : Option (List UInt8)).isSome := by
  obtain ⟨header, hheader⟩ := isSome_iff_exists.mp (writeSizeHeader_isSome h)
  rw [hheader]
  rfl

theorem writeString_isSome (hconv : Convertible s) (hsize : stringSize s ≤ maxObjectSize) :
    (writeString s).isSome := by
  unfold writeString
  unfold stringSize at hsize
  by_cases hcount : GLib.charCount s = s.length
  · rw [if_pos hcount] at hsize ⊢
    exact headed_isSome hsize
  · obtain ⟨units, hunits⟩ := isSome_iff_exists.mp (hconv.resolve_left hcount)
    rw [if_neg hcount, hunits] at hsize
    rw [if_neg hcount, hunits]
    exact headed_isSome (Nat.le_trans (Nat.le_mul_of_pos_right _ (by decide)) hsize)

theorem writeEntry_isSome (hr : 0 < r) (hhash : hashes e.val = true)
    (hsize : objectSize r e.val ≤ maxObjectSize)
    (hconv : ∀ s, e.val = .scalar (.string s) → Convertible s) : (writeEntry r e).isSome := by
  cases hv : e.val with
  | scalar s =>
    rw [hv] at hhash hsize
    cases s <;> simp only [writeEntry, hv, isSome_some]
    case date => cases hhash
    case data bytes => exact headed_isSome hsize
    case string s => exact writeString_isSome (hconv s hv) hsize
  | array o elements =>
    rw [hv] at hsize
    simp only [writeEntry, hv]
    exact headed_isSome (Nat.le_trans (Nat.le_mul_of_pos_right _ hr) hsize)
  | dict o dict =>
    rw [hv] at hsize
    simp only [writeEntry, hv, writeDict, append_assoc]
    exact headed_isSome (Nat.le_trans (Nat.le_mul_of_pos_right _ (by omega)) hsize)

theorem writeEntries_isSome (pos : Nat) (h : ∀ e ∈ entries, (writeEntry r e).isSome) :
    (writeEntries r entries pos).isSome := by
  induction entries generalizing pos with
  | nil => rfl
  | cons e rest ih =>
    obtain ⟨hfirst, hrest⟩ := forall_mem_cons.mp h
    obtain ⟨body, hbody⟩ := isSome_iff_exists.mp hfirst
    obtain ⟨more, hmore⟩ := isSome_iff_exists.mp (ih (pos + body.length) hrest)
    simp [writeEntries, hbody, hmore]

omit [GLib] in
theorem refSize_mem (plist : Value Nat) : refSize plist ∈ [1, 2, 4] := by
  unfold refSize computeObjectRefSize
  split_ifs <;> decide

omit [GLib] in
theorem refSize_pos (plist : Value Nat) : 0 < refSize plist := by
  have := refSize_mem plist
  simp only [mem_cons, not_mem_nil, or_false] at this
  omega

theorem hashes_of_writePlist (h : writePlist plist = some bytes) :
    ∀ w ∈ plist.visited, hashes w = true := by
  obtain ⟨p, hp, -⟩ := bind_eq_some_iff.mp h
  have hall := collectValue_isSome plist []
  rw [hp] at hall
  exact all_eq_true.mp hall.symm

theorem writePlist_isSome (hc : Coherent plist) (hhash : ∀ w ∈ plist.visited, hashes w = true)
    (hsize : ∀ w ∈ plist.visited, objectSize (refSize plist) w ≤ maxObjectSize)
    (hconv : ∀ s, .scalar (.string s) ∈ plist.visited → Convertible s) :
    ∃ bytes, writePlist plist = some bytes := by
  obtain ⟨⟨root, entries⟩, hcollect⟩ := isSome_iff_exists.mp
    ((collectValue_isSome plist []).trans (all_eq_true.mpr hhash))
  obtain ⟨hrep, -⟩ := represents_collectValue hc hcollect
  have hlen : entries.length = (distinct plist.visited).length := by
    rw [← hrep.values, length_map]
  have hentries : (writeEntries (refSize plist) entries header.length).isSome := by
    refine writeEntries_isSome _ fun e he => ?_
    obtain ⟨id, he⟩ := getElem?_of_mem he
    have hmem := hrep.mem_visited he
    exact writeEntry_isSome (refSize_pos plist) (hhash _ hmem) (hsize _ hmem)
      fun s hs => hconv s (hs ▸ hmem)
  obtain ⟨written, hwritten⟩ := isSome_iff_exists.mp hentries
  rw [refSize, ← hlen] at hwritten
  simp [writePlist, hcollect, hwritten]

end FridaCore.Fruity
