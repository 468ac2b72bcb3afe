import FridaCore.Fruity.PlistDistinct
import FridaCore.Fruity.PlistDocument
import FridaCore.Fruity.PlistSharing
import FridaCore.Support.Settles

/-!
# Reading back what was written

What a property list is after it has been written and parsed again. A scalar is read as
the first one it compares equal to. The references of a dict that is shared are written
once for each of the places where it is, all of its keys before the values, while its size
is written as it is: the parser takes the second round of keys for the values.
-/

namespace FridaCore.Fruity

open List Option

open BinaryWriter BinaryParser

section
variable [GLib] (r : Nat) (plist : Value Nat)

mutual
def readBack : Value Nat → Option Tree
  | .scalar s => ((representative plist.visited s).readBack r).map .scalar
  | .array _ elements =>
    if elements.length * r ≤ maxObjectSize then (readBackAll elements).map (.array ()) else none
  | .dict o dict =>
    if dict.length * (2 * r) ≤ maxObjectSize then
      (readBackEntries (1 < (occurrences plist (true, o)).length) dict []).map (.dict ())
    else none
def readBackAll : List (Value Nat) → Option (List Tree)
  | [] => some []
  | v :: rest => do
    let v ← readBack v
    let rest ← readBackAll rest
    return v :: rest
def readBackEntries (shared : Bool) :
    List (Str × Value Nat) → List (Str × Tree) → Option (List (Str × Tree))
  | [], dict => some dict
  | (key, v) :: rest, dict => do
    let key ← readBackString key
    let val ← if shared then some (.scalar (.string key)) else readBack v
    readBackEntries shared rest (setValue key val dict)
end

theorem readBackAll_eq_mapM (vs : List (Value Nat)) :
    readBackAll r plist vs = vs.mapM (readBack r plist) := by
  induction vs with
  | nil => rfl
  | cons v rest ih => simp [readBackAll, ih]

end

structure Represents (entries : List Entry) (plist : Value Nat) : Prop where
  coherent : Coherent plist
  linked : Linked entries plist.links
  values : entries.map Entry.val = distinct plist.visited

variable {entries : List Entry} {plist v w : Value Nat} {id root r : Nat} {e : Entry}

theorem represents_collectValue (hc : Coherent plist)
    (h : collectValue plist [] = some (root, entries)) :
    Represents entries plist ∧ Stands entries root plist := by
  obtain ⟨hcollected, hs⟩ := collectValue_spec plist h linked_nil
  exact ⟨⟨hc, hcollected.linked, hcollected.values⟩, hs⟩

theorem Represents.mem_visited (h : Represents entries plist) (he : entries[id]? = some e) :
    e.val ∈ plist.visited := by
  refine mem_of_mem_distinct ?_
  rw [← h.values]
  exact mem_map_of_mem (mem_of_getElem? he)

theorem Stands.lt (h : Stands entries id v) : id < entries.length := by
  obtain ⟨e, he, -⟩ := h
  exact (List.getElem?_eq_some_iff.mp he).1

theorem Represents.entry_of_stands (h : Represents entries plist)
    (hs : Stands entries id w) (hw : w ∈ plist.visited) (ho : w.owner? = some o) :
    ∃ e, entries[id]? = some e ∧ e.val = w := by
  obtain ⟨e, he, howner⟩ := hs.owner
  exact ⟨e, he, h.coherent _ (h.mem_visited he) w hw o (howner.trans ho) ho⟩

theorem Represents.refs (h : Represents entries plist) (he : entries[id]? = some e)
    (ho : e.val.owner? = some o) (kind : RefKind) :
    List.Forall₂ (Stands entries) (e.refs kind)
      (replicate (occurrences plist o).length (e.val.parts kind)).flatten := by
  have hrefs := h.linked.refs id e he kind
  rwa [ho, targets_links_replicate h.coherent (h.mem_visited he) ho] at hrefs

theorem forall₂_imp_of_mem
    (h : List.Forall₂ R l m) (himp : ∀ a ∈ l, ∀ b ∈ m, R a b → S a b) : List.Forall₂ S l m := by
  obtain ⟨hlen, hzip⟩ := forall₂_iff_zip.mp h
  refine forall₂_iff_zip.mpr ⟨hlen, fun {a b} hab => ?_⟩
  exact himp a (of_mem_zip hab).1 b (of_mem_zip hab).2 (hzip hab)

theorem exists_of_forall₂ (h : List.Forall₂ R l m) (ha : a ∈ l) : ∃ b ∈ m, R a b := by
  induction h with
  | nil => cases ha
  | cons hab _ ih =>
    rcases mem_cons.mp ha with rfl | ha
    · exact ⟨_, mem_cons_self, hab⟩
    · obtain ⟨b, hb, hR⟩ := ih ha
      exact ⟨b, mem_cons_of_mem _ hb, hR⟩

theorem forall₂_take_replicate (hk : 0 < k) (h : List.Forall₂ R l (replicate k m).flatten) :
    List.Forall₂ R (l.take m.length) m := by
  have htake := forall₂_take m.length h
  rwa [← Nat.succ_pred_eq_of_pos hk, replicate_succ, flatten_cons, take_left']
    at htake
  rfl

section
variable (h : Represents entries plist)
include h

theorem Represents.elements {elements : List (Value Nat)} (he : entries[id]? = some e)
    (hv : e.val = .array o elements) :
    List.Forall₂ (Stands entries) (e.elements.take elements.length) elements := by
  have hrefs := h.refs he (o := (false, o)) (by rw [hv]; rfl) .element
  have hpos := occurrences_pos (h.mem_visited he) (o := (false, o)) (by rw [hv]; rfl)
  rw [hv] at hrefs
  exact forall₂_take_replicate hpos hrefs

/-- The values of a dict that is shared are taken from the second round of keys. -/
theorem Represents.dictRefs (he : entries[id]? = some e) (hv : e.val = .dict o dict) :
    List.Forall₂ (Stands entries) ((e.keys ++ e.values).take dict.length)
        (dict.map fun entry => .scalar (.string entry.1)) ∧
      List.Forall₂ (Stands entries) (((e.keys ++ e.values).drop dict.length).take dict.length)
        (dict.map fun entry => if 1 < (occurrences plist (true, o)).length
          then .scalar (.string entry.1) else entry.2) := by
  have hkeys := h.refs he (o := (true, o)) (by rw [hv]; rfl) .key
  have hvalues := h.refs he (o := (true, o)) (by rw [hv]; rfl) .value
  have hpos := occurrences_pos (h.mem_visited he) (o := (true, o)) (by rw [hv]; rfl)
  have hall := rel_append hkeys hvalues
  simp only [hv, Value.parts, Entry.refs] at hall
  have hrest := forall₂_take dict.length (forall₂_drop dict.length hall)
  have hfirst := forall₂_take dict.length hall
  generalize (occurrences plist (true, o)).length = k at *
  have hn : ∀ f : Str × Value Nat → Value Nat, dict.length = (dict.map f).length := fun f => by simp
  obtain rfl | ⟨k, rfl⟩ : k = 1 ∨ ∃ j, k = j + 2 := by
    rcases k with _ | _ | k
    · cases hpos
    · exact .inl rfl
    · exact .inr ⟨k, rfl⟩
  · simp only [replicate_one, flatten_singleton] at hfirst hrest
    rw [take_left' (hn _).symm] at hfirst
    rw [drop_left' (hn _).symm, take_of_length_le (Nat.le_of_eq (hn _).symm)] at hrest
    exact ⟨hfirst, hrest⟩
  · simp only [replicate_succ, flatten_cons, append_assoc] at hfirst hrest
    rw [take_left' (hn _).symm] at hfirst
    exact ⟨hfirst, by simpa using hrest⟩

theorem Represents.complete : Complete entries := by
  have hlt : ∀ e ∈ entries, ∀ kind, ∀ id ∈ e.refs kind, id < entries.length := by
    intro e he kind id hid
    obtain ⟨i, he⟩ := getElem?_of_mem he
    obtain ⟨v, -, hs⟩ := exists_of_forall₂ (h.linked.refs i e he kind) hid
    exact hs.lt
  have hlength : ∀ e ∈ entries, ∀ kind o, e.val.owner? = some o →
      (e.val.parts kind).length ≤ (e.refs kind).length := by
    intro e he kind o ho
    obtain ⟨i, he⟩ := getElem?_of_mem he
    rw [(h.refs he ho kind).length_eq, length_flatten, map_replicate,
      sum_replicate_nat]
    exact Nat.le_mul_of_pos_left _ (occurrences_pos (h.mem_visited he) ho)
  refine ⟨fun e he => hlt e he .element, fun e he => hlt e he .key, fun e he => hlt e he .value,
    ?_, ?_⟩
  · intro e he o elements hv
    simpa [hv, Value.parts, Entry.refs] using hlength e he .element (false, o) (by rw [hv]; rfl)
  · intro e he o dict hv
    have hk := hlength e he .key (true, o) (by rw [hv]; rfl)
    have hvs := hlength e he .value (true, o) (by rw [hv]; rfl)
    simpa [hv, Value.parts, Entry.refs] using And.intro hk hvs

end

def Value.string? : Value ι → Option Str
  | .scalar (.string s) => some s
  | _ => none

theorem decodeEntries_cons (d : Nat → Option Tree) (key value : Nat) (rest : List (Nat × Nat))
    (acc : List (Str × Tree)) : decodeEntries d ((key, value) :: rest) acc =
      (d key).bind fun k => (d value).bind fun v => k.string?.bind fun s =>
        decodeEntries d rest (setValue s v acc) := by
  simp only [decodeEntries, bind_eq_bind]
  congr 1
  funext k
  cases k with
  | scalar s => cases s <;> rfl
  | array | dict => rfl

variable [GLib]

theorem settles_decodeEntries {f : Nat → Nat → Option Tree} (plist : Value Nat) (shared : Bool)
    {keys values : List Nat} (acc : List (Str × Tree))
    (hkeys : List.Forall₂ (fun id (entry : Str × Value Nat) => Settles (fun fuel => f fuel id)
      ((readBackString entry.1).map fun key => .scalar (.string key))) keys dict)
    (hvalues : List.Forall₂ (fun id (entry : Str × Value Nat) => Settles (fun fuel => f fuel id)
      (if shared then (readBackString entry.1).map fun key => .scalar (.string key)
        else readBack r plist entry.2)) values dict) :
    Settles (fun fuel => decodeEntries (f fuel) (keys.zip values) acc)
      (readBackEntries r plist shared dict acc) := by
  induction dict generalizing keys values acc with
  | nil =>
    cases hkeys
    exact .const (some acc)
  | cons entry rest ih =>
    obtain ⟨key, keys, hkey, hkeyRest, rfl⟩ := forall₂_cons_right_iff.mp hkeys
    obtain ⟨value, values, hvalue, hvalueRest, rfl⟩ := forall₂_cons_right_iff.mp hvalues
    have hstep := hkey.bind fun k => hvalue.bind fun v => (Settles.const k.string?).bind fun s =>
      ih (setValue s v acc) hkeyRest hvalueRest
    simp only [zip_cons_cons, decodeEntries_cons]
    convert hstep using 1
    cases hstr : readBackString entry.1 <;> cases shared <;>
      simp [readBackEntries, hstr, Value.string?]

theorem settles_scalar (h : Represents entries plist) (hs : Stands entries id (.scalar s)) :
    Settles (fun fuel => decode r entries fuel id) (readBack r plist (.scalar s)) := by
  obtain ⟨e, he, hv⟩ := stands_scalar hs h.values
  refine (Settles.const (readBack r plist (.scalar s))).succ rfl fun fuel => ?_
  simp [decode, he, decodeEntry, hv, readBack]

theorem readBack_string (key : Str) : readBack r plist (.scalar (.string key)) =
    (readBackString key).map fun key => .scalar (.string key) := by
  rw [readBack, representative_of_not_zero rfl, Scalar.readBack, Option.map_map]
  rfl

/-- Parsing the object of a value ends up with the value as it is read back. -/
theorem settles_decode (h : Represents entries plist) (w : Value Nat) (hw : w ∈ plist.visited)
    (hs : Stands entries id w) :
    Settles (fun fuel => decode r entries fuel id) (readBack r plist w) := by
  induction w using Value.induct generalizing id with
  | scalar s => exact settles_scalar h hs
  | array o elements ih =>
    obtain ⟨e, he, hv⟩ := h.entry_of_stands hs hw rfl
    have hmem : ∀ v ∈ elements, v ∈ plist.visited := fun v hv =>
      visited_trans ((visited_sublist_array hv).subset (mem_visited_self v)) hw
    have helements := Settles.mapM (forall₂_imp_of_mem (h.elements he hv)
      fun id _ v hv hs => ih v hv (hmem v hv) hs)
    rw [readBack, readBackAll_eq_mapM]
    by_cases hsize : elements.length * r ≤ maxObjectSize
    · rw [if_pos hsize]
      exact (helements.map _).succ rfl fun fuel => by simp [decode, he, decodeEntry, hv, hsize]
    · rw [if_neg hsize]
      exact (Settles.const none).succ rfl fun fuel => by simp [decode, he, decodeEntry, hv, hsize]
  | dict o dict ih =>
    obtain ⟨e, he, hv⟩ := h.entry_of_stands hs hw rfl
    have hmem : ∀ entry ∈ dict, entry.2 ∈ plist.visited := fun entry hentry =>
      visited_trans ((visited_sublist_dict hentry).subset (mem_visited_self entry.2)) hw
    obtain ⟨hkeys, hvalues⟩ := h.dictRefs he hv
    rw [forall₂_map_right_iff] at hkeys hvalues
    have hdict := settles_decodeEntries (f := decode r entries) (r := r) plist
      (decide (1 < (occurrences plist (true, o)).length)) []
      (hkeys.imp fun id entry hs => by simpa only [readBack_string] using settles_scalar h hs)
      (forall₂_imp_of_mem hvalues fun id _ entry hentry hs => by
        by_cases hshared : 1 < (occurrences plist (true, o)).length
        · simp only [hshared, ↓reduceIte, decide_true] at hs ⊢
          simpa only [readBack_string] using settles_scalar h hs
        · simp only [hshared, ↓reduceIte, decide_false, Bool.false_eq_true] at hs ⊢
          exact ih entry hentry (hmem entry hentry) hs)
    rw [readBack]
    by_cases hsize : dict.length * (2 * r) ≤ maxObjectSize
    · rw [if_pos hsize]
      exact (hdict.map _).succ rfl fun fuel => by
        simp [decode, he, decodeEntry, hv, hsize, Entry.dictRefs]
    · rw [if_neg hsize]
      exact (Settles.const none).succ rfl fun fuel => by simp [decode, he, decodeEntry, hv, hsize]

def refSize (plist : Value Nat) : Nat := computeObjectRefSize (distinct plist.visited).length

theorem parse_writePlist (hmem : EnoughMemory) (hc : Coherent plist)
    (hw : writePlist plist = some bytes) (hsize : bytes.length < 2 ^ 63) :
    (∃ fuel, parse fuel bytes = .ok out) ↔
      (distinct plist.visited).length ≤ maxObjectCount ∧
        readBack (refSize plist) plist plist = some (.dict () out) := by
  simp only [writePlist, Option.bind_eq_bind, Option.bind_eq_some_iff, Prod.exists,
    Option.pure_def, Option.some.injEq] at hw
  obtain ⟨root, entries, hcollect, body, offsets, hentries, rfl⟩ := hw
  obtain ⟨hrep, hs⟩ := represents_collectValue hc hcollect
  have hlen : entries.length = (distinct plist.visited).length := by
    rw [← hrep.values, List.length_map]
  have hsettles := settles_decode (r := refSize plist) hrep plist (mem_visited_self plist) hs
  rw [refSize, ← hlen] at *
  exact (parse_document hentries hsize hmem hrep.complete hs.lt).trans
    (and_congr_right fun _ => hsettles.exists_iff)

end FridaCore.Fruity
