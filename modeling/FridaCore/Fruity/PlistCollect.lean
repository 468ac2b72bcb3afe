import FridaCore.Fruity.PlistWriter

/-!
# What is collected

Collecting a value visits all that is in it, and adds references to the entries of
arrays and dicts. The entries are the distinct values that have been visited, in the
order of the visits, and the references of an entry are the numbers of what has been
linked to it: the elements of an array, or the keys and values of a dict, once for every
visit.
-/

namespace FridaCore.Fruity

open List Option Function

open BinaryWriter

mutual
def Value.visited : Value ι → List (Value ι)
  | .scalar s => [.scalar s]
  | .array o elements => .array o elements :: visitedAll elements
  | .dict o dict =>
    .dict o dict :: (dict.map fun e => .scalar (.string e.1)) ++ visitedValues dict
def visitedAll : List (Value ι) → List (Value ι)
  | [] => []
  | v :: rest => v.visited ++ visitedAll rest
def visitedValues : List (Str × Value ι) → List (Value ι)
  | [] => []
  | (_, v) :: rest => v.visited ++ visitedValues rest
end

inductive RefKind
  | key
  | value
  | element
  deriving DecidableEq, Repr

def Value.owner? : Value ι → Option (Bool × ι)
  | .scalar _ => none
  | .array o _ => some (false, o)
  | .dict o _ => some (true, o)

structure Link (ι : Type) where
  owner : Bool × ι
  kind : RefKind
  target : Value ι

mutual
def Value.links : Value ι → List (Link ι)
  | .scalar _ => []
  | .array o elements => elementLinks o elements
  | .dict o dict =>
    (dict.map fun e => ⟨(true, o), .key, .scalar (.string e.1)⟩) ++ valueLinks o dict
def elementLinks (o : ι) : List (Value ι) → List (Link ι)
  | [] => []
  | v :: rest => v.links ++ ⟨(false, o), .element, v⟩ :: elementLinks o rest
def valueLinks (o : ι) : List (Str × Value ι) → List (Link ι)
  | [] => []
  | (_, v) :: rest => v.links ++ ⟨(true, o), .value, v⟩ :: valueLinks o rest
end

def targets [DecidableEq ι] (links : List (Link ι)) (owner : Option (Bool × ι)) (kind : RefKind) :
    List (Value ι) :=
  (links.filter fun l => some l.owner = owner ∧ l.kind = kind).map Link.target

@[simp] theorem targets_append [DecidableEq ι] (l m : List (Link ι)) (o : Option (Bool × ι))
    (kind : RefKind) : targets (l ++ m) o kind = targets l o kind ++ targets m o kind := by
  simp [targets]

/-- A value is added to the distinct ones if there is none that compares equal. -/
def insertValue [DecidableEq ι] (vs : List (Value ι)) (v : Value ι) : List (Value ι) :=
  if vs.any fun w => compareValuesEq w v then vs else vs ++ [v]

def distinct [DecidableEq ι] (vs : List (Value ι)) : List (Value ι) := vs.foldl insertValue []

def BinaryWriter.Entry.refs (e : Entry) : RefKind → List Nat
  | .key => e.keys
  | .value => e.values
  | .element => e.elements

def BinaryWriter.addRef : RefKind → Nat → Entry → Entry
  | .key => Entry.addKey
  | .value => Entry.addValue
  | .element => Entry.addElement

@[simp] theorem addRef_val (kind : RefKind) (ref : Nat) (e : Entry) :
    (addRef kind ref e).val = e.val := by
  cases kind <;> rfl

@[simp] theorem addRef_id (kind : RefKind) (ref : Nat) (e : Entry) :
    (addRef kind ref e).id = e.id := by
  cases kind <;> rfl

theorem addRef_refs (kind kind' : RefKind) (ref : Nat) (e : Entry) :
    (addRef kind ref e).refs kind' = e.refs kind' ++ if kind = kind' then [ref] else [] := by
  cases kind <;> cases kind' <;> simp [addRef, Entry.refs, Entry.addKey, Entry.addValue,
    Entry.addElement]

variable {entries entries' : List Entry} {links : List (Link Nat)} {v w : Value Nat} {id ref : Nat}

def Stands (entries : List Entry) (id : Nat) (v : Value Nat) : Prop :=
  ∃ e, entries[id]? = some e ∧ (e.val = v ∨ compareValuesEq e.val v = true)

def Grows (entries entries' : List Entry) : Prop :=
  ∀ (id : Nat) (e : Entry), entries[id]? = some e → ∃ e', entries'[id]? = some e' ∧ e'.val = e.val

theorem Grows.refl (entries : List Entry) : Grows entries entries := fun _ e he => ⟨e, he, rfl⟩

theorem Grows.trans (h : Grows entries entries')
    (h' : Grows entries' entries'') : Grows entries entries'' := by
  intro id e he
  obtain ⟨e', he', hval⟩ := h id e he
  obtain ⟨e'', he'', hval'⟩ := h' id e' he'
  exact ⟨e'', he'', hval'.trans hval⟩

theorem Stands.grows (h : Stands entries id v) (hg : Grows entries entries') :
    Stands entries' id v := by
  obtain ⟨e, he, hsame⟩ := h
  obtain ⟨e', he', hval⟩ := hg id e he
  exact ⟨e', he', hval ▸ hsame⟩

theorem Stands.owner (h : Stands entries id v) :
    ∃ e, entries[id]? = some e ∧ e.val.owner? = v.owner? := by
  obtain ⟨e, he, heq | hcmp⟩ := h
  · exact ⟨e, he, by rw [heq]⟩
  · cases hval : e.val <;> cases v <;> simp_all [compareValuesEq, Value.owner?]

structure Linked (entries : List Entry) (links : List (Link Nat)) : Prop where
  id : ∀ (i : Nat) (e : Entry), entries[i]? = some e → e.id = i
  refs : ∀ (i : Nat) (e : Entry), entries[i]? = some e → ∀ kind,
    List.Forall₂ (Stands entries) (e.refs kind) (targets links e.val.owner? kind)
  owners : ∀ l ∈ links, ∃ (i : Nat) (e : Entry), entries[i]? = some e ∧ e.val.owner? = some l.owner
  unique : ∀ (i j : Nat) (e e' : Entry) o, entries[i]? = some e → entries[j]? = some e' →
    e.val.owner? = some o → e'.val.owner? = some o → i = j

theorem linked_nil : Linked [] [] := by
  refine ⟨?_, ?_, ?_, ?_⟩ <;> simp

theorem Linked.append (h : Linked entries links)
    (hv : ∀ e ∈ entries, ∀ o, v.owner? = some o → e.val.owner? ≠ some o) :
    Linked (entries ++ [{ id := entries.length, val := v }]) links := by
  have hg : Grows entries (entries ++ [{ id := entries.length, val := v }]) := fun i e he =>
    ⟨e, by rw [List.getElem?_append_left (List.getElem?_eq_some_iff.mp he).1, he], rfl⟩
  have hcases : ∀ {i : Nat} {e : Entry},
      (entries ++ [{ id := entries.length, val := v }])[i]? = some e →
      entries[i]? = some e ∨ i = entries.length ∧ e = { id := entries.length, val := v } := by
    intro i e he
    rcases Nat.lt_trichotomy i entries.length with hi | rfl | hi
    · exact .inl (by rwa [List.getElem?_append_left hi] at he)
    · exact .inr ⟨rfl, by simpa [eq_comm] using he⟩
    · rw [List.getElem?_eq_none (by simp; omega)] at he
      cases he
  have hnone : ∀ kind, targets links v.owner? kind = [] := by
    intro kind
    simp only [targets, map_eq_nil_iff, filter_eq_nil_iff]
    intro l hl hcond
    obtain ⟨i, e, he, ho⟩ := h.owners l hl
    simp only [decide_eq_true_eq] at hcond
    exact hv e (mem_of_getElem? he) l.owner hcond.1.symm ho
  refine ⟨?_, ?_, ?_, ?_⟩
  · intro i e he
    rcases hcases he with he | ⟨rfl, rfl⟩
    · exact h.id i e he
    · rfl
  · intro i e he kind
    rcases hcases he with he | ⟨rfl, rfl⟩
    · exact (h.refs i e he kind).imp fun _ _ hs => Stands.grows hs hg
    · rw [hnone]
      cases kind <;> exact .nil
  · intro l hl
    obtain ⟨i, e, he, ho⟩ := h.owners l hl
    obtain ⟨e', he', hval⟩ := hg i e he
    exact ⟨i, e', he', hval ▸ ho⟩
  · intro i j e e' o he he' ho ho'
    rcases hcases he with he | ⟨rfl, rfl⟩ <;> rcases hcases he' with he' | ⟨rfl, rfl⟩
    · exact h.unique i j e e' o he he' ho ho'
    · exact absurd ho (hv e (mem_of_getElem? he) o ho')
    · exact absurd ho' (hv e' (mem_of_getElem? he') o ho)
    · rfl

theorem grows_modify (entries : List Entry) (id : Nat) (kind : RefKind) (ref : Nat) :
    Grows entries (entries.modify id (addRef kind ref)) := by
  intro i e he
  rw [getElem?_modify, he]
  by_cases hi : id = i <;> simp [hi]

theorem Linked.modify (h : Linked entries links)
    (he₀ : entries[id]? = some e₀) (ho₀ : e₀.val.owner? = some o) (hs : Stands entries ref w) :
    Linked (entries.modify id (addRef kind ref)) (links ++ [⟨o, kind, w⟩]) := by
  have hg := grows_modify entries id kind ref
  have hcases : ∀ {i : Nat} {e' : Entry}, (entries.modify id (addRef kind ref))[i]? = some e' →
      ∃ e, entries[i]? = some e ∧ e'.val = e.val ∧ e'.id = e.id ∧
        ∀ kind', e'.refs kind' = e.refs kind' ++ if id = i ∧ kind = kind' then [ref] else [] := by
    intro i e' he'
    rw [getElem?_modify] at he'
    obtain ⟨e, he, hf⟩ := map_eq_some_iff.mp he'
    refine ⟨e, he, ?_⟩
    by_cases hi : id = i
    · simp [← hf, hi, addRef_refs]
    · simp [← hf, hi]
  refine ⟨?_, ?_, ?_, ?_⟩
  · intro i e' he'
    obtain ⟨e, he, -, hid, -⟩ := hcases he'
    exact hid.trans (h.id i e he)
  · intro i e' he' kind'
    obtain ⟨e, he, hval, -, hrefs⟩ := hcases he'
    have hold := (h.refs i e he kind').imp fun _ _ hst => Stands.grows hst hg
    rw [hrefs, hval, targets_append]
    -- the link is one of this entry's if and only if this is the entry of its owner
    have howner : some o = e.val.owner? ↔ id = i := by
      constructor
      · exact fun ho => h.unique id i e₀ e o he₀ he ho₀ ho.symm
      · rintro rfl
        rw [he₀] at he
        cases he
        exact ho₀.symm
    by_cases hk : id = i ∧ kind = kind'
    · have hnew : targets [⟨o, kind, w⟩] e.val.owner? kind' = [w] := by
        simp [targets, howner, hk]
      rw [if_pos hk, hnew]
      exact rel_append hold (.cons (hs.grows hg) .nil)
    · have hno : targets [⟨o, kind, w⟩] e.val.owner? kind' = [] := by
        simpa [targets, howner] using hk
      simpa [hk, hno] using hold
  · intro l hl
    rcases mem_append.mp hl with hl | hl
    · obtain ⟨i, e, he, ho⟩ := h.owners l hl
      obtain ⟨e', he', hval⟩ := hg i e he
      exact ⟨i, e', he', hval ▸ ho⟩
    · cases mem_singleton.mp hl
      obtain ⟨e', he', hval⟩ := hg id e₀ he₀
      exact ⟨id, e', he', hval ▸ ho₀⟩
  · intro i j e e' o' he he' ho ho'
    obtain ⟨e₁, he₁, hval₁, -⟩ := hcases he
    obtain ⟨e₂, he₂, hval₂, -⟩ := hcases he'
    exact h.unique i j e₁ e₂ o' he₁ he₂ (hval₁ ▸ ho) (hval₂ ▸ ho')

theorem compareValuesEq_owner (ho : v.owner? = some o) :
    compareValuesEq w v = true ↔ w.owner? = some o := by
  cases v <;> cases ho <;> cases w <;> simp [compareValuesEq, Value.owner?]

structure Collected (entries : List Entry) (links : List (Link Nat)) (entries' : List Entry)
    (vs : List (Value Nat)) (new : List (Link Nat)) : Prop where
  linked : Linked entries' (links ++ new)
  grows : Grows entries entries'
  values : entries'.map Entry.val = vs.foldl insertValue (entries.map Entry.val)

theorem Collected.refl (h : Linked entries links) : Collected entries links entries [] [] :=
  ⟨by simpa using h, .refl _, rfl⟩

theorem Collected.trans (h : Collected entries links entries' vs new)
    (h' : Collected entries' (links ++ new) entries'' ws new') :
    Collected entries links entries'' (vs ++ ws) (new ++ new') :=
  ⟨by simpa using h'.linked, h.grows.trans h'.grows, by
    rw [h'.values, h.values, foldl_append]⟩

theorem Collected.link (kind : RefKind) (hl : Linked entries links)
    (ho : ∃ e, entries[id]? = some e ∧ e.val.owner? = some o) (hs : Stands entries ref w) :
    Collected entries links (entries.modify id (addRef kind ref)) [] [⟨o, kind, w⟩] := by
  obtain ⟨e, he, ho⟩ := ho
  refine ⟨hl.modify he ho hs, grows_modify entries id kind ref, ?_⟩
  refine ext_getElem? fun i => ?_
  rw [foldl_nil, getElem?_map, getElem?_map, getElem?_modify]
  by_cases hi : id = i <;> cases entries[i]? <;> simp [hi]

theorem owner_grows (hg : Grows entries entries')
    (ho : ∃ e, entries[id]? = some e ∧ e.val.owner? = some o) :
    ∃ e, entries'[id]? = some e ∧ e.val.owner? = some o := by
  obtain ⟨e, he, ho⟩ := ho
  obtain ⟨e', he', hval⟩ := hg id e he
  exact ⟨e', he', hval ▸ ho⟩

theorem register_spec (h : register v entries = some (id, entries')) (hl : Linked entries links) :
    Collected entries links entries' [v] [] ∧ Stands entries' id v := by
  unfold register at h
  split at h
  · cases h
  · split at h
    · next e hfind =>
      cases h
      have hcmp : compareValuesEq e.val v = true := by simpa using List.find?_some hfind
      obtain ⟨i, he⟩ := List.getElem?_of_mem (mem_of_find?_eq_some hfind)
      have hany : entries.any (fun e => compareValuesEq e.val v) = true :=
        any_eq_true.mpr ⟨e, mem_of_find?_eq_some hfind, hcmp⟩
      refine ⟨⟨by simpa using hl, .refl _, ?_⟩, e, ?_, .inr hcmp⟩
      · simp [insertValue, List.any_map, comp_def, hany]
      · rw [hl.id i e he, he]
    · next hfind =>
      cases h
      have hnew : ∀ e ∈ entries, compareValuesEq e.val v = false := by
        simpa using List.find?_eq_none.mp hfind
      refine ⟨⟨?_, ?_, ?_⟩, { id := entries.length, val := v }, by simp, .inl rfl⟩
      · rw [append_nil]
        refine hl.append fun e he o ho ho' => ?_
        simpa [(compareValuesEq_owner ho).mpr ho'] using hnew e he
      · exact fun i e he =>
          ⟨e, by rw [List.getElem?_append_left (List.getElem?_eq_some_iff.mp he).1, he], rfl⟩
      · have hany : entries.any (fun e => compareValuesEq e.val v) = false := by
          simpa using hnew
        simp [insertValue, List.any_map, comp_def, hany]

theorem collectKeys_spec {keys : List Str} (h : collectKeys id keys entries = some entries')
    (hl : Linked entries links)
    (ho : ∃ e, entries[id]? = some e ∧ e.val.owner? = some (true, o)) :
    Collected entries links entries' (keys.map fun key => .scalar (.string key))
      (keys.map fun key => ⟨(true, o), .key, .scalar (.string key)⟩) := by
  induction keys generalizing entries links with
  | nil =>
    cases h
    exact .refl hl
  | cons key rest ih =>
    simp only [collectKeys, bind_eq_bind, bind_eq_some_iff, Prod.exists] at h
    obtain ⟨keyId, registered, hreg, hrest⟩ := h
    obtain ⟨hkey, hs⟩ := register_spec hreg hl
    have hlink := hkey.trans (.link .key hkey.linked (owner_grows hkey.grows ho) hs)
    exact hlink.trans (ih hrest hlink.linked (owner_grows hlink.grows ho))

def CollectsAll (v : Value Nat) : Prop :=
  ∀ ⦃entries links id entries'⦄, collectValue v entries = some (id, entries') →
    Linked entries links → Collected entries links entries' v.visited v.links ∧
      Stands entries' id v

theorem collectElements_spec
    (hall : ∀ v ∈ elements, CollectsAll v) (h : collectElements id elements entries = some entries')
    (hl : Linked entries links)
    (ho : ∃ e, entries[id]? = some e ∧ e.val.owner? = some (false, o)) :
    Collected entries links entries' (visitedAll elements) (elementLinks o elements) := by
  induction elements generalizing entries links with
  | nil =>
    cases h
    exact .refl hl
  | cons v rest ih =>
    obtain ⟨hv, hrest⟩ := forall_mem_cons.mp hall
    simp only [collectElements, bind_eq_bind, bind_eq_some_iff, Prod.exists] at h
    obtain ⟨element, collected, hcollect, h⟩ := h
    obtain ⟨hdone, hs⟩ := hv hcollect hl
    have hlink := hdone.trans
      (.link .element hdone.linked (owner_grows hdone.grows ho) hs)
    have htail := ih hrest h hlink.linked (owner_grows hlink.grows ho)
    simpa [visitedAll, elementLinks] using hlink.trans htail

theorem collectEntryValues_spec
    (hall : ∀ e ∈ dict, CollectsAll e.2) (h : collectEntryValues id dict entries = some entries')
    (hl : Linked entries links)
    (ho : ∃ e, entries[id]? = some e ∧ e.val.owner? = some (true, o)) :
    Collected entries links entries' (visitedValues dict) (valueLinks o dict) := by
  induction dict generalizing entries links with
  | nil =>
    cases h
    exact .refl hl
  | cons e rest ih =>
    obtain ⟨hv, hrest⟩ := forall_mem_cons.mp hall
    simp only [collectEntryValues, bind_eq_bind, bind_eq_some_iff,
      Prod.exists] at h
    obtain ⟨value, collected, hcollect, h⟩ := h
    obtain ⟨hdone, hs⟩ := hv hcollect hl
    have hlink := hdone.trans
      (.link .value hdone.linked (owner_grows hdone.grows ho) hs)
    have htail := ih hrest h hlink.linked (owner_grows hlink.grows ho)
    simpa [visitedValues, valueLinks] using hlink.trans htail

theorem collectValue_spec (v : Value Nat) : CollectsAll v := by
  induction v using Value.induct with
  | scalar s => exact fun entries links id entries' h hl => register_spec h hl
  | array o elements ih =>
    intro entries links id entries' h hl
    simp only [collectValue, bind_eq_bind, bind_eq_some_iff, Prod.exists,
      Option.pure_def, Option.some.injEq, Prod.mk.injEq] at h
    obtain ⟨_, registered, hreg, _, hrest, rfl, rfl⟩ := h
    obtain ⟨hself, hs⟩ := register_spec hreg hl
    have hdone := collectElements_spec ih hrest hself.linked hs.owner
    exact ⟨hself.trans hdone, hs.grows hdone.grows⟩
  | dict o dict ih =>
    intro entries links id entries' h hl
    simp only [collectValue, bind_eq_bind, bind_eq_some_iff, Prod.exists,
      Option.pure_def, Option.some.injEq, Prod.mk.injEq] at h
    obtain ⟨_, registered, hreg, keyed, hkeys, _, hrest, rfl, rfl⟩ := h
    obtain ⟨hself, hs⟩ := register_spec hreg hl
    have hkeyed := collectKeys_spec hkeys hself.linked hs.owner
    have hdone := collectEntryValues_spec ih hrest hkeyed.linked (owner_grows hkeyed.grows hs.owner)
    refine ⟨?_, (hs.grows hkeyed.grows).grows hdone.grows⟩
    simpa [Value.visited, Value.links, comp_def] using hself.trans (hkeyed.trans hdone)

theorem register_isSome (v : Value Nat) (entries : List Entry) :
    (register v entries).isSome = hashes v := by
  unfold register
  cases hashes v with
  | false => rfl
  | true => cases hf : entries.find? fun e => compareValuesEq e.val v <;> rfl

theorem collectKeys_isSome (id : Nat) (keys : List Str) (entries : List Entry) :
    (collectKeys id keys entries).isSome := by
  induction keys generalizing entries with
  | nil => rfl
  | cons key rest ih =>
    obtain ⟨p, hp⟩ := isSome_iff_exists.mp
      (register_isSome (.scalar (.string key)) entries)
    simp [collectKeys, hp, ih]

theorem collectElements_isSome
    (hall : ∀ v ∈ elements, ∀ entries, (collectValue v entries).isSome = v.visited.all hashes)
    (id : Nat) (entries : List Entry) :
    (collectElements id elements entries).isSome = (visitedAll elements).all hashes := by
  induction elements generalizing entries with
  | nil => rfl
  | cons v rest ih =>
    obtain ⟨hv, hrest⟩ := forall_mem_cons.mp hall
    rw [visitedAll, all_append, ← hv entries, collectElements]
    cases collectValue v entries with
    | none => rfl
    | some p => simpa using ih hrest _

theorem collectEntryValues_isSome
    (hall : ∀ e ∈ dict, ∀ entries, (collectValue e.2 entries).isSome = e.2.visited.all hashes)
    (id : Nat) (entries : List Entry) :
    (collectEntryValues id dict entries).isSome = (visitedValues dict).all hashes := by
  induction dict generalizing entries with
  | nil => rfl
  | cons e rest ih =>
    obtain ⟨hv, hrest⟩ := forall_mem_cons.mp hall
    rw [visitedValues, all_append, ← hv entries, collectEntryValues]
    cases collectValue e.2 entries with
    | none => rfl
    | some p => simpa using ih hrest _

theorem collectValue_isSome (v : Value Nat) (entries : List Entry) :
    (collectValue v entries).isSome = v.visited.all hashes := by
  induction v using Value.induct generalizing entries with
  | scalar s => simp [collectValue, register_isSome, Value.visited]
  | array o elements ih =>
    obtain ⟨p, hp⟩ := isSome_iff_exists.mp
      (register_isSome (.array o elements) entries)
    have hrest := collectElements_isSome ih p.1 p.2
    simp only [collectValue, hp, Value.visited, all_cons, ← hrest, bind_eq_bind,
      bind_some]
    cases collectElements p.1 elements p.2 <;> rfl
  | dict o dict ih =>
    obtain ⟨p, hp⟩ := isSome_iff_exists.mp
      (register_isSome (.dict o dict) entries)
    obtain ⟨keyed, hk⟩ := isSome_iff_exists.mp
      (collectKeys_isSome p.1 (dict.map Prod.fst) p.2)
    have hrest := collectEntryValues_isSome ih p.1 keyed
    have hkeys : (dict.map fun e => (.scalar (.string e.1) : Value Nat)).all hashes = true := by
      simp [List.all_map, hashes]
    simp only [collectValue, hp, Value.visited, List.all_append, List.all_cons, hkeys, ← hrest,
      bind_eq_bind, bind_some, hk]
    cases collectEntryValues p.1 dict keyed <;> rfl

end FridaCore.Fruity
