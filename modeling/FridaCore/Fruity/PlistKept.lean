import FridaCore.Fruity.PlistSize
import FridaCore.Support.Lists

/-!
# What is kept

A value is read back as it was if all that is reached from it is kept: scalars that are
read as themselves, arrays and dicts that are not too large, and dicts that are shared
only if each of their values is the string that is its key. What is inside of a dict that
is shared is not reached.
-/

namespace FridaCore.Fruity

open List Option Prod

open BinaryWriter BinaryParser

section
variable {α : Type} {k key : Str} {v val : α} {dict l l' : List (Str × α)}

theorem perm_setValue (h : key ∉ dict.map fst) :
    (setValue key val dict).Perm ((key, val) :: dict) := by
  induction dict with
  | nil => exact .refl _
  | cons e rest ih =>
    rw [map_cons, mem_cons, not_or] at h
    unfold setValue
    split
    · exact ((ih h.2).cons e).trans (.swap ..)
    · rw [if_neg (Ne.symm h.1)]

theorem perm_toDict (hl : (l.map fst).Nodup) : (toDict l).Perm l := by
  induction l using reverseRecOn with
  | nil => exact .refl _
  | append_singleton l e ih =>
    rw [map_append, nodup_append] at hl
    have hperm := ih hl.1
    have hnot : e.1 ∉ (toDict l).map fst := fun hin =>
      hl.2.2 _ ((hperm.map fst).mem_iff.mp hin) e.1 (by simp) rfl
    have hset : toDict (l ++ [e]) = setValue e.1 e.2 (toDict l) := by simp [toDict]
    rw [hset]
    exact ((perm_setValue hnot).trans (hperm.cons e)).trans (perm_append_singleton e l).symm

theorem lookup_toDict (hl : (l.map fst).Nodup) (h : (k, v) ∈ l) :
    (toDict l).lookup k = some v := by
  have hperm := perm_toDict hl
  exact (lookup_iff_mem ((hperm.map fst).nodup_iff.mpr hl)).mpr (hperm.mem_iff.mpr h)

theorem toDict_inj (hl : (l.map Prod.fst).Nodup) (hkeys : l.map Prod.fst = l'.map Prod.fst)
    (h : toDict l = toDict l') : l = l' := by
  have hlen : l.length = l'.length := by simpa using congrArg length hkeys
  refine ext_getElem hlen fun i hi hi' => ?_
  have hkey : (l[i]).1 = (l'[i]).1 := by
    have := congrArg (·[i]?) hkeys
    simpa [hi, hi'] using this
  have hval := lookup_toDict hl (k := (l[i]).1) (v := (l[i]).2) (getElem_mem hi)
  have hval' := lookup_toDict (hkeys ▸ hl) (k := (l'[i]).1) (v := (l'[i]).2) (getElem_mem hi')
  rw [h, hkey, hval'] at hval
  exact Prod.ext hkey (some_inj.mp hval).symm

end

theorem mapM_eq_some_map_iff {l : List α} :
    l.mapM f = some (l.map g) ↔ ∀ a ∈ l, f a = some (g a) := by
  induction l with
  | nil => simp
  | cons a rest ih =>
    cases hf : f a <;> cases hr : rest.mapM f <;> simp_all

theorem mapM_isSome_iff {f : α → Option β} {l : List α} :
    (l.mapM f).isSome ↔ ∀ a ∈ l, (f a).isSome := by
  induction l with
  | nil => simp
  | cons a rest ih =>
    cases hf : f a <;> cases hr : rest.mapM f <;> simp_all

theorem map_eq_of_mapM {l : List α}
    {l' : List β} (hl : l.mapM f = some l') (hf : ∀ a ∈ l, ∀ b, f a = some b → g b = h a) :
    l'.map g = l.map h := by
  induction l generalizing l' with
  | nil =>
    cases hl
    rfl
  | cons a rest ih =>
    obtain ⟨hfirst, hrest⟩ := forall_mem_cons.mp hf
    simp only [mapM_cons, Option.bind_eq_bind, Option.bind_eq_some_iff, Option.pure_def,
      Option.some.injEq] at hl
    obtain ⟨b, hb, more, hmore, rfl⟩ := hl
    rw [map_cons, map_cons, hfirst b hb, ih hmore hrest]

def Shared (plist : Value Nat) (o : Nat) : Prop := 1 < (occurrences plist (true, o)).length

instance : Decidable (Shared plist o) := inferInstanceAs (Decidable (1 < _))

section
variable (plist : Value Nat)

mutual
def reached : Value Nat → List (Value Nat)
  | .scalar s => [.scalar s]
  | .array o elements => .array o elements :: reachedAll elements
  | .dict o dict =>
    .dict o dict :: (dict.map fun e => .scalar (.string e.1)) ++
      if Shared plist o then [] else reachedValues dict
def reachedAll : List (Value Nat) → List (Value Nat)
  | [] => []
  | v :: rest => reached v ++ reachedAll rest
def reachedValues : List (Str × Value Nat) → List (Value Nat)
  | [] => []
  | (_, v) :: rest => reached v ++ reachedValues rest
end

@[simp] theorem reachedAll_eq (vs : List (Value Nat)) :
    reachedAll plist vs = vs.flatMap (reached plist) := by
  induction vs with
  | nil => rfl
  | cons v rest ih => simp [reachedAll, ih]

@[simp] theorem reachedValues_eq (dict : List (Str × Value Nat)) :
    reachedValues plist dict = dict.flatMap fun e => reached plist e.2 := by
  induction dict with
  | nil => rfl
  | cons e rest ih => simp [reachedValues, ih]

def Kept [GLib] (r : Nat) : Value Nat → Prop
  | .scalar s => (representative plist.visited s).readBack r = some s
  | .array _ elements => elements.length * r ≤ maxObjectSize
  | .dict o dict => dict.length * (2 * r) ≤ maxObjectSize ∧
      (Shared plist o → ∀ e ∈ dict, e.2.content = .scalar (.string e.1))

/-- The objects in memory: one object has one content, a dict has one value for a key, and a
string ends at its first NUL. -/
structure WellFormed : Prop where
  coherent : Coherent plist
  keys : ∀ o dict, .dict o dict ∈ plist.visited → (dict.map Prod.fst).Nodup
  strings : ∀ s, .scalar (.string s) ∈ plist.visited → 0 ∉ s

end

variable [GLib] {plist v w : Value Nat} {r : Nat} {s : Scalar}

def readBackEntry (r : Nat) (plist : Value Nat) (shared : Bool) (e : Str × Value Nat) :
    Option (Str × Tree) :=
  (readBackString e.1).bind fun key =>
    (if shared then some (.scalar (.string key)) else readBack r plist e.2).map fun val => (key, val)

theorem readBackEntries_cons (shared : Bool) (e : Str × Value Nat) (rest : List (Str × Value Nat))
    (acc : List (Str × Tree)) : readBackEntries r plist shared (e :: rest) acc =
      (readBackEntry r plist shared e).bind fun p =>
        readBackEntries r plist shared rest (setValue p.1 p.2 acc) := by
  rw [readBackEntries]
  cases hk : readBackString e.1 with
  | none => simp [readBackEntry, hk]
  | some key => cases shared <;> simp [readBackEntry, hk, bind_map]

theorem readBackEntries_eq (shared : Bool) (dict : List (Str × Value Nat))
    (acc : List (Str × Tree)) :
    readBackEntries r plist shared dict acc = (dict.mapM (readBackEntry r plist shared)).map
      fun entries => entries.foldl (fun dict (key, val) => setValue key val dict) acc := by
  induction dict generalizing acc with
  | nil => rfl
  | cons e rest ih =>
    rw [readBackEntries_cons, mapM_cons]
    cases readBackEntry r plist shared e with
    | none => rfl
    | some p =>
      simp only [Option.bind_some, ih, Option.bind_eq_bind, Option.pure_def]
      cases rest.mapM (readBackEntry r plist shared) <;> rfl

theorem readBackEntry_eq_some :
    readBackEntry r plist shared e = some p ↔ readBackString e.1 = some p.1 ∧
      (if shared then some (.scalar (.string p.1)) else readBack r plist e.2) = some p.2 := by
  simp only [readBackEntry, bind_eq_some_iff, map_eq_some_iff]
  constructor
  · rintro ⟨key, hkey, val, hval, rfl⟩
    exact ⟨hkey, hval⟩
  · rintro ⟨hkey, hval⟩
    exact ⟨p.1, hkey, p.2, hval, rfl⟩

theorem readBackEntries_eq_toDict (hnodup : (dict.map fst).Nodup)
    (hstr : ∀ e ∈ dict, ∀ key, readBackString e.1 = some key → key = e.1) :
    readBackEntries r plist shared dict [] =
        some (toDict (dict.map fun e => (e.1, e.2.content))) ↔
      ∀ e ∈ dict, readBackEntry r plist shared e = some (e.1, e.2.content) := by
  rw [readBackEntries_eq, ← mapM_eq_some_map_iff]
  constructor
  · intro h
    obtain ⟨entries, hentries, hdict⟩ := map_eq_some_iff.mp h
    have hkeys : entries.map fst = dict.map fst :=
      map_eq_of_mapM hentries fun e he p hp => hstr e he p.1 (readBackEntry_eq_some.mp hp).1
    rw [hentries, toDict_inj (hkeys ▸ hnodup) _ hdict]
    rw [hkeys, List.map_map]
    rfl
  · intro h
    rw [h]
    rfl

theorem kept_string :
    Kept plist r (.scalar (.string key)) ↔ readBackString key = some key := by
  rw [Kept, representative_of_not_zero rfl, Scalar.readBack]
  simp

theorem readBack_eq_content_iff (hwf : WellFormed plist)
    (hstr : ∀ s, .scalar (.string s) ∈ plist.visited → ∀ key, readBackString s = some key → key = s)
    (hw : w ∈ plist.visited) :
    readBack r plist w = some w.content ↔ ∀ u ∈ reached plist w, Kept plist r u := by
  induction w using Value.induct with
  | scalar s => simp [readBack, Value.content, reached, Kept, map_eq_some_iff]
  | array o elements ih =>
    have hmem : ∀ v ∈ elements, v ∈ plist.visited := fun v hv =>
      visited_trans ((visited_sublist_array hv).subset (mem_visited_self v)) hw
    have hall : (readBackAll r plist elements).map (Value.array ()) =
        some (Value.array o elements).content ↔
          ∀ v ∈ elements, ∀ u ∈ reached plist v, Kept plist r u := by
      rw [readBackAll_eq_mapM, Value.content, contents_eq_map]
      simp only [map_eq_some_iff, Value.array.injEq, true_and, exists_eq_right]
      rw [mapM_eq_some_map_iff]
      exact forall₂_congr fun v hv => ih v hv (hmem v hv)
    rw [readBack, reached, forall_mem_cons, reachedAll_eq, forall_mem_flatMap, Kept]
    by_cases hsize : elements.length * r ≤ maxObjectSize
    · rw [if_pos hsize, hall, and_iff_right hsize]
    · simp [hsize]
  | dict o dict ih =>
    have hmem : ∀ e ∈ dict, e.2 ∈ plist.visited := fun e he =>
      visited_trans ((visited_sublist_dict he).subset (mem_visited_self e.2)) hw
    have hkey : ∀ e ∈ dict, (.scalar (.string e.1) : Value Nat) ∈ plist.visited := fun e he =>
      visited_trans (by simpa [Value.visited] using .inl ⟨e.2, he⟩) hw
    have hall : (readBackEntries r plist (Shared plist o) dict []).map (Value.dict ()) =
        some (Value.dict o dict).content ↔ ∀ e ∈ dict,
          readBackEntry r plist (Shared plist o) e = some (e.1, e.2.content) := by
      rw [Value.content, entryContents_eq_map]
      simp only [map_eq_some_iff, Value.dict.injEq, true_and, exists_eq_right]
      exact readBackEntries_eq_toDict (hwf.keys o dict hw) fun e he => hstr e.1 (hkey e he)
    rw [readBack, reached, cons_append, forall_mem_cons, forall_mem_append,
      List.forall_mem_map, Kept]
    by_cases hsize : dict.length * (2 * r) ≤ maxObjectSize
    · rw [if_pos hsize]
      refine hall.trans ?_
      simp only [readBackEntry_eq_some, kept_string, hsize, true_and]
      by_cases hshared : Shared plist o
      · simp only [hshared, decide_true, ↓reduceIte, some.injEq, forall_const,
          not_mem_nil, false_implies, implies_true, and_true]
        exact ⟨fun h => ⟨fun e he => (h e he).2.symm, fun e he => (h e he).1⟩,
          fun h e he => ⟨h.2 e he, (h.1 e he).symm⟩⟩
      · simp only [hshared, decide_false, Bool.false_eq_true, ↓reduceIte, false_implies, true_and,
          reachedValues_eq, forall_mem_flatMap]
        exact ⟨fun h => ⟨fun e he => (h e he).1, fun e he => (ih e he (hmem e he)).mp (h e he).2⟩,
          fun h e he => ⟨h.1 e he, (ih e he (hmem e he)).mpr (h.2 e he)⟩⟩
    · simp [hsize]

def Readable (plist : Value Nat) (r : Nat) : Value Nat → Prop
  | .scalar s => ((representative plist.visited s).readBack r).isSome
  | .array _ elements => elements.length * r ≤ maxObjectSize
  | .dict _ dict => dict.length * (2 * r) ≤ maxObjectSize

theorem readBack_isSome_iff :
    (readBack r plist w).isSome ↔ ∀ u ∈ reached plist w, Readable plist r u := by
  induction w using Value.induct with
  | scalar s => simp [readBack, reached, Readable]
  | array o elements ih =>
    rw [readBack, reached, forall_mem_cons, reachedAll_eq, forall_mem_flatMap, Readable,
      readBackAll_eq_mapM]
    by_cases hsize : elements.length * r ≤ maxObjectSize
    · rw [if_pos hsize, isSome_map, mapM_isSome_iff, and_iff_right hsize]
      exact forall₂_congr ih
    · simp [hsize]
  | dict o dict ih =>
    rw [readBack, reached, cons_append, forall_mem_cons, forall_mem_append,
      List.forall_mem_map, Readable]
    by_cases hsize : dict.length * (2 * r) ≤ maxObjectSize
    · have hall : (readBackEntries r plist (Shared plist o) dict []).isSome ↔ ∀ e ∈ dict,
          (readBackEntry r plist (Shared plist o) e).isSome := by
        rw [readBackEntries_eq, isSome_map, mapM_isSome_iff]
      rw [if_pos hsize, isSome_map]
      refine hall.trans ?_
      have hkey : ∀ key : Str, Readable plist r (.scalar (.string key)) ↔
          (readBackString key).isSome := fun key => by
        rw [Readable, representative_of_not_zero rfl, Scalar.readBack, isSome_map]
      simp only [hkey, hsize, true_and]
      by_cases hshared : Shared plist o
      · simp [hshared, readBackEntry, isSome_bind]
      · have hentry : ∀ e ∈ dict, (readBackEntry r plist false e).isSome ↔
            (readBackString e.1).isSome ∧ ∀ u ∈ reached plist e.2, Readable plist r u := by
          intro e he
          rw [← ih e he, readBackEntry]
          cases readBackString e.1 <;> simp
        simp only [hshared, decide_false, ↓reduceIte, reachedValues_eq, forall_mem_flatMap]
        exact ⟨fun h => ⟨fun e he => ((hentry e he).mp (h e he)).1,
          fun e he => ((hentry e he).mp (h e he)).2⟩,
          fun h e he => (hentry e he).mpr ⟨h.1 e he, h.2 e he⟩⟩
    · simp [hsize]

omit [GLib] in
theorem reached_subset : reached plist w ⊆ w.visited := by
  induction w using Value.induct with
  | scalar s => exact fun _ h => h
  | array o elements ih =>
    simp only [reached, reachedAll_eq, Value.visited, visitedAll_eq]
    refine cons_subset_cons _ fun u hu => ?_
    obtain ⟨v, hv, hu⟩ := mem_flatMap.mp hu
    exact mem_flatMap.mpr ⟨v, hv, ih v hv hu⟩
  | dict o dict ih =>
    simp only [reached, reachedValues_eq, Value.visited, visitedValues_eq, cons_append]
    refine cons_subset_cons _ (append_subset.mpr
      ⟨fun u hu => mem_append_left _ hu, fun u hu => mem_append_right _ ?_⟩)
    split at hu
    · cases hu
    · obtain ⟨e, he, hu⟩ := mem_flatMap.mp hu
      exact mem_flatMap.mpr ⟨e, he, ih e he hu⟩

omit [GLib] in
theorem eq_string_of_content {s : Str} (h : v.content = .scalar (.string s)) :
    v = .scalar (.string s) := by
  cases v with
  | scalar => simpa [Value.content] using h
  | array | dict => cases h

omit [GLib] in
/-- If the dicts that are shared are kept, there is nothing that is not reached. -/
theorem mem_reached_of_kept (h : ∀ o dict, .dict o dict ∈ reached plist w → Shared plist o →
    ∀ e ∈ dict, e.2.content = .scalar (.string e.1)) (hv : v ∈ w.visited) : v ∈ reached plist w := by
  induction w using Value.induct with
  | scalar s => exact hv
  | array o elements ih =>
    simp only [Value.visited, visitedAll_eq, mem_cons, mem_flatMap] at hv
    simp only [reached, reachedAll_eq, mem_cons, mem_flatMap] at h ⊢
    rcases hv with rfl | ⟨u, hu, hv⟩
    · exact .inl rfl
    · exact .inr ⟨u, hu, ih u hu (fun o' dict hd => h o' dict (.inr ⟨u, hu, hd⟩)) hv⟩
  | dict o dict ih =>
    have hself := h o dict (by simp [reached])
    simp only [Value.visited, visitedValues_eq, cons_append, mem_cons, mem_append,
      mem_flatMap] at hv
    simp only [reached, reachedValues_eq, cons_append, mem_cons, mem_append] at h ⊢
    rcases hv with rfl | hkey | ⟨e, he, hv⟩
    · exact .inl rfl
    · exact .inr (.inl hkey)
    · by_cases hshared : Shared plist o
      · -- there is nothing but the strings that are keys
        rw [eq_string_of_content (hself hshared e he), Value.visited, mem_singleton] at hv
        exact .inr (.inl (mem_map.mpr ⟨e, he, hv.symm⟩))
      · simp only [hshared, ↓reduceIte, mem_flatMap] at h ⊢
        exact .inr (.inr ⟨e, he, ih e he (fun o' d hd => h o' d (.inr (.inr ⟨e, he, hd⟩))) hv⟩)

end FridaCore.Fruity
