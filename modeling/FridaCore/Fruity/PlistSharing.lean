import FridaCore.Fruity.PlistCollect

/-!
# Objects that are shared

An array or a dict may be in a value many times, as one object has one content. Each time
it is visited its references are added again, so its entry has them as many times as it
is in the value.
-/

namespace FridaCore.Fruity

open List Option Prod Function RefKind

variable {ι : Type} {u v w : Value ι}

@[simp] theorem visitedAll_eq (vs : List (Value ι)) : visitedAll vs = vs.flatMap Value.visited := by
  induction vs with
  | nil => rfl
  | cons v rest ih => simp [visitedAll, ih]

@[simp] theorem visitedValues_eq (dict : List (Str × Value ι)) :
    visitedValues dict = dict.flatMap fun e => e.2.visited := by
  induction dict with
  | nil => rfl
  | cons e rest ih => simp [visitedValues, ih]

theorem mem_visited_self (v : Value ι) : v ∈ v.visited := by
  cases v <;> simp [Value.visited]

theorem sublist_flatMap {f : α → List β} {l : List α} (h : a ∈ l) :
    (f a).Sublist (l.flatMap f) :=
  sublist_flatten_of_mem (mem_map_of_mem h)

theorem visited_sublist_array (h : v ∈ elements) :
    v.visited.Sublist (Value.array o elements).visited := by
  simp only [Value.visited, visitedAll_eq]
  exact (sublist_flatMap h).cons _

theorem visited_sublist_dict {e : Str × Value ι}
    (h : e ∈ dict) : e.2.visited.Sublist (Value.dict o dict).visited := by
  simp only [Value.visited, visitedValues_eq]
  exact (sublist_flatMap (f := fun e : Str × Value ι => e.2.visited) h).trans
    (sublist_append_right _ _)

theorem visited_sublist (h : w ∈ v.visited) : w.visited.Sublist v.visited := by
  induction v using Value.induct with
  | scalar s =>
    rw [Value.visited, mem_singleton] at h
    rw [h]
  | array o elements ih =>
    have hmem := h
    simp only [Value.visited, visitedAll_eq, mem_cons, mem_flatMap] at hmem
    obtain rfl | ⟨e, he, hw⟩ := hmem
    · exact .refl _
    · exact (ih e he hw).trans (visited_sublist_array he)
  | dict o dict ih =>
    have hmem := h
    simp only [Value.visited, visitedValues_eq, cons_append, mem_cons, mem_append,
      List.mem_map, List.mem_flatMap] at hmem
    obtain rfl | ⟨e, he, rfl⟩ | ⟨e, he, hw⟩ := hmem
    · exact .refl _
    · exact List.singleton_sublist.mpr h
    · exact (ih e he hw).trans (visited_sublist_dict he)

theorem visited_trans (h : u ∈ w.visited) (h' : w ∈ v.visited) : u ∈ v.visited :=
  (visited_sublist h').subset h

def Coherent (v : Value ι) : Prop :=
  ∀ c ∈ v.visited, ∀ c' ∈ v.visited, ∀ o, c.owner? = some o → c'.owner? = some o → c = c'

theorem coherent_iff : Coherent v ↔ ∀ c ∈ v.visited, ∀ c' ∈ v.visited,
    c.owner?.isSome → c.owner? = c'.owner? → c = c' := by
  constructor
  · intro h c hc c' hc' hsome heq
    obtain ⟨o, ho⟩ := isSome_iff_exists.mp hsome
    exact h c hc c' hc' o ho (heq ▸ ho)
  · intro h c hc c' hc' o ho ho'
    exact h c hc c' hc' (by rw [ho]; rfl) (ho.trans ho'.symm)

instance [DecidableEq ι] : Decidable (Coherent v) := decidable_of_iff _ coherent_iff.symm

theorem Coherent.of_mem (h : Coherent v) (hw : w ∈ v.visited) : Coherent w :=
  fun c hc c' hc' => h c (visited_trans hc hw) c' (visited_trans hc' hw)

theorem Coherent.not_inside (h : Coherent v) (hv : v.owner? = some o)
    (hw : w ∈ v.visited) (hlt : w.visited.length < v.visited.length) (hu : u ∈ w.visited) :
    u.owner? ≠ some o := by
  intro ho
  have heq := h u (visited_trans hu hw) v (mem_visited_self v) o ho hv
  have hle := (visited_sublist hu).length_le
  rw [heq] at hle
  omega

variable [DecidableEq ι]

def Value.parts : Value ι → RefKind → List (Value ι)
  | .array _ elements, .element => elements
  | .dict _ entries, .key => entries.map fun e => .scalar (.string e.1)
  | .dict _ entries, .value => entries.map Prod.snd
  | _, _ => []

def occurrences (v : Value ι) (o : Bool × ι) : List (Value ι) :=
  v.visited.filter fun c => c.owner? = some o

theorem targets_elementLinks (o : ι) (elements : List (Value ι)) (o' : Bool × ι) (kind : RefKind) :
    targets (elementLinks o elements) (some o') kind = elements.flatMap fun v =>
      targets v.links (some o') kind ++ if (false, o) = o' ∧ .element = kind then [v] else [] := by
  induction elements with
  | nil => rfl
  | cons v rest ih =>
    have hone : targets [⟨(false, o), .element, v⟩] (some o') kind =
        if (false, o) = o' ∧ .element = kind then [v] else [] := by
      by_cases h : (false, o) = o' ∧ element = kind <;> simp [targets, h]
    rw [elementLinks, flatMap_cons, ← ih, ← hone, ← targets_append, ← targets_append,
      append_assoc, singleton_append]

theorem targets_valueLinks (o : ι) (dict : List (Str × Value ι)) (o' : Bool × ι)
    (kind : RefKind) : targets (valueLinks o dict) (some o') kind = dict.flatMap fun e =>
      targets e.2.links (some o') kind ++
        if (true, o) = o' ∧ .value = kind then [e.2] else [] := by
  induction dict with
  | nil => rfl
  | cons e rest ih =>
    have hone : targets [⟨(true, o), .value, e.2⟩] (some o') kind =
        if (true, o) = o' ∧ .value = kind then [e.2] else [] := by
      by_cases h : (true, o) = o' ∧ value = kind <;> simp [targets, h]
    rw [valueLinks, flatMap_cons, ← ih, ← hone, ← targets_append, ← targets_append,
      append_assoc, singleton_append]

theorem targets_keyLinks (o : ι) (dict : List (Str × Value ι)) (o' : Bool × ι) (kind : RefKind) :
    targets (dict.map fun e => ⟨(true, o), .key, .scalar (.string e.1)⟩) (some o') kind =
      if (true, o) = o' ∧ .key = kind then dict.map fun e => .scalar (.string e.1) else [] := by
  by_cases h : (true, o) = o' ∧ key = kind
  · simp [targets, h, List.filter_map, comp_def]
  · simp [targets, h, List.filter_map, comp_def]

theorem occurrences_array (o : ι) (elements : List (Value ι)) (o' : Bool × ι) :
    occurrences (.array o elements) o' = (if (false, o) = o' then [.array o elements] else []) ++
      elements.flatMap fun v => occurrences v o' := by
  by_cases h : (false, o) = o' <;>
    simp [occurrences, Value.visited, Value.owner?, filter_flatMap, h]

theorem occurrences_dict (o : ι) (dict : List (Str × Value ι)) (o' : Bool × ι) :
    occurrences (.dict o dict) o' = (if (true, o) = o' then [.dict o dict] else []) ++
      dict.flatMap fun e => occurrences e.2 o' := by
  by_cases h : (true, o) = o' <;>
    simp [occurrences, Value.visited, Value.owner?, List.filter_flatMap, List.filter_map,
      comp_def, h]

theorem occurrences_eq_nil (h : ∀ u ∈ v.visited, u.owner? ≠ some o) :
    occurrences v o = [] := by
  simpa [occurrences] using h

/-- The links of the children, and those to them: nothing can be linked to an object between
the links to its own children. -/
theorem targets_children {o : Bool × ι}
    [Decidable p] (hlinks : ∀ v ∈ children, targets v.links (some o) kind =
      (occurrences v o).flatMap (·.parts kind))
    (hnone : p → ∀ v ∈ children, occurrences v o = []) :
    (children.flatMap fun v => targets v.links (some o) kind ++ if p then [v] else []) =
      (if p then children else []) ++
        (children.flatMap fun v => occurrences v o).flatMap (·.parts kind) := by
  rw [flatMap_assoc]
  by_cases hp : p
  · have hown : ∀ v ∈ children, (targets v.links (some o) kind ++ if p then [v] else []) = [v] := by
      intro v hv
      rw [hlinks v hv, hnone hp v hv, if_pos hp]
      rfl
    have hrest : (children.flatMap fun v => (occurrences v o).flatMap (·.parts kind)) = [] := by
      refine flatMap_eq_nil_iff.mpr fun v hv => ?_
      rw [hnone hp v hv, flatMap_nil]
    rw [flatMap_congr hown, hrest, if_pos hp, flatMap_singleton', append_nil]
  · simp only [hp, ↓reduceIte, append_nil, nil_append]
    exact flatMap_congr hlinks

/-- What is linked to an object is all it refers to, once for each place where it is. -/
theorem targets_links (h : Coherent v) (o : Bool × ι) (kind : RefKind) :
    targets v.links (some o) kind = (occurrences v o).flatMap (·.parts kind) := by
  induction v using Value.induct with
  | scalar s => rfl
  | array o' elements ih =>
    have hmem : ∀ v ∈ elements, v ∈ (Value.array o' elements).visited := fun v hv =>
      (visited_sublist_array hv).subset (mem_visited_self v)
    have hnone : (false, o') = o ∧ .element = kind → ∀ v ∈ elements, occurrences v o = [] := by
      rintro ⟨ho, -⟩ v hv
      refine occurrences_eq_nil fun u hu => h.not_inside (by rw [← ho]; rfl) (hmem v hv) ?_ hu
      have hle := (sublist_flatMap (f := Value.visited) hv).length_le
      simp only [Value.visited, visitedAll_eq, length_cons]
      omega
    rw [Value.links, targets_elementLinks, occurrences_array, flatMap_append,
      targets_children (fun v hv => ih v hv (h.of_mem (hmem v hv))) hnone]
    by_cases ho : (false, o') = o <;> cases kind <;> simp [ho, Value.parts]
  | dict o' dict ih =>
    have hmem : ∀ e ∈ dict, e.2 ∈ (Value.dict o' dict).visited := fun e he =>
      (visited_sublist_dict he).subset (mem_visited_self e.2)
    have hnone : (true, o') = o ∧ .value = kind →
        ∀ v ∈ dict.map snd, occurrences v o = [] := by
      rintro ⟨ho, -⟩ v hv
      obtain ⟨e, he, rfl⟩ := mem_map.mp hv
      refine occurrences_eq_nil fun u hu => h.not_inside (by rw [← ho]; rfl) (hmem e he) ?_ hu
      have hle := (sublist_flatMap (f := fun e : Str × Value ι => e.2.visited) he).length_le
      simp only [Value.visited, visitedValues_eq, cons_append, length_cons,
        length_append]
      omega
    have hlinks : ∀ v ∈ dict.map snd, targets v.links (some o) kind =
        (occurrences v o).flatMap (·.parts kind) := by
      intro v hv
      obtain ⟨e, he, rfl⟩ := mem_map.mp hv
      exact ih e he (h.of_mem (hmem e he))
    have hvalues := targets_children hlinks hnone
    rw [flatMap_map, flatMap_map] at hvalues
    rw [Value.links, targets_append, targets_keyLinks, targets_valueLinks, hvalues,
      occurrences_dict, flatMap_append, ← append_assoc]
    by_cases ho : (true, o') = o <;> cases kind <;> simp [ho, Value.parts]

theorem occurrences_eq_replicate (h : Coherent v) (hw : w ∈ v.visited)
    (ho : w.owner? = some o) : occurrences v o = replicate (occurrences v o).length w := by
  refine eq_replicate_iff.mpr ⟨rfl, fun c hc => ?_⟩
  simp only [occurrences, mem_filter, decide_eq_true_eq] at hc
  exact h c hc.1 w hw o hc.2 ho

theorem targets_links_replicate (h : Coherent v) (hw : w ∈ v.visited)
    (ho : w.owner? = some o) (kind : RefKind) : targets v.links (some o) kind =
      (replicate (occurrences v o).length (w.parts kind)).flatten := by
  rw [targets_links h, occurrences_eq_replicate h hw ho, flatMap_replicate,
    length_replicate]

theorem occurrences_pos (hw : w ∈ v.visited) (ho : w.owner? = some o) :
    0 < (occurrences v o).length :=
  length_pos_of_mem (mem_filter.mpr ⟨hw, by simpa using ho⟩)

end FridaCore.Fruity
