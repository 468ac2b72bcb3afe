import Mathlib

/-!
# Sets that index an owner

Every item has an owner or none, and some keys have a set. The sets index the owners when the set
of a key holds exactly the items that the key owns and a key without a set owns nothing. A key
that is removed loses its set first and its items one by one.
-/

namespace FridaCore.Ownership

open Function

variable {κ ι : Type*} [DecidableEq κ] [DecidableEq ι]
variable {sets : κ → Option (Finset ι)} {owner : ι → Option κ} {k : κ} {i : ι}

def Indexes (sets : κ → Option (Finset ι)) (owner : ι → Option κ) : Prop :=
  ∀ k i, i ∈ (sets k).getD ∅ ↔ owner i = some k

def change (sets : κ → Option (Finset ι)) : Option κ → (Finset ι → Finset ι) →
    κ → Option (Finset ι)
  | none, _ => sets
  | some k, f => Function.update sets k ((sets k).map f)

omit [DecidableEq ι] in
@[simp] theorem change_eq_none :
    change sets key f k = none ↔ sets k = none := by
  cases key with
  | none => rfl
  | some key =>
    by_cases hk : k = key
    · subst hk
      simp [change]
    · simp [change, hk]

omit [DecidableEq ι] in
theorem change_of_none (hk : sets k = none) :
    change sets (some k) f = sets := by
  simp [change, hk, update_eq_self_iff]

omit [DecidableEq κ] [DecidableEq ι] in
theorem indexes_iff : Indexes sets owner ↔
    (∀ k items, sets k = some items → ∀ i, i ∈ items ↔ owner i = some k) ∧
      ∀ i k, owner i = some k → sets k ≠ none := by
  constructor
  · intro h
    refine ⟨fun k items hk i => ?_, fun i k hi hk => ?_⟩
    · simpa [hk] using h k i
    · simpa [hk] using (h k i).mpr hi
  · rintro ⟨hitems, hkeys⟩ k i
    cases hk : sets k with
    | none => simpa using fun hi => hkeys i k hi hk
    | some items => simpa using hitems k items hk i

omit [DecidableEq κ] [DecidableEq ι] in
theorem indexes_bind_iff {entries : ι → Option ε} {f : ε → Option κ} :
    Indexes sets (fun i => (entries i).bind f) ↔
      (∀ k items, sets k = some items →
        ∀ i, i ∈ items ↔ ∃ e, entries i = some e ∧ f e = some k) ∧
      ∀ i e, entries i = some e → ∀ k, f e = some k → (sets k).isSome := by
  simp only [indexes_iff, Option.bind_eq_some_iff, forall_exists_index, and_imp,
    Option.isSome_iff_ne_none]
  exact and_congr_right fun _ => ⟨fun h i e he k => h i k e he, fun h i k e he => h i e he k⟩

omit [DecidableEq κ] [DecidableEq ι] in
theorem Indexes.owner_ne (h : Indexes sets owner) (hk : sets k = none) (i : ι) :
    owner i ≠ some k := by
  intro hi
  simpa [hk] using (h k i).mpr hi

omit [DecidableEq ι] in
theorem Indexes.add (h : Indexes sets owner) (hk : sets k = none) :
    Indexes (update sets k (some ∅)) owner := by
  intro k' i
  by_cases hkey : k' = k
  · subst hkey
    simpa using h.owner_ne hk i
  · simpa [hkey] using h k' i

theorem Indexes.assign (h : Indexes sets owner) (hi : owner i = none) (hk : sets k ≠ none) :
    Indexes (change sets (some k) (insert i)) (update owner i (some k)) := by
  obtain ⟨items, hitems⟩ := Option.ne_none_iff_exists'.mp hk
  intro k' i'
  have hold := h k' i'
  by_cases hkey : k' = k <;> by_cases hitem : i' = i
  · subst hkey hitem
    simp [change, hitems]
  · subst hkey
    simpa [change, hitems, hitem] using hold
  · subst hitem
    simpa [change, hkey, hi, Ne.symm hkey] using hold
  · simpa [change, hkey, hitem] using hold

theorem Indexes.assign_iff (h : Indexes sets owner) (hi : owner i = none) :
    Indexes (change sets (some k) (insert i)) (update owner i (some k)) ↔ sets k ≠ none := by
  refine ⟨fun hafter => ?_, h.assign hi⟩
  simpa using (indexes_iff.mp hafter).2 i k (update_self ..)

theorem Indexes.insert_iff (h : Indexes sets owner) (hi : owner i = none) :
    Indexes (change sets (some k) (insert i)) owner ↔ sets k = none := by
  refine ⟨fun hafter => ?_, fun hk => by rwa [change_of_none hk]⟩
  by_contra hk
  obtain ⟨items, hitems⟩ := Option.ne_none_iff_exists'.mp hk
  have hin := (hafter k i).mp (by simp [change, hitems])
  cases hi.symm.trans hin

theorem Indexes.clear (h : Indexes sets owner) (i : ι) :
    Indexes (change sets (owner i) (·.erase i)) (update owner i none) := by
  intro k' i'
  have hold := h k' i'
  cases hi : owner i with
  | none =>
    rw [← hi, update_eq_self]
    exact hi ▸ hold
  | some k =>
    by_cases hitem : i' = i
    · subst hitem
      by_cases hkey : k' = k
      · subst hkey
        cases hk : sets k' <;> simp [change, hk]
      · simpa [change, hkey, hi, Ne.symm hkey] using hold
    · by_cases hkey : k' = k
      · subst hkey
        cases hk : sets k' <;> simpa [change, hk, hitem] using hold
      · simpa [change, hkey, hitem] using hold

/-- An item keeps its owner, gets one or loses its own, and the sets follow. -/
inductive Reassigns (sets : κ → Option (Finset ι)) (owner : ι → Option κ) (i : ι) :
    Option κ → (κ → Option (Finset ι)) → Prop
  | same : owner i = now → Reassigns sets owner i now sets
  | assign : owner i = none → sets new ≠ none →
    Reassigns sets owner i (some new) (change sets (some new) (insert i))
  | clear : after = change sets (owner i) (·.erase i) → Reassigns sets owner i none after

theorem Reassigns.indexes (hr : Reassigns sets owner i now after) (h : Indexes sets owner) :
    Indexes after (update owner i now) := by
  cases hr with
  | same hnow =>
    rw [← hnow, update_eq_self]
    exact h
  | assign hi hk => exact h.assign hi hk
  | clear hafter =>
    rw [hafter]
    exact h.clear i

theorem Reassigns.eq_none
    (hr : Reassigns sets owner i now after) (h : sets k = none) : after k = none := by
  cases hr with
  | same => exact h
  | assign => exact change_eq_none.mpr h
  | clear hafter =>
    rw [hafter]
    exact change_eq_none.mpr h

structure IndexesBut (k : κ) (rest : Finset ι) (sets : κ → Option (Finset ι))
    (owner : ι → Option κ) : Prop where
  removed : sets k = none
  indexes : Indexes (Function.update sets k (some rest)) owner

omit [DecidableEq ι] in
theorem Indexes.remove (h : Indexes sets owner) (hk : sets k = some items) :
    IndexesBut k items (update sets k none) owner where
  removed := update_self ..
  indexes := by
    rw [update_idem, ← hk, update_eq_self]
    exact h

section
variable {rest : Finset ι}

omit [DecidableEq ι] in
theorem IndexesBut.owner_eq (h : IndexesBut k rest sets owner) (hi : i ∈ rest) :
    owner i = some k := (h.indexes k i).mp (by simpa using hi)

theorem IndexesBut.clear (h : IndexesBut k rest sets owner) (hi : i ∈ rest) :
    IndexesBut k (rest.erase i) sets (update owner i none) where
  removed := h.removed
  indexes := by
    have hcleared := h.indexes.clear i
    rw [h.owner_eq hi] at hcleared
    simpa [change] using hcleared

omit [DecidableEq ι] in
theorem IndexesBut.done (h : IndexesBut k ∅ sets owner) : Indexes sets owner := by
  intro k' i
  have hold := h.indexes k' i
  by_cases hkey : k' = k
  · subst hkey
    simpa [h.removed] using hold
  · simpa [hkey] using hold

end

/-- A loop over the items of a set, where every round is about what remains of it. -/
theorem foldl_rest [LinearOrder ι] {M : Finset ι → σ → Prop}
    (hf : ∀ rest t i, M rest t → i ∈ rest → M (rest.erase i) (f t i))
    (items : Finset ι) (t : σ) (h : M items t) :
    M ∅ ((items.sort (· ≤ ·)).foldl f t) := by
  have hlist : ∀ (l : List ι) t, l.Nodup → M l.toFinset t → M ∅ (l.foldl f t) := by
    intro l
    induction l with
    | nil => exact fun t _ h => h
    | cons i l ih =>
      intro t hnodup h
      obtain ⟨hi, hrest⟩ := List.nodup_cons.mp hnodup
      refine ih _ hrest ?_
      have hround := hf _ t i h (by simp)
      rwa [List.toFinset_cons, Finset.erase_insert (by simpa using hi)] at hround
  refine hlist _ t (items.sort_nodup (· ≤ ·)) ?_
  rwa [Finset.sort_toFinset]

end FridaCore.Ownership
