import FridaCore.Fruity.PlistCollect

/-!
# Distinct values

Values that compare equal share an entry, which has the first one of them. Comparing is
an equivalence but for reals that are not a number, which are equal to nothing, and the
zeros are the only values that it does not tell apart.
-/

namespace FridaCore.Fruity

open List Option Scalar

open BinaryWriter

def Scalar.isNan : Scalar → Bool
  | .float bits => isNanFloat bits
  | .double bits => isNanDouble bits
  | _ => false

def Scalar.isZero : Scalar → Bool
  | .float bits => bits &&& 0x7fffffff = 0
  | .double bits => bits &&& 0x7fffffffffffffff = 0
  | _ => false

def Scalar.unsigned : Scalar → Scalar
  | .float bits => .float (if bits &&& 0x7fffffff = 0 then 0 else bits)
  | .double bits => .double (if bits &&& 0x7fffffffffffffff = 0 then 0 else bits)
  | s => s

theorem or_and_eq_zero_float (a b m : UInt32) :
    (a ||| b) &&& m = 0 ↔ a &&& m = 0 ∧ b &&& m = 0 := by
  rw [← UInt32.or_eq_zero_iff, ← UInt32.toBitVec_inj, ← UInt32.toBitVec_inj]
  simp [BitVec.and_or_distrib_right]

theorem or_and_eq_zero_double (a b m : UInt64) :
    (a ||| b) &&& m = 0 ↔ a &&& m = 0 ∧ b &&& m = 0 := by
  rw [← UInt64.or_eq_zero_iff, ← UInt64.toBitVec_inj, ← UInt64.toBitVec_inj]
  simp [BitVec.and_or_distrib_right]

theorem isNan_eq_false_of_isZero {s : Scalar} (h : s.isZero = true) : s.isNan = false := by
  cases s <;> simp_all [isZero, isNan, isNanFloat, isNanDouble]

theorem floatEq_iff : floatEq a b = true ↔
    isNanFloat a = false ∧ (float a).unsigned = (float b).unsigned := by
  by_cases ha : a &&& 0x7fffffff = 0 <;> by_cases hb : b &&& 0x7fffffff = 0
  · simp [floatEq, isNanFloat, or_and_eq_zero_float, unsigned, ha, hb]
  · have hne : a ≠ b := fun h => hb (h ▸ ha)
    have hb0 : 0 ≠ b := fun h => hb (h ▸ rfl)
    simp [floatEq, or_and_eq_zero_float, unsigned, ha, hb, hne, hb0]
  · have hne : a ≠ b := fun h => ha (h ▸ hb)
    have ha0 : a ≠ 0 := fun h => ha (by simp [h])
    simp [floatEq, or_and_eq_zero_float, unsigned, ha, hb, hne, ha0]
  · simp only [floatEq, or_and_eq_zero_float, ha, hb, unsigned, ↓reduceIte]
    by_cases hab : a = b <;> simp [hab]

theorem doubleEq_iff : doubleEq a b = true ↔
    isNanDouble a = false ∧ (double a).unsigned = (double b).unsigned := by
  by_cases ha : a &&& 0x7fffffffffffffff = 0 <;> by_cases hb : b &&& 0x7fffffffffffffff = 0
  · simp [doubleEq, isNanDouble, or_and_eq_zero_double, unsigned, ha, hb]
  · have hne : a ≠ b := fun h => hb (h ▸ ha)
    have hb0 : 0 ≠ b := fun h => hb (h ▸ rfl)
    simp [doubleEq, or_and_eq_zero_double, unsigned, ha, hb, hne, hb0]
  · have hne : a ≠ b := fun h => ha (h ▸ hb)
    have ha0 : a ≠ 0 := fun h => ha (by simp [h])
    simp [doubleEq, or_and_eq_zero_double, unsigned, ha, hb, hne, ha0]
  · simp only [doubleEq, or_and_eq_zero_double, ha, hb, unsigned, ↓reduceIte]
    by_cases hab : a = b <;> simp [hab]

theorem compareEq_iff {a b : Scalar} :
    a.compareEq b = true ↔ a.isNan = false ∧ a.unsigned = b.unsigned := by
  have hsame : ∀ {p : Prop} [Decidable p] {x y : Scalar}, (x = y) = p → x.isNan = false →
      (decide p = true ↔ x.isNan = false ∧ x = y) := fun h hn => by simp [h, hn]
  cases a with
  | null =>
    cases b with
    | null => exact iff_of_true rfl ⟨rfl, rfl⟩
    | _ => exact iff_of_false Bool.false_ne_true fun h => nomatch h.2
  | boolean a =>
    cases b with
    | boolean b => exact hsame (boolean.injEq a b) rfl
    | _ => exact iff_of_false Bool.false_ne_true fun h => nomatch h.2
  | integer a =>
    cases b with
    | integer b => exact hsame (integer.injEq a b) rfl
    | _ => exact iff_of_false Bool.false_ne_true fun h => nomatch h.2
  | float a =>
    cases b with
    | float b => exact floatEq_iff
    | _ => exact iff_of_false Bool.false_ne_true fun h => nomatch h.2
  | double a =>
    cases b with
    | double b => exact doubleEq_iff
    | _ => exact iff_of_false Bool.false_ne_true fun h => nomatch h.2
  | date a =>
    cases b with
    | date b => exact hsame (date.injEq a b) rfl
    | _ => exact iff_of_false Bool.false_ne_true fun h => nomatch h.2
  | data a =>
    cases b with
    | data b => exact hsame (data.injEq a b) rfl
    | _ => exact iff_of_false Bool.false_ne_true fun h => nomatch h.2
  | string a =>
    cases b with
    | string b => exact hsame (string.injEq a b) rfl
    | _ => exact iff_of_false Bool.false_ne_true fun h => nomatch h.2
  | uid a =>
    cases b with
    | uid b => exact hsame (uid.injEq a b) rfl
    | _ => exact iff_of_false Bool.false_ne_true fun h => nomatch h.2

theorem isNan_unsigned (s : Scalar) : s.unsigned.isNan = s.isNan := by
  cases s with
  | float bits =>
    by_cases h : bits &&& 0x7fffffff = 0 <;> simp [unsigned, isNan, isNanFloat, h]
  | double bits =>
    by_cases h : bits &&& 0x7fffffffffffffff = 0 <;>
      simp [unsigned, isNan, isNanDouble, h]
  | _ => rfl

theorem unsigned_eq_iff {a b : Scalar} (h : b.isZero = false) :
    a.unsigned = b.unsigned ↔ a = b := by
  cases b with
  | float b =>
    have hb : ¬b &&& 0x7fffffff = 0 := by simpa [isZero] using h
    cases a with
    | float a =>
      have hb0 : 0 ≠ b := fun h => hb (h ▸ rfl)
      by_cases ha : a &&& 0x7fffffff = 0
      · have hne : a ≠ b := fun h => hb (h ▸ ha)
        simp [unsigned, ha, hb, hb0, hne]
      · simp [unsigned, ha, hb]
    | _ => simp [unsigned]
  | double b =>
    have hb : ¬b &&& 0x7fffffffffffffff = 0 := by simpa [isZero] using h
    cases a with
    | double a =>
      have hb0 : 0 ≠ b := fun h => hb (h ▸ rfl)
      by_cases ha : a &&& 0x7fffffffffffffff = 0
      · have hne : a ≠ b := fun h => hb (h ▸ ha)
        simp [unsigned, ha, hb, hb0, hne]
      · simp [unsigned, ha, hb]
    | _ => simp [unsigned]
  | _ => cases a <;> simp [unsigned]

variable {u v w : Value Nat}

theorem compareValuesEq_symm (h : compareValuesEq v w = true) : compareValuesEq w v = true := by
  cases v <;> cases w <;> simp_all [compareValuesEq, compareEq_iff]
  next a b => rw [← isNan_unsigned, ← h.2, isNan_unsigned, h.1]

theorem compareValuesEq_trans (h : compareValuesEq u v = true) (h' : compareValuesEq v w = true) :
    compareValuesEq u w = true := by
  cases u <;> cases v <;> cases w <;> simp_all [compareValuesEq, compareEq_iff]

theorem find?_insertValue (vs rest : List (Value Nat)) (v w : Value Nat) :
    (insertValue vs w ++ rest).find? (fun u => compareValuesEq u v) =
      (vs ++ w :: rest).find? (fun u => compareValuesEq u v) := by
  unfold insertValue
  split
  · next hany =>
    -- what compares equal to the one that is left out comes before it
    obtain ⟨u, hu, huw⟩ := any_eq_true.mp hany
    by_cases hw : compareValuesEq w v = true
    · have hsome : (vs.find? fun u => compareValuesEq u v).isSome :=
        find?_isSome.mpr ⟨u, hu, compareValuesEq_trans huw hw⟩
      obtain ⟨found, hfound⟩ := isSome_iff_exists.mp hsome
      simp [hfound]
    · simp [hw]
  · simp

theorem find?_foldl_insertValue (vs rest : List (Value Nat)) (v : Value Nat) :
    (rest.foldl insertValue vs).find? (fun u => compareValuesEq u v) =
      (vs ++ rest).find? (fun u => compareValuesEq u v) := by
  induction rest generalizing vs with
  | nil => rw [append_nil, foldl_nil]
  | cons w rest ih => rw [foldl_cons, ih, find?_insertValue]

theorem find?_distinct (vs : List (Value Nat)) (v : Value Nat) :
    (distinct vs).find? (fun u => compareValuesEq u v) =
      vs.find? (fun u => compareValuesEq u v) :=
  find?_foldl_insertValue [] vs v

theorem foldl_insertValue_induct {P : List (Value Nat) → Prop}
    (hstep : ∀ vs w, P vs → P (insertValue vs w)) (vs rest : List (Value Nat)) (h : P vs) :
    P (rest.foldl insertValue vs) := by
  induction rest generalizing vs with
  | nil => exact h
  | cons w rest ih => exact ih _ (hstep vs w h)

theorem pairwise_distinct (vs : List (Value Nat)) :
    (distinct vs).Pairwise fun a b => compareValuesEq a b = false := by
  refine foldl_insertValue_induct (fun vs w h => ?_) [] vs .nil
  unfold insertValue
  split
  · exact h
  · next hany =>
    exact List.pairwise_append.mpr ⟨h, List.pairwise_singleton _ _, by simpa using hany⟩

theorem length_distinct_le (vs : List (Value Nat)) : (distinct vs).length ≤ vs.length := by
  have hall : ∀ acc : List (Value Nat),
      (vs.foldl insertValue acc).length ≤ acc.length + vs.length := by
    induction vs with
    | nil => exact fun acc => Nat.le_refl _
    | cons v rest ih =>
      intro acc
      have hone : (insertValue acc v).length ≤ acc.length + 1 := by
        unfold insertValue
        split_ifs <;> simp
      have hrest := ih (insertValue acc v)
      rw [foldl_cons, length_cons]
      omega
  exact (hall []).trans_eq (Nat.zero_add _)

theorem mem_of_mem_distinct (h : v ∈ distinct vs) : v ∈ vs := by
  have hall : ∀ (vs rest : List (Value Nat)), v ∈ rest.foldl insertValue vs → v ∈ vs ∨ v ∈ rest := by
    intro vs rest
    induction rest generalizing vs with
    | nil => exact .inl
    | cons w rest ih =>
      intro hv
      rcases ih _ hv with hv | hv
      · unfold insertValue at hv
        split at hv
        · exact .inl hv
        · rcases mem_append.mp hv with hv | hv
          · exact .inl hv
          · exact .inr (mem_cons.mpr (.inl (mem_singleton.mp hv)))
      · exact .inr (mem_cons_of_mem w hv)
  simpa using hall [] vs h

theorem find?_eq_of_pairwise {vs : List (Value Nat)} {id : Nat}
    (h : vs.Pairwise fun a b => compareValuesEq a b = false) (hid : vs[id]? = some u)
    (huv : compareValuesEq u v = true) : vs.find? (fun w => compareValuesEq w v) = some u := by
  induction vs generalizing id with
  | nil => cases hid
  | cons w rest ih =>
    rw [pairwise_cons] at h
    cases id with
    | zero =>
      cases hid
      exact find?_cons_of_pos huv
    | succ id =>
      have hwv : ¬compareValuesEq w v = true := fun hwv => by
        have hwu := compareValuesEq_trans hwv (compareValuesEq_symm huv)
        rw [h.1 u (mem_of_getElem? hid)] at hwu
        cases hwu
      simpa [hwv] using ih h.2 hid

/-- Values that do not compare equal to each other are no more than the distinct ones. -/
theorem length_le_distinct {vs ws : List (Value Nat)}
    (h : ws.Pairwise fun a b => compareValuesEq a b = false)
    (hself : ∀ w ∈ ws, compareValuesEq w w = true) (hmem : ws ⊆ vs) :
    ws.length ≤ (distinct vs).length := by
  have hfound : ∀ w ∈ ws, ∃ u, (distinct vs).find? (fun u => compareValuesEq u w) = some u := by
    intro w hw
    rw [find?_distinct]
    exact isSome_iff_exists.mp (find?_isSome.mpr ⟨w, hmem hw, hself w hw⟩)
  -- each value is sent to the one that it is written as
  let first := fun w => ((distinct vs).find? fun u => compareValuesEq u w).getD w
  have hfirst : ∀ w ∈ ws, first w ∈ distinct vs ∧ compareValuesEq (first w) w = true := by
    intro w hw
    obtain ⟨u, hu⟩ := hfound w hw
    have heq : first w = u := by simp only [first, hu, getD_some]
    have hsame := find?_some hu
    rw [heq]
    exact ⟨mem_of_find?_eq_some hu, hsame⟩
  have hnodup : (ws.map first).Nodup := by
    refine pairwise_map.mpr (h.imp_of_mem fun {a b} ha hb hab heq => ?_)
    have hsame := compareValuesEq_trans (compareValuesEq_symm (hfirst a ha).2)
      (heq ▸ (hfirst b hb).2)
    rw [hab] at hsame
    cases hsame
  have hsub : ws.map first ⊆ distinct vs := by
    intro u hu
    obtain ⟨w, hw, rfl⟩ := mem_map.mp hu
    exact (hfirst w hw).1
  simpa using (subperm_of_subset hnodup hsub).length_le

/-- The scalar that is written for one: the first that it compares equal to. -/
def representative (vs : List (Value Nat)) (s : Scalar) : Scalar :=
  match vs.find? fun v => compareValuesEq v (.scalar s) with
  | some (.scalar first) => first
  | _ => s

theorem stands_scalar {entries : List Entry} {id : Nat}
    (h : Stands entries id (.scalar s)) (hvalues : entries.map Entry.val = distinct vs) :
    ∃ e, entries[id]? = some e ∧ e.val = .scalar (representative vs s) := by
  obtain ⟨e, he, hsame⟩ := h
  have hval : (distinct vs)[id]? = some e.val := by rw [← hvalues, getElem?_map, he]; rfl
  refine ⟨e, he, ?_⟩
  by_cases hcmp : compareValuesEq e.val (.scalar s) = true
  · have hfind := find?_eq_of_pairwise (pairwise_distinct vs) hval hcmp
    rw [find?_distinct] at hfind
    cases hv : e.val with
    | scalar first => rw [representative, hfind, hv]
    | array | dict => rw [hv] at hcmp; cases hcmp
  · -- not a number: there is nothing it compares equal to
    have hself : e.val = .scalar s := hsame.resolve_right hcmp
    have hnone : (vs.find? fun v => compareValuesEq v (.scalar s)) = none := by
      refine find?_eq_none.mpr fun v _ hv => hcmp ?_
      rw [hself]
      exact compareValuesEq_trans (compareValuesEq_symm hv) hv
    rw [hself, representative, hnone]

theorem representative_cases (vs : List (Value Nat)) (s : Scalar) :
    representative vs s = s ∨
      .scalar (representative vs s) ∈ vs ∧ (representative vs s).compareEq s = true := by
  unfold representative
  split
  · next first hfind =>
    have hcmp := find?_some hfind
    exact .inr ⟨mem_of_find?_eq_some hfind, by simpa [compareValuesEq] using hcmp⟩
  · exact .inl rfl

theorem representative_of_not_zero (h : s.isZero = false) :
    representative vs s = s := by
  rcases representative_cases vs s with hself | ⟨-, hcmp⟩
  · exact hself
  · exact (unsigned_eq_iff h).mp (compareEq_iff.mp hcmp).2

end FridaCore.Fruity
