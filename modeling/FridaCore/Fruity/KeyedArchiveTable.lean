import FridaCore.Fruity.KeyedArchive

/-!
# The table of an archive

Encoding an object adds to the table, and fills the dicts it has added. Numbers and strings
are in it once, no array or dict is in two places, and all positions that are referred to
are in the table. An object is found again at the position that encoding it gave.
-/

namespace FridaCore.Fruity

open List Option Function Prod NSObject Str

/-- `encoders` has the type of the object. -/
def NSObject.hasEncoder : NSObject → Bool
  | .number _ | .string _ | .dictionary _ | .array _ | .set _ => true
  | _ => false

section
variable {P : NSObject → Prop}

@[elab_as_elim]
theorem NSObject.induct (null : P .null) (number : ∀ n, P (.number n))
    (string : ∀ str, P (.string str))
    (dictionary : ∀ entries, (∀ e ∈ entries, P e.2) → P (.dictionary entries))
    (array : ∀ elements, (∀ v ∈ elements, P v) → P (.array elements))
    (set : ∀ items, (∀ v ∈ items, P v) → P (.set items))
    (other : ∀ v, v ≠ .null → v.hasEncoder = false → P v) (v : NSObject) : P v := by
  refine @NSObject.rec P (fun es => ∀ e ∈ es, P e.2) (fun _ => True) (fun vs => ∀ v ∈ vs, P v)
    (fun e => P e.2) (fun _ => True) null number string
    (fun bytes => other (.data bytes) NSObject.noConfusion rfl) dictionary
    (fun es _ => other (.dictionaryRaw es) NSObject.noConfusion rfl) array set
    (fun time => other (.date time) NSObject.noConfusion rfl)
    (fun domain code info _ => other (.error domain code info) NSObject.noConfusion rfl)
    (fun plist _ => other (.tapMessage plist) NSObject.noConfusion rfl) (by simp) ?_ trivial
    (fun _ _ _ _ => trivial) (by simp) ?_ (fun _ _ h => h) (fun _ _ _ _ => trivial) v
  · exact fun e es he hes => forall_mem_cons.mpr ⟨he, hes⟩
  · exact fun v vs hv hvs => forall_mem_cons.mpr ⟨hv, hvs⟩

end

mutual
def NSObject.parts : NSObject → List NSObject
  | .dictionary entries => .dictionary entries :: partsOfEntries entries
  | .array elements => .array elements :: partsOfAll elements
  | .set items => .set items :: partsOfAll items
  | v => [v]
def partsOfAll : List NSObject → List NSObject
  | [] => []
  | v :: rest => v.parts ++ partsOfAll rest
def partsOfEntries : List (Str × NSObject) → List NSObject
  | [] => []
  | (_, v) :: rest => v.parts ++ partsOfEntries rest
end

@[simp] theorem partsOfAll_eq (vs : List NSObject) :
    partsOfAll vs = vs.flatMap parts := by
  induction vs with
  | nil => rfl
  | cons v rest ih => simp [partsOfAll, ih]

@[simp] theorem partsOfEntries_eq (es : List (Str × NSObject)) :
    partsOfEntries es = es.flatMap fun e => e.2.parts := by
  induction es with
  | nil => rfl
  | cons e rest ih => simp [partsOfEntries, ih]

theorem NSObject.parts_entry (he : e ∈ es) :
    e.2.parts ⊆ (dictionary es).parts := by
  intro w hw
  rw [parts, partsOfEntries_eq]
  exact mem_cons_of_mem _ (mem_flatMap.mpr ⟨e, he, hw⟩)

theorem NSObject.parts_element (hv : v ∈ vs) :
    v.parts ⊆ (array vs).parts ∧ v.parts ⊆ (set vs).parts := by
  have hmem : v.parts ⊆ partsOfAll vs := by
    intro w hw
    rw [partsOfAll_eq]
    exact mem_flatMap.mpr ⟨v, hv, hw⟩
  exact ⟨subset_cons_of_subset _ hmem, subset_cons_of_subset _ hmem⟩

theorem NSObject.mem_parts_self (v : NSObject) : v ∈ v.parts := by
  cases v <;> simp [parts]

namespace NSKeyedArchive

def numberScalar : NSNumber → Option Scalar
  | .boolean val => some (.boolean val)
  | .integer val => some (.integer val)
  | .float bits => (NSNumber.float bits).toInteger.map fun i =>
      .float (.ofNat (BinaryFormat.binary32.ofInt i.toInt))
  | .double bits => (NSNumber.double bits).toInteger.map fun i =>
      .double (.ofNat (BinaryFormat.binary64.ofInt i.toInt))

def ownScalars : NSObject → List Scalar
  | .number n => (numberScalar n).toList
  | .string str => [.string str]
  | .dictionary entries => entries.map fun e => .string e.1
  | _ => []

section
variable {ctx ctx' : EncodingContext} {uid : Nat}

theorem bind_eq_some {f : α → Encoding β} :
    (x >>= f) ctx = some r ↔ ∃ a ctx', x ctx = some (a, ctx') ∧ f a ctx' = some r := by
  simp [bind, StateT.bind, bind_eq_some_iff]

theorem pure_eq_some :
    (pure a : Encoding α) ctx = some (b, ctx') ↔ b = a ∧ ctx' = ctx := by
  simp [pure, StateT.pure, eq_comm]

theorem encodeNumber_eq (n : NSNumber) :
    encodeNumber n ctx = (numberScalar n).bind fun s => encodeScalar s ctx := by
  cases n with
  | boolean val | integer val => rfl
  | float bits =>
    simp only [encodeNumber, numberScalar, bind_map]
    cases (NSNumber.float bits).toInteger <;> rfl
  | double bits =>
    simp only [encodeNumber, numberScalar, bind_map]
    cases (NSNumber.double bits).toInteger <;> rfl

theorem encodeScalar_eq (s : Scalar) : encodeScalar s ctx =
    match findExistingObject (fun e => compareValuesEq e (.scalar s)) ctx.objects with
    | some uid => some (uid, ctx)
    | none => some (ctx.objects.length, { ctx with objects := ctx.objects ++ [.scalar s] }) := by
  change (match findExistingObject (fun e => compareValuesEq e (.scalar s)) ctx.objects with
    | some uid => pure uid
    | none => addObject (.scalar s) : Encoding Nat) ctx = _
  cases findExistingObject (fun e => compareValuesEq e (.scalar s)) ctx.objects <;> rfl

theorem newObject_apply : newObject ctx = some (ctx.next, { ctx with next := ctx.next + 1 }) := rfl

theorem addObject_apply (obj : Value Nat) : addObject obj ctx =
    some (ctx.objects.length, { ctx with objects := ctx.objects ++ [obj] }) := rfl

theorem setObject_apply (obj : Value Nat) : setObject uid obj ctx =
    some ((), { ctx with objects := ctx.objects.set uid obj }) := rfl

variable [HashOrder]

theorem getClass_eq (description : List String) : getClass description ctx =
    match ctx.classes.lookup (description.headD "") with
    | some uid => some (uid, ctx)
    | none => some (ctx.objects.length,
      { objects := ctx.objects ++ [classSpec ctx.next (ctx.next + 1) description]
        classes := (description.headD "", ctx.objects.length) :: ctx.classes
        next := ctx.next + 2 }) := by
  cases h : ctx.classes.lookup (description.headD "") with
  | some uid | none =>
    refine bind_eq_some.mpr ⟨ctx, ctx, rfl, ?_⟩
    simp only [h]
    rfl

theorem encodeElements_eq_some {encodeAll : Encoding (List Nat)} :
    encodeElements description encodeAll ctx = some (uid, ctx') ↔
      ∃ uids ctx₁ cls ctx₂,
        encodeAll { ctx with objects := ctx.objects ++ [.dict ctx.next []], next := ctx.next + 2 } =
          some (uids, ctx₁) ∧
        getClass description ctx₁ = some (cls, ctx₂) ∧ uid = ctx.objects.length ∧
        ctx' = { ctx₂ with objects := ctx₂.objects.set ctx.objects.length (newDict ctx.next
          [("NS.objects", .array (ctx.next + 1) (uids.map uidValue)),
            ("$class", uidValue cls)]) } := by
  simp only [encodeElements, bind_eq_some, newObject_apply, addObject_apply, setObject_apply,
    pure_eq_some, some.injEq, mk.injEq, ↓existsAndEq, and_true, true_and, exists_const,
    exists_and_left, Nat.add_assoc, Nat.reduceAdd]

theorem encodeDictionary_eq_some {encodeEntries : Encoding (List (Nat × Nat))} :
    encodeDictionary encodeEntries ctx = some (uid, ctx') ↔
      ∃ uids ctx₁ cls ctx₂,
        encodeEntries
          { ctx with objects := ctx.objects ++ [.dict ctx.next []], next := ctx.next + 3 } =
          some (uids, ctx₁) ∧
        getClass dictionaryClass ctx₁ = some (cls, ctx₂) ∧ uid = ctx.objects.length ∧
        ctx' = { ctx₂ with objects := ctx₂.objects.set ctx.objects.length (newDict ctx.next
          [("NS.keys", .array (ctx.next + 1) (uids.map fun e => uidValue e.1)),
            ("NS.objects", .array (ctx.next + 2) (uids.map fun e => uidValue e.2)),
            ("$class", uidValue cls)]) } := by
  simp only [encodeDictionary, bind_eq_some, newObject_apply, addObject_apply, setObject_apply,
    pure_eq_some, some.injEq, mk.injEq, ↓existsAndEq, and_true, true_and, exists_const,
    exists_and_left, Nat.add_assoc, Nat.reduceAdd]

end

def owners (vs : List (Value Nat)) : List (Bool × Nat) := (visitedAll vs).filterMap Value.owner?

@[simp] theorem owners_nil : owners [] = [] := rfl

@[simp] theorem owners_append (vs ws : List (Value Nat)) :
    owners (vs ++ ws) = owners vs ++ owners ws := by
  simp [owners]

theorem owners_cons (v : Value Nat) (vs : List (Value Nat)) :
    owners (v :: vs) = owners [v] ++ owners vs :=
  owners_append [v] vs

@[simp] theorem owners_scalar (s : Scalar) : owners [.scalar s] = [] := rfl

def topScalar : Value Nat → Option Scalar
  | .scalar s => some s
  | _ => none

def scalarsOf (vs : List (Value Nat)) : List Scalar := vs.filterMap topScalar

def Refines (before after : List (Value Nat)) : Prop :=
  ∀ (i : Nat) v, before[i]? = some v → (∀ id, v ≠ .dict id []) → after[i]? = some v

theorem refines_append (vs ws : List (Value Nat)) : Refines vs (vs ++ ws) := by
  intro i v hv _
  rw [List.getElem?_append_left (List.getElem?_eq_some_iff.mp hv).1, hv]

theorem refines_fill (vs ws : List (Value Nat)) (id : Nat) (v : Value Nat) :
    Refines (vs ++ .dict id [] :: ws) (vs ++ v :: ws) := by
  intro i w hw hne
  rcases Nat.lt_trichotomy i vs.length with hi | rfl | hi
  · rwa [getElem?_append_left hi] at hw ⊢
  · rw [getElem?_append_right (Nat.le_refl _), Nat.sub_self] at hw
    exact absurd (some_inj.mp hw).symm (hne id)
  · obtain ⟨k, rfl⟩ : ∃ k, i = vs.length + (k + 1) := ⟨i - vs.length - 1, by omega⟩
    rw [getElem?_append_right (by omega), Nat.add_sub_cancel_left] at hw ⊢
    exact hw

section
variable [HashOrder] {id hierarchy : Nat} {entries : List (String × Value Nat)}
  {description : List String}

theorem mem_visited_newDict : w ∈ (newDict id entries).visited ↔
    w = newDict id entries ∨ (∃ e ∈ entries, w = .scalar (.string (.ofString e.1))) ∨
      ∃ e ∈ entries, w ∈ e.2.visited := by
  have hmem : ∀ e, e ∈ HashOrder.iterate (entries.map fun e => (ofString e.1, e.2)) ↔
      e ∈ entries.map fun e => (ofString e.1, e.2) := fun e => (HashOrder.perm _).mem_iff
  rw [newDict, Value.visited, visitedValues_eq, List.cons_append, List.mem_cons, List.mem_append,
    List.mem_map, List.mem_flatMap]
  simp only [hmem, List.mem_map, exists_exists_and_eq_and]
  simp only [eq_comm]

theorem owners_newDict (id : Nat) (entries : List (String × Value Nat)) :
    (owners [newDict id entries]).Perm ((true, id) :: owners (entries.map snd)) := by
  have hperm := (HashOrder.perm (entries.map fun e => (ofString e.1, e.2))).flatMap_right
    fun e => e.2.visited.filterMap Value.owner?
  have hkeys : ∀ l : List (Str × Value Nat),
      (l.map fun e => (Value.scalar (.string e.1) : Value Nat)).filterMap Value.owner? = [] := by
    simp [filterMap_map, comp_def, Value.owner?]
  simp only [owners, visitedAll_eq, newDict, flatMap_cons, flatMap_nil, append_nil,
    Value.visited, visitedValues_eq, cons_append, filterMap_cons, Value.owner?,
    filterMap_append, hkeys, nil_append, filterMap_flatMap]
  refine (hperm.trans ?_).cons _
  simp [flatMap_map]

theorem scalars_newDict {Q : Scalar → Prop} (hkeys : ∀ e ∈ entries, Q (.string (.ofString e.1)))
    (hvalues : ∀ e ∈ entries, ∀ s, .scalar s ∈ e.2.visited → Q s)
    (hs : .scalar s ∈ (newDict id entries).visited) : Q s := by
  rcases mem_visited_newDict.mp hs with hs | ⟨e, he, hs⟩ | ⟨e, he, hs⟩
  · cases hs
  · cases hs
    exact hkeys e he
  · exact hvalues e he s hs

theorem keys_newDict (h : .dict o dict ∈ (newDict id entries).visited)
    (hnames : ((entries.map fst).map ofString).Nodup)
    (hvalues : ∀ e ∈ entries, ∀ o dict, .dict o dict ∈ e.2.visited → (dict.map fst).Nodup) :
    (dict.map fst).Nodup := by
  rcases mem_visited_newDict.mp h with h | ⟨e, he, h⟩ | ⟨e, he, h⟩
  · cases h
    refine ((HashOrder.perm _).map fst).nodup_iff.mpr ?_
    rw [List.map_map] at hnames ⊢
    exact hnames
  · cases h
  · exact hvalues e he o dict h

theorem newDict_ne_empty (h : entries ≠ []) (id' : Nat) : newDict id entries ≠ .dict id' [] := by
  intro heq
  have hlen := (HashOrder.perm (entries.map fun e => (ofString e.1, e.2))).length_eq
  rw [newDict, Value.dict.injEq] at heq
  rw [heq.2, length_nil, length_map] at hlen
  exact h (length_eq_zero_iff.mp hlen.symm)

end

def names : List String :=
  ["$null", "$classes", "$classname", "NSDictionary", "NSArray", "NSSet", "NSObject", "NS.keys",
    "NS.objects", "$class", "$version", "$objects", "$archiver", "NSKeyedArchiver", "$top", "root"]

def descriptions : List (List String) := [dictionaryClass, arrayClass, setClass]

theorem mem_descriptions_inj (h : d ∈ descriptions) (h' : d' ∈ descriptions)
    (heq : d.headD "" = d'.headD "") : d = d' := by
  simp only [descriptions, mem_cons, not_mem_nil, or_false] at h h'
  rcases h with rfl | rfl | rfl <;> rcases h' with rfl | rfl | rfl <;>
    first | rfl | exact absurd heq (by decide)

theorem names_of_mem_descriptions (h : d ∈ descriptions) :
    (∀ name ∈ d, name ∈ names) ∧ d.headD "" ∈ names := by
  simp only [descriptions, mem_cons, not_mem_nil, or_false] at h
  rcases h with rfl | rfl | rfl <;> decide

/-- A property of the numbers and strings that are archived. Those that compare equal are the
same. -/
structure Admits (P : Scalar → Prop) : Prop where
  unsigned : ∀ s, P s → s.unsigned = s
  notNan : ∀ s, P s → s.isNan = false
  names : ∀ name ∈ names, P (.string (.ofString name))

structure Tidy [HashOrder] (P : Scalar → Prop) (ctx : EncodingContext) : Prop where
  nonempty : 0 < ctx.objects.length
  nodup : (owners ctx.objects).Nodup
  below : ∀ o ∈ owners ctx.objects, o.2 < ctx.next
  apart : (scalarsOf ctx.objects.tail).Pairwise fun a b => a.compareEq b = false
  scalars : ∀ s, .scalar s ∈ visitedAll ctx.objects →
    P s ∨ ∃ u, s = .uid u ∧ u.toNat < ctx.objects.length
  keys : ∀ o dict, .dict o dict ∈ visitedAll ctx.objects → (dict.map Prod.fst).Nodup
  classes : ∀ d ∈ descriptions, ∀ uid, ctx.classes.lookup (d.headD "") = some uid →
    ∃ id hierarchy, ctx.objects[uid]? = some (classSpec id hierarchy d)

structure Step [HashOrder] (P : Scalar → Prop) (ctx ctx' : EncodingContext) : Prop where
  tidy : Tidy P ctx'
  next_le : ctx.next ≤ ctx'.next
  grown : ∃ new, ctx'.objects = ctx.objects ++ new ∧ ∀ o ∈ owners new, ctx.next ≤ o.2

section
variable [HashOrder] {P : Scalar → Prop} {ctx ctx₁ ctx₂ ctx' : EncodingContext} {uid : Nat}

theorem Step.refl (h : Tidy P ctx) : Step P ctx ctx :=
  ⟨h, Nat.le_refl _, [], by simp, by simp⟩

theorem Step.trans (h : Step P ctx ctx₁) (h' : Step P ctx₁ ctx') : Step P ctx ctx' := by
  obtain ⟨new, hnew, hfresh⟩ := h.grown
  obtain ⟨new', hnew', hfresh'⟩ := h'.grown
  refine ⟨h'.tidy, h.next_le.trans h'.next_le, new ++ new', by simp [hnew', hnew], ?_⟩
  intro o ho
  rw [owners_append, mem_append] at ho
  exact ho.elim (hfresh o) fun ho => h.next_le.trans (hfresh' o ho)

theorem Step.refines (h : Step P ctx ctx') : Refines ctx.objects ctx'.objects := by
  obtain ⟨new, hnew, -⟩ := h.grown
  exact hnew ▸ refines_append _ _

theorem step_add (h : Tidy P ctx) (hn : ctx.next ≤ n) (hown : (owners [v]).Nodup)
    (hnew : ∀ o ∈ owners [v], ctx.next ≤ o.2 ∧ o.2 < n)
    (hapart : ∀ s, topScalar v = some s → ∀ t ∈ scalarsOf ctx.objects.tail, t.compareEq s = false)
    (hscalars : ∀ s, .scalar s ∈ v.visited → P s)
    (hkeys : ∀ o dict, .dict o dict ∈ v.visited → (dict.map fst).Nodup)
    (hclasses : ∀ d ∈ descriptions, ∀ uid, classes.lookup (d.headD "") = some uid →
      ∃ id hierarchy, (ctx.objects ++ [v])[uid]? = some (classSpec id hierarchy d)) :
    Step P ctx { objects := ctx.objects ++ [v], classes, next := n } := by
  have htail : (ctx.objects ++ [v]).tail = ctx.objects.tail ++ [v] :=
    tail_append_of_ne_nil (length_pos_iff.mp h.nonempty)
  have hvisited : ∀ w, w ∈ visitedAll (ctx.objects ++ [v]) ↔
      w ∈ visitedAll ctx.objects ∨ w ∈ v.visited := by simp
  refine ⟨⟨by simp, ?_, fun o ho => ?_, ?_, fun s hs => ?_, fun o dict hdict => ?_, hclasses⟩, hn,
    [v], rfl, fun o ho => (hnew o ho).1⟩
  · rw [owners_append]
    refine nodup_append.mpr ⟨h.nodup, hown, ?_⟩
    rintro o ho o' ho' rfl
    exact absurd (h.below o ho) (Nat.not_lt.mpr (hnew o ho').1)
  · rw [owners_append, mem_append] at ho
    exact ho.elim (fun ho => (h.below o ho).trans_le hn) fun ho => (hnew o ho).2
  · rw [htail, scalarsOf, filterMap_append]
    refine pairwise_append.mpr ⟨h.apart, ?_, fun t ht s hs => ?_⟩
    · cases v with
      | scalar s => exact pairwise_singleton _ _
      | array | dict => exact .nil
    · obtain ⟨w, hw, hs⟩ := mem_filterMap.mp hs
      cases mem_singleton.mp hw
      exact hapart s hs t ht
  · rcases (hvisited _).mp hs with hs | hs
    · refine (h.scalars s hs).imp_right fun ⟨u, hu, hlt⟩ => ⟨u, hu, ?_⟩
      rw [length_append]
      omega
    · exact .inl (hscalars s hs)
  · exact ((hvisited _).mp hdict).elim (h.keys o dict) (hkeys o dict)

theorem Tidy.classes_append (h : Tidy P ctx) (v : Value Nat) : ∀ d ∈ descriptions, ∀ uid,
    ctx.classes.lookup (d.headD "") = some uid →
      ∃ id hierarchy, (ctx.objects ++ [v])[uid]? = some (classSpec id hierarchy d) := by
  intro d hd uid huid
  obtain ⟨id, hierarchy, hspec⟩ := h.classes d hd uid huid
  exact ⟨id, hierarchy, refines_append _ _ _ _ hspec (newDict_ne_empty (by simp))⟩

theorem Tidy.unsigned (h : Tidy P ctx) (hP : Admits P)
    (hs : .scalar s ∈ visitedAll ctx.objects) : s.unsigned = s := by
  rcases h.scalars s hs with hs | ⟨u, rfl, -⟩
  · exact hP.unsigned s hs
  · rfl

theorem step_encodeScalar (hP : Admits P) (h : Tidy P ctx) (hs : P s)
    (heq : encodeScalar s ctx = some (uid, ctx')) :
    Step P ctx ctx' ∧ 0 < uid ∧ ctx'.objects[uid]? = some (.scalar s) := by
  rw [encodeScalar_eq] at heq
  split at heq
  · next found hfind =>
    cases heq
    obtain ⟨i, hi, rfl⟩ := map_eq_some_iff.mp hfind
    obtain ⟨hlt, hcmp, -⟩ := findIdx?_eq_some_iff_getElem.mp hi
    have hget : ctx.objects[i + 1]? = some ctx.objects.tail[i] := by
      rw [← getElem?_tail, getElem?_eq_getElem hlt]
    refine ⟨.refl h, Nat.succ_pos i, ?_⟩
    rw [hget]
    have hmem : ctx.objects.tail[i] ∈ ctx.objects := mem_of_getElem? hget
    cases hv : ctx.objects.tail[i] with
    | scalar t =>
      rw [hv] at hcmp hmem
      have ht : (.scalar t : Value Nat) ∈ visitedAll ctx.objects := by
        rw [visitedAll_eq]
        exact mem_flatMap.mpr ⟨_, hmem, mem_visited_self _⟩
      have hsame := (compareEq_iff.mp hcmp).2
      rw [h.unsigned hP ht, hP.unsigned s hs] at hsame
      rw [hsame]
    | array | dict => rw [hv] at hcmp; cases hcmp
  · next hfind =>
    cases heq
    refine ⟨step_add h (Nat.le_refl _) (by simp) (by simp) ?_ ?_ (by simp [Value.visited])
      (h.classes_append _), h.nonempty, by simp⟩
    · rintro t ⟨⟩ t' ht'
      obtain ⟨w, hw, htop⟩ := mem_filterMap.mp ht'
      have hnone := findIdx?_eq_none_iff.mp (map_eq_none_iff.mp hfind) w hw
      cases w <;> cases htop
      exact hnone
    · intro t ht
      cases mem_singleton.mp ht
      exact hs

theorem owners_classSpec (id hierarchy : Nat) (d : List String) :
    (owners [classSpec id hierarchy d]).Perm [(true, id), (false, hierarchy)] := by
  refine (owners_newDict _ _).trans ?_
  simp [owners, Value.visited, Value.owner?, filterMap_flatMap]

theorem scalars_classSpec (hP : Admits P) (hd : d ∈ descriptions) {id hierarchy : Nat}
    (hs : .scalar s ∈ (classSpec id hierarchy d).visited) : P s := by
  obtain ⟨hall, hhead⟩ := names_of_mem_descriptions hd
  refine scalars_newDict ?_ ?_ hs
  · simpa using ⟨hP.names "$classes" (by decide), hP.names "$classname" (by decide)⟩
  · simp only [forall_mem_cons, not_mem_nil, false_implies, implies_true, and_true]
    constructor
    · intro s hs
      simp only [Value.visited, visitedAll_eq, flatMap_map, mem_cons, mem_flatMap,
        reduceCtorEq, false_or, not_mem_nil, or_false, Value.scalar.injEq] at hs
      obtain ⟨name, hname, rfl⟩ := hs
      exact hP.names name (hall name hname)
    · intro s hs
      cases mem_singleton.mp hs
      exact hP.names _ hhead

theorem keys_classSpec {id hierarchy o : Nat}
    (h : .dict o dict ∈ (classSpec id hierarchy d).visited) : (dict.map fst).Nodup := by
  have hnames : (["$classes", "$classname"].map ofString).Nodup := by decide
  exact keys_newDict h hnames (by simp [Value.visited, flatMap_map])

theorem step_getClass (hP : Admits P) (h : Tidy P ctx) {d : List String} (hd : d ∈ descriptions)
    (heq : getClass d ctx = some (uid, ctx')) : Step P ctx ctx' ∧
      ∃ id hierarchy, ctx'.objects[uid]? = some (classSpec id hierarchy d) := by
  rw [getClass_eq] at heq
  split at heq
  · next found hfound =>
    cases heq
    exact ⟨.refl h, h.classes d hd _ hfound⟩
  · cases heq
    have hperm := owners_classSpec ctx.next (ctx.next + 1) d
    refine ⟨step_add h (by omega) (hperm.nodup_iff.mpr (by simp)) ?_ ?_
      (fun s => scalars_classSpec hP hd) (fun o dict => keys_classSpec) ?_, _, _,
      getElem?_concat_length⟩
    · intro o ho
      have ho := hperm.mem_iff.mp ho
      simp only [mem_cons, not_mem_nil, or_false] at ho
      rcases ho with rfl | rfl <;> simp
    · rintro s ⟨⟩
    · intro d' hd' uid huid
      rw [lookup_cons] at huid
      split at huid
      · next hsame =>
        cases huid
        cases mem_descriptions_inj hd' hd (by simpa using hsame)
        exact ⟨_, _, getElem?_concat_length⟩
      · exact h.classes_append _ d' hd' uid huid

theorem step_reserve (h : Tidy P ctx) (hn : ctx.next < n) :
    Step P ctx { ctx with objects := ctx.objects ++ [.dict ctx.next []], next := n } := by
  refine step_add h hn.le (by simp [owners, Value.visited, Value.owner?]) ?_ ?_ ?_ ?_
    (h.classes_append _)
  · intro o ho
    simp only [owners, visitedAll_eq, flatMap_cons, flatMap_nil, Value.visited,
      map_nil, visitedValues, append_nil, filterMap_cons, Value.owner?,
      filterMap_nil, mem_singleton] at ho
    rw [ho]
    exact ⟨Nat.le_refl _, hn⟩
  · rintro s ⟨⟩
  · intro s hs
    simp [Value.visited, visitedValues] at hs
  · intro o dict hdict
    simp only [Value.visited, map_nil, visitedValues, append_nil, mem_singleton,
      Value.dict.injEq] at hdict
    simp [hdict.2]

section
variable {n : Nat} {entries : List (String × Value Nat)} {ids : List Nat}

theorem owners_fill (objects new : List (Value Nat)) (id : Nat)
    (howners : owners (entries.map snd) = ids.map fun id => (false, id)) :
    (owners (objects ++ newDict id entries :: new)).Perm
      ((ids.map fun id => (false, id)) ++ owners (objects ++ .dict id [] :: new)) := by
  have hfilled := owners_newDict id entries
  rw [howners] at hfilled
  have hempty : owners [.dict id []] = [(true, id)] := rfl
  rw [owners_append, owners_cons, owners_append, owners_cons (.dict id []), hempty]
  refine ((hfilled.append_right _).append_left _).trans (perm_iff_count.mpr fun o => ?_)
  simp only [count_append, count_cons, count_nil]
  omega

theorem scalarsOf_fill (hne : 0 < objects.length) (id : Nat) :
    scalarsOf (objects ++ newDict id entries :: new).tail =
      scalarsOf (objects ++ .dict id [] :: new).tail := by
  have hne := length_pos_iff.mp hne
  rw [tail_append_of_ne_nil hne, tail_append_of_ne_nil hne]
  simp only [scalarsOf, filterMap_append]
  rfl

theorem step_fill (entries : List (String × Value Nat)) (ids : List Nat) (h : Tidy P ctx)
    (hn : ctx.next < n)
    (hstep : Step P { ctx with objects := ctx.objects ++ [.dict ctx.next []], next := n } ctx₁)
    (howners : owners (entries.map snd) = ids.map fun id => (false, id))
    (hnodup : ids.Nodup) (hids : ∀ id ∈ ids, ctx.next ≤ id ∧ id < n)
    (hkeys : ∀ e ∈ entries, P (.string (.ofString e.1)))
    (hvalues : ∀ e ∈ entries, ∀ s, .scalar s ∈ e.2.visited →
      ∃ u, s = .uid u ∧ u.toNat < ctx₁.objects.length)
    (hnames : ((entries.map fst).map ofString).Nodup)
    (hflat : ∀ e ∈ entries, ∀ o dict, .dict o dict ∉ e.2.visited)
    (hctx : ctx' = { ctx₁ with
      objects := ctx₁.objects.set ctx.objects.length (newDict ctx.next entries) }) :
    Step P ctx ctx' ∧ Refines ctx₁.objects ctx'.objects ∧
      ctx'.objects[ctx.objects.length]? = some (newDict ctx.next entries) := by
  obtain ⟨new, hnew, hfresh⟩ := hstep.grown
  have hbefore : ctx₁.objects = ctx.objects ++ .dict ctx.next [] :: new := by
    rw [hnew, append_assoc, singleton_append]
  have hafter : ctx'.objects = ctx.objects ++ newDict ctx.next entries :: new := by
    rw [hctx, hbefore]
    simp only [set_append_right _ _ (Nat.le_refl _), Nat.sub_self, set_cons_zero]
  have hlength : ctx'.objects.length = ctx₁.objects.length := by simp [hafter, hbefore]
  have hrefines : Refines ctx₁.objects ctx'.objects := by
    rw [hbefore, hafter]
    exact refines_fill _ _ _ _
  have hperm := owners_fill ctx.objects new ctx.next howners
  rw [← hafter, ← hbefore] at hperm
  have hvisited : ∀ w ∈ visitedAll ctx'.objects,
      w ∈ visitedAll ctx₁.objects ∨ w ∈ (newDict ctx.next entries).visited := by
    intro w hw
    rw [hafter] at hw
    rw [hbefore]
    simp only [visitedAll_eq, flatMap_append, flatMap_cons, mem_append] at hw ⊢
    tauto
  have hnext : ctx'.next = ctx₁.next := by rw [hctx]
  have hle : n ≤ ctx₁.next := hstep.next_le
  refine ⟨⟨⟨?_, ?_, fun o ho => ?_, ?_, fun s hs => ?_, fun o dict hdict => ?_,
    fun d hd uid huid => ?_⟩, ?_, newDict ctx.next entries :: new, hafter, fun o ho => ?_⟩,
      hrefines, ?_⟩
  · rw [hlength]
    exact hstep.tidy.nonempty
  · rw [hperm.nodup_iff]
    refine nodup_append.mpr ⟨hnodup.map fun a b hab => (mk.inj hab).2,
      hstep.tidy.nodup, ?_⟩
    rintro o ho o' ho' rfl
    obtain ⟨id, hid, rfl⟩ := mem_map.mp ho
    rw [hbefore, owners_append, owners_cons, mem_append, mem_append] at ho'
    rcases ho' with ho' | ho' | ho'
    · exact absurd (h.below _ ho') (Nat.not_lt.mpr (hids id hid).1)
    · cases mem_singleton.mp ho'
    · exact absurd (hfresh _ ho') (Nat.not_le.mpr (hids id hid).2)
  · rw [hnext]
    rcases mem_append.mp (hperm.mem_iff.mp ho) with ho | ho
    · obtain ⟨id, hid, rfl⟩ := mem_map.mp ho
      exact (hids id hid).2.trans_le hle
    · exact hstep.tidy.below o ho
  · rw [hafter, scalarsOf_fill h.nonempty, ← hbefore]
    exact hstep.tidy.apart
  · rw [hlength]
    refine (hvisited _ hs).elim (hstep.tidy.scalars s) (scalars_newDict
      (Q := fun s => P s ∨ ∃ u, s = .uid u ∧ u.toNat < ctx₁.objects.length) ?_ ?_)
    · exact fun e he => .inl (hkeys e he)
    · exact fun e he s hs => .inr (hvalues e he s hs)
  · refine (hvisited _ hdict).elim (hstep.tidy.keys o dict) fun hmem => ?_
    exact keys_newDict hmem hnames fun e he o dict hmem => absurd hmem (hflat e he o dict)
  · obtain ⟨id, hierarchy, hspec⟩ := hstep.tidy.classes d hd uid (by rw [hctx] at huid; exact huid)
    exact ⟨id, hierarchy, hrefines _ _ hspec (newDict_ne_empty (by simp))⟩
  · rw [hnext]
    exact hn.le.trans hle
  · rw [owners_cons, mem_append] at ho
    rcases ho with ho | ho
    · have ho := (owners_newDict _ _).mem_iff.mp ho
      rw [howners, List.mem_cons, List.mem_map] at ho
      rcases ho with rfl | ⟨id, hid, rfl⟩
      · exact Nat.le_refl _
      · exact (hids id hid).1
    · exact hn.le.trans (hfresh o ho)
  · rw [hafter]
    simp

end

end

end NSKeyedArchive

end FridaCore.Fruity
