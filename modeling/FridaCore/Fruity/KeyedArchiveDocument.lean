import FridaCore.Fruity.KeyedArchiveDecoding

/-!
# The property list of an archive

It is a tree, in which a dict has a key once, and its uids are never wider than references:
there are at least as many distinct objects as places in the table. What is decoded from it
is the object at the root.
-/

namespace FridaCore.Fruity

open List Prod

open BinaryWriter BinaryParser

namespace NSKeyedArchive

def Archived (valid : Str → Prop) (integers : Int64 → Prop) : Scalar → Prop
  | .boolean _ => True
  | .integer i => integers i
  | .float bits => (Scalar.float bits).unsigned = .float bits ∧ isNanFloat bits = false
  | .double bits => (Scalar.double bits).unsigned = .double bits ∧ isNanDouble bits = false
  | .string s => valid s ∧ 0 ∉ s
  | _ => False

theorem admits_archived (hnames : ∀ name ∈ names, valid (.ofString name))
    (integers : Int64 → Prop) : Admits (Archived valid integers) := by
  refine ⟨fun s hs => ?_, fun s hs => ?_, fun name hname => ⟨hnames name hname, ?_⟩⟩
  · cases s <;> first | rfl | exact hs.1
  · cases s <;> first | rfl | exact hs.2
  · revert name
    decide

section
variable [HashOrder] {P : Scalar → Prop} {ctx : EncodingContext} {root : Nat} {v : NSObject}
  {plist : Value Nat}

theorem tidy_initial (hP : Admits P) : Tidy P initial := by
  refine ⟨Nat.one_pos, .nil, by simp [owners, initial, Value.visited, Value.owner?], .nil,
    fun s hs => ?_, fun o dict hdict => ?_, fun d hd uid huid => ?_⟩
  · cases mem_singleton.mp hs
    exact .inl (hP.names "$null" (by decide))
  · cases mem_singleton.mp hdict
  · cases huid

theorem archive_eq_some : archive v = some plist ↔
    ∃ root ctx, encodeValue v initial = some (root, ctx) ∧ document root ctx.objects = plist := by
  simp only [archive, Option.bind_eq_bind, Option.bind_eq_some_iff, Prod.exists, Option.pure_def,
    Option.some.injEq]

structure Table (P : Scalar → Prop) (v : NSObject) (root : Nat) (ctx : EncodingContext) : Prop where
  tidy : Tidy P ctx
  three_le : ∀ o ∈ owners ctx.objects, 3 ≤ o.2
  represents : Represents ctx.objects v root

theorem table_of_archive (hP : Admits P) (hv : ∀ w ∈ v.parts, ∀ s ∈ ownScalars w, P s)
    (h : archive v = some plist) :
    ∃ root ctx, document root ctx.objects = plist ∧ Table P v root ctx := by
  obtain ⟨root, ctx, hencode, rfl⟩ := archive_eq_some.mp h
  obtain ⟨hstep, hrep⟩ := encodes hP v hv initial root ctx (tidy_initial hP) hencode
  obtain ⟨new, hnew, hfresh⟩ := hstep.grown
  refine ⟨root, ctx, rfl, hstep.tidy, fun o ho => ?_, hrep⟩
  rw [hnew, owners_append] at ho
  exact hfresh o ((mem_append.mp ho).resolve_left (by simp [initial]))

section
variable (h : Table P v root ctx)
include h

theorem Table.root_lt : root < ctx.objects.length := h.represents.lt h.tidy.nonempty

theorem Table.scalars (hP : Admits P) (hversion : P (.integer 100000))
    (hs : .scalar s ∈ (document root ctx.objects).visited) :
    P s ∨ ∃ u, s = .uid u ∧ u.toNat < ctx.objects.length := by
  let Q := fun s => P s ∨ ∃ u, s = .uid u ∧ u.toNat < ctx.objects.length
  have hname : ∀ name ∈ names, Q (.string (.ofString name)) := fun name hn =>
    .inl (hP.names name hn)
  refine scalars_newDict (Q := Q) ?_ ?_ hs
  · simp only [forall_mem_cons]
    exact ⟨hname _ (by decide), hname _ (by decide), hname _ (by decide), hname _ (by decide),
      by simp⟩
  · simp only [forall_mem_cons]
    refine ⟨fun s hs => ?_, fun s hs => ?_, fun s hs => ?_, fun s hs => ?_, by simp⟩
    · cases mem_singleton.mp hs
      exact .inl hversion
    · rw [Value.visited, mem_cons] at hs
      exact h.tidy.scalars s (hs.resolve_left (by simp))
    · cases mem_singleton.mp hs
      exact hname _ (by decide)
    · refine scalars_newDict (Q := Q) ?_ ?_ hs
      · simpa using hname "root" (by decide)
      · simp only [forall_mem_cons]
        exact ⟨fun s hs => .inr (scalar_mem_uid h.root_lt s hs), by simp⟩

theorem Table.isTree : IsTree (document root ctx.objects) := by
  have hsingle : ∀ plist : Value Nat,
      IsTree plist ↔ (owners [plist]).Nodup := fun plist => by simp [IsTree, owners]
  have htop : (owners [newDict 2 [("root", uidValue root)]]).Perm [(true, 2)] := owners_newDict _ _
  have harray : owners [.array 1 ctx.objects] = (false, 1) :: owners ctx.objects := by
    simp [owners, Value.visited, Value.owner?]
  rw [hsingle, document, (owners_newDict _ _).nodup_iff]
  simp only [map_cons, map_nil]
  rw [owners_cons, owners_scalar, owners_cons (.array 1 _), harray, owners_cons (.scalar _),
    owners_scalar, nil_append, nil_append,
    ((htop.append_left _).cons _).nodup_iff]
  have hlow : ∀ b n, n < 3 → (b, n) ∉ owners ctx.objects := fun b n hn hmem =>
    absurd (h.three_le _ hmem) (by simpa using hn)
  have htwo : ∀ n, (true, n) ∈ owners ctx.objects → ¬n = 2 := fun n hmem heq =>
    hlow true n (by omega) hmem
  simpa [nodup_append, h.tidy.nodup, hlow] using htwo

theorem Table.keys
    (hdict : .dict o dict ∈ (document root ctx.objects).visited) : (dict.map fst).Nodup := by
  have hnames : (["$version", "$objects", "$archiver", "$top"].map Str.ofString).Nodup := by decide
  have htop : (["root"].map Str.ofString).Nodup := by decide
  refine keys_newDict hdict hnames ?_
  simp only [forall_mem_cons]
  refine ⟨fun o dict hmem => ?_, fun o dict hmem => ?_, fun o dict hmem => ?_,
    fun o dict hmem => ?_, by simp⟩
  · cases mem_singleton.mp hmem
  · rw [Value.visited, mem_cons] at hmem
    exact h.tidy.keys o dict (hmem.resolve_left (by simp))
  · cases mem_singleton.mp hmem
  · exact keys_newDict hmem htop (by simp [uidValue, Value.visited])

end

omit [HashOrder] in
theorem pairwise_apart (hscalars : (scalarsOf vs).Pairwise fun a b => a.compareEq b = false)
    (howners : (vs.filterMap Value.owner?).Nodup) :
    vs.Pairwise fun a b => compareValuesEq a b = false := by
  induction vs with
  | nil => exact .nil
  | cons v rest ih =>
    have hrest := ih
      (hscalars.sublist (List.Sublist.filterMap _ (sublist_cons_self v rest)))
      (howners.sublist (List.Sublist.filterMap _ (sublist_cons_self v rest)))
    refine .cons (fun w hw => ?_) hrest
    cases v with
    | scalar s =>
      cases w with
      | scalar t =>
        exact (pairwise_cons.mp hscalars).1 t (mem_filterMap.mpr ⟨_, hw, rfl⟩)
      | array | dict => rfl
    | array o elements =>
      cases w with
      | scalar => rfl
      | array o' elements' =>
        refine decide_eq_false fun heq => (nodup_cons.mp howners).1 ?_
        exact mem_filterMap.mpr ⟨_, hw, by rw [heq]; rfl⟩
      | dict => rfl
    | dict o dict =>
      cases w with
      | scalar | array => rfl
      | dict o' dict' =>
        refine decide_eq_false fun heq => (nodup_cons.mp howners).1 ?_
        exact mem_filterMap.mpr ⟨_, hw, by rw [heq]; rfl⟩

omit [HashOrder] in
theorem sublist_visitedAll (vs : List (Value Nat)) : vs.Sublist (visitedAll vs) := by
  induction vs with
  | nil => exact .slnil
  | cons v rest ih =>
    exact List.Sublist.append (singleton_sublist.mpr (mem_visited_self v)) ih

omit [HashOrder] in
theorem compareValuesEq_self {v : Value Nat} (h : ∀ s, v = .scalar s → s.isNan = false) :
    compareValuesEq v v = true := by
  cases v with
  | scalar s => exact compareEq_iff.mpr ⟨h s rfl, rfl⟩
  | array | dict => exact decide_eq_true rfl

theorem mem_visited_document (root : Nat)
    (hw : w ∈ visitedAll objects) : w ∈ (document root objects).visited := by
  refine mem_visited_newDict.mpr (.inr (.inr ⟨("$objects", .array 1 objects), by simp, ?_⟩))
  exact mem_cons_of_mem _ hw

/-- There are at least as many distinct objects as places in the table. The placeholder of the
table may be the same as a string in it, but then there is the dict of all. -/
theorem Table.length_le (h : Table P v root ctx) (hP : Admits P) :
    ctx.objects.length ≤ (distinct (document root ctx.objects).visited).length := by
  have hpos := h.tidy.nonempty
  have hlength : (document root ctx.objects :: ctx.objects.tail).length = ctx.objects.length := by
    rw [length_cons, length_tail]
    omega
  have hmem : ∀ w ∈ ctx.objects.tail, w ∈ visitedAll ctx.objects := fun w hw =>
    (sublist_visitedAll _).subset (mem_of_mem_tail hw)
  rw [← hlength]
  refine length_le_distinct (pairwise_apart h.tidy.apart (nodup_cons.mpr ⟨fun hroot => ?_, ?_⟩))
    (forall_mem_cons.mpr ⟨compareValuesEq_self (by simp [document, newDict]), fun w hw => ?_⟩)
    (cons_subset.mpr ⟨mem_visited_self _, fun w hw => ?_⟩)
  · have hlow := h.three_le _ (List.Sublist.subset (List.Sublist.filterMap Value.owner?
      ((tail_sublist _).trans (sublist_visitedAll ctx.objects))) hroot)
    exact absurd hlow (by simp)
  · exact h.tidy.nodup.sublist (List.Sublist.filterMap Value.owner?
      ((tail_sublist _).trans (sublist_visitedAll ctx.objects)))
  · refine compareValuesEq_self fun s hs => ?_
    rcases h.tidy.scalars s (hs ▸ hmem w hw) with hs | ⟨u, rfl, -⟩
    · exact hP.notNan s hs
    · rfl
  · exact mem_visited_document root (hmem w hw)

omit [HashOrder] in
/-- A uid that is no larger than the number of objects is as wide as a reference. -/
theorem lt_refSize (hu : u < n) (hn : n ≤ maxObjectCount) :
    u < 256 ^ computeObjectRefSize n := by
  unfold maxObjectCount at hn
  unfold computeObjectRefSize
  split_ifs <;> omega

section
variable {valid : Str → Prop} {integers : Int64 → Prop}
  (h : Table (Archived valid integers) v root ctx) (hnames : ∀ name ∈ names, valid (.ofString name))
  (hversion : integers 100000)
include h hnames hversion

theorem Table.strings
    (hs : .scalar (.string s) ∈ (document root ctx.objects).visited) : valid s ∧ 0 ∉ s := by
  rcases h.scalars (admits_archived hnames integers) hversion hs with hs | ⟨u, hs, -⟩
  · exact hs
  · cases hs

theorem Table.wellFormed : WellFormed (document root ctx.objects) :=
  ⟨h.isTree.coherent, fun _ _ => h.keys, fun _ hs => (h.strings hnames hversion hs).2⟩

theorem Table.uid_lt
    (hcount : (distinct (document root ctx.objects).visited).length ≤ maxObjectCount)
    (hu : .scalar (.uid u) ∈ (document root ctx.objects).visited) :
    u.toNat < 256 ^ refSize (document root ctx.objects) := by
  have hP := admits_archived hnames integers
  rcases h.scalars hP hversion hu with hu | ⟨u', hu, hlt⟩
  · cases hu
  · cases hu
    exact lt_refSize (hlt.trans_le (h.length_le hP)) hcount

theorem Table.oneZero : OneZero (document root ctx.objects) := by
  intro s hs s' hs' _ heq
  have hP := admits_archived hnames integers
  have hunsigned : ∀ s, .scalar s ∈ (document root ctx.objects).visited → s.unsigned = s := by
    intro s hs
    rcases h.scalars hP hversion hs with hs | ⟨u, rfl, -⟩
    · exact hP.unsigned s hs
    · rfl
  rw [← hunsigned s hs, heq, hunsigned s' hs']

end

theorem Table.ranged [GLib] (h : Table (Archived valid integers) v root ctx)
    (hnames : ∀ name ∈ names, valid (.ofString name)) (hversion : integers 100000)
    (hcount : (distinct (document root ctx.objects).visited).length ≤ maxObjectCount)
    (hintegers : ∀ i, .scalar (.integer i) ∈ (document root ctx.objects).visited → i < 4294967296) :
    Ranged valid (document root ctx.objects) := by
  refine ⟨fun s hs => ?_, h.oneZero hnames hversion⟩
  rcases h.scalars (admits_archived hnames integers) hversion hs with harch | ⟨u, rfl, -⟩
  · cases s with
    | integer i => exact hintegers i hs
    | string str => exact .inr harch.1
    | boolean | float | double => trivial
    | _ => cases harch
  · exact h.uid_lt hnames hversion hcount hs

theorem decodeDocument_eq (root : Nat) (objects : List (Value Nat)) : ∃ out,
    (document root objects).content = .dict () out ∧ ∀ fuel, decodeDocument fuel out =
      decodeValue (objects.map Value.content) fuel (.ofNat root) := by
  have hnames : (["$version", "$objects", "$archiver", "$top"].map Str.ofString).Nodup := by decide
  have hroot : (["root"].map Str.ofString).Nodup := by decide
  obtain ⟨out, hout, hlookup⟩ := content_newDict 0
    [("$version", .scalar (.integer 100000)), ("$objects", .array 1 objects),
      ("$archiver", .scalar (.string (.ofString "NSKeyedArchiver"))),
      ("$top", newDict 2 [("root", uidValue root)])] hnames
  obtain ⟨top, htop, hlookupTop⟩ := content_newDict 2 [("root", uidValue root)] hroot
  simp only [forall_mem_cons] at hlookup hlookupTop
  obtain ⟨-, hobjects, -, hdict, -⟩ := hlookup
  rw [Value.content, contents_eq_map] at hobjects
  rw [htop] at hdict
  have hgetObjects : dictValue asArray out "$objects" = .ok (objects.map Value.content) :=
    dictValue_eq hobjects rfl
  have hgetTop : dictValue asDict out "$top" = .ok top := dictValue_eq hdict rfl
  have hgetRoot : dictValue asUid top "root" = .ok (.ofNat root) := dictValue_eq hlookupTop.1 rfl
  refine ⟨out, hout, fun fuel => ?_⟩
  simp only [decodeDocument, hgetObjects, hgetTop, hgetRoot, ok_bind]

omit [HashOrder] in
theorem decode_eq_ok [GLib] :
    decode parserFuel fuel data = .ok w ↔
      ∃ out, parse parserFuel data = .ok out ∧ decodeDocument fuel out = .ok w := by
  unfold decode
  cases parse parserFuel data with
  | error stop => cases stop <;> simp [Except.mapError, Failure.ofStop, bind, Except.bind]
  | ok out =>
    simp only [Except.mapError, ok_bind, Except.ok.injEq, exists_eq_left']
    split
    · next e heq => simp [heq]
    · rfl

theorem encode_eq_some [GLib] (hv : v ≠ .null) : encode v = some bytes ↔
    ∃ plist array length, archive v = some plist ∧ toBinary plist = some (array, length) ∧
      array.take length.toInt.toNat = bytes := by
  have heq : encode v = (archive v).bind fun plist => (toBinary plist).bind fun r =>
      some (r.1.take r.2.toInt.toNat) := by
    cases v <;> first | rfl | exact absurd rfl hv
  simp only [heq, Option.bind_eq_some_iff, Prod.exists, Option.some.injEq]
  constructor
  · rintro ⟨plist, hplist, array, length, h⟩
    exact ⟨plist, array, length, hplist, h⟩
  · rintro ⟨plist, array, length, hplist, h⟩
    exact ⟨plist, hplist, array, length, h⟩

end

end NSKeyedArchive

end FridaCore.Fruity
