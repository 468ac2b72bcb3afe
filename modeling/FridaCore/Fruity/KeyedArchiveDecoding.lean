import FridaCore.Fruity.KeyedArchiveEncoding
import FridaCore.Support.Settles

/-!
# Decoding an archive

What an object in the table is decoded as: numbers without what is after their point, and
dictionaries with their keys. There is no decoder for sets, so an object that has a set
anywhere in it is never decoded.
-/

namespace FridaCore.Fruity

open NSObject Settles UInt64 Prod Str

namespace NSKeyedArchive

mutual
def decoded : NSObject → Option NSObject
  | .null => some .null
  | .number n => (numberScalar n).bind decodeScalar
  | .string str => some (.string str)
  | .dictionary entries => (decodedEntries entries).map fun es => .dictionary (toDict es)
  | .array elements => (decodedAll elements).map .array
  | _ => none
def decodedAll : List NSObject → Option (List NSObject)
  | [] => some []
  | v :: rest => do
    let v ← decoded v
    let rest ← decodedAll rest
    return v :: rest
def decodedEntries : List (Str × NSObject) → Option (List (Str × NSObject))
  | [] => some []
  | (key, v) :: rest => do
    let v ← decoded v
    let rest ← decodedEntries rest
    return (key, v) :: rest
end

theorem decodedAll_eq_mapM (vs : List NSObject) : decodedAll vs = vs.mapM decoded := by
  induction vs with
  | nil => rfl
  | cons v rest ih => simp [decodedAll, ih]

theorem ok_bind (a : α) (f : α → Except ε β) : (Except.ok a >>= f) = f a := rfl

theorem toOption_bind (x : Except ε α) (f : α → Except ε β) :
    (x >>= f).toOption = x.toOption.bind fun a => (f a).toOption := by
  cases x <;> rfl

theorem toOption_map (f : α → β) (x : Except ε α) :
    (f <$> x).toOption = x.toOption.map f := by
  cases x <;> rfl

def uidTree (uid : Nat) : Tree := .scalar (.uid (.ofNat uid))

section
variable {D : Nat → UInt64 → Except Failure NSObject}

def SettlesAt (D : Nat → UInt64 → Except Failure NSObject) (uid : Nat) (x : Option NSObject) :
    Prop :=
  Settles (fun fuel => (D fuel (.ofNat uid)).toOption) x

theorem arrayValue_eq {i : Nat} {a : α} (hval : elements[i]? = some val) (ha : type val = some a) :
    arrayValue type elements i = .ok a := by
  rw [arrayValue, if_neg (by omega), Int.toNat_natCast, hval]
  simp only [ha]
  rfl

theorem dictValue_eq (hval : dict.lookup (.ofString key) = some val) (ha : type val = some a) :
    dictValue type dict key = .ok a := by
  rw [dictValue, hval]
  simp only [ha]
  rfl

theorem decodeAt_eq (dv : UInt64 → Except Failure NSObject) (before rest : List Tree) (uid : Nat) :
    decodeAt dv (before ++ uidTree uid :: rest) before.length = dv (.ofNat uid) := by
  have hget : (before ++ uidTree uid :: rest)[before.length]? = some (uidTree uid) := by simp
  have hval : arrayValue asUid (before ++ uidTree uid :: rest) before.length =
      .ok (.ofNat uid) := arrayValue_eq hget rfl
  rw [decodeAt, hval]
  rfl

theorem decodeElements_eq (dv : UInt64 → Except Failure NSObject) (before : List Tree)
    (uids : List Nat) :
    (decodeElements dv (before ++ uids.map uidTree) uids.length before.length).toOption =
      uids.mapM fun uid => (dv (.ofNat uid)).toOption := by
  induction uids generalizing before with
  | nil => rfl
  | cons uid rest ih =>
    have hrest := ih (before ++ [uidTree uid])
    rw [List.append_assoc, List.singleton_append, List.length_append, List.length_singleton]
      at hrest
    rw [List.map_cons, List.length_cons, decodeElements, decodeAt_eq, toOption_bind,
      List.mapM_cons]
    refine congrArg _ (funext fun obj => ?_)
    rw [toOption_bind, hrest]
    rfl

theorem settles_decodeStringKeys
    (h : List.Forall₂ (fun uid key => SettlesAt D uid (some (.string key))) uids keys)
    (before : List Tree) :
    Settles (fun fuel => (decodeStringKeys (D fuel) (before ++ uids.map uidTree) uids.length
      before.length).toOption) (some keys) := by
  induction h generalizing before with
  | nil => exact .const _
  | @cons uid key uids keys hkey _ ih =>
    have hrest := ih (before ++ [uidTree uid])
    rw [List.append_assoc, List.singleton_append, List.length_append, List.length_singleton]
      at hrest
    simp only [List.map_cons, List.length_cons, decodeStringKeys, decodeAt_eq, toOption_bind]
    refine hkey.bind_some ?_
    simp only [toOption_bind]
    exact hrest.bind_some (.const (some (key :: keys)))

theorem settles_decodeObjects
    (h : List.Forall₂ (fun uid e => SettlesAt D uid (decoded e.2)) uids es) (before : List Tree)
    (storage : List (Str × NSObject)) :
    Settles (fun fuel => (decodeEntries (D fuel) (before ++ uids.map uidTree) (es.map fst)
      before.length storage).toOption)
      ((decodedEntries es).map fun es =>
        es.foldl (fun dict (key, val) => setValue key val dict) storage) := by
  induction h generalizing before storage with
  | nil => exact .const _
  | @cons uid e uids es hval _ ih =>
    obtain ⟨key, val⟩ := e
    have hrest := fun storage => ih (before ++ [uidTree uid]) storage
    simp only [List.append_assoc, List.singleton_append, List.length_append,
      List.length_singleton] at hrest
    have hboth := hval.bind fun obj => hrest (setValue key obj storage)
    simp only [List.map_cons, decodeEntries, decodeAt_eq, toOption_bind]
    convert hboth using 1
    rw [decodedEntries]
    cases decoded val with
    | none => rfl
    | some obj => cases decodedEntries es <;> rfl

theorem settles_decodeArray
    (hobjs : dict.lookup (.ofString "NS.objects") = some (.array () (uids.map uidTree)))
    (h : List.Forall₂ (fun uid v => SettlesAt D uid (decoded v)) uids vs) :
    Settles (fun fuel => (decodeArray (D fuel) dict).toOption) (decoded (.array vs)) := by
  have hget : dictValue asArray dict "NS.objects" = .ok (uids.map uidTree) := dictValue_eq hobjs rfl
  have hall : ∀ fuel, (decodeArray (D fuel) dict).toOption =
      (uids.mapM fun uid => (D fuel (.ofNat uid)).toOption).map .array := by
    intro fuel
    have heq : decodeArray (D fuel) dict = array <$>
        decodeElements (D fuel) ([] ++ uids.map uidTree) uids.length ([] : List Tree).length := by
      simp only [decodeArray, hget, ok_bind, bind_pure_comp, List.nil_append, List.length_nil,
        List.length_map]
    rw [heq, toOption_map, decodeElements_eq]
  simp only [hall, decoded, decodedAll_eq_mapM]
  exact (mapM h).map array

theorem settles_decodeDictionary (hkeys : dict.lookup (.ofString "NS.keys") =
      some (.array () ((uids.map fst).map uidTree)))
    (hobjs : dict.lookup (.ofString "NS.objects") =
      some (.array () ((uids.map snd).map uidTree)))
    (h : List.Forall₂ (fun uid e => SettlesAt D uid.1 (some (.string e.1)) ∧
      SettlesAt D uid.2 (decoded e.2)) uids es) :
    Settles (fun fuel => (decodeDictionary (D fuel) dict).toOption) (decoded (.dictionary es)) := by
  have hstrings : List.Forall₂ (fun uid key => SettlesAt D uid (some (.string key)))
      (uids.map fst) (es.map fst) :=
    List.forall₂_map_left_iff.mpr (List.forall₂_map_right_iff.mpr (h.imp fun _ _ h => h.1))
  have hvalues : List.Forall₂ (fun uid e => SettlesAt D uid (decoded e.2)) (uids.map snd) es :=
    List.forall₂_map_left_iff.mpr (h.imp fun _ _ h => h.2)
  have hgetKeys : dictValue asArray dict "NS.keys" = .ok ((uids.map fst).map uidTree) :=
    dictValue_eq hkeys rfl
  have hgetObjs : dictValue asArray dict "NS.objects" = .ok ((uids.map snd).map uidTree) :=
    dictValue_eq hobjs rfl
  -- all keys are strings, so this is not a raw dictionary
  have heq : ∀ fuel, decodeDictionary (D fuel) dict =
      decodeStringKeys (D fuel) ([] ++ (uids.map fst).map uidTree) (uids.map fst).length
        ([] : List Tree).length >>= fun keys =>
      if keys.length = uids.length then
        dictionary <$> decodeEntries (D fuel) ((uids.map snd).map uidTree) keys 0 []
      else dictionaryRaw <$> decodeRawEntries (D fuel) ((uids.map fst).map uidTree)
        ((uids.map snd).map uidTree) uids.length 0 [] := by
    intro fuel
    simp only [decodeDictionary, hgetKeys, hgetObjs, ok_bind, bind_pure_comp, List.nil_append,
      List.length_nil, List.length_map]
  simp only [heq, toOption_bind]
  refine (settles_decodeStringKeys hstrings []).bind_some ?_
  have hlen : (es.map fst).length = uids.length := by simp [h.length_eq]
  simp only [hlen, ↓reduceIte, toOption_map, decoded]
  have hentries := (settles_decodeObjects hvalues [] []).map dictionary
  rw [Option.map_map] at hentries
  exact hentries

end

section
variable [HashOrder] {objects : List (Value Nat)} {uid : Nat}

theorem content_newDict (id : Nat) (entries : List (String × Value Nat))
    (hnames : ((entries.map fst).map ofString).Nodup) :
    ∃ dict, (newDict id entries).content = .dict () dict ∧
      ∀ e ∈ entries, dict.lookup (.ofString e.1) = some e.2.content := by
  refine ⟨_, rfl, fun e he => lookup_toDict ?_ ?_⟩
  · rw [entryContents_eq_map, List.map_map]
    refine ((HashOrder.perm _).map _).nodup_iff.mpr ?_
    rw [List.map_map] at hnames ⊢
    exact hnames
  · rw [entryContents_eq_map]
    exact List.mem_map.mpr ⟨(.ofString e.1, e.2),
      (HashOrder.perm _).mem_iff.mpr (List.mem_map.mpr ⟨e, he, rfl⟩), rfl⟩

omit [HashOrder] in
theorem indexOf_ofNat (h : uid < 2 ^ 31) : indexOf (.ofNat uid) = uid := by
  have hof : (ofNat uid).toUInt32.toInt32 = .ofNat uid := Int32.toBitVec_inj.mp (by simp)
  rw [indexOf, hof, Int32.toInt_ofNat_of_lt h]

omit [HashOrder] in
theorem decodeValue_succ (hlen : objects.length < 2 ^ 31) (hpos : 0 < uid) {v : Value Nat}
    (hv : objects[uid]? = some v) (fuel : Nat) :
    decodeValue (objects.map Value.content) (fuel + 1) (.ofNat uid) =
      decodeObject (decodeValue (objects.map Value.content) fuel) (objects.map Value.content)
        v.content := by
  have hlt : uid < objects.length := (List.getElem?_eq_some_iff.mp hv).1
  have hne : ofNat uid ≠ 0 := by
    intro h
    have hzero := congrArg toNat h
    rw [toNat_ofNat', Nat.mod_eq_of_lt (by omega)] at hzero
    exact absurd hzero hpos.ne'
  have hval : arrayValue some (objects.map Value.content) (indexOf (.ofNat uid)) =
      .ok v.content := by
    rw [indexOf_ofNat (by omega)]
    exact arrayValue_eq (by rw [List.getElem?_map, hv]; rfl) rfl
  rw [decodeValue, if_neg hne, hval]
  rfl

omit [HashOrder] in
theorem settles_scalar_at (hlen : objects.length < 2 ^ 31)
    (h : IsScalar objects uid s) (hs : decodeScalar s = some obj) :
    SettlesAt (decodeValue (objects.map Value.content)) uid (some obj) := by
  refine (const (some obj)).succ rfl fun fuel => ?_
  rw [decodeValue_succ hlen h.1 h.2, Value.content, decodeObject, hs]
  rfl

def classNames (d : List String) : List Tree := d.map fun name => .scalar (.string (.ofString name))

theorem content_classSpec (id hierarchy : Nat) (d : List String) : ∃ klass,
    (classSpec id hierarchy d).content = .dict () klass ∧
      dictValue asArray klass "$classes" = .ok (classNames d) ∧
      dictValue asString klass "$classname" = .ok (.ofString (d.headD "")) := by
  have hnames : (["$classes", "$classname"].map ofString).Nodup := by decide
  obtain ⟨klass, hklass, hlookup⟩ := content_newDict id
    [("$classes", .array hierarchy (d.map fun name => .scalar (.string (.ofString name)))),
      ("$classname", .scalar (.string (.ofString (d.headD ""))))] hnames
  simp only [List.forall_mem_cons, Value.content, contents_eq_map, List.map_map] at hlookup
  exact ⟨klass, hklass, dictValue_eq hlookup.1 rfl, dictValue_eq hlookup.2.1 rfl⟩

section
variable (hlen : objects.length < 2 ^ 31)
include hlen

theorem decodeObject_eq {id hierarchy : Nat}
    (hcls : dict.lookup (.ofString "$class") = some (uidValue cls).content)
    (hspec : objects[cls]? = some (classSpec id hierarchy d))
    (dv : UInt64 → Except Failure NSObject) :
    decodeObject dv (objects.map Value.content) (.dict () dict) =
      findDecoder (classNames d) >>= fun found =>
        match found with
        | some decoder => decoder.decode dv dict
        | none => .error (.error (.notSupported ("Missing NSKeyedArchive decoder for type “" ++
            (ofString (d.headD "")).text ++ "”"))) := by
  obtain ⟨klass, hklass, hclasses, hname⟩ := content_classSpec id hierarchy d
  have hlt : cls < objects.length := (List.getElem?_eq_some_iff.mp hspec).1
  have huid : dictValue asUid dict "$class" = .ok (.ofNat cls) := dictValue_eq hcls rfl
  have hget : arrayValue asDict (objects.map Value.content) (indexOf (.ofNat cls)) = .ok klass := by
    rw [indexOf_ofNat (by omega)]
    exact arrayValue_eq (by rw [List.getElem?_map, hspec]; rfl) (by rw [hklass]; rfl)
  simp only [decodeObject, huid, hget, ok_bind, getDecoder, hclasses, hname, bind_assoc]
  refine congrArg _ (funext fun found => ?_)
  cases found <;> rfl

theorem settles_collection_at {vs : List NSObject} (hcoll : IsCollection objects d uid uids)
    (h : List.Forall₂ (fun uid v =>
      SettlesAt (decodeValue (objects.map Value.content)) uid (decoded v)) uids vs) :
    (findDecoder (classNames d) = .ok (some .array) →
      SettlesAt (decodeValue (objects.map Value.content)) uid (decoded (.array vs))) ∧
    (findDecoder (classNames d) = .ok none →
      SettlesAt (decodeValue (objects.map Value.content)) uid none) := by
  obtain ⟨hpos, object, objs, cls, id, hierarchy, hdict, hspec⟩ := hcoll
  have hnames : (["NS.objects", "$class"].map ofString).Nodup := by decide
  obtain ⟨dict, hcontent, hlookup⟩ := content_newDict object
    [("NS.objects", .array objs (uids.map uidValue)), ("$class", uidValue cls)] hnames
  simp only [List.forall_mem_cons] at hlookup
  obtain ⟨hobjs, hcls, -⟩ := hlookup
  have hsucc := decodeValue_succ hlen hpos hdict
  simp only [hcontent, decodeObject_eq hlen hcls hspec] at hsucc
  rw [Value.content, contents_eq_map, List.map_map] at hobjs
  constructor
  · intro hfound
    refine (settles_decodeArray hobjs h).succ rfl fun fuel => ?_
    rw [hsucc, hfound]
    rfl
  · intro hfound
    refine (const none).succ rfl fun fuel => ?_
    rw [hsucc, hfound]
    rfl

theorem settles_dictionary_at (hdictionary : IsDictionary objects uid uids)
    (h : List.Forall₂ (fun uid e =>
      SettlesAt (decodeValue (objects.map Value.content)) uid.1 (some (.string e.1)) ∧
        SettlesAt (decodeValue (objects.map Value.content)) uid.2 (decoded e.2)) uids es) :
    SettlesAt (decodeValue (objects.map Value.content)) uid (decoded (.dictionary es)) := by
  obtain ⟨hpos, object, keys, objs, cls, id, hierarchy, hdict, hspec⟩ := hdictionary
  have hnames : (["NS.keys", "NS.objects", "$class"].map ofString).Nodup := by decide
  obtain ⟨dict, hcontent, hlookup⟩ := content_newDict object
    [("NS.keys", .array keys (uids.map fun e => uidValue e.1)),
      ("NS.objects", .array objs (uids.map fun e => uidValue e.2)), ("$class", uidValue cls)] hnames
  simp only [List.forall_mem_cons] at hlookup
  obtain ⟨hkeys, hobjs, hcls, -⟩ := hlookup
  have hsucc := decodeValue_succ hlen hpos hdict
  simp only [hcontent, decodeObject_eq hlen hcls hspec] at hsucc
  rw [Value.content, contents_eq_map, List.map_map] at hkeys hobjs
  have hkeys : dict.lookup (.ofString "NS.keys") =
      some (.array () ((uids.map fst).map uidTree)) := by
    rw [hkeys, List.map_map]
    rfl
  have hobjs : dict.lookup (.ofString "NS.objects") =
      some (.array () ((uids.map snd).map uidTree)) := by
    rw [hobjs, List.map_map]
    rfl
  refine (settles_decodeDictionary hkeys hobjs h).succ rfl fun fuel => ?_
  rw [hsucc, show findDecoder (classNames dictionaryClass) = .ok (some .dictionary) from rfl]
  rfl

end

theorem settlesAll_of (ih : ∀ v ∈ vs, ∀ uid, Represents objects v uid → P uid v)
    (h : RepresentsAll objects vs uids) : List.Forall₂ P uids vs := by
  induction vs generalizing uids with
  | nil =>
    cases show uids = [] from h
    exact .nil
  | cons v rest ihrest =>
    obtain ⟨hv, hrest⟩ := List.forall_mem_cons.mp ih
    obtain ⟨uid, more, rfl, hfirst, hmore⟩ := h
    exact .cons (hv uid hfirst) (ihrest hrest hmore)

theorem settlesEntries_of (ih : ∀ e ∈ es, ∀ keyUid uid,
      IsScalar objects keyUid (.string e.1) → Represents objects e.2 uid → P (keyUid, uid) e)
    (h : RepresentsEntries objects es uids) : List.Forall₂ P uids es := by
  induction es generalizing uids with
  | nil =>
    cases show uids = [] from h
    exact .nil
  | cons e rest ihrest =>
    obtain ⟨hv, hrest⟩ := List.forall_mem_cons.mp ih
    obtain ⟨keyUid, uid, more, rfl, hkey, hfirst, hmore⟩ := h
    exact .cons (hv keyUid uid hkey hfirst) (ihrest hrest hmore)

theorem settles_decodeValue (hlen : objects.length < 2 ^ 31) (v : NSObject) (uid : Nat)
    (h : Represents objects v uid) :
    SettlesAt (decodeValue (objects.map Value.content)) uid (decoded v) := by
  induction v using induct generalizing uid with
  | null =>
    cases show uid = 0 from h
    exact (const (some null)).succ rfl fun fuel => rfl
  | number n =>
    obtain ⟨s, hs, h⟩ := h
    obtain ⟨obj, hobj⟩ : ∃ obj, decodeScalar s = some obj := by
      cases n <;> simp only [numberScalar, Option.some.injEq, Option.map_eq_some_iff] at hs
      · exact ⟨_, by rw [← hs]; rfl⟩
      · exact ⟨_, by rw [← hs]; rfl⟩
      all_goals
        obtain ⟨i, -, rfl⟩ := hs
        exact ⟨_, rfl⟩
    rw [decoded, hs, Option.bind_some, hobj]
    exact settles_scalar_at hlen h hobj
  | string str => exact settles_scalar_at hlen h rfl
  | dictionary entries ih =>
    obtain ⟨uids, hdict, h⟩ := h
    exact settles_dictionary_at hlen hdict (settlesEntries_of
      (fun e he keyUid uid hkey hval => ⟨settles_scalar_at hlen hkey rfl, ih e he uid hval⟩) h)
  | array elements ih =>
    obtain ⟨uids, harray, h⟩ := h
    exact (settles_collection_at hlen harray (settlesAll_of ih h)).1 rfl
  | set items ih =>
    obtain ⟨uids, hset, h⟩ := h
    exact (settles_collection_at hlen hset (settlesAll_of ih h)).2 rfl
  | other v hnull henc => exact absurd h (not_represents hnull henc)

end

end NSKeyedArchive

end FridaCore.Fruity
