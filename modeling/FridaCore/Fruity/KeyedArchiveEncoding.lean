import FridaCore.Fruity.KeyedArchiveTable

/-!
# Objects in an archive

Encoding an object puts it into the table, at the position that comes out: the scalar it is
encoded as, or a dict with positions of what is in it and of a record of its class.
-/

namespace FridaCore.Fruity

open List Option NSObject

namespace NSKeyedArchive

section
variable [HashOrder]

def IsCollection (objects : List (Value Nat)) (description : List String) (uid : Nat)
    (uids : List Nat) : Prop :=
  0 < uid ∧ ∃ object objs cls id hierarchy,
    objects[uid]? = some (newDict object
      [("NS.objects", .array objs (uids.map uidValue)), ("$class", uidValue cls)]) ∧
    objects[cls]? = some (classSpec id hierarchy description)

def IsDictionary (objects : List (Value Nat)) (uid : Nat) (uids : List (Nat × Nat)) : Prop :=
  0 < uid ∧ ∃ object keys objs cls id hierarchy,
    objects[uid]? = some (newDict object
      [("NS.keys", .array keys (uids.map fun e => uidValue e.1)),
        ("NS.objects", .array objs (uids.map fun e => uidValue e.2)), ("$class", uidValue cls)]) ∧
    objects[cls]? = some (classSpec id hierarchy dictionaryClass)

def IsScalar (objects : List (Value Nat)) (uid : Nat) (s : Scalar) : Prop :=
  0 < uid ∧ objects[uid]? = some (.scalar s)

mutual
def Represents (objects : List (Value Nat)) : NSObject → (uid : Nat) → Prop
  | .null, uid => uid = 0
  | .number n, uid => ∃ s, numberScalar n = some s ∧ IsScalar objects uid s
  | .string str, uid => IsScalar objects uid (.string str)
  | .dictionary entries, uid =>
    ∃ uids, IsDictionary objects uid uids ∧ RepresentsEntries objects entries uids
  | .array elements, uid =>
    ∃ uids, IsCollection objects arrayClass uid uids ∧ RepresentsAll objects elements uids
  | .set items, uid =>
    ∃ uids, IsCollection objects setClass uid uids ∧ RepresentsAll objects items uids
  | _, _ => False
def RepresentsAll (objects : List (Value Nat)) : List NSObject → List Nat → Prop
  | [], uids => uids = []
  | v :: rest, uids =>
    ∃ uid more, uids = uid :: more ∧ Represents objects v uid ∧ RepresentsAll objects rest more
def RepresentsEntries (objects : List (Value Nat)) :
    List (Str × NSObject) → List (Nat × Nat) → Prop
  | [], uids => uids = []
  | (key, v) :: rest, uids =>
    ∃ keyUid uid more, uids = (keyUid, uid) :: more ∧ IsScalar objects keyUid (.string key) ∧
      Represents objects v uid ∧ RepresentsEntries objects rest more
end

variable {objects objects' : List (Value Nat)} {uid : Nat}

omit [HashOrder] in
theorem IsScalar.mono (hr : Refines objects objects') (h : IsScalar objects uid s) :
    IsScalar objects' uid s :=
  ⟨h.1, hr uid _ h.2 (by simp)⟩

theorem IsCollection.mono
    (hr : Refines objects objects') (h : IsCollection objects description uid uids) :
    IsCollection objects' description uid uids := by
  obtain ⟨hpos, object, objs, cls, id, hierarchy, hdict, hclass⟩ := h
  exact ⟨hpos, object, objs, cls, id, hierarchy, hr _ _ hdict (newDict_ne_empty (by simp)),
    hr _ _ hclass (newDict_ne_empty (by simp))⟩

theorem IsDictionary.mono (hr : Refines objects objects')
    (h : IsDictionary objects uid uids) : IsDictionary objects' uid uids := by
  obtain ⟨hpos, object, keys, objs, cls, id, hierarchy, hdict, hclass⟩ := h
  exact ⟨hpos, object, keys, objs, cls, id, hierarchy, hr _ _ hdict (newDict_ne_empty (by simp)),
    hr _ _ hclass (newDict_ne_empty (by simp))⟩

theorem RepresentsAll.mono_of
    (ih : ∀ v ∈ vs, ∀ uid, Represents objects v uid → Represents objects' v uid)
    (h : RepresentsAll objects vs uids) : RepresentsAll objects' vs uids := by
  induction vs generalizing uids with
  | nil => exact h
  | cons v rest ihrest =>
    obtain ⟨hv, hrest⟩ := forall_mem_cons.mp ih
    obtain ⟨uid, more, rfl, hfirst, hmore⟩ := h
    exact ⟨uid, more, rfl, hv uid hfirst, ihrest hrest hmore⟩

theorem RepresentsEntries.mono_of (hr : Refines objects objects')
    (ih : ∀ e ∈ es, ∀ uid, Represents objects e.2 uid → Represents objects' e.2 uid)
    (h : RepresentsEntries objects es uids) : RepresentsEntries objects' es uids := by
  induction es generalizing uids with
  | nil => exact h
  | cons e rest ihrest =>
    obtain ⟨hv, hrest⟩ := forall_mem_cons.mp ih
    obtain ⟨keyUid, uid, more, rfl, hkey, hfirst, hmore⟩ := h
    exact ⟨keyUid, uid, more, rfl, hkey.mono hr, hv uid hfirst, ihrest hrest hmore⟩

theorem not_represents (hnull : v ≠ .null) (henc : v.hasEncoder = false) :
    ¬Represents objects v uid := by
  cases v <;> first | exact fun h => h | exact absurd rfl hnull | cases henc

section
variable (hr : Refines objects objects')
include hr

theorem Represents.mono (v : NSObject) (uid : Nat) (h : Represents objects v uid) :
    Represents objects' v uid := by
  induction v using NSObject.induct generalizing uid with
  | null => exact h
  | number n =>
    obtain ⟨s, hs, h⟩ := h
    exact ⟨s, hs, h.mono hr⟩
  | string str => exact IsScalar.mono hr h
  | dictionary entries ih =>
    obtain ⟨uids, hdict, h⟩ := h
    exact ⟨uids, hdict.mono hr, h.mono_of hr ih⟩
  | array elements ih =>
    obtain ⟨uids, harray, h⟩ := h
    exact ⟨uids, harray.mono hr, h.mono_of ih⟩
  | set items ih =>
    obtain ⟨uids, hset, h⟩ := h
    exact ⟨uids, hset.mono hr, h.mono_of ih⟩
  | other v hnull henc => exact absurd h (not_represents hnull henc)

theorem RepresentsAll.mono (h : RepresentsAll objects vs uids) : RepresentsAll objects' vs uids :=
  h.mono_of fun v _ uid => Represents.mono hr v uid

theorem RepresentsEntries.mono (h : RepresentsEntries objects es uids) :
    RepresentsEntries objects' es uids :=
  h.mono_of hr fun e _ uid => Represents.mono hr e.2 uid

end

omit [HashOrder] in
theorem IsScalar.lt (h : IsScalar objects uid s) : uid < objects.length :=
  (List.getElem?_eq_some_iff.mp h.2).1

theorem Represents.lt (hpos : 0 < objects.length) (h : Represents objects v uid) :
    uid < objects.length := by
  cases v with
  | null => exact h ▸ hpos
  | number n =>
    obtain ⟨s, -, h⟩ := h
    exact h.lt
  | string str => exact IsScalar.lt h
  | dictionary entries =>
    obtain ⟨uids, ⟨-, object, keys, objs, cls, id, hierarchy, hdict, -⟩, -⟩ := h
    exact (List.getElem?_eq_some_iff.mp hdict).1
  | array elements | set items =>
    obtain ⟨uids, ⟨-, object, objs, cls, id, hierarchy, hdict, -⟩, -⟩ := h
    exact (List.getElem?_eq_some_iff.mp hdict).1
  | _ => cases h

theorem RepresentsAll.lt (hpos : 0 < objects.length)
    (h : RepresentsAll objects vs uids) : ∀ uid ∈ uids, uid < objects.length := by
  induction vs generalizing uids with
  | nil => simp [show uids = [] from h]
  | cons v rest ih =>
    obtain ⟨uid, more, rfl, hfirst, hmore⟩ := h
    exact forall_mem_cons.mpr ⟨hfirst.lt hpos, ih hmore⟩

theorem RepresentsEntries.lt (hpos : 0 < objects.length) (h : RepresentsEntries objects es uids) :
    ∀ e ∈ uids, e.1 < objects.length ∧ e.2 < objects.length := by
  induction es generalizing uids with
  | nil => simp [show uids = [] from h]
  | cons e rest ih =>
    obtain ⟨keyUid, uid, more, rfl, hkey, hfirst, hmore⟩ := h
    exact forall_mem_cons.mpr ⟨⟨hkey.lt, hfirst.lt hpos⟩, ih hmore⟩

variable {P : Scalar → Prop} {ctx ctx' : EncodingContext}

def Encodes (P : Scalar → Prop) (v : NSObject) : Prop :=
  ∀ ctx uid ctx', Tidy P ctx → encodeValue v ctx = some (uid, ctx') →
    Step P ctx ctx' ∧ Represents ctx'.objects v uid

theorem encodeAll_spec (ih : ∀ v ∈ vs, Encodes P v)
    (h : Tidy P ctx) (heq : encodeAll vs ctx = some (uids, ctx')) :
    Step P ctx ctx' ∧ RepresentsAll ctx'.objects vs uids := by
  induction vs generalizing ctx uids with
  | nil =>
    obtain ⟨rfl, rfl⟩ := pure_eq_some.mp heq
    exact ⟨.refl h, rfl⟩
  | cons v rest ihrest =>
    obtain ⟨hv, hrest⟩ := forall_mem_cons.mp ih
    obtain ⟨uid, ctx₁, hfirst, heq⟩ := bind_eq_some.mp heq
    obtain ⟨more, ctx₂, hmore, heq⟩ := bind_eq_some.mp heq
    obtain ⟨rfl, rfl⟩ := pure_eq_some.mp heq
    obtain ⟨hstep, hrep⟩ := hv ctx uid ctx₁ h hfirst
    obtain ⟨hsteps, hreps⟩ := ihrest hrest hstep.tidy hmore
    exact ⟨hstep.trans hsteps, uid, more, rfl, Represents.mono hsteps.refines v uid hrep, hreps⟩

theorem encodeEntries_spec (hP : Admits P)
    (hkeys : ∀ e ∈ es, P (.string e.1)) (ih : ∀ e ∈ es, Encodes P e.2) (h : Tidy P ctx)
    (heq : encodeEntries es ctx = some (uids, ctx')) :
    Step P ctx ctx' ∧ RepresentsEntries ctx'.objects es uids := by
  induction es generalizing ctx uids with
  | nil =>
    obtain ⟨rfl, rfl⟩ := pure_eq_some.mp heq
    exact ⟨.refl h, rfl⟩
  | cons e rest ihrest =>
    obtain ⟨hv, hrest⟩ := forall_mem_cons.mp ih
    obtain ⟨hkey, hkeys⟩ := forall_mem_cons.mp hkeys
    obtain ⟨keyUid, ctx₁, hfirst, heq⟩ := bind_eq_some.mp heq
    obtain ⟨uid, ctx₂, hsecond, heq⟩ := bind_eq_some.mp heq
    obtain ⟨more, ctx₃, hmore, heq⟩ := bind_eq_some.mp heq
    obtain ⟨rfl, rfl⟩ := pure_eq_some.mp heq
    obtain ⟨hstep, hscalar⟩ := step_encodeScalar hP h hkey hfirst
    obtain ⟨hstep', hrep⟩ := hv ctx₁ uid ctx₂ hstep.tidy hsecond
    obtain ⟨hsteps, hreps⟩ := ihrest hkeys hrest hstep'.tidy hmore
    exact ⟨hstep.trans (hstep'.trans hsteps), keyUid, uid, more, rfl,
      IsScalar.mono (hstep'.trans hsteps).refines hscalar, Represents.mono hsteps.refines _ _ hrep,
      hreps⟩

omit [HashOrder] in
theorem owners_uids (id : Nat) (uids : List Nat) :
    owners [.array id (uids.map uidValue)] = [(false, id)] := by
  simp [owners, Value.visited, Value.owner?, uidValue, filterMap_flatMap, flatMap_map]

omit [HashOrder] in
theorem scalar_mem_uids {n id : Nat} {uids : List Nat} (huids : ∀ uid ∈ uids, uid < n) (s : Scalar)
    (hs : .scalar s ∈ (Value.array id (uids.map uidValue)).visited) :
    ∃ u, s = .uid u ∧ u.toNat < n := by
  simp only [Value.visited, visitedAll_eq, uidValue, flatMap_map, mem_cons,
    reduceCtorEq, mem_flatMap, not_mem_nil, or_false, false_or, Value.scalar.injEq] at hs
  obtain ⟨uid, huid, rfl⟩ := hs
  exact ⟨_, rfl, (Nat.mod_le _ _).trans_lt (huids uid huid)⟩

omit [HashOrder] in
theorem scalar_mem_uid (huid : uid < n) (s : Scalar)
    (hs : .scalar s ∈ (uidValue uid).visited) : ∃ u, s = .uid u ∧ u.toNat < n := by
  cases mem_singleton.mp hs
  exact ⟨_, rfl, (Nat.mod_le _ _).trans_lt huid⟩

theorem encodeElements_spec (hP : Admits P) {d : List String} (hd : d ∈ descriptions)
    {vs : List NSObject} (ih : ∀ v ∈ vs, Encodes P v) (h : Tidy P ctx)
    (heq : encodeElements d (encodeAll vs) ctx = some (uid, ctx')) : Step P ctx ctx' ∧
      ∃ uids, IsCollection ctx'.objects d uid uids ∧ RepresentsAll ctx'.objects vs uids := by
  obtain ⟨uids, ctx₁, cls, ctx₂, hall, hclass, rfl, hctx⟩ := encodeElements_eq_some.mp heq
  have hreserve := step_reserve h (n := ctx.next + 2) (by omega)
  obtain ⟨hsteps, hreps⟩ := encodeAll_spec ih hreserve.tidy hall
  obtain ⟨hstep, id, hierarchy, hspec⟩ := step_getClass hP hsteps.tidy hd hclass
  have hpos := hstep.tidy.nonempty
  have hreps := hreps.mono hstep.refines
  have hcls : cls < ctx₂.objects.length := (List.getElem?_eq_some_iff.mp hspec).1
  obtain ⟨hfill, hrefines, hdict⟩ := step_fill (n := ctx.next + 2)
    [("NS.objects", .array (ctx.next + 1) (uids.map uidValue)), ("$class", uidValue cls)]
    [ctx.next + 1] h (by omega) (hsteps.trans hstep)
    (by rw [List.map_cons, owners_cons, owners_uids]; rfl) (by simp) (by simp)
    (by simpa using ⟨hP.names "NS.objects" (by decide), hP.names "$class" (by decide)⟩)
    (by simpa using ⟨scalar_mem_uids (hreps.lt hpos), scalar_mem_uid hcls⟩)
    (show (["NS.objects", "$class"].map Str.ofString).Nodup by decide)
    (by simp [Value.visited, uidValue]) hctx
  refine ⟨hfill, uids, ⟨h.nonempty, _, _, cls, id, hierarchy, hdict, ?_⟩, hreps.mono hrefines⟩
  exact hrefines _ _ hspec (newDict_ne_empty (by simp))

theorem encodeDictionary_spec (hP : Admits P) {es : List (Str × NSObject)}
    (hkeys : ∀ e ∈ es, P (.string e.1)) (ih : ∀ e ∈ es, Encodes P e.2) (h : Tidy P ctx)
    (heq : encodeDictionary (encodeEntries es) ctx = some (uid, ctx')) : Step P ctx ctx' ∧
      ∃ uids, IsDictionary ctx'.objects uid uids ∧ RepresentsEntries ctx'.objects es uids := by
  obtain ⟨uids, ctx₁, cls, ctx₂, hall, hclass, rfl, hctx⟩ := encodeDictionary_eq_some.mp heq
  have hreserve := step_reserve h (n := ctx.next + 3) (by omega)
  obtain ⟨hsteps, hreps⟩ := encodeEntries_spec hP hkeys ih hreserve.tidy hall
  obtain ⟨hstep, id, hierarchy, hspec⟩ := step_getClass hP hsteps.tidy (by decide) hclass
  have hpos := hstep.tidy.nonempty
  have hreps := hreps.mono hstep.refines
  have hcls : cls < ctx₂.objects.length := (List.getElem?_eq_some_iff.mp hspec).1
  have hlt := hreps.lt hpos
  have hmap : ∀ f : Nat × Nat → Nat, (uids.map fun e => uidValue (f e)) =
      (uids.map f).map uidValue := fun f => by simp
  rw [hmap, hmap] at hctx
  obtain ⟨hfill, hrefines, hdict⟩ := step_fill (n := ctx.next + 3)
    [("NS.keys", .array (ctx.next + 1) ((uids.map Prod.fst).map uidValue)),
      ("NS.objects", .array (ctx.next + 2) ((uids.map Prod.snd).map uidValue)),
      ("$class", uidValue cls)]
    [ctx.next + 1, ctx.next + 2] h (by omega) (hsteps.trans hstep)
    (by
      rw [List.map_cons, List.map_cons, owners_cons, owners_uids, owners_cons, owners_uids]
      rfl)
    (by simp) (by simp)
    (by simpa using ⟨hP.names "NS.keys" (by decide), hP.names "NS.objects" (by decide),
      hP.names "$class" (by decide)⟩)
    (by
      simp only [List.forall_mem_cons]
      exact ⟨scalar_mem_uids (List.forall_mem_map.mpr fun e he => (hlt e he).1),
        scalar_mem_uids (List.forall_mem_map.mpr fun e he => (hlt e he).2), scalar_mem_uid hcls,
        by simp⟩)
    (show (["NS.keys", "NS.objects", "$class"].map Str.ofString).Nodup by decide)
    (by simp [Value.visited, uidValue]) hctx
  rw [← hmap, ← hmap] at hdict
  refine ⟨hfill, uids, ⟨h.nonempty, _, _, _, cls, id, hierarchy, hdict, ?_⟩, hreps.mono hrefines⟩
  exact hrefines _ _ hspec (newDict_ne_empty (by simp))

theorem encodeValue_eq_none (hnull : v ≠ .null) (henc : v.hasEncoder = false) :
    encodeValue v ctx = none := by
  cases v <;> first | rfl | exact absurd rfl hnull | cases henc

theorem encodes (hP : Admits P) (v : NSObject) (hv : ∀ w ∈ v.parts, ∀ s ∈ ownScalars w, P s) :
    Encodes P v := by
  induction v using induct with
  | null =>
    intro ctx uid ctx' h heq
    obtain ⟨rfl, rfl⟩ := pure_eq_some.mp heq
    exact ⟨.refl h, rfl⟩
  | number n =>
    intro ctx uid ctx' h heq
    rw [encodeValue, encodeNumber_eq] at heq
    obtain ⟨s, hs, heq⟩ := bind_eq_some_iff.mp heq
    have hown : P s := hv _ (mem_parts_self _) s (by simp [ownScalars, hs])
    obtain ⟨hstep, hscalar⟩ := step_encodeScalar hP h hown heq
    exact ⟨hstep, s, hs, hscalar⟩
  | string str =>
    intro ctx uid ctx' h heq
    exact step_encodeScalar hP h (hv _ (mem_parts_self _) _ (by simp [ownScalars])) heq
  | dictionary entries ih =>
    intro ctx uid ctx' h heq
    exact encodeDictionary_spec hP
      (fun e he => hv _ (mem_parts_self _) _ (mem_map.mpr ⟨e, he, rfl⟩))
      (fun e he => ih e he fun w hw => hv w (parts_entry he hw)) h heq
  | array elements ih =>
    intro ctx uid ctx' h heq
    exact encodeElements_spec hP (by decide)
      (fun v hmem => ih v hmem fun w hw => hv w ((parts_element hmem).1 hw)) h heq
  | set items ih =>
    intro ctx uid ctx' h heq
    exact encodeElements_spec hP (by decide)
      (fun v hmem => ih v hmem fun w hw => hv w ((parts_element hmem).2 hw)) h heq
  | other v hnull henc =>
    intro ctx uid ctx' h heq
    rw [encodeValue_eq_none hnull henc] at heq
    cases heq

omit [HashOrder] in
theorem exists_encodeScalar (s : Scalar) (ctx : EncodingContext) :
    ∃ uid ctx', encodeScalar s ctx = some (uid, ctx') := by
  rw [encodeScalar_eq]
  split <;> exact ⟨_, _, rfl⟩

theorem exists_getClass (description : List String) (ctx : EncodingContext) :
    ∃ uid ctx', getClass description ctx = some (uid, ctx') := by
  rw [getClass_eq]
  split <;> exact ⟨_, _, rfl⟩

theorem exists_encodeAll
    (h : ∀ v ∈ vs, ∀ ctx, ∃ uid ctx', encodeValue v ctx = some (uid, ctx')) (ctx : EncodingContext) :
    ∃ uids ctx', encodeAll vs ctx = some (uids, ctx') := by
  induction vs generalizing ctx with
  | nil => exact ⟨[], ctx, rfl⟩
  | cons v rest ih =>
    obtain ⟨hv, hrest⟩ := forall_mem_cons.mp h
    obtain ⟨uid, ctx₁, hfirst⟩ := hv ctx
    obtain ⟨uids, ctx₂, hmore⟩ := ih hrest ctx₁
    exact ⟨uid :: uids, ctx₂, bind_eq_some.mpr ⟨uid, ctx₁, hfirst,
      bind_eq_some.mpr ⟨uids, ctx₂, hmore, rfl⟩⟩⟩

theorem exists_encodeEntries
    (h : ∀ e ∈ es, ∀ ctx, ∃ uid ctx', encodeValue e.2 ctx = some (uid, ctx'))
    (ctx : EncodingContext) : ∃ uids ctx', encodeEntries es ctx = some (uids, ctx') := by
  induction es generalizing ctx with
  | nil => exact ⟨[], ctx, rfl⟩
  | cons e rest ih =>
    obtain ⟨he, hrest⟩ := forall_mem_cons.mp h
    obtain ⟨keyUid, ctx₁, hkey⟩ := exists_encodeScalar (.string e.1) ctx
    obtain ⟨uid, ctx₂, hval⟩ := he ctx₁
    obtain ⟨uids, ctx₃, hmore⟩ := ih hrest ctx₂
    exact ⟨(keyUid, uid) :: uids, ctx₃, bind_eq_some.mpr ⟨keyUid, ctx₁, hkey,
      bind_eq_some.mpr ⟨uid, ctx₂, hval, bind_eq_some.mpr ⟨uids, ctx₃, hmore, rfl⟩⟩⟩⟩

theorem exists_encodeElements (description : List String)
    (h : ∀ v ∈ vs, ∀ ctx, ∃ uid ctx', encodeValue v ctx = some (uid, ctx'))
    (ctx : EncodingContext) :
    ∃ uid ctx', encodeElements description (encodeAll vs) ctx = some (uid, ctx') := by
  obtain ⟨uids, ctx₁, huids⟩ := exists_encodeAll h
    { ctx with objects := ctx.objects ++ [.dict ctx.next []], next := ctx.next + 2 }
  obtain ⟨cls, ctx₂, hcls⟩ := exists_getClass description ctx₁
  exact ⟨_, _, encodeElements_eq_some.mpr ⟨uids, ctx₁, cls, ctx₂, huids, hcls, rfl, rfl⟩⟩

/-- Encoding succeeds if there is an encoder for all that an object is made of. -/
theorem exists_encodeValue (v : NSObject)
    (henc : ∀ p ∈ v.parts, p = .null ∨ p.hasEncoder = true)
    (hnumber : ∀ n, .number n ∈ v.parts → (numberScalar n).isSome) (ctx : EncodingContext) :
    ∃ uid ctx', encodeValue v ctx = some (uid, ctx') := by
  induction v using induct generalizing ctx with
  | null => exact ⟨0, ctx, rfl⟩
  | number n =>
    obtain ⟨s, hs⟩ := isSome_iff_exists.mp (hnumber n (mem_parts_self _))
    rw [encodeValue, encodeNumber_eq, hs]
    exact exists_encodeScalar s ctx
  | string str => exact exists_encodeScalar (.string str) ctx
  | dictionary es ih =>
    obtain ⟨uids, ctx₁, huids⟩ := exists_encodeEntries
      (fun e he => ih e he (fun p hp => henc p (parts_entry he hp))
        fun n hn => hnumber n (parts_entry he hn))
      { ctx with objects := ctx.objects ++ [.dict ctx.next []], next := ctx.next + 3 }
    obtain ⟨cls, ctx₂, hcls⟩ := exists_getClass dictionaryClass ctx₁
    exact ⟨_, _, encodeDictionary_eq_some.mpr ⟨uids, ctx₁, cls, ctx₂, huids, hcls, rfl, rfl⟩⟩
  | array vs ih =>
    exact exists_encodeElements arrayClass (fun v hv => ih v hv
      (fun p hp => henc p ((parts_element hv).1 hp))
      fun n hn => hnumber n ((parts_element hv).1 hn)) ctx
  | set vs ih =>
    exact exists_encodeElements setClass (fun v hv => ih v hv
      (fun p hp => henc p ((parts_element hv).2 hp))
      fun n hn => hnumber n ((parts_element hv).2 hn)) ctx
  | other v hnull hother =>
    rcases henc v v.mem_parts_self with h | h
    · exact absurd h hnull
    · rw [hother] at h
      cases h

end

end NSKeyedArchive

end FridaCore.Fruity
