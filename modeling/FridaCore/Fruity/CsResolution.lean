import FridaCore.Fruity.CsSignature

/-!
# Addresses are resolved to the images they are in

The index is kept from one call to the next. Whatever has been done in between, it is what
it would be if it were made now, or there is none. Segments may overlap: the entry with the
last start at or below an address need not hold it, but then one before it may, and all of
these are looked at.
-/

namespace FridaCore.Fruity

open List Option Function

namespace CsSignature

variable {s : CsSignature} {gen : UInt32} {addr : UInt64} {index : List CsSegIndexEntry}

def Holds (e : CsSegIndexEntry) (addr : UInt64) : Prop := e.start ≤ addr ∧ addr < e.stop

theorem scanBack_eq_some (h : scanBack index addr n = some e) : e ∈ index ∧ Holds e addr := by
  induction n with
  | zero => cases h
  | succ i ih =>
    cases hi : index[i]? with
    | none => simp [scanBack, hi] at h
    | some x =>
      simp only [scanBack, hi] at h
      split at h
      · exact ih h
      · next hstart =>
        split at h
        · next hstop =>
          cases h
          exact ⟨mem_of_getElem? hi, UInt64.not_lt.mp hstart, hstop⟩
        · exact ih h

theorem scanBack_eq_none (h : scanBack index addr n = none) (hn : n ≤ index.length) :
    ∀ i < n, ∀ e, index[i]? = some e → ¬Holds e addr := by
  induction n with
  | zero => exact fun i hi => absurd hi (Nat.not_lt_zero i)
  | succ n ih =>
    obtain ⟨x, hx⟩ : ∃ x, index[n]? = some x := ⟨_, getElem?_eq_getElem hn⟩
    have hrest : scanBack index addr n = none ∧ ¬Holds x addr := by
      simp only [scanBack, hx] at h
      split at h
      · next hstart => exact ⟨h, fun hholds => absurd hholds.1 (UInt64.not_le.mpr hstart)⟩
      · split at h
        · cases h
        · next hstop => exact ⟨h, fun hholds => hstop hholds.2⟩
    intro i hi e he
    rcases Nat.lt_succ_iff_lt_or_eq.mp hi with hlt | rfl
    · exact ih hrest.1 (Nat.le_of_succ_le hn) i hlt e he
    · rw [hx] at he
      cases he
      exact hrest.2

theorem start_le_of_sorted (hsorted : index.Pairwise fun a b => a.start ≤ b.start)
    (addr : UInt64) (i j : Nat) (hij : i ≤ j) (hj : j < index.length)
    (h : index[j]?.any fun e => e.start ≤ addr) : index[i]?.any fun e => e.start ≤ addr := by
  rcases Nat.lt_or_eq_of_le hij with hlt | rfl
  · have hle := pairwise_iff_getElem.mp hsorted i j (Nat.lt_trans hlt hj) hj hlt
    simp only [getElem?_eq_getElem hj, any_some, decide_eq_true_eq] at h
    simp only [getElem?_eq_getElem (Nat.lt_trans hlt hj), any_some, decide_eq_true_eq]
    exact UInt64.le_trans hle h
  · exact h

/-- The entry of the index that `try_resolve` settles for. -/
def findEntry (index : List CsSegIndexEntry) (addr : UInt64) : Option CsSegIndexEntry :=
  match bisectLast (fun i => index[i]?.any fun e => e.start ≤ addr) 0 index.length none with
  | none => none
  | some best => scanBack index addr (best + 1)

theorem tryResolve_eq (s : CsSignature) (addr : UInt64) :
    s.tryResolve addr = (findEntry (s.segIndex.getD []) addr).map fun e =>
      (e.owner, (addr - (s.owner e.owner).imageBase).toUInt32) := by
  simp only [tryResolve, findEntry]
  generalize bisectLast _ _ _ _ = best
  cases best <;> rfl

theorem findEntry_eq_some (h : findEntry index addr = some e) : e ∈ index ∧ Holds e addr := by
  unfold findEntry at h
  split at h
  · cases h
  · exact scanBack_eq_some h

theorem findEntry_eq_none (hsorted : index.Pairwise fun a b => a.start ≤ b.start)
    (h : findEntry index addr = none) : ∀ e ∈ index, ¬Holds e addr := by
  obtain ⟨k, hk, hbelow, heq⟩ := bisectLast_eq (start_le_of_sorted hsorted addr)
  rintro e he hholds
  obtain ⟨i, hi, rfl⟩ := getElem_of_mem he
  have hik : i < k := by
    have := hbelow i hi
    simpa [getElem?_eq_getElem hi, hholds.1] using this
  rw [findEntry, heq, if_neg (Nat.ne_zero_of_lt hik)] at h
  have hpos : k - 1 + 1 = k := Nat.sub_add_cancel (Nat.zero_lt_of_lt hik)
  simp only [hpos] at h
  exact scanBack_eq_none h hk i hik _ (getElem?_eq_getElem hi) hholds

def NoWrap (s : CsSignature) : Prop :=
  ∀ o, ∀ seg ∈ (s.owner o).segments, seg.vmaddr.toNat + seg.vmsize.toNat < 2 ^ 64

def Contains (seg : CsSigSegment) (addr : UInt64) : Prop :=
  seg.vmaddr.toNat ≤ addr.toNat ∧ addr.toNat < seg.vmaddr.toNat + seg.vmsize.toNat

/-- An owner that is mapped has a segment, other than the one at zero, with the address
in it. -/
def Covers (s : CsSignature) (gen : UInt32) (addr : UInt64) (o : Nat) : Prop :=
  o ∈ s.owners ∧ ownerIsMappedAt (s.owner o) gen ∧
    ∃ seg ∈ (s.owner o).segments, seg.name ≠ "__PAGEZERO" ∧ Contains seg addr

theorem mem_buildIndex : e ∈ s.buildIndex gen ↔
    e.owner ∈ s.owners ∧ ownerIsMappedAt (s.owner e.owner) gen ∧
      ∃ seg ∈ (s.owner e.owner).segments, seg.name ≠ "__PAGEZERO" ∧
        e.start = seg.vmaddr ∧ e.stop = seg.vmaddr + seg.vmsize := by
  simp only [buildIndex, List.mem_mergeSort, List.mem_flatMap, List.mem_filter, List.mem_map,
    decide_eq_true_eq]
  constructor
  · rintro ⟨o, ⟨howner, hmapped⟩, seg, ⟨hseg, hname⟩, rfl⟩
    exact ⟨howner, hmapped, seg, hseg, hname, rfl, rfl⟩
  · rintro ⟨howner, hmapped, seg, hseg, hname, hstart, hstop⟩
    refine ⟨e.owner, ⟨howner, hmapped⟩, seg, ⟨hseg, hname⟩, ?_⟩
    rw [← hstop, ← hstart]

theorem sorted_buildIndex (s : CsSignature) (gen : UInt32) :
    (s.buildIndex gen).Pairwise fun a b => a.start ≤ b.start := by
  have htrans : ∀ a b c : CsSegIndexEntry,
      decide (a.start ≤ b.start) → decide (b.start ≤ c.start) → decide (a.start ≤ c.start) := by
    intro a b c hab hbc
    simp only [decide_eq_true_eq] at *
    exact UInt64.le_trans hab hbc
  have htotal : ∀ a b : CsSegIndexEntry,
      decide (a.start ≤ b.start) || decide (b.start ≤ a.start) := by
    intro a b
    simpa using UInt64.le_total a.start b.start
  simpa [buildIndex] using pairwise_mergeSort htrans htotal _

theorem covers_iff (hwrap : s.NoWrap) : s.Covers gen addr o ↔
    ∃ e ∈ s.buildIndex gen, e.owner = o ∧ Holds e addr := by
  have hsum : ∀ seg ∈ (s.owner o).segments,
      Contains seg addr ↔ seg.vmaddr ≤ addr ∧ addr < seg.vmaddr + seg.vmsize := by
    intro seg hseg
    rw [UInt64.le_iff_toNat_le, UInt64.lt_iff_toNat_lt, UInt64.toNat_add,
      Nat.mod_eq_of_lt (hwrap o seg hseg), Contains]
  constructor
  · rintro ⟨howner, hmapped, seg, hseg, hname, hcontains⟩
    exact ⟨⟨seg.vmaddr, seg.vmaddr + seg.vmsize, o⟩,
      mem_buildIndex.mpr ⟨howner, hmapped, seg, hseg, hname, rfl, rfl⟩, rfl,
      (hsum seg hseg).mp hcontains⟩
  · rintro ⟨e, he, rfl, hholds⟩
    obtain ⟨howner, hmapped, seg, hseg, hname, hstart, hstop⟩ := mem_buildIndex.mp he
    refine ⟨howner, hmapped, seg, hseg, hname, (hsum seg hseg).mpr ?_⟩
    rw [← hstop, ← hstart]
    exact hholds

def IndexCurrent (s : CsSignature) : Prop :=
  ∀ index ∈ s.segIndex, index = s.buildIndex s.segIndexGen

theorem ensureIndex_segIndex (h : s.IndexCurrent) :
    (s.ensureIndex gen).segIndex = some (s.buildIndex gen) := by
  unfold ensureIndex
  split
  · next hcached =>
    obtain ⟨hsome, rfl⟩ := hcached
    obtain ⟨index, hindex⟩ := isSome_iff_exists.mp hsome
    rw [hindex, h index hindex]
  · rfl

@[simp] theorem ensureIndex_owner : (s.ensureIndex gen).owner = s.owner := by
  unfold ensureIndex
  split <;> rfl

theorem IndexCurrent.ensureIndex (h : s.IndexCurrent) : (s.ensureIndex gen).IndexCurrent := by
  unfold CsSignature.ensureIndex
  split
  · exact h
  · rintro index hindex
    cases hindex
    rfl

theorem indexCurrent_invalidateIndex (s : CsSignature) : s.invalidateIndex.IndexCurrent := by
  simp [IndexCurrent, invalidateIndex]

theorem tryResolve_eq_some (h : s.IndexCurrent) (hwrap : s.NoWrap)
    (hfound : (s.ensureIndex gen).tryResolve addr = some (o, rel)) : s.Covers gen addr o := by
  rw [tryResolve_eq, ensureIndex_segIndex h] at hfound
  obtain ⟨e, he, heq⟩ := map_eq_some_iff.mp hfound
  obtain ⟨hmem, hholds⟩ := findEntry_eq_some he
  cases heq
  exact (covers_iff hwrap).mpr ⟨e, hmem, rfl, hholds⟩

theorem tryResolve_eq_none (h : s.IndexCurrent) (hwrap : s.NoWrap)
    (hnone : (s.ensureIndex gen).tryResolve addr = none) (o : Nat) : ¬s.Covers gen addr o := by
  rw [tryResolve_eq, ensureIndex_segIndex h, map_eq_none_iff] at hnone
  intro hcovers
  obtain ⟨e, he, -, hholds⟩ := (covers_iff hwrap).mp hcovers
  exact findEntry_eq_none (sorted_buildIndex s gen) hnone e he hholds

structure Resolves (s : CsSignature) (gen : UInt32) (addrs : List UInt64) (r : Resolution) :
    Prop where
  addresses : r.symbols.map Symbol.address = addrs
  /-- An address is resolved if and only if some owner has it. -/
  resolved : ∀ x ∈ r.symbols, x.moduleIndex.isSome ↔ ∃ o, s.Covers gen x.address o
  /-- The index is that of an owner that has it. -/
  owner : ∀ x ∈ r.symbols, ∀ i ∈ x.moduleIndex,
    ∃ o, r.moduleList[i]? = some o ∧ s.Covers gen x.address o
  /-- Every module is some symbol's, and is listed once. -/
  used : ∀ i < r.moduleList.length, ∃ x ∈ r.symbols, x.moduleIndex = some i
  nodup : r.moduleList.Nodup

def Tracks (r : Resolution) : Prop :=
  ∀ o i, r.usedOwnerToMod o = some i ↔ r.moduleList[i]? = some o

variable {r : Resolution} {addrs : List UInt64}

theorem Tracks.not_mem (h : Tracks r) (ho : r.usedOwnerToMod o = none) : o ∉ r.moduleList := by
  intro hmem
  obtain ⟨i, hi⟩ := mem_iff_getElem?.mp hmem
  rw [(h o i).mpr hi] at ho
  cases ho

theorem Tracks.add (h : Tracks r) (ho : r.usedOwnerToMod o = none) (symbols : List Symbol) :
    Tracks {
      symbols
      usedOwnerToMod := Function.update r.usedOwnerToMod o (some r.moduleList.length)
      moduleList := r.moduleList ++ [o] } := by
  intro x i
  have hx := h x i
  by_cases hxo : x = o
  · grind
  · grind

theorem resolves_step (h : s.IndexCurrent) (hwrap : s.NoWrap) (hr : s.Resolves gen addrs r)
    (htracks : Tracks r) (addr : UInt64) :
    s.Resolves gen (addrs ++ [addr]) ((s.ensureIndex gen).resolveAddress r addr) ∧
      Tracks ((s.ensureIndex gen).resolveAddress r addr) := by
  obtain ⟨haddresses, hresolved, howner, hused, hnodup⟩ := hr
  unfold resolveAddress
  split
  · next hnone =>
    have hnot := tryResolve_eq_none h hwrap hnone
    refine ⟨⟨by simp [haddresses], ?_, ?_, ?_, hnodup⟩, htracks⟩
    · grind
    · grind
    · intro i hi
      obtain ⟨x, hx, hxi⟩ := hused i hi
      exact ⟨x, mem_append_left _ hx, hxi⟩
  · next owner rel hfound =>
    have hcovers := tryResolve_eq_some h hwrap hfound
    split
    · next hfresh =>
      have hnew := htracks.not_mem hfresh
      refine ⟨⟨by simp [haddresses], ?_, ?_, ?_, ?_⟩, htracks.add hfresh _⟩
      · grind
      · intro x hx i hi
        rcases mem_append.mp hx with hx | hx
        · obtain ⟨o, ho, hcov⟩ := howner x hx i hi
          exact ⟨o, List.getElem?_append_left (List.getElem?_eq_some_iff.mp ho).1 ▸ ho, hcov⟩
        · obtain rfl := mem_singleton.mp hx
          cases hi
          exact ⟨owner, by simp, hcovers⟩
      · intro i hi
        simp only [length_append, length_singleton] at hi
        rcases Nat.lt_succ_iff_lt_or_eq.mp hi with hlt | rfl
        · obtain ⟨x, hx, hxi⟩ := hused i hlt
          exact ⟨x, mem_append_left _ hx, hxi⟩
        · exact ⟨_, mem_append_right _ mem_cons_self, rfl⟩
      · exact nodup_append.mpr ⟨hnodup, nodup_singleton _, by grind⟩
    · next modIdx hknown =>
      have hat := (htracks owner modIdx).mp hknown
      refine ⟨⟨by simp [haddresses], ?_, ?_, ?_, hnodup⟩, htracks⟩
      · grind
      · grind
      · intro i hi
        obtain ⟨x, hx, hxi⟩ := hused i hi
        exact ⟨x, mem_append_left _ hx, hxi⟩

theorem resolves_all (h : s.IndexCurrent) (hwrap : s.NoWrap) (gen : UInt32)
    (addrs : List UInt64) : s.Resolves gen addrs (s.resolveAddresses gen addrs).2 := by
  suffices hboth : s.Resolves gen addrs (addrs.foldl (s.ensureIndex gen).resolveAddress {}) ∧
      Tracks (addrs.foldl (s.ensureIndex gen).resolveAddress {}) from hboth.1
  induction addrs using reverseRecOn with
  | nil => exact ⟨⟨rfl, by simp, by simp, by simp, by simp⟩, by simp [Tracks]⟩
  | append_singleton addrs addr ih =>
    rw [foldl_append]
    exact resolves_step h hwrap ih.1 ih.2 addr

theorem NoWrap.update (h : s.NoWrap) (f : CsSigOwner → CsSigOwner)
    (hf : ∃ o', (f (s.owner o)).segments = (s.owner o').segments) : (s.update o f).NoWrap := by
  obtain ⟨o', hf⟩ := hf
  exact (forall_update_iff s.owner fun _ owner => ∀ seg ∈ owner.segments,
    seg.vmaddr.toNat + seg.vmsize.toNat < 2 ^ 64).mpr ⟨hf ▸ h o', fun x _ => h x⟩

theorem NoWrap.endIfGone (h : s.NoWrap) : (s.endIfGone fresh gen cur).NoWrap := by
  unfold CsSignature.endIfGone
  split
  · exact h
  · split
    · exact h
    · exact h.update _ ⟨cur, rfl⟩

theorem NoWrap.refreshOwner (h : s.NoWrap) : (s.refreshOwner gen f).NoWrap := by
  unfold CsSignature.refreshOwner
  split
  · have hadded : (s.update f fun o => { o with mappedGenStart := gen, mappedGenEnd := 0 }).NoWrap :=
      h.update _ ⟨f, rfl⟩
    exact hadded
  · exact h.update _ ⟨f, rfl⟩

/-- No call makes segments of its own or leaves an index that is out of date. -/
theorem perform_keeps (h : s.IndexCurrent) (hwrap : s.NoWrap) (op : Operation) :
    (s.perform op).IndexCurrent ∧ (s.perform op).NoWrap := by
  cases op with
  | applyRefresh fresh gen =>
    refine ⟨indexCurrent_invalidateIndex _, ?_⟩
    have hended : (s.owners.foldl (endIfGone fresh gen) s).NoWrap :=
      foldlRecOn s.owners (endIfGone fresh gen) hwrap fun _ ht _ _ => ht.endIfGone
    exact foldlRecOn fresh (refreshOwner gen) hended fun _ ht _ _ => ht.refreshOwner
  | noteUnmappedUuid uuid gen =>
    simp only [perform, noteUnmappedUuid]
    split
    · exact ⟨h, hwrap⟩
    · next o _ =>
      have hended : (s.update o fun x => { x with mappedGenEnd := gen }).NoWrap :=
        hwrap.update _ ⟨o, rfl⟩
      exact ⟨indexCurrent_invalidateIndex _, hended⟩
  | resolveAddresses gen addrs =>
    refine ⟨h.ensureIndex, ?_⟩
    intro o seg hseg
    simp only [perform, resolveAddresses, ensureIndex_owner] at hseg
    exact hwrap o seg hseg

/-- Whatever calls have been made before, addresses are resolved by the owners that are
mapped at the generation asked for. -/
theorem resolveAddresses_correct (owner : Nat → CsSigOwner) (owners : List Nat)
    (hwrap : NoWrap { owner, owners }) (ops : List Operation) (gen : UInt32)
    (addrs : List UInt64) :
    (ops.foldl perform { owner, owners }).Resolves gen addrs
      ((ops.foldl perform { owner, owners }).resolveAddresses gen addrs).2 := by
  have hinitial : IndexCurrent { owner, owners } := by simp [IndexCurrent]
  obtain ⟨hcurrent, hwrap⟩ : (ops.foldl perform { owner, owners }).IndexCurrent ∧
      (ops.foldl perform { owner, owners }).NoWrap :=
    foldlRecOn (motive := fun s => s.IndexCurrent ∧ s.NoWrap) ops perform
      ⟨hinitial, hwrap⟩ fun _ ht op _ => perform_keeps ht.1 ht.2 op
  exact resolves_all hcurrent hwrap gen addrs

def overlapping (o : Nat) : CsSigOwner where
  uuid := [.ofNat o]
  segments := [⟨"__PAGEZERO", 0, 0x1000⟩, ⟨"__TEXT", 0x1000, 0x2000⟩]

theorem noWrap_overlapping (owners : List Nat) : NoWrap { owner := overlapping, owners } := by
  intro o seg hseg
  rcases mem_pair.mp hseg with rfl | rfl
  · decide
  · decide

theorem resolveAddresses_correct_overlapping :
    NoWrap { owner := overlapping, owners := [0, 1] } ∧
      (([.resolveAddresses 1 [0x1800], .applyRefresh [1, 2] 2].foldl perform
        { owner := overlapping, owners := [0, 1] }).Resolves 2 [0x800, 0x1800]
          (([.resolveAddresses 1 [0x1800], .applyRefresh [1, 2] 2].foldl perform
            { owner := overlapping, owners := [0, 1] }).resolveAddresses 2 [0x800, 0x1800]).2) :=
  ⟨noWrap_overlapping [0, 1],
    resolveAddresses_correct overlapping [0, 1] (noWrap_overlapping [0, 1]) _ 2 _⟩

end CsSignature

end FridaCore.Fruity
