import FridaCore.Fruity.CsResolution
import FridaCore.Support.Machine

/-!
# What a refresh says about images

A refresh lists the images that are mapped. An owner has one interval of generations: once
it has been ended, a refresh that lists the image again finds the owner by its uuid and
leaves the interval as it is.
-/

namespace FridaCore.Fruity

open List Option

namespace CsSignature

variable {s t : CsSignature} {gen g : UInt32} {fresh : List Nat}

theorem ownerIsMappedAt_iff (owner : CsSigOwner) (gen : UInt32) :
    ownerIsMappedAt owner gen ↔
      owner.mappedGenStart ≤ gen ∧ (owner.mappedGenEnd = 0 ∨ gen < owner.mappedGenEnd) := by
  unfold ownerIsMappedAt
  split
  · next hlt => simp [UInt32.not_le.mpr hlt]
  · next hge =>
    split
    · next hend => simp [hend, UInt32.not_lt.mp hge]
    · next hend => simp [hend, UInt32.not_lt.mp hge]

def Listed (s : CsSignature) (fresh : List Nat) (o : Nat) : Prop :=
  ∃ f ∈ fresh, (s.owner f).uuid = (s.owner o).uuid

instance : Decidable (s.Listed fresh o) :=
  inferInstanceAs (Decidable (∃ f ∈ fresh, (s.owner f).uuid = (s.owner o).uuid))

inductive Change
  | applyRefresh (fresh : List Nat) (gen : UInt32)
  | noteUnmappedUuid (uuid : List UInt8) (gen : UInt32)

def Change.generation : Change → UInt32
  | applyRefresh _ gen => gen
  | noteUnmappedUuid _ gen => gen

/-- A signature and the generation of the last change to it. Generations are positive and
do not decrease. -/
def change (h : CsSignature × UInt32) (c : Change) : Option (CsSignature × UInt32) :=
  if 0 < c.generation ∧ h.2 ≤ c.generation then
    match c with
    | .applyRefresh fresh gen => some (h.1.applyRefresh fresh gen, gen)
    | .noteUnmappedUuid uuid gen => some (h.1.noteUnmappedUuid uuid gen, gen)
  else none

def IsResolved (s : CsSignature) (gen : UInt32) (addr : UInt64) : Prop :=
  ∀ x ∈ (s.resolveAddresses gen [addr]).2.symbols, x.moduleIndex.isSome

structure Authoritative (s : CsSignature) (fresh : List Nat) (gen : UInt32) (t : CsSignature) :
    Prop where
  mapped : ∀ o ∈ t.owners, ownerIsMappedAt (t.owner o) gen ↔ t.Listed fresh o
  resolved : ∀ f ∈ fresh, ∀ seg ∈ (s.owner f).segments, seg.name ≠ "__PAGEZERO" →
    ∀ addr, Contains seg addr → t.IsResolved gen addr
  earlier : ∀ g < gen, ∀ o, (o ∈ t.owners ∧ ownerIsMappedAt (t.owner o) g) ↔
    (o ∈ s.owners ∧ ownerIsMappedAt (s.owner o) g)

/-- No image comes back: what is listed has not been unmapped. Owners that are listed under
one uuid have the same segments, and none of these wraps around. -/
@[mk_iff]
structure Orderly (s : CsSignature) (fresh : List Nat) : Prop where
  mapped : ∀ o ∈ s.owners, s.Listed fresh o → (s.owner o).mappedGenEnd = 0
  agree : ∀ f ∈ fresh, ∀ f' ∈ fresh, (s.owner f).uuid = (s.owner f').uuid →
    (s.owner f).segments = (s.owner f').segments
  noWrap : ∀ f ∈ fresh, ∀ seg ∈ (s.owner f).segments,
    seg.vmaddr.toNat + seg.vmsize.toNat < 2 ^ 64

instance : Decidable (s.Orderly fresh) := decidable_of_iff' _ (orderly_iff s fresh)

theorem endIfGone_owner (s : CsSignature) (cur o : Nat) :
    (s.endIfGone fresh gen cur).owner o =
      if o = cur ∧ (s.owner o).mappedGenEnd = 0 ∧ ¬s.Listed fresh o then
        { s.owner o with mappedGenEnd := gen }
      else s.owner o := by
  have hlisted : (fresh.any fun f => (s.owner cur).uuid = (s.owner f).uuid) ↔
      s.Listed fresh cur := by
    simp only [List.any_eq_true, decide_eq_true_eq, Listed]
    exact exists_congr fun f => and_congr_right fun _ => eq_comm
  unfold endIfGone
  by_cases ho : o = cur
  · subst ho
    split
    · next hend => simp [hend]
    · next hend =>
      split
      · next hany => simp [hlisted.mp hany]
      · next hany =>
        have hnot : ¬s.Listed fresh o := fun h => hany (hlisted.mpr h)
        simp [update, hnot, not_not.mp hend]
  · split
    · simp [ho]
    · split <;> simp [ho, update]

@[simp] theorem endIfGone_owners (s : CsSignature) (cur : Nat) :
    (s.endIfGone fresh gen cur).owners = s.owners := by
  unfold endIfGone
  split
  · rfl
  · split <;> rfl

theorem endIfGone_uuid (s : CsSignature) (cur o : Nat) :
    ((s.endIfGone fresh gen cur).owner o).uuid = (s.owner o).uuid := by
  rw [endIfGone_owner]
  split <;> rfl

theorem endGone_owner (hgen : gen ≠ 0) (l : List Nat) (s : CsSignature) (o : Nat) :
    (l.foldl (endIfGone fresh gen) s).owner o =
      if o ∈ l ∧ (s.owner o).mappedGenEnd = 0 ∧ ¬s.Listed fresh o then
        { s.owner o with mappedGenEnd := gen }
      else s.owner o := by
  induction l generalizing s with
  | nil => simp
  | cons cur l ih =>
    have hlisted : (s.endIfGone fresh gen cur).Listed fresh o ↔ s.Listed fresh o := by
      simp [Listed, endIfGone_uuid]
    rw [foldl_cons, ih]
    simp only [hlisted, endIfGone_owner]
    by_cases hcur : o = cur
    · subst hcur
      by_cases hgone : (s.owner o).mappedGenEnd = 0 ∧ ¬s.Listed fresh o
      · simp [hgone, hgen]
      · simp [hgone]
    · simp [hcur]

@[simp] theorem endGone_owners (l : List Nat) (s : CsSignature) :
    (l.foldl (endIfGone fresh gen) s).owners = s.owners := by
  induction l generalizing s with
  | nil => rfl
  | cons cur l ih => rw [foldl_cons, ih, endIfGone_owners]

/-- What is known when the second loop has dealt with some of the fresh owners. -/
structure Refreshing (s : CsSignature) (fresh : List Nat) (gen : UInt32) (done : List Nat)
    (t : CsSignature) : Prop where
  uuid : ∀ o, (t.owner o).uuid = (s.owner o).uuid
  segments : ∀ f ∈ fresh, (t.owner f).segments = (s.owner f).segments
  subset : s.owners ⊆ t.owners
  known : ∀ f ∈ done, ∃ o ∈ t.owners, (t.owner o).uuid = (s.owner f).uuid ∧
    (t.owner o).segments = (s.owner f).segments
  mapped : ∀ o ∈ t.owners, ownerIsMappedAt (t.owner o) gen ↔ s.Listed fresh o
  earlier : ∀ g < gen, ∀ o, (o ∈ t.owners ∧ ownerIsMappedAt (t.owner o) g) ↔
    (o ∈ s.owners ∧ ownerIsMappedAt (s.owner o) g)

def Until (s : CsSignature) (g : UInt32) : Prop :=
  ∀ o ∈ s.owners, (s.owner o).mappedGenStart ≤ g ∧ (s.owner o).mappedGenEnd ≤ g

theorem refreshing_first (hs : s.Until gen) (hgen : gen ≠ 0) (horderly : s.Orderly fresh) :
    Refreshing s fresh gen [] (s.owners.foldl (endIfGone fresh gen) s) where
  uuid o := by
    rw [endGone_owner hgen]
    split <;> rfl
  segments f _ := by
    rw [endGone_owner hgen]
    split <;> rfl
  subset := by simp
  known := by simp
  mapped o ho := by
    rw [endGone_owners] at ho
    obtain ⟨hstart, hend⟩ := hs o ho
    rw [endGone_owner hgen, ownerIsMappedAt_iff]
    by_cases hlisted : s.Listed fresh o
    · simp [hlisted, hstart, horderly.mapped o ho hlisted]
    · by_cases hzero : (s.owner o).mappedGenEnd = 0
      · simp [hlisted, hzero, ho, hgen]
      · simp [hlisted, hzero, UInt32.not_lt.mpr hend]
  earlier g hg o := by
    rw [endGone_owners, endGone_owner hgen]
    split
    · next hgone => simp [ownerIsMappedAt_iff, hgone.2.1, hg]
    · rfl

theorem update_owner (t : CsSignature) (x o : Nat) (f : CsSigOwner → CsSigOwner) :
    (t.update x f).owner o = if o = x then f (t.owner o) else t.owner o := by
  by_cases h : o = x
  · subst h
    simp [update]
  · simp [update, h]

section
variable (h : Refreshing s fresh gen done t)
include h

theorem Refreshing.add (hf : f ∈ fresh)
    (hnew : ∀ o ∈ t.owners, (t.owner o).uuid ≠ (t.owner f).uuid) :
    Refreshing s fresh gen (done ++ [f])
      { t.update f fun o => { o with mappedGenStart := gen, mappedGenEnd := 0 } with
        owners := t.owners ++ [f] } := by
  have hmem : f ∉ t.owners := fun hmem => hnew f hmem rfl
  have hne : ∀ o ∈ t.owners, o ≠ f := fun o ho heq => hmem (heq ▸ ho)
  refine ⟨fun o => ?_, fun x hx => ?_, fun o ho => mem_append_left _ (h.subset ho), ?_, ?_, ?_⟩
  · rw [update_owner]
    split <;> exact h.uuid o
  · rw [update_owner]
    split <;> exact h.segments x hx
  · intro x hx
    rcases mem_append.mp hx with hx | hx
    · obtain ⟨o, ho, huuid, hsegments⟩ := h.known x hx
      refine ⟨o, mem_append_left _ ho, ?_⟩
      rw [update_owner, if_neg (hne o ho)]
      exact ⟨huuid, hsegments⟩
    · obtain rfl := mem_singleton.mp hx
      refine ⟨x, mem_append_right _ mem_cons_self, ?_⟩
      rw [update_owner, if_pos rfl]
      exact ⟨h.uuid x, h.segments x hf⟩
  · intro o ho
    rw [update_owner]
    rcases mem_append.mp ho with ho | ho
    · rw [if_neg (hne o ho)]
      exact h.mapped o ho
    · obtain rfl := mem_singleton.mp ho
      rw [if_pos rfl, ownerIsMappedAt_iff]
      exact iff_of_true ⟨UInt32.le_refl gen, .inl rfl⟩ ⟨o, hf, rfl⟩
  · intro g hg o
    rw [update_owner]
    by_cases ho : o = f
    · subst ho
      refine iff_of_false ?_ fun hbefore => hmem (h.subset hbefore.1)
      rw [if_pos rfl, ownerIsMappedAt_iff]
      exact fun hafter => absurd hafter.2.1 (UInt32.not_le.mpr hg)
    · rw [if_neg ho, ← h.earlier g hg o]
      simp [ho]

section
variable (horderly : s.Orderly fresh) (hdone : done ⊆ fresh)
include horderly hdone

theorem Refreshing.replace (hf : f ∈ fresh) (hcur : cur ∈ t.owners)
    (huuid : (t.owner cur).uuid = (t.owner f).uuid) :
    Refreshing s fresh gen (done ++ [f]) (t.update cur fun o =>
      { o with
        path := (t.owner f).path
        imageBase := (t.owner f).imageBase
        imageEnd := (t.owner f).imageEnd
        segments := (t.owner f).segments
        version := (t.owner f).version }) := by
  have hsame : ∀ x ∈ fresh, (s.owner x).uuid = (s.owner cur).uuid →
      (s.owner x).segments = (s.owner f).segments := by
    intro x hx hxcur
    refine horderly.agree x hx f hf (hxcur.trans ?_)
    rw [← h.uuid cur, ← h.uuid f, huuid]
  have hmapped : ∀ g o, ownerIsMappedAt ((t.update cur fun o =>
      { o with
        path := (t.owner f).path
        imageBase := (t.owner f).imageBase
        imageEnd := (t.owner f).imageEnd
        segments := (t.owner f).segments
        version := (t.owner f).version }).owner o) g = ownerIsMappedAt (t.owner o) g := by
    intro g o
    rw [update_owner]
    split <;> rfl
  refine ⟨fun o => ?_, fun x hx => ?_, h.subset, fun x hx => ?_, fun o ho => ?_, fun g hg o => ?_⟩
  · rw [update_owner]
    split <;> exact h.uuid o
  · rw [update_owner]
    split
    · next hxcur =>
      subst hxcur
      exact (h.segments f hf).trans (hsame x hx rfl).symm
    · exact h.segments x hx
  · rcases mem_append.mp hx with hx | hx
    · obtain ⟨o, ho, hxuuid, hsegments⟩ := h.known x hx
      refine ⟨o, ho, ?_⟩
      rw [update_owner]
      split
      · next hocur =>
        subst hocur
        refine ⟨hxuuid, (h.segments f hf).trans (hsame x (hdone hx) ?_).symm⟩
        rw [← hxuuid, h.uuid]
      · exact ⟨hxuuid, hsegments⟩
    · obtain rfl := mem_singleton.mp hx
      refine ⟨cur, hcur, ?_⟩
      rw [update_owner, if_pos rfl]
      exact ⟨huuid.trans (h.uuid x), h.segments x hf⟩
  · rw [hmapped]
    exact h.mapped o ho
  · rw [hmapped]
    exact h.earlier g hg o

theorem Refreshing.step (hf : f ∈ fresh) :
    Refreshing s fresh gen (done ++ [f]) (t.refreshOwner gen f) := by
  unfold refreshOwner
  split
  · next hnone => exact h.add hf (by simpa using hnone)
  · next cur hcur =>
    refine h.replace horderly hdone hf (mem_of_find?_eq_some hcur) ?_
    simpa using find?_some hcur

theorem Refreshing.all (hrest : rest ⊆ fresh) :
    Refreshing s fresh gen (done ++ rest) (rest.foldl (refreshOwner gen) t) := by
  induction rest generalizing done t with
  | nil => simpa using h
  | cons f rest ih =>
    obtain ⟨hf, hrest⟩ := cons_subset.mp hrest
    have hstep := h.step horderly hdone hf
    have := ih hstep (append_subset.mpr ⟨hdone, by simpa using hf⟩) hrest
    simpa using this

end

end

theorem isResolved_of_segment (hcurrent : s.IndexCurrent) (ho : o ∈ s.owners)
    (hmapped : ownerIsMappedAt (s.owner o) gen) (hseg : seg ∈ (s.owner o).segments)
    (hname : seg.name ≠ "__PAGEZERO") (hwrap : seg.vmaddr.toNat + seg.vmsize.toNat < 2 ^ 64)
    (hcontains : Contains seg addr) : s.IsResolved gen addr := by
  have hentry : ⟨seg.vmaddr, seg.vmaddr + seg.vmsize, o⟩ ∈ s.buildIndex gen :=
    mem_buildIndex.mpr ⟨ho, hmapped, seg, hseg, hname, rfl, rfl⟩
  have hholds : Holds ⟨seg.vmaddr, seg.vmaddr + seg.vmsize, o⟩ addr := by
    rw [Holds, UInt64.le_iff_toNat_le, UInt64.lt_iff_toNat_lt, UInt64.toNat_add,
      Nat.mod_eq_of_lt hwrap]
    exact hcontains
  have hfound : (s.ensureIndex gen).tryResolve addr ≠ none := by
    rw [tryResolve_eq, ensureIndex_segIndex hcurrent, ne_eq, map_eq_none_iff]
    exact fun hnone => findEntry_eq_none (sorted_buildIndex s gen) hnone _ hentry hholds
  obtain ⟨⟨owner, rel⟩, hfound⟩ := ne_none_iff_exists'.mp hfound
  simp [IsResolved, resolveAddresses, resolveAddress, hfound]

theorem authoritative_applyRefresh (hs : s.Until gen) (hgen : gen ≠ 0)
    (horderly : s.Orderly fresh) : s.Authoritative fresh gen (s.applyRefresh fresh gen) := by
  have h := (refreshing_first hs hgen horderly).all horderly (nil_subset _)
    (List.Subset.refl fresh)
  have hlisted : ∀ o, (s.applyRefresh fresh gen).Listed fresh o ↔ s.Listed fresh o := by
    intro o
    exact exists_congr fun f => and_congr_right fun _ => by
      rw [show ((s.applyRefresh fresh gen).owner f).uuid = (s.owner f).uuid from h.uuid f,
        show ((s.applyRefresh fresh gen).owner o).uuid = (s.owner o).uuid from h.uuid o]
  refine ⟨fun o ho => (h.mapped o ho).trans (hlisted o).symm, ?_, h.earlier⟩
  intro f hf seg hseg hname addr hcontains
  obtain ⟨o, ho, huuid, hsegments⟩ := h.known f hf
  have hmapped := (h.mapped o ho).mpr ⟨f, hf, by rw [← huuid, h.uuid]⟩
  exact isResolved_of_segment (indexCurrent_invalidateIndex _) ho hmapped (hsegments ▸ hseg) hname
    (horderly.noWrap f hf seg hseg) hcontains

theorem Until.mono (h : s.Until g) (hle : g ≤ gen) : s.Until gen := fun o ho =>
  ⟨UInt32.le_trans (h o ho).1 hle, UInt32.le_trans (h o ho).2 hle⟩

section
variable (h : s.Until gen)
include h

theorem until_update (f : CsSigOwner → CsSigOwner)
    (hf : ∀ o, o.mappedGenStart ≤ gen → o.mappedGenEnd ≤ gen → (f o).mappedGenStart ≤ gen ∧
      (f o).mappedGenEnd ≤ gen) :
    (s.update x f).Until gen := by
  intro o ho
  obtain ⟨hstart, hend⟩ := h o ho
  rw [update_owner]
  split
  · exact hf _ hstart hend
  · exact ⟨hstart, hend⟩

theorem Until.endIfGone : (s.endIfGone fresh gen cur).Until gen := by
  unfold CsSignature.endIfGone
  split
  · exact h
  · split
    · exact h
    · exact until_update h _ fun _ hstart _ => ⟨hstart, UInt32.le_refl gen⟩

theorem Until.refreshOwner : (s.refreshOwner gen f).Until gen := by
  unfold CsSignature.refreshOwner
  split
  · intro o ho
    rw [update_owner]
    split
    · exact ⟨UInt32.le_refl gen, UInt32.zero_le⟩
    · next hne => exact h o (by simpa [hne] using ho)
  · exact until_update h _ fun _ hstart hend => ⟨hstart, hend⟩

theorem Until.applyRefresh : (s.applyRefresh fresh gen).Until gen := by
  have hended : (s.owners.foldl (CsSignature.endIfGone fresh gen) s).Until gen :=
    foldlRecOn (motive := fun t => t.Until gen) s.owners (CsSignature.endIfGone fresh gen) h
      fun _ ht _ _ => ht.endIfGone
  exact foldlRecOn (motive := fun t => t.Until gen) fresh (CsSignature.refreshOwner gen)
    hended fun _ ht _ _ => ht.refreshOwner

theorem Until.noteUnmappedUuid : (s.noteUnmappedUuid uuid gen).Until gen := by
  unfold CsSignature.noteUnmappedUuid
  split
  · exact h
  · next o _ =>
    have hended : (s.update o fun x => { x with mappedGenEnd := gen }).Until gen :=
      until_update h _ fun _ hstart _ => ⟨hstart, UInt32.le_refl gen⟩
    exact hended

end

def OrderlyChange (h : CsSignature × UInt32) : Change → Prop
  | .applyRefresh fresh _ => h.1.Orderly fresh
  | .noteUnmappedUuid _ _ => True

instance (h : CsSignature × UInt32) : (c : Change) → Decidable (OrderlyChange h c)
  | .applyRefresh fresh _ => inferInstanceAs (Decidable (h.1.Orderly fresh))
  | .noteUnmappedUuid _ _ => inferInstanceAs (Decidable True)

def AuthoritativeChange (h : CsSignature × UInt32) : Change → Prop
  | .applyRefresh fresh gen => h.1.Authoritative fresh gen (h.1.applyRefresh fresh gen)
  | .noteUnmappedUuid _ _ => True

/-- A refresh that lists no image that has been unmapped before tells which images are
mapped, at any point of a history. -/
theorem refresh_authoritative (owner : Nat → CsSigOwner) (owners : List Nat)
    (hparsed : ∀ o ∈ owners, (owner o).mappedGenStart = 1 ∧ (owner o).mappedGenEnd = 0)
    (changes : List Change)
    (h : Machine.EachStep change OrderlyChange ({ owner, owners }, 1) changes) :
    Machine.EachStep change AuthoritativeChange ({ owner, owners }, 1) changes := by
  refine Machine.eachStep_of_invariant (I := fun h => h.1.Until h.2) ?_ ?_ h
  · rintro ⟨s, g⟩ c t hs hok ht
    obtain ⟨⟨hpos, hle⟩, ht⟩ := ite_none_right_eq_some.mp ht
    have hs : s.Until c.generation := Until.mono hs hle
    cases c with
    | applyRefresh fresh gen =>
      cases ht
      exact ⟨hs.applyRefresh, authoritative_applyRefresh hs (UInt32.pos_iff_ne_zero.mp hpos) hok⟩
    | noteUnmappedUuid uuid gen =>
      cases ht
      exact ⟨hs.noteUnmappedUuid, trivial⟩
  · intro o ho
    obtain ⟨hstart, hend⟩ := hparsed o ho
    simp [hstart, hend]

/-- An image that goes away and comes back: objects 0 and 1 are the same image. -/
def returning (o : Nat) : CsSigOwner where
  uuid := [if o ≤ 1 then 1 else 2]
  segments := [⟨"__TEXT", 0x1000 * (.ofNat o + 1), 0x1000⟩]

def replaced : List Change :=
  [.applyRefresh [1, 2] 1, .noteUnmappedUuid [1] 2, .applyRefresh [2] 2]

theorem refresh_authoritative_replaced :
    Machine.EachStep change OrderlyChange ({ owner := returning, owners := [0] }, 1) replaced ∧
      Machine.EachStep change AuthoritativeChange ({ owner := returning, owners := [0] }, 1)
        replaced := by
  have h : Machine.EachStep change OrderlyChange ({ owner := returning, owners := [0] }, 1)
      replaced := by
    decide +kernel
  exact ⟨h, refresh_authoritative returning [0] (by decide) replaced h⟩

/-- The image is listed again, and not mapped. -/
theorem returned_image_unmapped :
    (Machine.exec change ({ owner := returning, owners := [0] }, 1)
      [.applyRefresh [] 2, .applyRefresh [1] 3]).any fun h =>
        h.1.owners = [0] ∧ h.1.Listed [1] 0 ∧ ownerIsMappedAt (h.1.owner 0) 3 = false := by
  decide +kernel

end CsSignature

end FridaCore.Fruity
