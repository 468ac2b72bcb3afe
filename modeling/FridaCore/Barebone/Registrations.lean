import FridaCore.Barebone.Attaching
import FridaCore.Support.Lists

/-!
# Entries and registrations agree

What the entries of the interceptor have to do with the calls that are suspended,
and that no step of an orderly run changes that. A `detach` that is under way counts
as having detached its listener everywhere (`registered`), so an entry it has yet to
visit lists one listener too many.
-/

namespace FridaCore.Barebone

open List Option Function Prod

def Suspended.entry? : Suspended → Option EntryId
  | .add _ _ id => some id
  | .remove _ _ id _ _ => some id
  | .never _ => none

namespace Attachments

variable {s t : Attachments} {due due' : Listener → List (UInt64 × EntryId)}
  {l m : Listener} {p q : UInt64 × EntryId} {call other : Suspended}
  {calls : List Suspended} {rest : List (UInt64 × EntryId)} {a : UInt64} {id : EntryId}

/-- An entry in the map, with the entries each listener is due to be removed from. -/
structure Kept (s : Attachments) (due : Listener → List (UInt64 × EntryId))
    (p : UInt64 × EntryId) : Prop where
  emptied : (s.object p.2).listeners = [] →
    ∃ l bp rest, .remove l p.1 p.2 bp rest ∈ s.suspended
  unarmed : (s.object p.2).breakpoint = none →
    s.live p.1 = [] ∧ ∃ l, .add l p.1 p.2 ∈ s.suspended
  armed : ∀ bp, (s.object p.2).breakpoint = some bp → bp.address = p.1 ∧ s.live p.1 = [bp.id]
  listing : (s.object p.2).listeners.filter (fun l => p ∉ due l) = s.registered p.1
  calls : (s.object p.2).listeners ≠ [] →
    (s.object p.2).hasCallListener = (s.object p.2).listeners.any fun l => l.kind = .call

/-- An entry the listener is due to be removed from. It may not be in the map any more. -/
structure Due (s : Attachments) (l : Listener) (p : UInt64 × EntryId) : Prop where
  made : p.2 < s.entries
  same : ∀ q ∈ s.breakpointEntries, q.2 = p.2 → q = p
  once : (s.object p.2).listeners.count l ≤ 1
  gone : p ∉ s.breakpointEntries → l ∈ (s.object p.2).listeners →
    (s.object p.2).breakpoint = none

def Awaits (s : Attachments) : Suspended → Prop
  | .add _ a id => (a, id) ∈ s.breakpointEntries ∧ (s.object id).breakpoint = none
  | .remove _ a id bp _ => (a, id) ∈ s.breakpointEntries ∧ (s.object id).listeners = [] ∧
      (s.object id).breakpoint = some bp
  | .never _ => True

structure Sound (s : Attachments) (due : Listener → List (UInt64 × EntryId)) : Prop where
  keys : (s.breakpointEntries.map Prod.fst).Nodup
  ids : (s.breakpointEntries.map Prod.snd).Nodup
  made : ∀ p ∈ s.breakpointEntries, p.2 < s.entries
  dues : ∀ l, ∀ p ∈ due l, Due s l p
  awaits : ∀ call ∈ s.suspended, Awaits s call
  once : (s.suspended.filterMap Suspended.entry?).Nodup
  unlisted : ∀ a, (∀ p ∈ s.breakpointEntries, p.1 ≠ a) → s.live a = [] ∧ s.registered a = []
  kept : ∀ p ∈ s.breakpointEntries, Kept s due p

def Inv (s : Attachments) : Prop := (∃ l, .never l ∈ s.suspended) ∨ Sound s s.toVisit

theorem mem_toVisit : p ∈ s.toVisit l ↔ ∃ call ∈ s.suspended, p ∈ call.toVisit l :=
  mem_flatMap

theorem mem_toVisit_remove :
    p ∈ (Suspended.remove m a id bp rest).toVisit l ↔ m = l ∧ p ∈ rest := by
  by_cases h : m = l <;> simp [Suspended.toVisit, h]

theorem Sound.eq_of_key (h : Sound s due) (hp : p ∈ s.breakpointEntries)
    (hq : q ∈ s.breakpointEntries) (heq : p.1 = q.1) : p = q :=
  inj_on_of_nodup_map h.keys hp hq heq

theorem Sound.eq_of_id (h : Sound s due) (hp : p ∈ s.breakpointEntries)
    (hq : q ∈ s.breakpointEntries) (heq : p.2 = q.2) : p = q :=
  inj_on_of_nodup_map h.ids hp hq heq

theorem lookup_eq_none : s.breakpointEntries.lookup a = none ↔
    ∀ p ∈ s.breakpointEntries, p.1 ≠ a := by
  rw [lookup_eq_none_iff]
  exact forall₂_congr fun p _ => by simp [eq_comm (a := a)]

/-- What happens to other entries, and to other calls, does not matter to an entry. -/
theorem Kept.frame (h : Kept s due p) (hobject : t.object p.2 = s.object p.2)
    (hlive : t.live p.1 = s.live p.1) (hregistered : t.registered p.1 = s.registered p.1)
    (hcalls : ∀ call ∈ s.suspended, call.entry? = some p.2 → call ∈ t.suspended)
    (hdue : ∀ l ∈ (s.object p.2).listeners, p ∈ due' l ↔ p ∈ due l) : Kept t due' p where
  emptied he := by
    obtain ⟨l, bp, rest, hin⟩ := h.emptied (hobject ▸ he)
    exact ⟨l, bp, rest, hcalls _ hin rfl⟩
  unarmed hb := by
    obtain ⟨hnil, l, hin⟩ := h.unarmed (hobject ▸ hb)
    exact ⟨hlive.trans hnil, l, hcalls _ hin rfl⟩
  armed bp hb := by
    obtain ⟨haddr, hl⟩ := h.armed bp (hobject ▸ hb)
    exact ⟨haddr, hlive.trans hl⟩
  listing := by
    rw [hobject, hregistered, ← h.listing]
    exact filter_congr fun l hl => by simp [hdue l hl]
  calls hne := by
    rw [hobject] at hne ⊢
    exact h.calls hne

theorem Due.frame (h : Due s l p) (hmade : s.entries ≤ t.entries)
    (hentries : ∀ q ∈ t.breakpointEntries, q ∈ s.breakpointEntries ∨ q.2 ≠ p.2)
    (hobject : t.object p.2 = s.object p.2)
    (hgone : p ∈ s.breakpointEntries → p ∉ t.breakpointEntries →
      l ∈ (s.object p.2).listeners → (s.object p.2).breakpoint = none) : Due t l p where
  made := h.made.trans_le hmade
  same q hq heq := by
    rcases hentries q hq with hq | hne
    · exact h.same q hq heq
    · exact absurd heq hne
  once := hobject ▸ h.once
  gone hnot hl := by
    rw [hobject] at hl ⊢
    by_cases hin : p ∈ s.breakpointEntries
    · exact hgone hin hnot hl
    · exact h.gone hin hl

theorem Awaits.frame (h : Awaits s call)
    (hentries : ∀ p ∈ s.breakpointEntries, call.entry? = some p.2 → p ∈ t.breakpointEntries)
    (hobject : ∀ id, call.entry? = some id → t.object id = s.object id) : Awaits t call := by
  cases call with
  | add l a id | remove l a id bp rest =>
    refine ⟨hentries _ h.1 rfl, ?_⟩
    rw [hobject id rfl]
    exact h.2
  | never l => trivial

section
variable (h : Sound s due)
include h

theorem Sound.congr_due (hdue : ∀ l p, p ∈ due' l ↔ p ∈ due l) : Sound s due' where
  __ := h
  dues l p hp := h.dues l p ((hdue l p).mp hp)
  kept p hp := (h.kept p hp).frame rfl rfl rfl (fun _ hc _ => hc) fun l _ => hdue l p

theorem Sound.perm (hperm : s.suspended.Perm calls) : Sound { s with suspended := calls } due where
  __ := h
  dues l p hp := (h.dues l p hp).frame le_rfl (fun _ hq => .inl hq) rfl fun hin hnot =>
    absurd hin hnot
  awaits call hc :=
    (h.awaits call (hperm.mem_iff.mpr hc)).frame (fun _ hp _ => hp) fun _ _ => rfl
  once := (hperm.filterMap _).nodup_iff.mp h.once
  kept p hp := (h.kept p hp).frame rfl rfl rfl (fun _ hc _ => hperm.mem_iff.mp hc) fun _ _ => .rfl

theorem Sound.entry_ne (hcalls : s.suspended = call :: calls) (hentry : call.entry? = some id)
    (hin : other ∈ calls) : other.entry? ≠ some id := by
  intro heq
  have honce := h.once
  rw [hcalls, filterMap_cons_some hentry, nodup_cons] at honce
  exact honce.1 (mem_filterMap.mpr ⟨other, hin, heq⟩)

theorem Sound.once_tail (hcalls : s.suspended = call :: calls) :
    (calls.filterMap Suspended.entry?).Nodup := by
  have honce := h.once
  rw [hcalls] at honce
  exact honce.sublist ((sublist_cons_self _ _).filterMap _)

/-- The entry `p` has changed, whether it is still in the map or not. -/
theorem Sound.touch (hsame : ∀ q ∈ s.breakpointEntries, q.2 = p.2 → q = p)
    (hentries : t.breakpointEntries = s.breakpointEntries) (hmade : t.entries = s.entries)
    (hobject : ∀ id, id ≠ p.2 → t.object id = s.object id)
    (hlive : ∀ a, (p ∈ s.breakpointEntries → a ≠ p.1) → t.live a = s.live a)
    (hregistered : ∀ a, (p ∈ s.breakpointEntries → a ≠ p.1) → t.registered a = s.registered a)
    (hcalls : ∀ call, call.entry? ≠ some p.2 → (call ∈ t.suspended ↔ call ∈ s.suspended))
    (hother : ∀ l q, q.2 ≠ p.2 → (q ∈ due' l ↔ q ∈ due l))
    (hdue : ∀ l q, q ∈ due' l → q.2 = p.2 → q ∈ due l ∧ (t.object p.2).listeners.count l ≤ 1 ∧
      (p ∉ s.breakpointEntries → (t.object p.2).breakpoint = none))
    (hawaits : ∀ call ∈ t.suspended, call.entry? = some p.2 → Awaits t call)
    (honce : (t.suspended.filterMap Suspended.entry?).Nodup)
    (hkept : p ∈ s.breakpointEntries → Kept t due' p) : Sound t due' := by
  refine ⟨hentries ▸ h.keys, hentries ▸ h.ids, ?_, fun l q hq => ?_, fun call hc => ?_, honce,
    fun a ha => ?_, fun q hq => ?_⟩
  · rw [hentries, hmade]
    exact h.made
  · by_cases hid : q.2 = p.2
    · obtain ⟨hq', hcount, hnone⟩ := hdue l q hq hid
      have hold := h.dues l q hq'
      refine ⟨hmade ▸ hold.made, hentries ▸ hold.same, hid ▸ hcount, fun hnot _ => ?_⟩
      rw [hid]
      refine hnone fun hp => hnot ?_
      rw [hentries, ← hold.same p hp hid.symm]
      exact hp
    · exact (h.dues l q ((hother l q hid).mp hq)).frame hmade.ge (fun r hr => .inl (hentries ▸ hr))
        (hobject _ hid) fun hin hnot => absurd (hentries ▸ hin) hnot
  · by_cases hentry : call.entry? = some p.2
    · exact hawaits call hc hentry
    · refine (h.awaits call ((hcalls call hentry).mp hc)).frame (fun q hq _ => hentries ▸ hq) ?_
      rintro id hid
      exact hobject id fun heq => hentry (heq ▸ hid)
  · rw [hentries] at ha
    have hne : p ∈ s.breakpointEntries → a ≠ p.1 := fun hp => (ha p hp).symm
    rw [hlive a hne, hregistered a hne]
    exact h.unlisted a ha
  · rw [hentries] at hq
    by_cases hqp : q = p
    · subst hqp
      exact hkept hq
    · have hid : q.2 ≠ p.2 := fun heq => hqp (hsame q hq heq)
      have hkey : p ∈ s.breakpointEntries → q.1 ≠ p.1 :=
        fun hp heq => hqp (h.eq_of_key hq hp heq)
      refine (h.kept q hq).frame (hobject _ hid) (hlive _ hkey) (hregistered _ hkey)
        (fun call hc hentry => (hcalls call ?_).mpr hc) fun l _ => hother l q hid
      exact fun heq => hid (some.inj (hentry.symm.trans heq))

/-- The entry at the address has left the map, with the call that was suspended on it. -/
theorem Sound.dropped (hcalls : s.suspended = call :: calls) (hentry : call.entry? = some id)
    (hin : (a, id) ∈ s.breakpointEntries)
    (hnone : ∀ l ∈ (s.object id).listeners, (s.object id).breakpoint = none)
    (hlive : ∀ b, b ≠ a → live' b = s.live b) (hnolive : live' a = [])
    (hregistered : ∀ b, b ≠ a → reg b = s.registered b) (hnoreg : reg a = []) :
    Sound { unset s a with suspended := calls, live := live', registered := reg } due := by
  have hmem : ∀ {p}, p ∈ (unset s a).breakpointEntries ↔ p ∈ s.breakpointEntries ∧ p.1 ≠ a := by
    simp [unset]
  refine ⟨?_, ?_, fun p hp => h.made p (hmem.mp hp).1, fun m p hp => ?_, fun call hc => ?_,
    h.once_tail hcalls, fun b hb => ?_, fun p hp => ?_⟩
  · exact h.keys.sublist (filter_sublist.map _)
  · exact h.ids.sublist (filter_sublist.map _)
  · refine (h.dues m p hp).frame le_rfl (fun q hq => .inl (hmem.mp hq).1) rfl fun hp hnot => ?_
    have hkey : p.1 = a := by
      by_contra hne
      exact hnot (hmem.mpr ⟨hp, hne⟩)
    rw [h.eq_of_key hp hin hkey]
    exact hnone m
  · have hc' : call ∈ s.suspended := hcalls ▸ mem_cons_of_mem _ hc
    refine (h.awaits call hc').frame (fun p hp hcall => ?_) fun _ _ => rfl
    refine hmem.mpr ⟨hp, fun hkey => h.entry_ne hcalls hentry hc ?_⟩
    rw [hcall, h.eq_of_key hp hin hkey]
  · by_cases hba : b = a
    · subst hba
      exact ⟨hnolive, hnoreg⟩
    · obtain ⟨hl, hr⟩ := h.unlisted b fun p hp hkey => hb p (hmem.mpr ⟨hp, hkey ▸ hba⟩) hkey
      exact ⟨(hlive b hba).trans hl, (hregistered b hba).trans hr⟩
  · obtain ⟨hp, hne⟩ := hmem.mp hp
    refine (h.kept p hp).frame rfl (hlive _ hne) (hregistered _ hne) (fun other hc hother => ?_)
      fun _ _ => .rfl
    rcases mem_cons.mp (hcalls ▸ hc) with rfl | hc
    · have hid := some.inj (hother.symm.trans hentry)
      exact absurd (congrArg fst (h.eq_of_id hp hin hid)) hne
    · exact hc

end

def join (s : Attachments) (l : Listener) (a : UInt64) (id : EntryId) : Attachments :=
  { s.setObject id { s.object id with
      listeners := (s.object id).listeners ++ [l]
      hasCallListener := (s.object id).hasCallListener || l.kind = .call } with
    registered := Function.update s.registered a (s.registered a ++ [l]) }

theorem join_sound (h : Sound s due) (hp : p ∈ s.breakpointEntries)
    (hlisted : (s.object p.2).listeners ≠ []) (hdue : p ∉ due l) :
    Sound (s.join l p.1 p.2) due := by
  have hself : (s.join l p.1 p.2).object p.2 = { s.object p.2 with
      listeners := (s.object p.2).listeners ++ [l]
      hasCallListener := (s.object p.2).hasCallListener || l.kind = .call } :=
    update_self _ _ _
  have hkept := h.kept p hp
  refine h.touch (fun _ hq => h.eq_of_id hq hp) rfl rfl (fun id hne => update_of_ne hne _ _)
    (fun _ _ => rfl) (fun a hne => update_of_ne (hne hp) _ _) (fun _ _ => .rfl) (fun _ _ _ => .rfl)
    (fun m q hm hid => ⟨hm, ?_, absurd hp⟩) (fun call hc hentry => ?_) h.once
    fun _ => ⟨fun he => ?_, fun hb => ?_, fun bp hb => ?_, ?_, fun _ => ?_⟩
  · -- the listener joining is not the one that is due
    obtain rfl := (h.dues m q hm).same p hp hid.symm
    have hne : l ≠ m := by
      rintro rfl
      exact hdue hm
    rw [hself]
    simpa [count_append, hne] using (h.dues m p hm).once
  · have hold := h.awaits call hc
    cases call with
    | add m a id =>
      cases hentry
      refine ⟨hold.1, ?_⟩
      rw [hself]
      exact hold.2
    | remove m a id bp rest =>
      cases hentry
      exact absurd hold.2.1 hlisted
    | never m => trivial
  · rw [hself] at he
    simp at he
  · rw [hself] at hb
    exact hkept.unarmed hb
  · rw [hself] at hb
    exact hkept.armed bp hb
  · rw [hself]
    simp [join, hdue, ← hkept.listing]
  · rw [hself]
    simp [hkept.calls hlisted]

def begin (s : Attachments) (l : Listener) (a : UInt64) : Attachments :=
  { s with
    breakpointEntries := s.breakpointEntries ++ [(a, s.entries)]
    entries := s.entries + 1
    object := Function.update s.object s.entries ⟨[l], l.kind = .call, none⟩
    registered := Function.update s.registered a (s.registered a ++ [l])
    suspended := s.suspended ++ [.add l a s.entries] }

theorem begin_sound (h : Sound s due) (hnew : ∀ p ∈ s.breakpointEntries, p.1 ≠ a) :
    Sound (s.begin l a) due := by
  have hfresh : ∀ p ∈ s.breakpointEntries, p.2 ≠ s.entries := fun p hp => (h.made p hp).ne
  have hobject : ∀ id, id ≠ s.entries → (s.begin l a).object id = s.object id :=
    fun id hne => update_of_ne hne _ _
  have hself : (s.begin l a).object s.entries = ⟨[l], l.kind = .call, none⟩ :=
    update_self _ _ _
  have hcall : ∀ call ∈ s.suspended, ∀ id, call.entry? = some id →
      ∃ p ∈ s.breakpointEntries, p.2 = id := by
    intro call hc id hid
    have hold := h.awaits call hc
    cases call with
    | add m b id' | remove m b id' bp rest => exact ⟨_, hold.1, some.inj hid⟩
    | never m => cases hid
  have hmem : ∀ {p}, p ∈ (s.begin l a).breakpointEntries ↔
      p ∈ s.breakpointEntries ∨ p = (a, s.entries) := by
    simp [begin]
  obtain ⟨hlive, hreg⟩ := h.unlisted a hnew
  refine ⟨?_, ?_, fun p hp => ?_, fun m p hp => ?_, fun call hc => ?_, ?_, fun b hb => ?_,
    fun p hp => ?_⟩
  · simpa [begin, nodup_append] using ⟨h.keys, fun b id hp heq => hnew _ hp heq⟩
  · simpa [begin, nodup_append] using ⟨h.ids, fun id b hp heq => hfresh _ hp heq⟩
  · rcases hmem.mp hp with hp | rfl
    · exact Nat.lt_succ_of_lt (h.made p hp)
    · exact Nat.lt_succ_self _
  · have hold := h.dues m p hp
    refine hold.frame (Nat.le_succ _) (fun q hq => ?_) (hobject _ hold.made.ne) fun hin hnot =>
      absurd (hmem.mpr (.inl hin)) hnot
    rcases hmem.mp hq with hq | rfl
    · exact .inl hq
    · exact .inr hold.made.ne'
  · rcases mem_append.mp hc with hc | hc
    · refine (h.awaits call hc).frame (fun p hp _ => hmem.mpr (.inl hp)) fun id hid => ?_
      obtain ⟨p, hp, rfl⟩ := hcall call hc id hid
      exact hobject _ (hfresh p hp)
    · cases mem_singleton.mp hc
      exact ⟨hmem.mpr (.inr rfl), by rw [hself]⟩
  · simp only [begin, filterMap_append, nodup_append]
    refine ⟨h.once, by simp [Suspended.entry?], fun id hin id' hin' => ?_⟩
    obtain ⟨call, hc, hid⟩ := mem_filterMap.mp hin
    obtain ⟨p, hp, rfl⟩ := hcall call hc id hid
    simp only [filterMap_cons, Suspended.entry?, filterMap_nil,
      mem_singleton] at hin'
    exact hin' ▸ hfresh p hp
  · obtain ⟨hl, hr⟩ := h.unlisted b fun p hp => hb p (hmem.mpr (.inl hp))
    have hne : b ≠ a := fun heq => hb _ (hmem.mpr (.inr rfl)) heq.symm
    exact ⟨hl, by simpa [begin, hne] using hr⟩
  · rcases hmem.mp hp with hp | rfl
    · refine (h.kept p hp).frame (hobject _ (hfresh p hp)) rfl ?_
        (fun _ hc _ => mem_append_left _ hc) fun _ _ => .rfl
      simp [begin, hnew p hp]
    · have hdue : (a, s.entries) ∉ due l := fun hin => (h.dues l _ hin).made.ne rfl
      refine ⟨fun he => ?_, fun _ => ⟨hlive, l, by simp [begin]⟩, fun bp hb => ?_, ?_, fun _ => ?_⟩
      · rw [hself] at he
        cases he
      · rw [hself] at hb
        cases hb
      · simp [begin, hreg, hdue]
      · rw [hself]
        simp

theorem attach_new (hnone : s.breakpointEntries.lookup (s.arch.addressFromFuncptr target) = none) :
    s.attach target l = s.begin l (s.arch.addressFromFuncptr target) := by
  simp [attach, entryFor, hnone, setObject, suspend, begin]

theorem attach_join
    (hsome : s.breakpointEntries.lookup (s.arch.addressFromFuncptr target) = some id)
    (hlisted : (s.object id).listeners ≠ []) :
    s.attach target l = s.join l (s.arch.addressFromFuncptr target) id := by
  simp [attach, entryFor, hsome, join, hlisted]

theorem attach_sound (h : Sound s s.toVisit) (hok : s.Orderly (.attach l target)) :
    Sound (s.attach target l) (s.attach target l).toVisit := by
  cases hl : s.breakpointEntries.lookup (s.arch.addressFromFuncptr target) with
  | none =>
    rw [attach_new hl]
    refine (begin_sound h (lookup_eq_none.mp hl)).congr_due fun m p => ?_
    simp [toVisit, begin, Suspended.toVisit]
  | some id =>
    obtain ⟨hlisted, hdue⟩ := hok id hl
    rw [attach_join hl hlisted]
    exact join_sound h (mem_of_lookup hl) hlisted hdue

theorem added_sound (h : Sound s due) (hcalls : s.suspended = .add l a id :: calls) :
    Sound (finishAttach { s with suspended := calls } l a id true) due := by
  obtain ⟨hin, hnone⟩ := h.awaits (.add l a id) (by simp [hcalls])
  have hkept := h.kept _ hin
  have hlive : s.live a = [] := (hkept.unarmed hnone).1
  have hlisted : (s.object id).listeners ≠ [] := by
    intro he
    obtain ⟨m, bp, rest, hr⟩ := hkept.emptied he
    have hbp := (h.awaits _ hr).2.2
    rw [hnone] at hbp
    cases hbp
  have hself : (finishAttach { s with suspended := calls } l a id true).object id =
      { s.object id with breakpoint := some ⟨s.breakpoints, a⟩ } :=
    update_self _ _ _
  refine h.touch (fun _ hq => h.eq_of_id hq hin) rfl rfl (fun id' hne => update_of_ne hne _ _)
    (fun b hne => update_of_ne (hne hin) _ _) (fun _ _ => rfl) (fun call hne => ?_)
    (fun _ _ _ => .rfl) (fun m q hm hid => ⟨hm, ?_, absurd hin⟩)
    (fun call hc hentry => absurd hentry (h.entry_ne hcalls rfl hc)) (h.once_tail hcalls)
    fun _ => ⟨fun he => ?_, fun hb => ?_, fun bp hb => ?_, ?_, fun _ => ?_⟩
  · rw [hcalls, mem_cons]
    refine ⟨.inr, ?_⟩
    rintro (rfl | hc)
    · exact absurd rfl hne
    · exact hc
  · obtain rfl := (h.dues m q hm).same _ hin hid.symm
    rw [hself]
    exact (h.dues m _ hm).once
  · rw [hself] at he
    exact absurd he hlisted
  · rw [hself] at hb
    cases hb
  · rw [hself] at hb
    cases hb
    exact ⟨rfl, by simp [finishAttach, hlive]⟩
  · rw [hself]
    exact hkept.listing
  · rw [hself]
    exact hkept.calls hlisted

/-- A breakpoint could not be added, and only the caller was waiting for it. -/
theorem notAdded_sound (h : Sound s due) (hcalls : s.suspended = .add l a id :: calls)
    (halone : (s.object id).listeners.erase l = []) :
    Sound (finishAttach { s with suspended := calls } l a id false) due := by
  obtain ⟨hin, hnone⟩ := h.awaits (.add l a id) (by simp [hcalls])
  have hkept := h.kept _ hin
  have hreg : (s.registered a).erase l = [] := by
    rw [← hkept.listing]
    exact eq_nil_of_sublist_nil
      (halone ▸ (filter_sublist (l := (s.object id).listeners)).erase l)
  exact h.dropped hcalls rfl hin (fun _ _ => hnone) (fun _ _ => rfl) (hkept.unarmed hnone).1
    (fun b hne => update_of_ne hne _ _) ((update_self a _ _).trans hreg)

/-- With a `detach` that is running and has yet to visit some entries. -/
def dueWith (s : Attachments) (l : Listener) (rest : List (UInt64 × EntryId)) (m : Listener) :
    List (UInt64 × EntryId) :=
  s.toVisit m ++ if m = l then rest else []

theorem mem_dueWith : p ∈ s.dueWith l rest m ↔ p ∈ s.toVisit m ∨ m = l ∧ p ∈ rest := by
  by_cases hm : m = l <;> simp [dueWith, hm]

theorem filter_erase_of_count {ls : List Listener}
    (hcount : ls.count l ≤ 1) (hl : f l = false) (hf : ∀ m, m ≠ l → f' m = f m) :
    (ls.erase l).filter f' = ls.filter f := by
  induction ls with
  | nil => rfl
  | cons x xs ih =>
    by_cases hx : x = l
    · subst hx
      have hnot : x ∉ xs := count_eq_zero.mp (by simpa using hcount)
      rw [erase_cons_head, filter_cons_of_neg (by simp [hl])]
      exact filter_congr fun m hm => hf m fun heq => hnot (heq ▸ hm)
    · rw [count_cons_of_ne hx] at hcount
      rw [erase_cons_tail (by simpa using hx), filter_cons, filter_cons, hf x hx,
        ih hcount]

theorem Sound.visited (h : Sound s due)
    (hdue : ∀ m q, q ∈ due m ↔ q ∈ due' m ∨ m = l ∧ q = p)
    (hnot : l ∉ (s.object p.2).listeners) : Sound s due' where
  __ := h
  dues m q hq := h.dues m q ((hdue m q).mpr (.inl hq))
  kept q hq := by
    refine (h.kept q hq).frame rfl rfl rfl (fun _ hc _ => hc) fun m hm => ?_
    rw [hdue]
    refine ⟨.inl, ?_⟩
    rintro (hin | ⟨rfl, rfl⟩)
    · exact hin
    · exact absurd hm hnot

structure Erased (s t : Attachments) (l : Listener) (p : UInt64 × EntryId) : Prop where
  entries : t.breakpointEntries = s.breakpointEntries
  made : t.entries = s.entries
  object : ∀ id, id ≠ p.2 → t.object id = s.object id
  listeners : (t.object p.2).listeners = (s.object p.2).listeners.erase l
  breakpoint : (t.object p.2).breakpoint = (s.object p.2).breakpoint
  live : t.live = s.live
  registered : t.registered = s.registered

/-- The entry may be in the map or not, so long as the listeners left in it are
accounted for. -/
theorem Sound.erased (h : Sound s due) (ht : Erased s t l p) (hp : p ∈ due l)
    (hl : l ∈ (s.object p.2).listeners)
    (hdue : ∀ m q, q ∈ due m ↔ q ∈ due' m ∨ m = l ∧ q = p)
    (hcalls : ∀ call, call.entry? ≠ some p.2 → (call ∈ t.suspended ↔ call ∈ s.suspended))
    (hawaits : ∀ call ∈ t.suspended, call.entry? = some p.2 → Awaits t call)
    (honce : (t.suspended.filterMap Suspended.entry?).Nodup)
    (hkept : p ∈ s.breakpointEntries → Kept t due' p) : Sound t due' := by
  have hold := h.dues l p hp
  refine h.touch hold.same ht.entries ht.made ht.object (fun a _ => by rw [ht.live])
    (fun a _ => by rw [ht.registered]) hcalls (fun m q hid => ?_)
    (fun m q hq hid => ?_) hawaits honce hkept
  · rw [hdue]
    exact ⟨.inl, fun hor => hor.resolve_right fun hpq => hid (congrArg snd hpq.2)⟩
  · have hq := (hdue m q).mpr (.inl hq)
    refine ⟨hq, ?_, fun hin => ?_⟩
    · rw [ht.listeners]
      exact (erase_sublist.count_le m).trans (hid ▸ (h.dues m q hq).once)
    · -- the entry has been dropped: its breakpoint was never added
      exact ht.breakpoint.trans (hold.gone hin hl)

theorem Kept.listing_erased (hkept : Kept s due p) (ht : Erased s t l p) (hp : p ∈ due l)
    (hcount : (s.object p.2).listeners.count l ≤ 1)
    (hdue : ∀ m q, q ∈ due m ↔ q ∈ due' m ∨ m = l ∧ q = p) :
    (t.object p.2).listeners.filter (fun m => p ∉ due' m) = t.registered p.1 := by
  rw [ht.listeners, ht.registered, ← hkept.listing]
  refine filter_erase_of_count hcount (by simp [hp]) fun m hm => ?_
  simp [hdue, hm]

theorem Sound.left (h : Sound s due) (hp : p ∈ due l) (hl : l ∈ (s.object p.2).listeners)
    (hne : (s.object p.2).listeners.erase l ≠ [])
    (hdue : ∀ m q, q ∈ due m ↔ q ∈ due' m ∨ m = l ∧ q = p) :
    Sound (s.setObject p.2 { s.object p.2 with
      listeners := (s.object p.2).listeners.erase l
      hasCallListener := ((s.object p.2).listeners.erase l).any fun m => m.kind = .call }) due' := by
  let entry : EntryObject := { s.object p.2 with
    listeners := (s.object p.2).listeners.erase l
    hasCallListener := ((s.object p.2).listeners.erase l).any fun m => m.kind = .call }
  have hself : (s.setObject p.2 entry).object p.2 = entry := update_self _ _ _
  have ht : Erased s (s.setObject p.2 entry) l p :=
    ⟨rfl, rfl, fun id hid => update_of_ne hid _ _, by rw [hself], by rw [hself], rfl, rfl⟩
  refine h.erased ht hp hl hdue (fun _ _ => .rfl) (fun call hc hentry => ?_) h.once fun hin => ?_
  · have hold := h.awaits call hc
    cases call with
    | add m a id =>
      cases hentry
      exact ⟨hold.1, by rw [ht.breakpoint]; exact hold.2⟩
    | remove m a id bp rest =>
      cases hentry
      rw [hold.2.1] at hl
      cases hl
    | never m => trivial
  · have hkept := h.kept p hin
    refine ⟨fun he => ?_, fun hb => ?_, fun bp hb => ?_, ?_, fun _ => by rw [hself]⟩
    · exact absurd (ht.listeners ▸ he) hne
    · exact hkept.unarmed (ht.breakpoint ▸ hb)
    · exact hkept.armed bp (ht.breakpoint ▸ hb)
    · exact hkept.listing_erased ht hp (h.dues l p hp).once hdue

theorem Sound.emptied (h : Sound s due) (rest : List (UInt64 × EntryId)) (hp : p ∈ due l)
    (hl : l ∈ (s.object p.2).listeners)
    (hnil : (s.object p.2).listeners.erase l = [])
    (hbp : (s.object p.2).breakpoint = some bp)
    (hdue : ∀ m q, q ∈ due m ↔ q ∈ due' m ∨ m = l ∧ q = p) :
    Sound ((s.setObject p.2 { s.object p.2 with
      listeners := (s.object p.2).listeners.erase l }).suspend (.remove l p.1 p.2 bp rest)) due' := by
  let entry : EntryObject := { s.object p.2 with listeners := (s.object p.2).listeners.erase l }
  let t := (s.setObject p.2 entry).suspend (.remove l p.1 p.2 bp rest)
  have hself : t.object p.2 = entry := update_self _ _ _
  have ht : Erased s t l p :=
    ⟨rfl, rfl, fun id hid => update_of_ne hid _ _, by rw [hself], by rw [hself], rfl, rfl⟩
  have hin : p ∈ s.breakpointEntries := by
    by_contra hnot
    have hnone := (h.dues l p hp).gone hnot hl
    rw [hbp] at hnone
    cases hnone
  -- nobody else is suspended on this entry
  have hother : ∀ call ∈ s.suspended, call.entry? ≠ some p.2 := by
    intro call hc hentry
    have hold := h.awaits call hc
    cases call with
    | add m a id =>
      cases hentry
      have hnone := hold.2
      rw [hbp] at hnone
      cases hnone
    | remove m a id bp rest =>
      cases hentry
      rw [hold.2.1] at hl
      cases hl
    | never m => cases hentry
  refine h.erased ht hp hl hdue (fun call hne => ?_) (fun call hc hentry => ?_) ?_ fun _ => ?_
  · simp only [suspend, setObject, mem_append, mem_singleton, or_iff_left_iff_imp]
    rintro rfl
    exact absurd rfl hne
  · rcases mem_append.mp hc with hc | hc
    · exact absurd hentry (hother call hc)
    · cases mem_singleton.mp hc
      exact ⟨hin, ht.listeners.trans hnil, ht.breakpoint.trans hbp⟩
  · simp only [suspend, setObject, filterMap_append, nodup_append]
    refine ⟨h.once, by simp [Suspended.entry?], fun id hid id' hid' heq => ?_⟩
    obtain ⟨call, hc, hentry⟩ := mem_filterMap.mp hid
    simp only [filterMap_cons, Suspended.entry?, filterMap_nil,
      mem_singleton] at hid'
    exact hother call hc (by rw [hentry, heq, hid'])
  · have hkept := h.kept p hin
    refine ⟨fun _ => ⟨l, bp, rest, by simp [suspend]⟩, fun hb => ?_, fun bp' hb => ?_, ?_,
      fun hne => ?_⟩
    · rw [ht.breakpoint, hbp] at hb
      cases hb
    · exact hkept.armed bp' (ht.breakpoint ▸ hb)
    · exact hkept.listing_erased ht hp (h.dues l p hp).once hdue
    · exact absurd (ht.listeners.trans hnil) hne

theorem detachFrom_inv (h : Sound s (s.dueWith l rest)) : Inv (detachFrom l rest s) := by
  induction rest generalizing s with
  | nil =>
    right
    exact h.congr_due fun m p => by simp [mem_dueWith, detachFrom]
  | cons p rest ih =>
    obtain ⟨a, id⟩ := p
    have hdue : ∀ m q, q ∈ s.dueWith l ((a, id) :: rest) m ↔
        q ∈ s.dueWith l rest m ∨ m = l ∧ q = (a, id) := by
      simp only [mem_dueWith, mem_cons]
      tauto
    have hp : (a, id) ∈ s.dueWith l ((a, id) :: rest) l := mem_dueWith.mpr (.inr ⟨rfl, by simp⟩)
    simp only [detachFrom]
    split
    · rename_i hl
      split
      · rename_i hnil
        split
        · exact .inl ⟨l, by simp [suspend]⟩
        · rename_i bp hbp
          have hsound := h.emptied rest hp hl hnil hbp hdue
          have hlive : bp.id ∈ s.live bp.address := by
            obtain ⟨haddr, hlive⟩ := (hsound.kept (a, id)
              (hsound.awaits _ (mem_append_right _ (mem_singleton.mpr rfl))).1).armed bp
              (by simpa [suspend, setObject] using hbp)
            have hlive : s.live a = [bp.id] := hlive
            simp [haddr, hlive]
          rw [if_pos (by exact hlive)]
          right
          refine hsound.congr_due fun m q => ?_
          rw [mem_dueWith]
          simp only [mem_toVisit, suspend, setObject, mem_append, mem_singleton, or_and_right,
            exists_or, exists_eq_left, mem_toVisit_remove, eq_comm (a := l)]
      · rename_i hne
        exact ih (h.left hp hl hne hdue)
    · rename_i hnot
      exact ih (h.visited hdue hnot)

theorem detach_inv (h : Sound s s.toVisit) (hok : s.Orderly (.detach l snapshot))
    (hperm : snapshot.Perm s.breakpointEntries) : Inv (s.detach l snapshot) := by
  refine detachFrom_inv { h with
    dues := fun m p hp => ?_, awaits := fun call hc => ?_
    unlisted := fun a ha => ?_, kept := fun p hp => ?_ }
  · rcases mem_dueWith.mp hp with hold | ⟨rfl, hsnap⟩
    · exact (h.dues m p hold).frame le_rfl (fun _ hq => .inl hq) rfl fun hin hnot => absurd hin hnot
    · have hin := hperm.mem_iff.mp hsnap
      exact ⟨h.made p hin, fun q hq hid => h.eq_of_id hq hin hid, hok p hin,
        fun hnot => absurd hin hnot⟩
  · exact (h.awaits call hc).frame (fun _ hp _ => hp) fun _ _ => rfl
  · obtain ⟨hl, hr⟩ := h.unlisted a ha
    exact ⟨hl, by simp [hr]⟩
  · have hkept := h.kept p hp
    refine { hkept with listing := ?_ }
    have hsnap := hperm.mem_iff.mpr hp
    simp only [← hkept.listing, List.filter_filter]
    refine List.filter_congr fun m _ => ?_
    by_cases hm : m = l <;> simp [mem_dueWith, hm, hsnap, toVisit]

theorem removed_inv (h : Sound s (s.dueWith l []))
    (hcalls : s.suspended = .remove l a id bp rest :: calls) :
    Inv (finishRemove { s with suspended := calls } l a bp rest) := by
  obtain ⟨hin, hnil, hbp⟩ := h.awaits (.remove l a id bp rest) (by simp [hcalls])
  obtain ⟨rfl, hlive⟩ := (h.kept _ hin).armed bp hbp
  have hdue : ∀ m q, q ∈ dueWith { s with suspended := calls } l rest m ↔
      q ∈ s.dueWith l [] m := by
    intro m q
    simp only [mem_dueWith, mem_toVisit, hcalls, mem_cons, exists_eq_or_imp,
      mem_toVisit_remove, not_mem_nil, and_false, or_false, eq_comm (a := l)]
    exact or_comm
  have hreg : s.registered bp.address = [] := by
    rw [← (h.kept _ hin).listing]
    simp [hnil]
  refine detachFrom_inv (Sound.congr_due ?_ hdue)
  refine h.dropped hcalls rfl hin (fun m hm => ?_) (fun b hne => update_of_ne hne _ _)
    ((update_self bp.address _ _).trans (by simp [hlive])) (fun _ _ => rfl) hreg
  rw [hnil] at hm
  cases hm

theorem mem_detachFrom (hc : call ∈ s.suspended) : call ∈ (detachFrom l rest s).suspended := by
  induction rest generalizing s with
  | nil => exact hc
  | cons p rest ih =>
    simp only [detachFrom]
    split
    · split
      · split
        · exact mem_append_left _ hc
        · split
          · exact mem_append_left _ hc
          · exact ih hc
      · exact ih hc
    · exact ih hc

theorem mem_attach (hc : call ∈ s.suspended) : call ∈ (s.attach target l).suspended := by
  have hentry : (s.entryFor (s.arch.addressFromFuncptr target)).1.suspended = s.suspended := by
    unfold entryFor
    split <;> rfl
  simp only [attach]
  split
  · exact mem_append_left _ (by simpa [setObject, hentry] using hc)
  · simpa [setObject, hentry] using hc

theorem never_step (hn : .never m ∈ s.suspended) (hs : s.step e = some t) :
    .never m ∈ t.suspended := by
  have hleft : ∀ i call, s.suspended[i]? = some call → call ≠ .never m →
      .never m ∈ s.suspended.eraseIdx i := fun i call hi hne =>
    (mem_cons.mp ((eraseIdx_perm hi).mem_iff.mpr hn)).resolve_left hne.symm
  cases e with
  | attach l target =>
    cases hs
    exact mem_attach hn
  | added i ok =>
    simp only [step] at hs
    split at hs
    · rename_i l a id hi
      cases hs
      have := hleft i _ hi (by simp)
      cases ok <;> simpa [finishAttach, unset, setObject] using this
    · cases hs
  | detach l snapshot =>
    simp only [step] at hs
    split at hs
    · cases hs
      exact mem_detachFrom hn
    · cases hs
  | removed i ok =>
    simp only [step] at hs
    split at hs
    · rename_i l a id bp rest hi
      cases hs
      have := hleft i _ hi (by simp)
      cases ok
      · simpa using this
      · exact mem_detachFrom this
    · cases hs

theorem step_inv (h : Inv s) (hok : s.Orderly e) (hs : s.step e = some t) : Inv t := by
  rcases h with ⟨m, hn⟩ | h
  · exact .inl ⟨m, never_step hn hs⟩
  cases e with
  | attach l target =>
    cases hs
    exact .inr (attach_sound h hok)
  | added i ok =>
    simp only [step] at hs
    split at hs
    · rename_i l a id hi
      cases hs
      have hperm := eraseIdx_perm hi
      have hsound := h.perm hperm.symm
      right
      refine Sound.congr_due (?_ : Sound _ s.toVisit) fun m p => ?_
      · cases ok with
        | true => exact added_sound (s := { s with suspended := .add l a id :: _ }) hsound rfl
        | false =>
          have halone := (hok.resolve_left (by simp)) _ hi
          exact notAdded_sound (s := { s with suspended := .add l a id :: _ }) hsound rfl
            (by simpa [alone] using halone)
      · have hvisit : p ∈ s.toVisit m ↔
            p ∈ toVisit { s with suspended := s.suspended.eraseIdx i } m := by
          simp [mem_toVisit, ← hperm.mem_iff, Suspended.toVisit]
        rw [hvisit]
        cases ok <;> rfl
    · cases hs
  | detach l snapshot =>
    simp only [step] at hs
    split at hs
    · rename_i hp
      cases hs
      exact detach_inv h hok hp
    · cases hs
  | removed i ok =>
    obtain rfl : ok = true := hok
    simp only [step] at hs
    split at hs
    · rename_i l a id bp rest hi
      cases hs
      have hperm := eraseIdx_perm hi
      refine removed_inv (s := { s with suspended := .remove l a id bp rest :: _ })
        ((h.perm hperm.symm).congr_due fun m p => ?_) rfl
      simp [mem_dueWith, mem_toVisit, ← hperm.mem_iff]
    · cases hs

theorem Inv.consistent (h : Inv s) : Consistent s := by
  intro hnone a
  rcases h with ⟨l, hn⟩ | h
  · rw [hnone] at hn
    cases hn
  have hlisting : ∀ id, (a, id) ∈ s.breakpointEntries →
      (s.object id).listeners = s.registered a := by
    intro id hin
    have hl := (h.kept _ hin).listing
    simpa [toVisit, hnone] using hl
  refine ⟨⟨fun hsome hr => ?_, fun hr => ?_⟩, fun id hid => ?_⟩
  · obtain ⟨id, hid⟩ := isSome_iff_exists.mp hsome
    have hin := mem_of_lookup hid
    obtain ⟨l, bp, rest, hc⟩ := (h.kept _ hin).emptied ((hlisting id hin).trans hr)
    rw [hnone] at hc
    cases hc
  · by_contra hsome
    simp only [Bool.not_eq_true, isSome_eq_false_iff, isNone_iff_eq_none] at hsome
    exact hr (h.unlisted a (lookup_eq_none.mp hsome)).2
  · have hin := mem_of_lookup hid
    refine ⟨hlisting id hin, ?_⟩
    cases hb : (s.object id).breakpoint with
    | none =>
      obtain ⟨-, l, hc⟩ := (h.kept _ hin).unarmed hb
      rw [hnone] at hc
      cases hc
    | some bp => exact ⟨bp, rfl, (h.kept _ hin).armed bp hb⟩

theorem initial_inv (arch : Arch) : Inv { arch } :=
  .inr ⟨by simp, by simp, by simp, by simp [toVisit], by simp, by simp, by simp, by simp⟩

/-- Throughout an orderly run, entries, listeners and breakpoints agree whenever no
call is suspended. -/
theorem consistent_of_orderly (arch : Arch) (es : List AttachEvent)
    (hok : Machine.EachStep step Orderly { arch } es) :
    Machine.Always step Consistent { arch } es :=
  (Machine.always_of_eachStep (I := Inv) (fun _ _ _ h hok hs => step_inv h hok hs)
    (initial_inv arch) hok).mono fun _ => Inv.consistent

def firstListener : Listener := ⟨0, .call⟩
def secondListener : Listener := ⟨1, .probe⟩

/-- The second listener joins while the breakpoint of the first is being added, and
both leave again. -/
def orderlyCalls : List AttachEvent :=
  [.attach firstListener 0x1000, .attach secondListener 0x1000, .added 0 true,
    .attach firstListener 0x2000, .added 0 false, .detach firstListener [(0x1000, 0)],
    .detach secondListener [(0x1000, 0)], .removed 0 true]

theorem consistent_of_orderly_calls :
    Machine.EachStep step Orderly { arch := .arm64 } orderlyCalls ∧
      Machine.Always step Consistent { arch := .arm64 } orderlyCalls :=
  ⟨by decide, consistent_of_orderly .arm64 orderlyCalls (by decide)⟩

/-- The breakpoint cannot be added, and the listener that has joined in the meantime
goes with the entry. -/
theorem joined_listener_dropped :
    ∃ s, Machine.exec step { arch := .arm64 } [.attach firstListener 0x1000,
        .attach secondListener 0x1000, .added 0 false] = some s ∧
      s.suspended = [] ∧ s.registered 0x1000 = [secondListener] ∧ s.breakpointEntries = [] ∧
      ¬ Consistent s := by
  refine ⟨_, rfl, rfl, rfl, rfl, fun h => ?_⟩
  have hiff := (h rfl 0x1000).1
  revert hiff
  decide

end Attachments

end FridaCore.Barebone
