import FridaCore.Barebone.Pairing

/-!
# Return breakpoints and who waits for them

A breakpoint on a return address is shared by all the calls that return there,
and `pending_returns` says on behalf of which threads. It does not say how many
calls of a thread: the first of them to return takes the thread off the map, and
the breakpoint goes with the last thread. So calls are accounted for exactly if
no call returns while an outer call of its thread waits for the same address
(`Unshared`). `Separate` leaves aside hits that are handled both as a call and as
a return, and call frames that report some other return address once the call has
returned.
-/

namespace FridaCore.Barebone.World

open List Function

open Interceptor

variable {w w' : World} {s : Interceptor} {c : OpenCall} {cs : List OpenCall}

/-- Every call that is trapped on leave has a breakpoint to return to and a pending
return on its thread, and a breakpoint that is there for no listener is there for
such a call. -/
structure Accounted (w : World) : Prop where
  armed : ∀ tid, ∀ c ∈ trapped (w.calls tid), c.returnAddress ∈ w.interceptor.breakpoints
  pending : ∀ tid, ∀ c ∈ trapped (w.calls tid),
    (c.returnAddress, tid) ∈ w.interceptor.pendingReturns
  removed : ∀ a ∈ w.interceptor.breakpoints, w.interceptor.breakpointEntries.lookup a = none →
    ∃ tid, ∃ c ∈ trapped (w.calls tid), c.returnAddress = a

/-- A function is not called by a thread with a trapped call that returns to it, the
new call included. An address that is returned to has no listeners, and can be read
back from the frame after the return. -/
def Separate (w : World) : ThreadEvent → Prop
  | .call tid address probe =>
    (∀ c ∈ trapped (w.calls tid), c.returnAddress ≠ address) ∧
      ∀ entry ∈ w.interceptor.breakpointEntries.lookup address,
        w.interceptor.traps entry probe = true →
          w.interceptor.arch.addressFromFuncptr probe.returnTarget ≠ address
  | .ret tid probe => ∀ c ∈ (w.calls tid).head?,
    w.interceptor.breakpointEntries.lookup c.returnAddress = none ∧
      w.interceptor.arch.addressFromFuncptr probe.returnTargetOnLeave = c.returnAddress

/-- A call does not return while an outer trapped call of its thread is to return to
the same address. -/
def Unshared (w : World) : ThreadEvent → Prop
  | .call .. => True
  | .ret tid _ => ∀ c ∈ (w.calls tid).head?, ∀ c' ∈ trapped (w.calls tid).tail,
    c'.returnAddress ≠ c.returnAddress

instance (w : World) : (e : ThreadEvent) → Decidable (w.Separate e)
  | .call _ address _ => inferInstanceAs (Decidable ((∀ c ∈ trapped _, _) ∧
      ∀ entry ∈ w.interceptor.breakpointEntries.lookup address, _ → _))
  | .ret tid _ => inferInstanceAs (Decidable (∀ c ∈ (w.calls tid).head?, _ ∧ _))

instance (w : World) : (e : ThreadEvent) → Decidable (w.Unshared e)
  | .call .. => .isTrue trivial
  | .ret tid _ => inferInstanceAs (Decidable (∀ c ∈ (w.calls tid).head?, ∀ c' ∈ trapped _, _))

def Awaited (w : World) : Prop :=
  ∀ a tid, (a, tid) ∈ w.interceptor.pendingReturns →
    ∃ c ∈ trapped (w.calls tid), c.returnAddress = a

theorem Accounted.armed_of_pending (hp : Accounted w) (h : Awaited w) :
    ∀ p ∈ w.interceptor.pendingReturns, p.1 ∈ w.interceptor.breakpoints := by
  rintro ⟨a, tid⟩ hin
  obtain ⟨c, hc, rfl⟩ := h a tid hin
  exact hp.armed tid c hc

theorem mem_trapped_openCall : c ∈ trapped (openCall s entry tid probe :: cs) ↔
    s.traps entry probe = true ∧ c = openCall s entry tid probe ∨ c ∈ trapped cs := by
  simp only [trapped, mem_filter, mem_cons, or_and_right]
  refine or_congr_left ⟨?_, ?_⟩
  · rintro ⟨rfl, ht⟩
    exact ⟨ht, rfl⟩
  · rintro ⟨ht, rfl⟩
    exact ⟨rfl, ht⟩

/-- A call adds to the trapped calls of its thread if it is going to be trapped. -/
theorem mem_trapped_call :
    c ∈ trapped (update w.calls tid (openCall s entry tid probe :: w.calls tid) tid') ↔
      (tid' = tid ∧ s.traps entry probe = true ∧ c = openCall s entry tid probe) ∨
        c ∈ trapped (w.calls tid') := by
  by_cases htid : tid' = tid
  · subst htid
    simp [mem_trapped_openCall]
  · simp [htid]

theorem mem_handleInvocation_breakpoints
    (ha : a ∈ (s.handleInvocation entry tid probe).1.breakpoints) :
    a ∈ s.breakpoints ∨
      s.traps entry probe = true ∧ a = s.arch.addressFromFuncptr probe.returnTarget := by
  unfold handleInvocation at ha
  split at ha
  · rename_i ht
    simp only at ha
    split at ha
    · exact .inl ha
    · rcases Finset.mem_insert.mp ha with rfl | ha
      · exact .inr ⟨ht, rfl⟩
      · exact .inl ha
  · exact .inl ha

theorem call_accounted (h : Awaited w) (hp : Accounted w)
    (hsep : w.Separate (.call tid address probe))
    (hs : w.step (.call tid address probe) = some w') : Accounted w' ∧ Awaited w' := by
  simp only [step] at hs
  split at hs
  · rename_i entry he
    split at hs
    · cases hs
      have hold : (address, tid) ∉ w.interceptor.pendingReturns := by
        intro hin
        obtain ⟨c, hc, heq⟩ := h address tid hin
        exact hsep.1 c hc heq
      rw [handleBreakpointHit_invocation he hold (hsep.2 entry he)]
      refine ⟨⟨fun tid' c hc => ?_, fun tid' c hc => ?_, fun a ha hnone => ?_⟩, ?_⟩
      · rcases mem_trapped_call.mp hc with ⟨-, ht, rfl⟩ | hc
        · exact handleInvocation_armed ht (hp.armed_of_pending h)
        · exact handleInvocation_breakpoints (hp.armed tid' c hc)
      · rw [mem_handleInvocation_pending]
        rcases mem_trapped_call.mp hc with ⟨rfl, ht, rfl⟩ | hc
        · exact .inr ⟨ht, rfl⟩
        · exact .inl (hp.pending tid' c hc)
      · rw [handleInvocation_entries] at hnone
        rcases mem_handleInvocation_breakpoints ha with ha | ⟨ht, rfl⟩
        · obtain ⟨tid', c, hc, rfl⟩ := hp.removed a ha hnone
          exact ⟨tid', c, mem_trapped_call.mpr (.inr hc), rfl⟩
        · exact ⟨tid, _, mem_trapped_call.mpr (.inl ⟨rfl, ht, rfl⟩), rfl⟩
      · intro a tid' hin
        rcases mem_handleInvocation_pending.mp hin with hin | ⟨ht, heq⟩
        · obtain ⟨c, hc, rfl⟩ := h a tid' hin
          exact ⟨c, mem_trapped_call.mpr (.inr hc), rfl⟩
        · cases heq
          exact ⟨_, mem_trapped_call.mpr (.inl ⟨rfl, ht, rfl⟩), rfl⟩
    · cases hs
  · cases hs

section
variable (hcalls : w.calls tid = c :: cs)
include hcalls

theorem trapped_ret (hc : c' ∈ trapped (w.calls tid')) :
    c' ∈ trapped (update w.calls tid cs tid') ∨ tid' = tid ∧ c' = c := by
  by_cases htid : tid' = tid
  · subst htid
    rw [hcalls] at hc
    rcases mem_cons.mp (mem_of_mem_filter hc) with rfl | hin
    · exact .inr ⟨rfl, rfl⟩
    · left
      rw [update_self]
      exact mem_filter.mpr ⟨hin, (mem_filter.mp hc).2⟩
  · left
    rwa [update_of_ne htid]

theorem trapped_of_ret (hc : c' ∈ trapped (update w.calls tid cs tid')) :
    c' ∈ trapped (w.calls tid') := by
  by_cases htid : tid' = tid
  · subst htid
    rw [update_self] at hc
    rw [hcalls]
    exact mem_filter.mpr
      ⟨mem_cons_of_mem _ (mem_of_mem_filter hc), (mem_filter.mp hc).2⟩
  · rwa [update_of_ne htid] at hc

theorem trapped_tail (hc : c' ∈ trapped cs) : c' ∈ trapped (w.calls tid) := by
  refine trapped_of_ret hcalls ?_
  rwa [update_self]

end

theorem Accounted.untrapped_ret (hp : Accounted w) (hist : List Stop) (h : Awaited w)
    (hcalls : w.calls tid = c :: cs)
    (hnot : (c.returnAddress, tid) ∉ w.interceptor.pendingReturns) :
    Accounted ⟨w.interceptor, update w.calls tid cs, hist⟩ ∧
      Awaited ⟨w.interceptor, update w.calls tid cs, hist⟩ := by
  have hkept : ∀ tid' c', c' ∈ trapped (w.calls tid') →
      c' ∈ trapped (update w.calls tid cs tid') := by
    intro tid' c' hc
    rcases trapped_ret hcalls hc with hc' | ⟨rfl, rfl⟩
    · exact hc'
    · exact absurd (hp.pending _ _ hc) hnot
  refine ⟨⟨fun tid' c' hc => ?_, fun tid' c' hc => ?_, fun a ha hnone => ?_⟩, fun a tid' hin => ?_⟩
  · exact hp.armed tid' c' (trapped_of_ret hcalls hc)
  · exact hp.pending tid' c' (trapped_of_ret hcalls hc)
  · obtain ⟨tid', c', hc, heq⟩ := hp.removed a ha hnone
    exact ⟨tid', c', hkept tid' c' hc, heq⟩
  · obtain ⟨c', hc, heq⟩ := h a tid' hin
    exact ⟨c', hkept tid' c' hc, heq⟩

theorem mem_handleReturn_breakpoints
    (ha : a ∈ (s.handleReturn address tid probe).1.breakpoints) :
    a ∈ s.breakpoints ∧ (a = address →
      ∃ p ∈ (s.handleReturn address tid probe).1.pendingReturns,
        p.1 = s.arch.addressFromFuncptr probe.returnTargetOnLeave) := by
  rw [handleReturn_pendingReturns]
  unfold handleReturn at ha
  simp only at ha
  split at ha
  · rename_i hsome
    exact ⟨ha, fun _ => hsome⟩
  · obtain ⟨hne, ha⟩ := Finset.mem_erase.mp ha
    exact ⟨ha, fun heq => absurd heq hne⟩

/-- The return is taken for that of an outer call if one waits for the same address. -/
theorem handleReturn_accounted (h : Awaited w) (hp : Accounted w) (hcalls : w.calls tid = c :: cs)
    (haddr : w.interceptor.arch.addressFromFuncptr probe.returnTargetOnLeave = c.returnAddress) :
    let s := (w.interceptor.handleReturn c.returnAddress tid probe).1
    (Accounted ⟨s, update w.calls tid cs, hist⟩ ↔
        ∀ c' ∈ trapped cs, c'.returnAddress ≠ c.returnAddress) ∧
      Awaited ⟨s, update w.calls tid cs, hist⟩ := by
  intro s
  have hpending : ∀ p, p ∈ s.pendingReturns ↔
      p ≠ (c.returnAddress, tid) ∧ p ∈ w.interceptor.pendingReturns := by
    intro p
    rw [handleReturn_pendingReturns, haddr, Finset.mem_erase]
  have hawaited : Awaited ⟨s, update w.calls tid cs, hist⟩ := by
    intro a tid' hin
    obtain ⟨hne, hin⟩ := (hpending _).mp hin
    obtain ⟨c', hc, rfl⟩ := h a tid' hin
    rcases trapped_ret hcalls hc with hc | ⟨rfl, rfl⟩
    · exact ⟨c', hc, rfl⟩
    · exact absurd rfl hne
  refine ⟨⟨fun hp' c' hc heq => ?_, fun hunshared => ?_⟩, hawaited⟩
  · have hin := hp'.pending tid c' (by simpa using hc)
    exact ((hpending _).mp hin).1 (by rw [heq])
  · have hstays : ∀ tid' c', c' ∈ trapped (update w.calls tid cs tid') →
        (c'.returnAddress, tid') ∈ s.pendingReturns := by
      intro tid' c' hc
      refine (hpending _).mpr ⟨fun heq => ?_, hp.pending tid' c' (trapped_of_ret hcalls hc)⟩
      obtain ⟨haddr', rfl⟩ := Prod.mk.inj heq
      rw [update_self] at hc
      exact hunshared c' hc haddr'
    refine ⟨fun tid' c' hc => ?_, hstays, fun a ha hnone => ?_⟩
    · exact handleReturn_armed haddr (hstays tid' c' hc)
        (hp.armed tid' c' (trapped_of_ret hcalls hc))
    · rw [handleReturn_entries] at hnone
      obtain ⟨ha, hleft⟩ := mem_handleReturn_breakpoints ha
      obtain ⟨tid', c', hc, rfl⟩ := hp.removed a ha hnone
      rcases trapped_ret hcalls hc with hc | ⟨rfl, rfl⟩
      · exact ⟨tid', c', hc, rfl⟩
      · -- another thread waits for this address
        obtain ⟨⟨a, tid''⟩, hin, heq⟩ := hleft rfl
        obtain ⟨c'', hc'', heq'⟩ := hawaited a tid'' hin
        exact ⟨tid'', c'', hc'', heq'.trans (heq.trans haddr)⟩

theorem ret_accounted (h : Awaited w) (hp : Accounted w) (hsep : w.Separate (.ret tid probe))
    (hs : w.step (.ret tid probe) = some w') :
    (Accounted w' ↔ w.Unshared (.ret tid probe)) ∧ Awaited w' := by
  cases hcalls : w.calls tid with
  | nil => simp [step, hcalls] at hs
  | cons c cs =>
    obtain ⟨hret, haddr⟩ := hsep c (by simp [hcalls])
    have hunshared : w.Unshared (.ret tid probe) ↔
        ∀ c' ∈ trapped cs, c'.returnAddress ≠ c.returnAddress := by
      simp [Unshared, hcalls]
    rw [hunshared]
    by_cases hpend : (c.returnAddress, tid) ∈ w.interceptor.pendingReturns
    · have harmed := hp.armed_of_pending h _ hpend
      simp only [step, hcalls, hret, handleBreakpointHit_ret hret, harmed, hpend, ↓reduceIte] at hs
      cases hs
      exact handleReturn_accounted h hp hcalls haddr
    · have hkept := fun hist => hp.untrapped_ret hist h hcalls hpend
      have hother : ∀ c' ∈ trapped cs, c'.returnAddress ≠ c.returnAddress := by
        intro c' hc heq
        exact hpend (heq ▸ hp.pending tid c' (trapped_tail hcalls hc))
      simp only [step, hcalls, hret, handleBreakpointHit_ret hret, hpend, ↓reduceIte] at hs
      split at hs
      · cases hs
        exact ⟨iff_of_true (hkept _).1 hother, (hkept _).2⟩
      · cases hs
        exact ⟨iff_of_true (hkept _).1 hother, (hkept _).2⟩

theorem initial_accounted (arch : Arch) (entries : List (UInt64 × BreakpointEntry)) :
    Accounted (initial arch entries) := by
  refine ⟨by simp [initial, trapped], by simp [initial, trapped], fun a ha hnone => ?_⟩
  obtain ⟨e, he, rfl⟩ := mem_map.mp (mem_toFinset.mp ha)
  have hne := lookup_eq_none_iff.mp hnone e he
  simp at hne

/-- As long as calls and returns are told apart, every trapped call is accounted for
throughout a run if and only if no call returns while an outer one of its thread is
to return to the same address. -/
theorem accounted_iff_unshared (arch : Arch) (entries : List (UInt64 × BreakpointEntry))
    (es : List ThreadEvent) (hsep : Machine.EachStep step Separate (initial arch entries) es) :
    Machine.Always step Accounted (initial arch entries) es ↔
      Machine.EachStep step Unshared (initial arch entries) es := by
  refine Machine.always_iff_eachStep_of (I := Awaited) (fun w e w' h hp hsep hs => ?_)
    (by simp [Awaited, initial]) (initial_accounted arch entries) hsep
  cases e with
  | call tid address probe =>
    obtain ⟨hp', hinv⟩ := call_accounted h hp hsep hs
    exact ⟨iff_of_true hp' trivial, fun _ => hinv⟩
  | ret tid probe =>
    obtain ⟨hiff, hinv⟩ := ret_accounted h hp hsep hs
    exact ⟨hiff, fun _ => hinv⟩

def repeatedCalls : List ThreadEvent :=
  [.call "1" 0x1000 ⟨0x3000, true, 0x3000⟩, .call "1" 0x2000 ⟨0x1010, true, 0x1010⟩,
    .call "2" 0x1000 ⟨0x3000, true, 0x3000⟩, .ret "1" ⟨0x1010, true, 0x1010⟩,
    .call "2" 0x2000 ⟨0x1010, true, 0x1010⟩, .call "1" 0x2000 ⟨0x1010, true, 0x1010⟩,
    .ret "2" ⟨0x1010, true, 0x1010⟩, .ret "1" ⟨0x1010, true, 0x1010⟩,
    .ret "1" ⟨0x3000, true, 0x3000⟩]

theorem accounted_iff_unshared_repeatedCalls :
    Machine.EachStep step Separate (initial .arm64 twoFunctions) repeatedCalls ∧
      Machine.Always step Accounted (initial .arm64 twoFunctions) repeatedCalls :=
  ⟨by decide,
    (accounted_iff_unshared .arm64 twoFunctions repeatedCalls (by decide)).mpr (by decide)⟩

def recursiveCalls : List ThreadEvent :=
  [.call "1" 0x1000 ⟨0x3000, true, 0x3000⟩, .call "1" 0x1000 ⟨0x1010, true, 0x1010⟩,
    .call "1" 0x1000 ⟨0x1010, true, 0x1010⟩, .ret "1" ⟨0x1010, true, 0x1010⟩]

/-- The innermost call has returned and the one that made it, which returns to the same
address, finds neither a breakpoint there nor a pending return. -/
theorem recursive_return_forgotten :
    Machine.EachStep step Separate (initial .arm64 twoFunctions) recursiveCalls ∧
      ((Machine.exec step (initial .arm64 twoFunctions) recursiveCalls).map fun w =>
        ((w.calls "1").map fun c => (c.returnAddress, c.trapped))) =
          some [(0x1010, true), (0x3000, true)] ∧
      ((Machine.exec step (initial .arm64 twoFunctions) recursiveCalls).map fun w =>
        (w.interceptor.breakpoints, w.interceptor.pendingReturns)) =
          some ({0x3000, 0x1000, 0x2000}, {(0x3000, "1")}) ∧
      ¬ Machine.Always step Accounted (initial .arm64 twoFunctions) recursiveCalls := by
  refine ⟨by decide, by decide, by decide, fun halways => ?_⟩
  have harmed := (halways.exec rfl).armed "1" _ (mem_of_getElem? (i := 0) rfl)
  revert harmed
  decide

end FridaCore.Barebone.World
