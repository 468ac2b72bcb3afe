import FridaCore.Barebone.Interceptor

/-!
# Which call an `on_leave` is about

Listeners are told that a call returns with the context of the item polled from
the thread's call stack, and that is the oldest one: the call stack is a queue.
So the pairing is right exactly if a trapped call only ever returns while it is
the only trapped call open on its thread (`Unnested`). `Plain` leaves aside
what would blur the picture: calls that return to an address which has
listeners of its own or which an outer call returns to as well, and call frames
that report some other return address once the call has returned.
-/

namespace FridaCore.Barebone.World

open List Option Function Prod Machine

open Interceptor

variable {w w' : World} {s s' : Interceptor} {cs : List OpenCall}

/-- Every `on_leave` so far came with the context of the call that returned. -/
def Paired (w : World) : Prop :=
  ∀ stop ∈ w.history, ∀ listener ic,
    .onLeave listener ic ∈ stop.notifications → stop.returning = some ic

/-- Return addresses have no listeners, differ between the open calls of one
thread, and can be read back from the frame after the return. -/
def Plain (w : World) : ThreadEvent → Prop
  | .call tid _ probe =>
    w.interceptor.breakpointEntries.lookup
        (w.interceptor.arch.addressFromFuncptr probe.returnTarget) = none ∧
      ∀ c ∈ w.calls tid,
        c.returnAddress ≠ w.interceptor.arch.addressFromFuncptr probe.returnTarget
  | .ret tid probe => ∀ c ∈ (w.calls tid).head?,
    w.interceptor.arch.addressFromFuncptr probe.returnTargetOnLeave = c.returnAddress

def trapped (calls : List OpenCall) : List OpenCall := calls.filter (·.trapped)

def Unnested (w : World) : ThreadEvent → Prop
  | .call .. => True
  | .ret tid _ => ∀ c ∈ (w.calls tid).head?, c.trapped = true →
    (trapped (w.calls tid)).length = 1

instance (w : World) : (e : ThreadEvent) → Decidable (w.Plain e)
  | .call .. => inferInstanceAs (Decidable (_ = _ ∧ ∀ c ∈ w.calls _, _))
  | .ret tid _ => inferInstanceAs (Decidable (∀ c ∈ (w.calls tid).head?, _))

instance (w : World) : (e : ThreadEvent) → Decidable (w.Unnested e)
  | .call .. => .isTrue trivial
  | .ret tid _ => inferInstanceAs (Decidable (∀ c ∈ (w.calls tid).head?, _ → _))

structure Tracks (s : Interceptor) (tid : String) (calls : List OpenCall) : Prop where
  queue : s.callStacks tid = ((trapped calls).map (·.item)).reverse
  pending : ∀ a, (a, tid) ∈ s.pendingReturns ↔ ∃ c ∈ trapped calls, c.returnAddress = a
  armed : ∀ a, (a, tid) ∈ s.pendingReturns → a ∈ s.breakpoints
  unlistened : ∀ c ∈ calls, s.breakpointEntries.lookup c.returnAddress = none
  distinct : (calls.map (·.returnAddress)).Nodup
  contexts : ∀ c ∈ calls, c.item.ic.id < s.contexts
  fresh : (calls.map (·.item.ic.id)).Nodup
  listened : ∀ c ∈ trapped calls, c.item.entry.hasCallListener = true

def Inv (w : World) : Prop := ∀ tid, Tracks w.interceptor tid (w.calls tid)

theorem Tracks.frame (h : Tracks s tid cs) (hqueue : s'.callStacks tid = s.callStacks tid)
    (hpending : ∀ a, (a, tid) ∈ s'.pendingReturns ↔ (a, tid) ∈ s.pendingReturns)
    (harmed : ∀ a, (a, tid) ∈ s.pendingReturns → a ∈ s'.breakpoints)
    (hentries : s'.breakpointEntries = s.breakpointEntries) (hcontexts : s.contexts ≤ s'.contexts) :
    Tracks s' tid cs where
  __ := h
  queue := hqueue.trans h.queue
  pending a := (hpending a).trans (h.pending a)
  armed a ha := harmed a ((hpending a).mp ha)
  unlistened := hentries ▸ h.unlistened
  contexts c hc := (h.contexts c hc).trans_le hcontexts

@[simp] theorem handleInvocation_entries :
    (s.handleInvocation entry tid probe).1.breakpointEntries = s.breakpointEntries := by
  unfold handleInvocation; split <;> rfl

@[simp] theorem handleInvocation_contexts :
    (s.handleInvocation entry tid probe).1.contexts = s.contexts + 1 := by
  unfold handleInvocation; split <;> rfl

theorem handleInvocation_notifications :
    (s.handleInvocation entry tid probe).2 =
      entry.listeners.map fun l => .onEnter l (s.nextContext tid) := by
  unfold handleInvocation; split <;> rfl

theorem mem_handleInvocation_pending :
    p ∈ (s.handleInvocation entry tid probe).1.pendingReturns ↔
      p ∈ s.pendingReturns ∨ s.traps entry probe = true ∧
        p = (s.arch.addressFromFuncptr probe.returnTarget, tid) := by
  unfold handleInvocation
  split <;> simp_all [or_comm]

theorem handleInvocation_callStacks :
    (s.handleInvocation entry tid probe).1.callStacks = if s.traps entry probe then
      update s.callStacks tid (s.callStacks tid ++ [⟨entry, s.nextContext tid⟩])
    else s.callStacks := by
  unfold handleInvocation
  split <;> rfl

theorem handleInvocation_breakpoints (ha : a ∈ s.breakpoints) :
    a ∈ (s.handleInvocation entry tid probe).1.breakpoints := by
  unfold handleInvocation
  split
  · simp only
    split
    · exact ha
    · exact Finset.mem_insert_of_mem ha
  · exact ha

theorem handleInvocation_armed (ht : s.traps entry probe = true)
    (hold : ∀ p ∈ s.pendingReturns, p.1 ∈ s.breakpoints) :
    s.arch.addressFromFuncptr probe.returnTarget ∈
      (s.handleInvocation entry tid probe).1.breakpoints := by
  unfold handleInvocation
  rw [if_pos ht]
  split
  · rename_i hw
    obtain ⟨p, hp, heq⟩ := hw
    exact heq ▸ hold p hp
  · exact Finset.mem_insert_self _ _

/-- A hit only handles the invocation if the thread waits for no return to the
function called. -/
theorem handleBreakpointHit_invocation (he : s.breakpointEntries.lookup address = some entry)
    (hold : (address, tid) ∉ s.pendingReturns)
    (hnew : s.traps entry probe = true → s.arch.addressFromFuncptr probe.returnTarget ≠ address) :
    s.handleBreakpointHit address tid probe = s.handleInvocation entry tid probe := by
  have hnot : (address, tid) ∉ (s.handleInvocation entry tid probe).1.pendingReturns := by
    rw [mem_handleInvocation_pending]
    rintro (hin | ⟨ht, heq⟩)
    · exact hold hin
    · exact hnew ht (congrArg fst heq).symm
  simp only [handleBreakpointHit, he, hnot, ↓reduceIte, mk.eta]

theorem handleBreakpointHit_call (h : Tracks s tid cs)
    (hret : s.breakpointEntries.lookup (s.arch.addressFromFuncptr probe.returnTarget) = none)
    (he : s.breakpointEntries.lookup address = some entry) :
    s.handleBreakpointHit address tid probe = s.handleInvocation entry tid probe := by
  have hne : address ≠ s.arch.addressFromFuncptr probe.returnTarget := by
    rintro rfl
    rw [hret] at he
    cases he
  have hold : (address, tid) ∉ s.pendingReturns := by
    intro hin
    obtain ⟨c, hc, rfl⟩ := (h.pending _).mp hin
    rw [h.unlistened c (mem_of_mem_filter hc)] at he
    cases he
  exact handleBreakpointHit_invocation he hold fun _ => hne.symm

theorem call_tracks (h : Tracks s tid cs)
    (hret : s.breakpointEntries.lookup (s.arch.addressFromFuncptr probe.returnTarget) = none)
    (hdistinct : ∀ c ∈ cs, c.returnAddress ≠ s.arch.addressFromFuncptr probe.returnTarget)
    (harmed : ∀ p ∈ s.pendingReturns, p.1 ∈ s.breakpoints) :
    Tracks (s.handleInvocation entry tid probe).1 tid (openCall s entry tid probe :: cs) := by
  let c := openCall s entry tid probe
  have htrap : trapped (c :: cs) = if s.traps entry probe then c :: trapped cs
      else trapped cs := by
    simp only [trapped, filter_cons]
    rfl
  refine ⟨?_, ?_, ?_, ?_, ?_, ?_, ?_, ?_⟩
  · rw [handleInvocation_callStacks, htrap]
    split
    · simp [h.queue, c, openCall]
    · exact h.queue
  · intro a
    rw [mem_handleInvocation_pending, h.pending, htrap]
    by_cases ht : s.traps entry probe = true
    · simp only [ht, true_and, ↓reduceIte, mem_cons, exists_eq_or_imp, Prod.mk.injEq, and_true]
      rw [or_comm, eq_comm]
      rfl
    · simp [ht]
  · intro a ha
    rcases mem_handleInvocation_pending.mp ha with ha | ⟨ht, heq⟩
    · exact handleInvocation_breakpoints (h.armed a ha)
    · cases heq
      exact handleInvocation_armed ht harmed
  · rw [handleInvocation_entries]
    exact forall_mem_cons.mpr ⟨hret, h.unlistened⟩
  · simpa [openCall] using ⟨hdistinct, h.distinct⟩
  · rw [handleInvocation_contexts]
    refine forall_mem_cons.mpr ⟨Nat.lt_succ_self _, fun c' hc' => ?_⟩
    exact Nat.lt_succ_of_lt (h.contexts c' hc')
  · have hne : ∀ c' ∈ cs, c'.item.ic.id ≠ s.contexts := fun c' hc' => (h.contexts c' hc').ne
    simpa [openCall, nextContext] using ⟨hne, h.fresh⟩
  · rw [htrap]
    split
    · rename_i ht
      refine forall_mem_cons.mpr ⟨?_, h.listened⟩
      simp only [traps, Bool.and_eq_true] at ht
      exact ht.1
    · exact h.listened

@[simp] theorem handleReturn_entries :
    (s.handleReturn address tid probe).1.breakpointEntries = s.breakpointEntries := by
  unfold handleReturn; simp only; split <;> rfl

@[simp] theorem handleReturn_contexts :
    (s.handleReturn address tid probe).1.contexts = s.contexts := by
  unfold handleReturn; simp only; split <;> rfl

theorem handleReturn_callStacks :
    (s.handleReturn address tid probe).1.callStacks =
      update s.callStacks tid (s.callStacks tid).tail := by
  unfold handleReturn; simp only; split <;> rfl

theorem handleReturn_pendingReturns :
    (s.handleReturn address tid probe).1.pendingReturns =
      s.pendingReturns.erase (s.arch.addressFromFuncptr probe.returnTargetOnLeave, tid) := by
  unfold handleReturn; simp only; split <;> rfl

theorem handleReturn_armed
    (haddr : s.arch.addressFromFuncptr probe.returnTargetOnLeave = address)
    (hp : p ∈ (s.handleReturn address tid probe).1.pendingReturns) (ha : p.1 ∈ s.breakpoints) :
    p.1 ∈ (s.handleReturn address tid probe).1.breakpoints := by
  rw [handleReturn_pendingReturns] at hp
  unfold handleReturn
  simp only
  split
  · exact ha
  · rename_i hnone
    refine Finset.mem_erase.mpr ⟨fun heq => hnone ⟨p, hp, ?_⟩, ha⟩
    rw [heq, haddr]

theorem handleReturn_notifications (hq : s.callStacks tid = item :: rest) :
    (s.handleReturn address tid probe).2 =
      (item.entry.listeners.filter fun l => l.kind = .call).map fun l => .onLeave l item.ic := by
  unfold handleReturn
  simp only [hq]
  split <;> rfl

/-- A hit at a plain return address handles the return of the call that waits
for it, if one does. -/
theorem handleBreakpointHit_ret (hret : s.breakpointEntries.lookup address = none) :
    s.handleBreakpointHit address tid probe =
      if (address, tid) ∈ s.pendingReturns then s.handleReturn address tid probe else (s, []) := by
  simp only [handleBreakpointHit, hret, nil_append, mk.eta]

section
variable (h : Tracks s tid (c :: cs))
include h

theorem Tracks.pending_innermost :
    (c.returnAddress, tid) ∈ s.pendingReturns ↔ c.trapped = true := by
  rw [h.pending]
  constructor
  · rintro ⟨c', hc', heq⟩
    rcases mem_cons.mp (mem_of_mem_filter hc') with rfl | hin
    · exact (mem_filter.mp hc').2
    · exact absurd (mem_map.mpr ⟨c', hin, heq⟩) (nodup_cons.mp h.distinct).1
  · intro ht
    exact ⟨c, mem_filter.mpr ⟨mem_cons_self, ht⟩, rfl⟩

theorem Tracks.untrapped_ret (ht : c.trapped = false) : Tracks s tid cs := by
  have htrap : trapped (c :: cs) = trapped cs := filter_cons_of_neg (by simp [ht])
  exact
    { queue := htrap ▸ h.queue
      pending := htrap ▸ h.pending
      armed := h.armed
      unlistened := (forall_mem_cons.mp h.unlistened).2
      distinct := (nodup_cons.mp h.distinct).2
      contexts := (forall_mem_cons.mp h.contexts).2
      fresh := (nodup_cons.mp h.fresh).2
      listened := htrap ▸ h.listened }

theorem Tracks.handleReturn (ht : c.trapped = true) (hnone : trapped cs = [])
    (haddr : s.arch.addressFromFuncptr probe.returnTargetOnLeave = c.returnAddress) :
    Tracks (s.handleReturn c.returnAddress tid probe).1 tid cs := by
  have htrap : trapped (c :: cs) = [c] := by
    rw [trapped, filter_cons_of_pos (by simpa using ht), ← trapped, hnone]
  have hpending : ∀ a, (a, tid) ∉ (s.handleReturn c.returnAddress tid probe).1.pendingReturns := by
    intro a hin
    rw [handleReturn_pendingReturns, haddr, Finset.mem_erase, h.pending, htrap] at hin
    obtain ⟨hne, c', hc', rfl⟩ := hin
    exact hne (by rw [mem_singleton.mp hc'])
  refine ⟨?_, ?_, ?_, ?_, ?_, ?_, ?_, ?_⟩
  · rw [handleReturn_callStacks, update_self, h.queue, htrap, hnone]
    rfl
  · intro a
    simp [hpending a, hnone]
  · intro a ha
    exact absurd ha (hpending a)
  · rw [handleReturn_entries]
    exact (forall_mem_cons.mp h.unlistened).2
  · exact (nodup_cons.mp h.distinct).2
  · rw [handleReturn_contexts]
    exact (forall_mem_cons.mp h.contexts).2
  · exact (nodup_cons.mp h.fresh).2
  · simp [hnone]

theorem Tracks.polled (ht : c.trapped = true) :
    ∃ oldest ∈ trapped (c :: cs), (∃ rest, s.callStacks tid = oldest.item :: rest) ∧
      (oldest.item.ic = c.item.ic ↔ trapped cs = []) := by
  have htrap : trapped (c :: cs) = c :: trapped cs :=
    filter_cons_of_pos (by simpa using ht)
  rcases (trapped cs).eq_nil_or_concat' with hnil | ⟨front, oldest, hcat⟩
  · refine ⟨c, htrap ▸ mem_cons_self, ⟨[], ?_⟩, by simp [hnil]⟩
    rw [h.queue, htrap, hnil]
    rfl
  · have hin : oldest ∈ trapped cs := by simp [hcat]
    refine ⟨oldest, htrap ▸ mem_cons_of_mem _ hin, ?_, ?_⟩
    · rw [h.queue, htrap, hcat]
      simp
    · -- two open calls never share a context
      have hne : oldest.item.ic ≠ c.item.ic := fun heq =>
        (nodup_cons.mp h.fresh).1
          (mem_map.mpr ⟨oldest, mem_of_mem_filter hin, by rw [heq]⟩)
      simp [hne, hcat]

end

theorem Inv.armed (h : Inv w) : ∀ p ∈ w.interceptor.pendingReturns,
    p.1 ∈ w.interceptor.breakpoints :=
  fun p hp => (h p.2).armed p.1 hp

theorem inv_update (hthread : Tracks s tid cs)
    (hother : ∀ tid', tid' ≠ tid → Tracks s tid' (w.calls tid')) :
    Inv ⟨s, update w.calls tid cs, hist⟩ :=
  (forall_update_iff w.calls (Tracks s)).mpr ⟨hthread, hother⟩

theorem call_inv (h : Inv w) (hret : w.interceptor.breakpointEntries.lookup
      (w.interceptor.arch.addressFromFuncptr probe.returnTarget) = none)
    (hdistinct : ∀ c ∈ w.calls tid,
      c.returnAddress ≠ w.interceptor.arch.addressFromFuncptr probe.returnTarget) :
    Inv ⟨(w.interceptor.handleInvocation entry tid probe).1,
      update w.calls tid (openCall w.interceptor entry tid probe :: w.calls tid),
      hist⟩ := by
  refine inv_update (call_tracks (h tid) hret hdistinct h.armed) fun tid' htid => ?_
  have hp : ∀ a, (a, tid') ∈ (w.interceptor.handleInvocation entry tid probe).1.pendingReturns ↔
      (a, tid') ∈ w.interceptor.pendingReturns := by
    simp [mem_handleInvocation_pending, htid]
  refine (h tid').frame ?_ hp ?_ handleInvocation_entries (by simp)
  · rw [handleInvocation_callStacks]
    split <;> simp [htid]
  · exact fun a ha => handleInvocation_breakpoints ((h tid').armed a ha)

theorem ret_inv (h : Inv w) (hcalls : w.calls tid = c :: cs) (ht : c.trapped = true)
    (hnone : trapped cs = [])
    (haddr : w.interceptor.arch.addressFromFuncptr probe.returnTargetOnLeave = c.returnAddress) :
    Inv ⟨(w.interceptor.handleReturn c.returnAddress tid probe).1,
      update w.calls tid cs, hist⟩ := by
  have hthread : Tracks w.interceptor tid (c :: cs) := hcalls ▸ h tid
  refine inv_update (hthread.handleReturn ht hnone haddr) fun tid' htid => ?_
  have hp : ∀ a,
      (a, tid') ∈ (w.interceptor.handleReturn c.returnAddress tid probe).1.pendingReturns ↔
        (a, tid') ∈ w.interceptor.pendingReturns := by
    simp [handleReturn_pendingReturns, htid]
  refine (h tid').frame ?_ hp ?_ handleReturn_entries handleReturn_contexts.ge
  · simp [handleReturn_callStacks, htid]
  · exact fun a ha => handleReturn_armed haddr ((hp a).mpr ha) ((h tid').armed a ha)

theorem paired_append :
    Paired ⟨s, calls', hist ++ [stop]⟩ ↔ Paired ⟨s', calls'', hist⟩ ∧
      ∀ listener ic, .onLeave listener ic ∈ stop.notifications → stop.returning = some ic := by
  simp only [Paired, mem_append, mem_singleton, or_imp, forall_and, forall_eq]

theorem left_paired (hq : s.callStacks tid = item :: rest)
    (hcall : item.entry.hasCallListener = true) :
    (∀ listener ic, .onLeave listener ic ∈ (s.handleReturn address tid probe).2 →
      some expected = some ic) ↔ item.ic = expected := by
  rw [handleReturn_notifications hq]
  simp only [List.mem_map, List.mem_filter, Notification.onLeave.injEq]
  constructor
  · intro hall
    obtain ⟨l, hl, hk⟩ := List.any_eq_true.mp hcall
    exact (Option.some.inj (hall l item.ic ⟨l, ⟨hl, hk⟩, rfl, rfl⟩)).symm
  · rintro rfl listener ic ⟨l, _, _, rfl⟩
    rfl

theorem call_step (h : Inv w) (hp : Paired w) (hplain : w.Plain (.call tid address probe))
    (hs : w.step (.call tid address probe) = some w') : Paired w' ∧ Inv w' := by
  simp only [step] at hs
  split at hs
  · rename_i entry he
    split at hs
    · cases hs
      rw [handleBreakpointHit_call (h tid) hplain.1 he]
      refine ⟨paired_append.mpr ⟨hp, ?_⟩, call_inv h hplain.1 hplain.2⟩
      simp [handleInvocation_notifications]
    · cases hs
  · cases hs

theorem ret_step (h : Inv w) (hp : Paired w) (hplain : w.Plain (.ret tid probe))
    (hs : w.step (.ret tid probe) = some w') :
    (Paired w' ↔ w.Unnested (.ret tid probe)) ∧ (Paired w' → Inv w') := by
  cases hcalls : w.calls tid with
  | nil => simp [step, hcalls] at hs
  | cons c cs =>
    have hthread : Tracks w.interceptor tid (c :: cs) := hcalls ▸ h tid
    have hret := hthread.unlistened c mem_cons_self
    have haddr := hplain c (by simp [hcalls])
    simp only [step, hcalls, hret, handleBreakpointHit_ret hret, hthread.pending_innermost] at hs
    simp only [Unnested, hcalls, head?_cons, mem_def, some.injEq, forall_eq']
    cases ht : c.trapped with
    | false =>
      have hinv : ∀ hist, Inv ⟨w.interceptor, update w.calls tid cs, hist⟩ :=
        fun hist => inv_update (hthread.untrapped_ret ht) fun tid' _ => h tid'
      simp only [ht, Bool.false_eq_true, ↓reduceIte] at hs
      split at hs
      · cases hs
        exact ⟨iff_of_true (paired_append.mpr ⟨hp, by simp⟩) (by simp), fun _ => hinv _⟩
      · cases hs
        exact ⟨iff_of_true hp (by simp), fun _ => hinv _⟩
    | true =>
      have harmed := hthread.armed _ (hthread.pending_innermost.mpr ht)
      obtain ⟨oldest, hin, ⟨rest, hq⟩, heq⟩ := hthread.polled ht
      simp only [ht, harmed, ↓reduceIte, some.injEq] at hs
      cases hs
      have hunnested : (trapped (c :: cs)).length = 1 ↔ trapped cs = [] := by
        simp [trapped, ht]
      rw [paired_append, and_iff_right hp, left_paired hq (hthread.listened oldest hin), heq,
        hunnested]
      exact ⟨by simp, fun hnone => ret_inv h hcalls ht hnone haddr⟩

theorem initial_inv (arch : Arch) (entries : List (UInt64 × BreakpointEntry)) :
    Inv (initial arch entries) := by
  intro tid
  constructor <;> simp [initial, trapped]

/-- In a run over plain calls every `on_leave` comes with the context that was
passed to `on_enter` for the call returning if and only if no trapped call
returns while another one is open on its thread. -/
theorem paired_iff_unnested (arch : Arch) (entries : List (UInt64 × BreakpointEntry))
    (es : List ThreadEvent) (hplain : Machine.EachStep step Plain (initial arch entries) es) :
    Machine.Always step Paired (initial arch entries) es ↔
      Machine.EachStep step Unnested (initial arch entries) es := by
  refine always_iff_eachStep_of (fun w e w' h hp hplain hs => ?_)
    (initial_inv arch entries) (by simp [Paired, initial]) hplain
  cases e with
  | call tid address probe =>
    obtain ⟨hp', hinv⟩ := call_step h hp hplain hs
    exact ⟨iff_of_true hp' trivial, fun _ => hinv⟩
  | ret tid probe => exact ret_step h hp hplain hs

def callListener : Listener := ⟨0, .call⟩

def twoFunctions : List (UInt64 × BreakpointEntry) :=
  [(0x1000, ⟨[callListener]⟩), (0x2000, ⟨[callListener]⟩)]

/-- One function after the other, and meanwhile the first on another thread. -/
def sequentialCalls : List ThreadEvent :=
  [.call "1" 0x1000 ⟨0x3000, true, 0x3000⟩, .call "2" 0x1000 ⟨0x3000, true, 0x3000⟩,
    .ret "1" ⟨0x3000, true, 0x3000⟩, .call "1" 0x2000 ⟨0x3010, true, 0x3010⟩,
    .ret "2" ⟨0x3000, true, 0x3000⟩, .ret "1" ⟨0x3010, true, 0x3010⟩]

theorem paired_iff_unnested_sequentialCalls :
    Machine.EachStep step Plain (initial .arm64 twoFunctions) sequentialCalls ∧
      Machine.Always step Paired (initial .arm64 twoFunctions) sequentialCalls :=
  ⟨by decide, (paired_iff_unnested .arm64 twoFunctions sequentialCalls (by decide)).mpr (by decide)⟩

def nestedCalls : List ThreadEvent :=
  [.call "1" 0x1000 ⟨0x3000, true, 0x3000⟩, .call "1" 0x2000 ⟨0x1010, true, 0x1010⟩,
    .ret "1" ⟨0x1010, true, 0x1010⟩]

/-- The inner call returns, and the listener is told so with the context of the
outer call. -/
theorem nested_return_mispaired :
    Machine.EachStep step Plain (initial .arm64 twoFunctions) nestedCalls ∧
      ((exec step (initial .arm64 twoFunctions) nestedCalls).map (·.history)) = some
        [⟨[.onEnter callListener ⟨0, "1", 0⟩], none⟩, ⟨[.onEnter callListener ⟨1, "1", 1⟩], none⟩,
          ⟨[.onLeave callListener ⟨0, "1", 0⟩], some ⟨1, "1", 1⟩⟩] ∧
      ¬ Machine.Always step Paired (initial .arm64 twoFunctions) nestedCalls := by
  refine ⟨by decide, by decide, fun halways => ?_⟩
  have := halways.exec rfl _ (mem_of_getElem? (i := 2) rfl) callListener ⟨0, "1", 0⟩ mem_cons_self
  revert this
  decide

end FridaCore.Barebone.World
