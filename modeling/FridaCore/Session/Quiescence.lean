import FridaCore.Session.Conservation

/-!
# When queued messages are left behind

Only posts, the callback of `resume` and the end of a migration start a batch,
and each starts one. Completions do not, so a transmitter can come to rest with
messages queued: live, with a sink, nothing in flight and no callback to come.
`Drains` names the steps that do this, and `runs_drained` shows that there are
no others: a run never strands a message exactly if none of its steps is one
of these.
-/

namespace FridaCore.Session.Transmitter

open List

variable {t t' : Transmitter}

/-- Live, with no callback of `resume` still to come. -/
def Quiet (t : Transmitter) : Prop := t.state = .live ∧ t.scheduled = 0

instance (t : Transmitter) : Decidable t.Quiet := inferInstanceAs (Decidable (_ ∧ _))

def AtRest (t : Transmitter) : Prop := t.Quiet ∧ t.hasSink = true ∧ t.pendingDeliveries = 0

def Drained (t : Transmitter) : Prop := t.AtRest → t.pendingMessages = []

/-- The step does not bring the transmitter to rest with messages queued. The
completion of the last batch in flight does if it fails, or if it succeeds with
messages queued; so does a sink that is installed with messages queued. Without
persistence, so does a migration during which more than one batch piled up. -/
def Drains (t : Transmitter) : Event → Prop
  | .batchSucceeded _ =>
    t.Quiet ∧ t.hasSink = true ∧ t.pendingDeliveries = 1 → t.pendingMessages = []
  | .batchFailed _ => ¬ (t.Quiet ∧ t.hasSink = true ∧ t.pendingDeliveries = 1)
  | .setMessageSink present | .setNiceMessageSink present =>
    t.Quiet ∧ present = true ∧ t.pendingDeliveries = 0 → t.pendingMessages = []
  | .commitMigration =>
    t.persistTimeout = 0 ∧ t.expiryTimer = false ∧ t.hasSink = true →
      (fillBatch [] 0 t.pendingMessages).2 = []
  | _ => True

instance (t : Transmitter) : (e : Event) → Decidable (t.Drains e)
  | .batchSucceeded _ => inferInstanceAs (Decidable (_ ∧ _ ∧ _ → _))
  | .batchFailed _ => inferInstanceAs (Decidable (¬ (_ ∧ _ ∧ _)))
  | .setMessageSink _ | .setNiceMessageSink _ => inferInstanceAs (Decidable (_ ∧ _ ∧ _ → _))
  | .commitMigration => inferInstanceAs (Decidable (_ ∧ _ ∧ _ → _))
  | .postMessageFromScript .. | .postMessageFromDebugger .. | .interrupt | .resume _ | .idle
  | .notifyRxBatchId _ | .beginMigration => .isTrue trivial

structure Tidy (t : Transmitter) : Prop where
  counted : t.inFlight.length = t.pendingDeliveries
  nonempty : ∀ d ∈ t.inFlight, d.messages ≠ []
  volatile : t.persistTimeout = 0 → t.pendingDeliveries = 0 ∧ t.scheduled = 0

theorem maybeDeliver_tidy (h : t.Tidy) : t.maybeDeliverPendingMessages.Tidy := by
  refine maybeDeliver_induction h fun batch rest _ _ hsound _ => ?_
  unfold handOver
  split
  · exact { h with }
  · rename_i hp
    refine ⟨by simp [deliverBatch, h.counted], ?_, fun hp' => absurd hp' hp⟩
    intro d hd
    rcases mem_append.mp hd with hd | hd
    · exact h.nonempty d hd
    · rw [mem_singleton.mp hd]
      simpa using hsound.nonempty

/-- With persistence a trigger always leaves the transmitter drained: either
there was nothing to do, or now something is in flight. -/
theorem maybeDeliver_drained (hp : t.persistTimeout ≠ 0) :
    t.maybeDeliverPendingMessages.Drained := by
  by_cases hr : t.Ready
  · obtain ⟨batch, rest, -, -, -, heq⟩ := maybeDeliver_ready hr
    rintro ⟨-, -, hzero⟩
    simp [heq, handOver, hp, deliverBatch] at hzero
  · rw [maybeDeliver_idle hr]
    rintro ⟨⟨hlive, -⟩, hsink, -⟩
    by_contra hne
    exact hr ⟨hlive, hsink, hne⟩

/-- Without persistence the batch is gone at once, and what did not fit stays. -/
theorem maybeDeliver_drained_iff (hp : t.persistTimeout = 0) (hlive : t.state = .live)
    (hzero : t.pendingDeliveries = 0 ∧ t.scheduled = 0) :
    t.maybeDeliverPendingMessages.Drained ↔
      (t.hasSink = true → (fillBatch [] 0 t.pendingMessages).2 = []) := by
  by_cases hr : t.Ready
  · obtain ⟨batch, rest, -, -, hfill, heq⟩ := maybeDeliver_ready hr
    have hover : t.handOver batch rest = emitBatch { t with
        pendingMessages := rest
        handedOver := t.handedOver ++ [⟨t.pendingMessages, batch⟩] } batch := by
      simp [handOver, hp]
    rw [heq, hover, hfill]
    simp [Drained, AtRest, Quiet, emitBatch, hlive, hzero, hasSink]
  · rw [maybeDeliver_idle hr]
    simp only [Drained, AtRest, Quiet, hlive, hzero, and_self, and_true, true_and]
    constructor
    · intro h hsink
      simp [h hsink, fillBatch]
    · intro _ hsink
      by_contra hne
      exact hr ⟨hlive, hsink, hne⟩

theorem fillBatch_singleton (m : PendingMessage) : fillBatch [] 0 [m] = ([m], []) := by
  simp [fillBatch]

theorem offer_drained (h : t.Tidy) (hd : t.Drained) :
    (t.offer kind scriptId text data).maybeDeliverPendingMessages.Drained := by
  by_cases hp : t.persistTimeout = 0
  · by_cases hlive : t.state = .live
    · have hzero := h.volatile hp
      refine (maybeDeliver_drained_iff (t := t.offer kind scriptId text data) hp hlive hzero).mpr ?_
      intro hsink
      have hnone : t.pendingMessages = [] := hd ⟨⟨hlive, hzero.2⟩, hsink, hzero.1⟩
      simp only [offer, hnone, nil_append, fillBatch_singleton]
    · rw [maybeDeliver_idle (t := t.offer kind scriptId text data) fun hr => hlive hr.1]
      exact fun hr => absurd hr.1.1 hlive
  · exact maybeDeliver_drained (t := t.offer kind scriptId text data) hp

theorem step_tidy (h : t.Tidy) (hs : t.step e = some t') : t'.Tidy := by
  cases step_cases hs with
  | threw | uncommitted => exact h
  | post | commitMigration => exact maybeDeliver_tidy { h with }
  | succeeded hd =>
    refine ⟨?_, fun d' hd' => h.nonempty d' (mem_of_mem_eraseIdx hd'), fun hp => ?_⟩
    · simp [batchSucceeded, length_eraseIdx_of_some hd, h.counted]
    · exact ⟨by simp [batchSucceeded, (h.volatile hp).1], (h.volatile hp).2⟩
  | failed hd =>
    refine ⟨?_, fun d' hd' => h.nonempty d' (mem_of_mem_eraseIdx hd'), fun hp => ?_⟩
    · simp [batchFailed, length_eraseIdx_of_some hd, h.counted]
    · exact ⟨by simp [batchFailed, (h.volatile hp).1], (h.volatile hp).2⟩
  | resumed hp _ => exact { h with volatile := fun hp' => absurd hp' hp }
  | idle _ =>
    refine maybeDeliver_tidy ⟨h.counted, h.nonempty, fun hp => ?_⟩
    exact ⟨(h.volatile hp).1, by simp [(h.volatile hp).2]⟩
  | interrupted | notified | beginMigration | setMessageSink | setNiceMessageSink =>
    exact { h with }

theorem batchSucceeded_drained_iff (h : t.Tidy) (hd : t.inFlight[i]? = some d) :
    (t.batchSucceeded i d).Drained ↔ t.Drains (.batchSucceeded i) := by
  have hone := pred_eq_zero_iff h.counted hd
  simp only [Drained, AtRest, Quiet, hasSink, batchSucceeded, Drains, hone]

theorem batchFailed_drained_iff (h : t.Tidy) (hd : t.inFlight[i]? = some d) :
    (t.batchFailed i d).Drained ↔ t.Drains (.batchFailed i) := by
  have hone := pred_eq_zero_iff h.counted hd
  have hne : sortBySerial (t.pendingMessages ++ d.messages) ≠ [] := by
    intro hnil
    have hperm := sortBySerial_perm (t.pendingMessages ++ d.messages)
    rw [hnil, List.nil_perm, List.append_eq_nil_iff] at hperm
    exact h.nonempty d (List.mem_of_getElem? hd) hperm.2
  simp only [Drained, AtRest, Quiet, hasSink, batchFailed, Drains, hone, hne, imp_false]

theorem setMessageSink_drained_iff (hd : t.Drained) :
    ({ t with messageSink := present } : Transmitter).Drained ↔
      t.Drains (.setMessageSink present) := by
  simp only [Drained, AtRest, Quiet, hasSink, Drains, Bool.or_eq_true] at hd ⊢
  tauto

theorem setNiceMessageSink_drained_iff (hd : t.Drained) :
    ({ t with niceMessageSink := present } : Transmitter).Drained ↔
      t.Drains (.setNiceMessageSink present) := by
  simp only [Drained, AtRest, Quiet, hasSink, Drains, Bool.or_eq_true] at hd ⊢
  tauto

theorem commitMigration_drained_iff (h : t.Tidy) (he : t.expiryTimer = false) :
    (maybeDeliverPendingMessages { t with state := .live }).Drained ↔
      t.Drains .commitMigration := by
  by_cases hp : t.persistTimeout = 0
  · rw [maybeDeliver_drained_iff (t := { t with state := .live }) hp rfl (h.volatile hp)]
    simp [Drains, hp, he, hasSink]
  · have := maybeDeliver_drained (t := { t with state := .live }) hp
    simp [Drains, hp, this]

/-- From a drained transmitter, a step leads to a drained one exactly if it is
not one of the steps singled out. -/
theorem step_drained_iff (h : t.Tidy) (hd : t.Drained) (hs : t.step e = some t') :
    t'.Drained ↔ t.Drains e := by
  cases step_cases hs with
  | threw he =>
    cases e <;> simp only [Event.mayThrow, Bool.false_eq_true] at he
    all_goals exact iff_of_true hd trivial
  | uncommitted he => exact iff_of_true hd (by simp [Drains, he])
  | post kind scriptId text data he =>
    have : (t.offer kind scriptId text data).maybeDeliverPendingMessages.Drained :=
      offer_drained h hd
    cases e <;> simp only [Event.posts, Bool.false_eq_true] at he
    all_goals exact iff_of_true this trivial
  | succeeded hb => exact batchSucceeded_drained_iff h hb
  | failed hb => exact batchFailed_drained_iff h hb
  | interrupted => exact iff_of_true (fun hr => nomatch hr.1.1) trivial
  | resumed => exact iff_of_true (fun hr => nomatch hr.1.2) trivial
  | idle hsched =>
    have hp : t.persistTimeout ≠ 0 := fun hp => hsched (h.volatile hp).2
    exact iff_of_true
      (maybeDeliver_drained (t := { t with scheduled := t.scheduled - 1 }) hp) trivial
  | notified => exact iff_of_true hd trivial
  | beginMigration => exact iff_of_true (fun hr => nomatch hr.1.1) trivial
  | commitMigration he => exact commitMigration_drained_iff h he
  | setMessageSink => exact setMessageSink_drained_iff hd
  | setNiceMessageSink => exact setNiceMessageSink_drained_iff hd

theorem initial_tidy : (initial timeout).Tidy where
  counted := rfl
  nonempty _ hd := nomatch hd
  volatile _ := ⟨rfl, rfl⟩

/-- A run leaves no message behind in any of its states exactly if all its
steps drain. -/
theorem runs_drained (timeout : Nat) (es : List Event) :
    Machine.Always step Drained (initial timeout) es ↔
      Machine.EachStep step Drains (initial timeout) es :=
  Machine.always_iff_eachStep
    (fun _ _ _ ht hd hs => ⟨step_tidy ht hs, step_drained_iff ht hd hs⟩)
    initial_tidy fun _ => rfl

/-- A batch that fails while the transmitter is live is queued again, and nothing
starts the next one. -/
theorem failed_batch_stranded : ∃ t, Machine.exec step (initial 5)
    [.setMessageSink true, .postMessageFromScript 1 "a" none, .batchFailed 0] = some t ∧
    ¬ t.Drained := by
  simp only [Drained, AtRest, Quiet]
  decide

end FridaCore.Session.Transmitter
