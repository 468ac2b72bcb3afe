import FridaCore.Session.Transmitter

/-!
# What one step of the transmitter can do

`fillBatch_spec` reads the batching loop, `maybeDeliver_cases` the trigger that
every post, callback and migration ends in, and `step_cases` the whole step
function. The invariants of the later modules only use these.
-/

namespace FridaCore.Session

open List Option

section
variable (m : PendingMessage)
include m

@[simp] theorem PendingMessage.asPosted_attempt :
    m.attempt.asPosted = m.asPosted := rfl

@[simp] theorem PendingMessage.index_asPosted :
    m.asPosted.index = m.index := rfl

@[simp] theorem PendingMessage.index_attempt : m.attempt.index = m.index := rfl

@[simp] theorem PendingMessage.serial_attempt :
    m.attempt.serial = m.serial := rfl

end

def Event.posts : Event → Bool
  | .postMessageFromScript .. | .postMessageFromDebugger .. => true
  | _ => false

def Event.mayThrow : Event → Bool
  | .interrupt | .resume _ | .notifyRxBatchId _ => true
  | _ => false

def totalSizeOf (l : List PendingMessage) : Nat := (l.map PendingMessage.estimateSizeInBytes).sum

/-- A batch as the sink may get it: some messages from the front of the queue,
within the size limit unless there is just one. -/
structure HandOver.Sound (h : HandOver) : Prop where
  nonempty : h.batch ≠ []
  fromFront : h.batch <+: h.queue
  limited : totalSizeOf h.batch ≤ Transmitter.maxSize ∨ h.batch.length = 1

namespace Transmitter

variable {t t' : Transmitter}

theorem fillBatch_append (h : fillBatch batch size queue = (batch', rest)) :
    batch' ++ rest = batch ++ queue := by
  induction queue generalizing batch size with
  | nil => simp only [fillBatch, Prod.mk.injEq] at h; simp [← h.1, ← h.2]
  | cons m queue ih =>
    simp only [fillBatch] at h
    split at h
    · simp only [Prod.mk.injEq] at h; simp [← h.1, ← h.2]
    · simpa using ih h

theorem fillBatch_nonempty (hne : batch ++ queue ≠ [])
    (h : fillBatch batch size queue = (batch', rest)) : batch' ≠ [] := by
  induction queue generalizing batch size with
  | nil => simp only [fillBatch, Prod.mk.injEq] at h; simpa [← h.1] using hne
  | cons m queue ih =>
    simp only [fillBatch] at h
    split at h
    · rename_i hfull
      simp only [Prod.mk.injEq] at h
      rw [← h.1]
      rintro rfl
      simp at hfull
    · exact ih (by simp) h

theorem fillBatch_limited (hsize : size = totalSizeOf batch)
    (hlim : totalSizeOf batch ≤ maxSize ∨ batch.length ≤ 1)
    (h : fillBatch batch size queue = (batch', rest)) :
    totalSizeOf batch' ≤ maxSize ∨ batch'.length ≤ 1 := by
  induction queue generalizing batch size with
  | nil => simp only [fillBatch, Prod.mk.injEq] at h; rwa [← h.1]
  | cons m queue ih =>
    simp only [fillBatch] at h
    split at h
    · simp only [Prod.mk.injEq] at h; rwa [← h.1]
    · rename_i hroom
      refine ih (by simp [hsize, totalSizeOf]) ?_ h
      simp only [gt_iff_lt, Bool.and_eq_true, decide_eq_true_eq, Bool.not_eq_true', not_and,
        Bool.not_eq_false] at hroom
      by_cases hfit : size + m.estimateSizeInBytes ≤ maxSize
      · left; simpa [totalSizeOf, hsize] using hfit
      · right
        have : batch = [] := by simpa using hroom (by omega)
        simp [this]

theorem fillBatch_spec (hne : queue ≠ []) (h : fillBatch [] 0 queue = (batch, rest)) :
    batch ++ rest = queue ∧ HandOver.Sound ⟨queue, batch⟩ := by
  have happ : batch ++ rest = queue := by simpa using fillBatch_append h
  have hb : batch ≠ [] := fillBatch_nonempty (by simpa using hne) h
  refine ⟨happ, hb, ⟨rest, happ⟩, ?_⟩
  have hl : totalSizeOf batch ≤ maxSize ∨ batch.length ≤ 1 :=
    fillBatch_limited (by simp [totalSizeOf]) (by simp) h
  have hpos : 0 < batch.length := length_pos_iff.mpr hb
  show totalSizeOf batch ≤ maxSize ∨ batch.length = 1
  omega

def Ready (t : Transmitter) : Prop :=
  t.state = .live ∧ t.hasSink = true ∧ t.pendingMessages ≠ []

def handOver (t : Transmitter) (batch rest : List PendingMessage) : Transmitter :=
  let t' : Transmitter := { t with
    pendingMessages := rest
    handedOver := t.handedOver ++ [⟨t.pendingMessages, batch⟩] }
  if t.persistTimeout = 0 then t'.emitBatch batch else t'.deliverBatch batch

theorem maybeDeliver_idle (h : ¬ t.Ready) : t.maybeDeliverPendingMessages = t := by
  unfold maybeDeliverPendingMessages
  split
  · rfl
  · split
    · rfl
    · split
      · rfl
      · exact absurd ⟨by simp_all, by simp_all, by simp_all⟩ h

theorem maybeDeliver_ready (h : t.Ready) : ∃ batch rest,
    batch ++ rest = t.pendingMessages ∧ HandOver.Sound ⟨t.pendingMessages, batch⟩ ∧
      fillBatch [] 0 t.pendingMessages = (batch, rest) ∧
      t.maybeDeliverPendingMessages = t.handOver batch rest := by
  obtain ⟨hlive, hsink, hne⟩ := h
  obtain ⟨batch, rest, hfill⟩ : ∃ batch rest, fillBatch [] 0 t.pendingMessages = (batch, rest) :=
    ⟨_, _, rfl⟩
  obtain ⟨happ, hsound⟩ := fillBatch_spec hne hfill
  refine ⟨batch, rest, happ, hsound, hfill, ?_⟩
  have hempty : t.pendingMessages.isEmpty = false := by simpa using hne
  simp [maybeDeliverPendingMessages, handOver, hlive, hsink, hempty, hfill]

theorem maybeDeliver_induction {I : Transmitter → Prop} (h : I t)
    (hover : ∀ batch rest, t.Ready → batch ++ rest = t.pendingMessages →
      HandOver.Sound ⟨t.pendingMessages, batch⟩ → fillBatch [] 0 t.pendingMessages = (batch, rest) →
      I (t.handOver batch rest)) :
    I t.maybeDeliverPendingMessages := by
  by_cases hr : t.Ready
  · obtain ⟨batch, rest, happ, hsound, hfill, heq⟩ := maybeDeliver_ready hr
    exact heq ▸ hover batch rest hr happ hsound hfill
  · rwa [maybeDeliver_idle hr]

/-- What `resume` leaves behind when it does not throw. -/
def resumed (t : Transmitter) (rxBatchId : Nat) : Transmitter :=
  { t with
    pendingMessages :=
      if rxBatchId ≠ 0 then t.pendingMessages.dropWhile (received rxBatchId) else t.pendingMessages
    discarded :=
      if rxBatchId ≠ 0 then t.discarded ++ t.pendingMessages.takeWhile (received rxBatchId)
      else t.discarded
    expiryTimer := false
    state := .live
    scheduled := t.scheduled + 1 }

theorem resume_ok (hp : t.persistTimeout ≠ 0) (he : t.expiryTimer = true) :
    t.resume rxBatchId = .ok (t.resumed rxBatchId, t.lastRxBatchId) := by
  by_cases hrx : rxBatchId = 0 <;> simp [resume, resumed, hp, he, hrx]

theorem resume_throws (h : t.persistTimeout = 0 ∨ t.expiryTimer = false) :
    t.resume rxBatchId = .error (.invalidOperation "Invalid operation") := by
  unfold resume
  rw [if_pos (by simpa using h)]

inductive StepCase (t : Transmitter) : Event → Transmitter → Prop
  | threw : e.mayThrow = true → StepCase t e t
  | post (kind : AgentMessageKind) (scriptId : UInt32) (text : String) (data : Option ByteArray) :
      e.posts = true → StepCase t e (t.offer kind scriptId text data).maybeDeliverPendingMessages
  | succeeded : t.inFlight[i]? = some d → StepCase t (.batchSucceeded i) (t.batchSucceeded i d)
  | failed : t.inFlight[i]? = some d → StepCase t (.batchFailed i) (t.batchFailed i d)
  | interrupted : t.persistTimeout ≠ 0 → t.expiryTimer = false →
      StepCase t .interrupt { t with state := .interrupted, expiryTimer := true }
  | resumed : t.persistTimeout ≠ 0 → t.expiryTimer = true →
      StepCase t (.resume rxBatchId) (t.resumed rxBatchId)
  | idle : t.scheduled ≠ 0 → StepCase t .idle t.idle
  | notified : StepCase t (.notifyRxBatchId batchId) { t with lastRxBatchId := batchId }
  | beginMigration : StepCase t .beginMigration { t with state := .interrupted }
  | uncommitted : t.expiryTimer = true → StepCase t .commitMigration t
  | commitMigration : t.expiryTimer = false →
      StepCase t .commitMigration (maybeDeliverPendingMessages { t with state := .live })
  | setMessageSink : StepCase t (.setMessageSink present) { t with messageSink := present }
  | setNiceMessageSink :
      StepCase t (.setNiceMessageSink present) { t with niceMessageSink := present }

theorem step_cases (h : t.step e = some t') : StepCase t e t' := by
  cases e with
  | postMessageFromScript scriptId json data =>
    simp only [step, some.injEq] at h
    subst h
    exact .post .script scriptId json data rfl
  | postMessageFromDebugger scriptId message =>
    simp only [step, some.injEq] at h
    subst h
    exact .post .debugger scriptId message none rfl
  | batchSucceeded i =>
    obtain ⟨d, hd, rfl⟩ := map_eq_some_iff.mp h
    exact .succeeded hd
  | batchFailed i =>
    obtain ⟨d, hd, rfl⟩ := map_eq_some_iff.mp h
    exact .failed hd
  | interrupt =>
    simp only [step, some.injEq] at h
    subst h
    unfold Transmitter.interrupt
    split
    · exact .threw rfl
    · rename_i hok
      exact .interrupted (fun hp => hok (.inl hp)) (by simpa using fun he => hok (.inr he))
  | resume rxBatchId =>
    simp only [step, some.injEq] at h
    subst h
    by_cases hok : t.persistTimeout = 0 ∨ t.expiryTimer = false
    · rw [resume_throws hok]
      exact .threw rfl
    · rw [not_or, Bool.not_eq_false] at hok
      rw [resume_ok hok.1 hok.2]
      exact .resumed hok.1 hok.2
  | idle =>
    simp only [step] at h
    split at h
    · cases h
    · rename_i hs
      cases h
      exact .idle hs
  | notifyRxBatchId batchId =>
    simp only [step, some.injEq] at h
    subst h
    unfold Transmitter.notifyRxBatchId
    split
    · exact .threw rfl
    · exact .notified
  | beginMigration =>
    cases h
    exact .beginMigration
  | commitMigration =>
    cases h
    unfold Transmitter.commitMigration
    split
    · exact .uncommitted ‹_›
    · rename_i he
      exact .commitMigration (by simpa using he)
  | setMessageSink present =>
    cases h
    exact .setMessageSink
  | setNiceMessageSink present =>
    cases h
    exact .setNiceMessageSink

end Transmitter

end FridaCore.Session
