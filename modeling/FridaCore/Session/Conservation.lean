import FridaCore.Session.TransmitterLaws
import FridaCore.Support.Lists

/-!
# No message is lost or duplicated inside the transmitter

Every message ever posted is queued, in one batch in flight, acknowledged or
discarded by `resume` (or gone with `emit_batch`, when sessions do not
persist). `Accounted` says so with the lists as multisets: a step only moves
messages from one of them to another.
-/

namespace FridaCore.Session.Transmitter

open List Function Transmitter Machine

variable {t t' : Transmitter}

def initial (persistTimeout : Nat) : Transmitter := { persistTimeout }

def places (t : Transmitter) : List PendingMessage :=
  t.pendingMessages ++ t.inFlight.flatMap Delivery.messages ++ t.acknowledged ++ t.discarded ++
    t.emitted

structure Accounted (t : Transmitter) : Prop where
  places : (t.places.map PendingMessage.asPosted).Perm t.posted
  numbered : t.posted.map PendingMessage.index = List.range t.posted.length
  emitted : t.persistTimeout ≠ 0 → t.emitted = []
  counted : t.inFlight.length = t.pendingDeliveries
  sound : ∀ h ∈ t.handedOver, h.Sound

def occurrences (t : Transmitter) (index : Nat) : Nat :=
  let here (l : List PendingMessage) := l.countP (·.index == index)
  here t.pendingMessages + (t.inFlight.map fun d => here d.messages).sum + here t.acknowledged +
    here t.discarded

theorem flatMap_eraseIdx_perm {l : List α} {f : α → List β} (h : l[i]? = some a) :
    (f a ++ (l.eraseIdx i).flatMap f).Perm (l.flatMap f) := by
  rw [← flatMap_cons]
  exact (eraseIdx_perm h).flatMap_right f

theorem length_eraseIdx_of_some {l : List α} (h : l[i]? = some a) :
    (l.eraseIdx i).length = l.length - 1 := by
  obtain ⟨hi, -⟩ := List.getElem?_eq_some_iff.mp h
  simp [List.length_eraseIdx, hi]

theorem pred_eq_zero_iff (hc : t.inFlight.length = t.pendingDeliveries)
    (hd : t.inFlight[(i : Nat)]? = some d) :
    t.pendingDeliveries - 1 = 0 ↔ t.pendingDeliveries = 1 := by
  have := (List.getElem?_eq_some_iff.mp hd).1
  omega

theorem sortBySerial_perm (l : List PendingMessage) : (sortBySerial l).Perm l :=
  perm_insertionSort _ l

@[simp] theorem map_asPosted_attempt (l : List PendingMessage) :
    (l.map PendingMessage.attempt).map PendingMessage.asPosted = l.map PendingMessage.asPosted := by
  simp [comp_def]

theorem handOver_accounted (h : t.Accounted) (happ : batch ++ rest = t.pendingMessages)
    (hsound : HandOver.Sound ⟨t.pendingMessages, batch⟩) : (t.handOver batch rest).Accounted := by
  have hs : ∀ o ∈ t.handedOver ++ [⟨t.pendingMessages, batch⟩], o.Sound := by
    intro o ho
    rcases mem_append.mp ho with ho | ho
    · exact h.sound o ho
    · rwa [mem_singleton.mp ho]
  have hperm := h.places
  simp only [places, ← happ] at hperm
  unfold handOver
  split
  · rename_i hp
    refine ⟨?_, h.numbered, fun hp' => absurd hp hp', h.counted, hs⟩
    refine List.Perm.trans ?_ hperm
    refine List.Perm.map _ ?_
    simp only [places, emitBatch]
    rw [perm_iff_count]
    intro m
    simp only [count_append]
    omega
  · refine ⟨?_, h.numbered, h.emitted, by simp [deliverBatch, h.counted], hs⟩
    refine List.Perm.trans ?_ hperm
    simp only [places, deliverBatch, map_append, flatMap_append,
      flatMap_singleton, map_asPosted_attempt]
    rw [perm_iff_count]
    intro m
    simp only [count_append]
    omega

theorem maybeDeliver_accounted (h : t.Accounted) : t.maybeDeliverPendingMessages.Accounted :=
  maybeDeliver_induction h fun _ _ _ happ hsound _ => handOver_accounted h happ hsound

theorem offer_accounted (h : t.Accounted) : (t.offer kind scriptId text data).Accounted where
  __ := h
  places := by
    have hperm := h.places
    simp only [places, offer, map_append] at hperm ⊢
    rw [perm_iff_count] at hperm ⊢
    intro m
    have := hperm m
    simp only [count_append, map_cons, map_nil, PendingMessage.asPosted] at this ⊢
    omega
  numbered := by simp [offer, h.numbered, range_succ]

theorem batchSucceeded_accounted (h : t.Accounted) (hd : t.inFlight[i]? = some d) :
    (t.batchSucceeded i d).Accounted where
  __ := h
  places := by
    refine List.Perm.trans (List.Perm.map _ ?_) h.places
    have hperm := flatMap_eraseIdx_perm (f := Delivery.messages) hd
    rw [perm_iff_count] at hperm ⊢
    intro m
    have := hperm m
    simp only [places, batchSucceeded, count_append] at this ⊢
    omega
  counted := by
    show (t.inFlight.eraseIdx i).length = t.pendingDeliveries - 1
    rw [length_eraseIdx_of_some hd, h.counted]

theorem batchFailed_accounted (h : t.Accounted) (hd : t.inFlight[i]? = some d) :
    (t.batchFailed i d).Accounted where
  __ := h
  places := by
    refine List.Perm.trans (List.Perm.map _ ?_) h.places
    have hperm := flatMap_eraseIdx_perm (f := Delivery.messages) hd
    have hsort := sortBySerial_perm (t.pendingMessages ++ d.messages)
    rw [perm_iff_count] at hperm hsort ⊢
    intro m
    have hm := hperm m
    have hs := hsort m
    simp only [places, batchFailed, count_append] at hm hs ⊢
    omega
  counted := by
    show (t.inFlight.eraseIdx i).length = t.pendingDeliveries - 1
    rw [length_eraseIdx_of_some hd, h.counted]

theorem resumed_accounted (h : t.Accounted) : (t.resumed rxBatchId).Accounted where
  __ := h
  places := by
    refine List.Perm.trans (List.Perm.map _ ?_) h.places
    by_cases hrx : rxBatchId = 0
    · simp [places, resumed, hrx]
    · have hsplit : t.pendingMessages.takeWhile (received rxBatchId) ++
          t.pendingMessages.dropWhile (received rxBatchId) = t.pendingMessages :=
        takeWhile_append_dropWhile
      rw [perm_iff_count]
      intro m
      have := congrArg (count m) hsplit
      simp only [places, resumed, count_append, ne_eq, hrx, not_false_eq_true,
        ↓reduceIte] at this ⊢
      omega

theorem step_accounted (h : t.Accounted) (hs : t.step e = some t') : t'.Accounted := by
  cases step_cases hs with
  | threw | uncommitted => exact h
  | post kind scriptId text data => exact maybeDeliver_accounted (offer_accounted h)
  | succeeded hd => exact batchSucceeded_accounted h hd
  | failed hd => exact batchFailed_accounted h hd
  | resumed => exact resumed_accounted h
  | idle | commitMigration => exact maybeDeliver_accounted { h with }
  | interrupted | notified | beginMigration | setMessageSink | setNiceMessageSink =>
    exact { h with }

theorem initial_accounted : (initial timeout).Accounted where
  places := .nil
  numbered := rfl
  emitted _ := rfl
  counted := rfl
  sound _ h := nomatch h

theorem run_accounted (h : exec step (initial timeout) es = some t) :
    t.Accounted :=
  (always_of_step (fun _ _ _ => step_accounted) initial_accounted).exec h

theorem step_persistTimeout (hs : t.step e = some t') : t'.persistTimeout = t.persistTimeout := by
  have hdeliver (u : Transmitter) :
      u.maybeDeliverPendingMessages.persistTimeout = u.persistTimeout :=
    maybeDeliver_induction (I := fun v => v.persistTimeout = u.persistTimeout) rfl
      fun batch rest _ _ _ _ => by unfold handOver; split <;> rfl
  cases step_cases hs with
  | post | idle | commitMigration => exact hdeliver _
  | _ => rfl

theorem run_persistTimeout (h : exec step (initial timeout) es = some t) :
    t.persistTimeout = timeout :=
  (always_of_step (I := fun u => u.persistTimeout = timeout)
    (fun _ _ _ hu hs => (step_persistTimeout hs).trans hu) rfl).exec h

theorem Accounted.occurrences (h : t.Accounted) (hp : t.persistTimeout ≠ 0)
    (hi : index < t.posted.length) : t.occurrences index = 1 := by
  have hcount : (t.places.map PendingMessage.asPosted).countP (·.index == index) = 1 := by
    rw [h.places.countP_eq]
    have : t.posted.countP (·.index == index) =
        (t.posted.map PendingMessage.index).countP (· == index) := by
      rw [countP_map]; rfl
    rw [this, h.numbered]
    exact count_eq_one_of_mem nodup_range (mem_range.mpr hi)
  rw [countP_map] at hcount
  simpa [Transmitter.places, h.emitted hp, countP_append, countP_flatMap,
    comp_def, Transmitter.occurrences, Nat.add_assoc] using hcount

/-- Whatever happens in between, a posted message is in exactly one place and
still the message that was posted, and all batches came off the front of the
queue within the size limit. -/
theorem messages_conserved (hp : timeout ≠ 0)
    (h : exec step (initial timeout) es = some t) :
    (∀ index < t.posted.length, t.occurrences index = 1) ∧
      (∀ m ∈ t.places, m.asPosted ∈ t.posted) ∧ ∀ o ∈ t.handedOver, o.Sound := by
  have hacc := run_accounted h
  refine ⟨fun index hi => hacc.occurrences (run_persistTimeout h ▸ hp) hi, ?_, hacc.sound⟩
  intro m hm
  exact hacc.places.subset (mem_map_of_mem hm)

/-- A batch is cut off, its message sent again after the reconnect, and
acknowledged together with one that was posted in between. -/
def reconnect : List Event :=
  [.setMessageSink true, .postMessageFromScript 1 "a" none, .interrupt,
    .postMessageFromDebugger 1 "b", .batchFailed 0, .resume 0, .idle, .batchSucceeded 0,
    .postMessageFromScript 2 "c" none]

theorem messages_conserved_reconnect : ∃ t, exec step (initial 5) reconnect = some t ∧
    t.posted.length = 3 ∧ (∀ index < t.posted.length, t.occurrences index = 1) ∧
      (∀ m ∈ t.places, m.asPosted ∈ t.posted) ∧ ∀ o ∈ t.handedOver, o.Sound := by
  have hrun : exec step (initial 5) reconnect = some _ := rfl
  exact ⟨_, hrun, by decide, messages_conserved (by decide) hrun⟩

/-- Without persistence no call is waited for: what was posted has left in that order, up to
what is still queued. -/
structure Volatile (t : Transmitter) : Prop where
  timeout : t.persistTimeout = 0
  idle : t.inFlight = []
  order : t.emitted ++ t.pendingMessages = t.posted

theorem maybeDeliver_volatile (h : t.Volatile) : t.maybeDeliverPendingMessages.Volatile := by
  refine maybeDeliver_induction h fun batch rest _ happ _ _ => ?_
  rw [handOver, if_pos h.timeout]
  exact { h with order := by simp [emitBatch, happ, h.order] }

theorem step_volatile (h : t.Volatile) (hs : t.step e = some t') : t'.Volatile := by
  cases step_cases hs with
  | threw | uncommitted => exact h
  | post =>
    refine maybeDeliver_volatile { h with order := ?_ }
    rw [offer, ← append_assoc, h.order]
  | succeeded hd | failed hd => simp [h.idle] at hd
  | interrupted hp | resumed hp => exact absurd h.timeout hp
  | idle | commitMigration => exact maybeDeliver_volatile { h with }
  | notified | beginMigration | setMessageSink | setNiceMessageSink => exact { h with }

/-- Whatever happens to the sinks and in migrations, messages leave once each and in order. -/
theorem volatile_inOrder (es : List Event) : Always step Volatile (initial 0) es :=
  always_of_step (fun _ _ _ => step_volatile) ⟨rfl, rfl, rfl⟩

end FridaCore.Session.Transmitter
