import FridaCore.Session.Conservation

/-!
# Serial numbers of the messages held

Serials are given out in the order of posting, but `deliver_batch` starts over
at 1 when the last batch in flight succeeds, whether or not messages are still
queued. As long as that only happens with an empty queue, and the counter does
not overflow, the serial of a held message is its posting number plus an offset
common to all of them (`Aligned`): then serials are distinct and the queue is
in order. `queued_restart` is what goes wrong otherwise.
-/

namespace FridaCore.Session.Transmitter

open List Function

variable {t t' : Transmitter}

def held (t : Transmitter) : List PendingMessage :=
  t.pendingMessages ++ t.inFlight.flatMap Delivery.messages

/-- No two held messages share a serial, and the queue is in the order of the
serials and in the order of posting. -/
structure InOrder (t : Transmitter) : Prop where
  distinct : (t.held.map PendingMessage.serial).Nodup
  bySerial : t.pendingMessages.Pairwise fun a b => a.serial < b.serial
  byPosting : t.pendingMessages.Pairwise fun a b => a.index < b.index

/-- `next_serial++` stays within `int`, and `next_serial = 1` is only reached
with an empty queue. -/
def KeepsSerials (t : Transmitter) : Event → Prop
  | .postMessageFromScript .. | .postMessageFromDebugger .. => t.nextSerial < 2 ^ 31 - 1
  | .batchSucceeded _ => t.pendingDeliveries = 1 → t.pendingMessages = []
  | _ => True

instance (t : Transmitter) : (e : Event) → Decidable (t.KeepsSerials e)
  | .postMessageFromScript .. | .postMessageFromDebugger .. =>
    inferInstanceAs (Decidable (t.nextSerial < 2 ^ 31 - 1))
  | .batchSucceeded _ =>
    inferInstanceAs (Decidable (t.pendingDeliveries = 1 → t.pendingMessages = []))
  | .batchFailed _ | .interrupt | .resume _ | .idle | .notifyRxBatchId _ | .beginMigration
  | .commitMigration | .setMessageSink _ | .setNiceMessageSink _ => .isTrue trivial

structure Aligned (t : Transmitter) : Prop where
  accounted : t.Accounted
  offset : ∀ m ∈ t.held, m.serial - m.index = t.nextSerial - t.posted.length
  positive : ∀ m ∈ t.held, 1 ≤ m.serial
  nextPositive : 1 ≤ t.nextSerial
  nextBound : t.nextSerial ≤ 2 ^ 31 - 1
  queue : t.pendingMessages.Pairwise fun a b => a.index < b.index

theorem held_sublist_places (t : Transmitter) : t.held.Sublist t.places := by
  simp only [places, append_assoc]
  rw [← append_assoc]
  exact sublist_append_left _ _

theorem Accounted.index_lt (h : t.Accounted) (hm : m ∈ t.held) : m.index < t.posted.length := by
  have hp : m.asPosted ∈ t.posted :=
    h.places.subset (mem_map_of_mem ((held_sublist_places t).subset hm))
  have hi : m.index ∈ t.posted.map PendingMessage.index := mem_map.mpr ⟨_, hp, rfl⟩
  rw [h.numbered] at hi
  exact mem_range.mp hi

theorem Accounted.index_nodup (h : t.Accounted) : (t.held.map PendingMessage.index).Nodup := by
  have hperm := h.places.map PendingMessage.index
  rw [h.numbered, map_map] at hperm
  have hall : (t.places.map PendingMessage.index).Nodup := hperm.nodup_iff.mpr nodup_range
  exact hall.sublist ((held_sublist_places t).map _)

theorem Aligned.serial_lt_next (h : t.Aligned) (hm : m ∈ t.held) : m.serial < t.nextSerial := by
  have := h.offset m hm
  have := h.accounted.index_lt hm
  omega

theorem Aligned.serial_lt_iff (h : t.Aligned) (ha : a ∈ t.held) (hb : b ∈ t.held) :
    a.serial < b.serial ↔ a.index < b.index := by
  have := h.offset a ha
  have := h.offset b hb
  omega

theorem mem_held_of_pending (hm : m ∈ t.pendingMessages) : m ∈ t.held :=
  mem_append_left _ hm

theorem mem_held_of_inFlight (hd : d ∈ t.inFlight) (hm : m ∈ d.messages) : m ∈ t.held :=
  mem_append_right _ (mem_flatMap.mpr ⟨d, hd, hm⟩)

theorem Aligned.inOrder (h : t.Aligned) : t.InOrder where
  distinct := by
    have hserial : t.held.map PendingMessage.serial =
        (t.held.map PendingMessage.index).map
          fun n : Nat => (n : Int) + (t.nextSerial - t.posted.length) := by
      rw [map_map]
      refine map_congr_left fun m hm => ?_
      have := h.offset m hm
      simp only [comp_apply]
      omega
    rw [hserial]
    refine h.accounted.index_nodup.map fun a b hab => ?_
    omega
  bySerial := by
    refine h.queue.imp_of_mem fun ha hb hlt => ?_
    exact (h.serial_lt_iff (mem_held_of_pending ha) (mem_held_of_pending hb)).mpr hlt
  byPosting := h.queue

theorem wrapInt_of_small (hl : -2 ^ 31 < n) (hu : n < 2 ^ 31) : wrapInt n = n := by
  unfold wrapInt
  rw [Int.bmod_eq_of_le] <;> omega

/-- On serials that cannot overflow, the comparison by difference is the usual one. -/
theorem sortBySerial_sorted (hl : ∀ m ∈ l, 1 ≤ m.serial ∧ m.serial < 2 ^ 31) :
    (sortBySerial l).Pairwise fun a b => a.serial ≤ b.serial := by
  let r (a b : PendingMessage) : Prop := a.serial ≤ b.serial
  have hagree : sortBySerial l = l.insertionSort r := by
    have := map_insertionSort (r := fun a b => wrapInt (a.serial - b.serial) ≤ 0) (s := r) id l
      (by
        intro a ha b hb
        obtain ⟨ha1, ha2⟩ := hl a ha
        obtain ⟨hb1, hb2⟩ := hl b hb
        rw [wrapInt_of_small (by omega) (by omega)]
        show _ ↔ a.serial ≤ b.serial
        omega)
    simpa [sortBySerial] using this
  rw [hagree]
  exact pairwise_insertionSort r l

/-- A step that only rearranges the held messages, or drops some, keeps them aligned. -/
theorem Aligned.of_held (h : t.Aligned) (hacc : t'.Accounted)
    (hheld : ∀ m ∈ t'.held, ∃ m' ∈ t.held, m'.serial = m.serial ∧ m'.index = m.index)
    (hnext : t'.nextSerial = t.nextSerial) (hposted : t'.posted = t.posted)
    (hqueue : t'.pendingMessages.Pairwise fun a b => a.index < b.index) : t'.Aligned where
  accounted := hacc
  offset m hm := by
    obtain ⟨m', hm', hs, hi⟩ := hheld m hm
    rw [hnext, hposted, ← hs, ← hi]
    exact h.offset m' hm'
  positive m hm := by
    obtain ⟨m', hm', hs, -⟩ := hheld m hm
    exact hs ▸ h.positive m' hm'
  nextPositive := hnext ▸ h.nextPositive
  nextBound := hnext ▸ h.nextBound
  queue := hqueue

theorem handOver_held (happ : batch ++ rest = t.pendingMessages)
    (hm : m ∈ (t.handOver batch rest).held) :
    ∃ m' ∈ t.held, m'.serial = m.serial ∧ m'.index = m.index := by
  have hb : ∀ m ∈ batch, m ∈ t.held := fun m hm =>
    mem_held_of_pending (happ ▸ mem_append_left _ hm)
  have hr : ∀ m ∈ rest, m ∈ t.held := fun m hm =>
    mem_held_of_pending (happ ▸ mem_append_right _ hm)
  unfold handOver at hm
  split at hm
  · rcases mem_append.mp hm with hm | hm
    · exact ⟨m, hr m hm, rfl, rfl⟩
    · exact ⟨m, mem_append_right _ hm, rfl, rfl⟩
  · simp only [held, deliverBatch, flatMap_append, flatMap_singleton,
      mem_append, mem_map] at hm
    rcases hm with hm | hm | ⟨m', hm', rfl⟩
    · exact ⟨m, hr m hm, rfl, rfl⟩
    · exact ⟨m, mem_append_right _ hm, rfl, rfl⟩
    · exact ⟨m', hb m' hm', rfl, rfl⟩

@[simp] theorem handOver_pendingMessages : (t.handOver batch rest).pendingMessages = rest := by
  unfold handOver; split <;> rfl

@[simp] theorem handOver_nextSerial : (t.handOver batch rest).nextSerial = t.nextSerial := by
  unfold handOver; split <;> rfl

@[simp] theorem handOver_posted : (t.handOver batch rest).posted = t.posted := by
  unfold handOver; split <;> rfl

theorem handOver_aligned (h : t.Aligned) (happ : batch ++ rest = t.pendingMessages)
    (hsound : HandOver.Sound ⟨t.pendingMessages, batch⟩) : (t.handOver batch rest).Aligned := by
  have hq := h.queue
  rw [← happ, pairwise_append] at hq
  exact h.of_held (handOver_accounted h.accounted happ hsound) (fun m hm => handOver_held happ hm)
    handOver_nextSerial handOver_posted (by simpa using hq.2.1)

theorem maybeDeliver_aligned (h : t.Aligned) : t.maybeDeliverPendingMessages.Aligned :=
  maybeDeliver_induction h fun _ _ _ happ hsound _ => handOver_aligned h happ hsound

theorem offer_held (hm : m ∈ (t.offer kind scriptId text data).held) :
    m ∈ t.held ∨ m.serial = t.nextSerial ∧ m.index = t.posted.length := by
  simp only [held, offer, mem_append, mem_singleton] at hm
  rcases hm with (hm | rfl) | hm
  · exact .inl (mem_held_of_pending hm)
  · exact .inr ⟨rfl, rfl⟩
  · exact .inl (mem_append_right _ hm)

theorem offer_aligned (h : t.Aligned) (hn : t.nextSerial < 2 ^ 31 - 1) :
    (t.offer kind scriptId text data).Aligned := by
  have hnext := h.nextPositive
  have hwrap : wrapInt (t.nextSerial + 1) = t.nextSerial + 1 :=
    wrapInt_of_small (by omega) (by omega)
  refine ⟨offer_accounted h.accounted, ?_, ?_, ?_, ?_, ?_⟩
  · intro m hm
    simp only [offer, hwrap, length_append, length_singleton]
    rcases offer_held hm with hm | ⟨hs, hi⟩
    · have := h.offset m hm
      omega
    · omega
  · intro m hm
    rcases offer_held hm with hm | ⟨hs, -⟩
    · exact h.positive m hm
    · omega
  · simp only [offer, hwrap]; omega
  · simp only [offer, hwrap]; omega
  · simp only [offer, pairwise_append, h.queue, true_and]
    refine ⟨pairwise_singleton _ _, ?_⟩
    rintro a ha b hb
    rw [mem_singleton.mp hb]
    exact h.accounted.index_lt (mem_held_of_pending ha)

/-- After the last batch succeeded with an empty queue nothing is held any more. -/
theorem batchSucceeded_held_of_last (h : t.Accounted) (hd : t.inFlight[i]? = some d)
    (hlast : t.pendingDeliveries - 1 = 0)
    (hk : t.pendingDeliveries = 1 → t.pendingMessages = []) : (t.batchSucceeded i d).held = [] := by
  have hone := (pred_eq_zero_iff h.counted hd).mp hlast
  have hfly : t.inFlight.eraseIdx i = [] := by
    apply List.length_eq_zero_iff.mp
    rw [length_eraseIdx_of_some hd, h.counted, hlast]
  simp [held, batchSucceeded, hk hone, hfly]

theorem batchSucceeded_held_subset (hd : t.inFlight[i]? = some d) :
    (t.batchSucceeded i d).held ⊆ t.held := by
  intro m hm
  rcases mem_append.mp hm with hm | hm
  · exact mem_held_of_pending hm
  · exact mem_append_right _ ((flatMap_eraseIdx_perm hd).subset (mem_append_right _ hm))

theorem batchSucceeded_aligned (h : t.Aligned) (hd : t.inFlight[i]? = some d)
    (hk : t.pendingDeliveries = 1 → t.pendingMessages = []) : (t.batchSucceeded i d).Aligned := by
  have hacc := batchSucceeded_accounted h.accounted hd
  by_cases hlast : t.pendingDeliveries - 1 = 0
  · -- the counter starts over: nothing may be held any more
    have hnone := batchSucceeded_held_of_last h.accounted hd hlast hk
    have hnext : (t.batchSucceeded i d).nextSerial = 1 := by simp [batchSucceeded, hlast]
    refine ⟨hacc, by simp [hnone], by simp [hnone], by omega, by omega, ?_⟩
    rw [(append_eq_nil_iff.mp hnone).1]
    exact .nil
  · exact h.of_held hacc (fun m hm => ⟨m, batchSucceeded_held_subset hd hm, rfl, rfl⟩)
      (by simp [batchSucceeded, hlast]) rfl h.queue

theorem batchFailed_held (hd : t.inFlight[i]? = some d) :
    (t.batchFailed i d).held.Perm t.held := by
  have hfly := flatMap_eraseIdx_perm (f := Delivery.messages) hd
  have hsort := sortBySerial_perm (t.pendingMessages ++ d.messages)
  rw [perm_iff_count] at hfly hsort ⊢
  intro m
  have h1 := hfly m
  have h2 := hsort m
  simp only [held, batchFailed, count_append] at h1 h2 ⊢
  omega

theorem batchFailed_aligned (h : t.Aligned) (hd : t.inFlight[i]? = some d) :
    (t.batchFailed i d).Aligned := by
  have hacc := batchFailed_accounted h.accounted hd
  have hheld : ∀ m ∈ t.pendingMessages ++ d.messages, m ∈ t.held := by
    intro m hm
    rcases mem_append.mp hm with hm | hm
    · exact mem_held_of_pending hm
    · exact mem_held_of_inFlight (mem_of_getElem? hd) hm
  have hmem : ∀ m ∈ sortBySerial (t.pendingMessages ++ d.messages), m ∈ t.held := fun m hm =>
    hheld m ((sortBySerial_perm _).subset hm)
  have hsorted := sortBySerial_sorted (l := t.pendingMessages ++ d.messages) (by
    intro m hm
    have := h.positive m (hheld m hm)
    have := h.serial_lt_next (hheld m hm)
    have := h.nextBound
    omega)
  have hnodup : (sortBySerial (t.pendingMessages ++ d.messages)).Pairwise
      fun a b => a.index ≠ b.index := by
    have := (hacc.index_nodup.sublist
      ((sublist_append_left (t.batchFailed i d).pendingMessages _).map _))
    exact pairwise_map.mp this
  refine h.of_held hacc ?_ rfl rfl ?_
  · intro m hm
    exact ⟨m, (batchFailed_held hd).subset hm, rfl, rfl⟩
  · refine (hsorted.and hnodup).imp_of_mem fun {a b} ha hb hab => ?_
    have := h.offset a (hmem a ha)
    have := h.offset b (hmem b hb)
    omega

theorem resumed_pendingMessages_sublist :
    (t.resumed rxBatchId).pendingMessages.Sublist t.pendingMessages := by
  by_cases hrx : rxBatchId = 0
  · simp [resumed, hrx]
  · simpa [resumed, hrx] using dropWhile_sublist _

theorem resumed_held_subset : (t.resumed rxBatchId).held ⊆ t.held := by
  intro m hm
  rcases mem_append.mp hm with hm | hm
  · exact mem_held_of_pending (resumed_pendingMessages_sublist.subset hm)
  · exact mem_append_right _ hm

theorem resumed_aligned (h : t.Aligned) : (t.resumed rxBatchId).Aligned :=
  h.of_held (resumed_accounted h.accounted) (fun m hm => ⟨m, resumed_held_subset hm, rfl, rfl⟩)
    rfl rfl (h.queue.sublist resumed_pendingMessages_sublist)

theorem KeepsSerials.post (hk : t.KeepsSerials e) (he : e.posts = true) :
    t.nextSerial < 2 ^ 31 - 1 := by
  cases e <;> first | exact hk | simp [Event.posts] at he

theorem step_aligned (h : t.Aligned) (hk : t.KeepsSerials e) (hs : t.step e = some t') :
    t'.Aligned := by
  have hacc := step_accounted h.accounted hs
  cases step_cases hs with
  | threw | uncommitted => exact h
  | post kind scriptId text data he =>
    exact maybeDeliver_aligned (offer_aligned h (hk.post he))
  | succeeded hd => exact batchSucceeded_aligned h hd hk
  | failed hd => exact batchFailed_aligned h hd
  | resumed => exact resumed_aligned h
  | interrupted | notified | beginMigration | setMessageSink | setNiceMessageSink =>
    exact { h with accounted := hacc }
  | idle | commitMigration =>
    exact maybeDeliver_aligned { h with accounted := { h.accounted with } }

theorem initial_aligned : (initial timeout).Aligned :=
  ⟨initial_accounted, by simp [held, initial], by simp [held, initial], by simp [initial],
    by simp [initial], by simp [initial]⟩

/-- Serials stay distinct and in order through every run that neither starts
over with messages queued nor overflows. -/
theorem serials_inOrder (h : Machine.EachStep step KeepsSerials (initial timeout) es) :
    Machine.Always step InOrder (initial timeout) es :=
  (Machine.always_of_eachStep (fun _ _ _ => step_aligned) initial_aligned h).mono
    fun _ ht => ht.inOrder

theorem reconnect_keepsSerials : Machine.EachStep step KeepsSerials (initial 5) reconnect := by
  decide

/-- The queue is empty at the only restart, so the condition holds throughout. -/
theorem serials_inOrder_reconnect :
    Machine.EachStep step KeepsSerials (initial 5) reconnect ∧
      Machine.Always step InOrder (initial 5) reconnect :=
  ⟨reconnect_keepsSerials, serials_inOrder reconnect_keepsSerials⟩

/-- The first of two batches fails and the second succeeds: the counter starts
over while the first message is queued, and the next one gets its serial. -/
theorem queued_restart : ∃ t, Machine.exec step (initial 5)
    [.setMessageSink true, .postMessageFromScript 1 "a" none, .postMessageFromScript 1 "b" none,
      .batchFailed 0, .batchSucceeded 0, .postMessageFromScript 1 "c" none] = some t ∧
    ¬ t.InOrder := by
  refine ⟨_, rfl, fun h => ?_⟩
  have := h.distinct
  revert this
  decide

end FridaCore.Session.Transmitter
