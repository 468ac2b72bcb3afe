import FridaCore.Session.Link

/-!
# Exactly-once delivery on reliable runs

The invariant relates three things: what the peer has processed, the watermark
it took last, and the messages the transmitter still holds. Among the messages
held, the processed ones are those the watermark covers (`watermark`), or none
if serials have started over since (`stale`), and everything unprocessed was
posted later than everything processed (`later`).
-/

namespace FridaCore.Session.Link

open List Option

open Transmitter

variable {l l' : Link}

def done (l : Link) : List Nat := l.processed.map PendingMessage.index

structure Inv (l : Link) : Prop where
  persistent : l.tx.persistTimeout ≠ 0
  aligned : l.tx.Aligned
  timer : l.tx.state = .interrupted ↔ l.tx.expiryTimer = true
  increasing : l.done.Pairwise (· < ·)
  posted : ∀ k ∈ l.done, k < l.tx.posted.length
  later : ∀ m ∈ l.tx.held, m.index ∉ l.done → ∀ k ∈ l.done, k < m.index
  fly : ∀ d ∈ l.tx.inFlight, ∀ m ∈ d.messages, (m.index ∈ l.done ↔ d.call = .processed)
  attempted : ∀ d ∈ l.tx.inFlight, ∀ m ∈ d.messages, 0 < m.deliveryAttempts
  batches : ∀ d ∈ l.tx.inFlight,
    d.messages ≠ [] ∧ d.messages.Pairwise fun a b => a.index < b.index
  queued : ∀ m ∈ l.tx.pendingMessages, m.index ∈ l.done → 0 < m.deliveryAttempts
  fresh : l.tx.state = .live → ∀ m ∈ l.tx.pendingMessages, m.index ∉ l.done
  watermark : l.restarted = false →
    ∀ m ∈ l.tx.held, (m.index ∈ l.done ↔ toUint m.serial ≤ l.lastRxBatchId)
  watermarkBound : l.restarted = false → (l.lastRxBatchId : Int) < l.tx.nextSerial
  stale : l.restarted = true → ∀ m ∈ l.tx.held, m.index ∉ l.done
  discarded : ∀ m ∈ l.tx.discarded, m.index ∈ l.done

/-- What the invariant says of one batch in flight. -/
def Flies (l : Link) (d : Delivery) : Prop :=
  (∀ m ∈ d.messages, (m.index ∈ l.done ↔ d.call = .processed)) ∧
    (∀ m ∈ d.messages, 0 < m.deliveryAttempts) ∧
    d.messages ≠ [] ∧ d.messages.Pairwise fun a b => a.index < b.index

theorem Inv.exactlyOnce (h : l.Inv) : l.ExactlyOnce where
  discarded := h.discarded
  once := h.increasing.imp Nat.ne_of_lt
  inOrder := h.increasing.imp Nat.le_of_lt

theorem toUint_of_held {t : Transmitter} (h : t.Aligned) (hm : m ∈ t.held) :
    (toUint m.serial : Int) = m.serial := by
  have h1 := h.positive m hm
  have h2 := h.serial_lt_next hm
  have h3 := h.nextBound
  unfold toUint
  omega

theorem toUint_lt_iff {t : Transmitter} (h : t.Aligned) (ha : a ∈ t.held) (hb : b ∈ t.held) :
    toUint a.serial < toUint b.serial ↔ a.index < b.index := by
  have := toUint_of_held h ha
  have := toUint_of_held h hb
  have := h.serial_lt_iff ha hb
  omega

theorem index_ne_of_elsewhere {t : Transmitter} (h : t.Accounted) (hd : t.inFlight[i]? = some d)
    (hm : m ∈ d.messages)
    (hm' : m' ∈ t.pendingMessages ++ (t.inFlight.eraseIdx i).flatMap Delivery.messages) :
    m.index ≠ m'.index := by
  have hperm : t.held.Perm (d.messages ++
      (t.pendingMessages ++ (t.inFlight.eraseIdx i).flatMap Delivery.messages)) := by
    have hfly := flatMap_eraseIdx_perm (f := Delivery.messages) hd
    rw [perm_iff_count] at hfly ⊢
    intro x
    have := hfly x
    simp only [held, count_append] at this ⊢
    omega
  have hnodup := (hperm.map PendingMessage.index).nodup_iff.mp h.index_nodup
  rw [map_append, nodup_append] at hnodup
  exact hnodup.2.2 _ (mem_map_of_mem hm) _ (mem_map_of_mem hm')

theorem mem_held_cases {t : Transmitter} (hd : t.inFlight[i]? = some d) (hm : m ∈ t.held) :
    m ∈ d.messages ∨
      m ∈ t.pendingMessages ++ (t.inFlight.eraseIdx i).flatMap Delivery.messages := by
  rcases mem_append.mp hm with hm | hm
  · exact .inr (mem_append_left _ hm)
  · rcases mem_append.mp ((flatMap_eraseIdx_perm hd).symm.subset hm) with hm | hm
    · exact .inl hm
    · exact .inr (mem_append_right _ hm)

theorem serial_le_batchId {t : Transmitter} (h : t.Aligned) (hd : d ∈ t.inFlight)
    (hsorted : d.messages.Pairwise fun a b => a.index < b.index) (hm : m ∈ d.messages) :
    toUint m.serial ≤ d.batchId := by
  obtain ⟨front, last, hsplit⟩ :=
    (eq_nil_or_concat' d.messages).resolve_left (ne_nil_of_mem hm)
  have hl : last ∈ d.messages := by simp [hsplit]
  have hbatch : d.batchId = toUint last.serial := by simp [Delivery.batchId, hsplit]
  have hle : m.index ≤ last.index := by
    rw [hsplit, pairwise_append] at hsorted
    rw [hsplit] at hm
    rcases mem_append.mp hm with hm | hm
    · exact (hsorted.2.2 m hm last (by simp)).le
    · rw [mem_singleton.mp hm]
  rw [hbatch, ← not_lt, toUint_lt_iff h (mem_held_of_inFlight hd hl) (mem_held_of_inFlight hd hm)]
  exact hle.not_gt

/-- A step of the transmitter that leaves the peer alone and holds on to no
message it did not hold before keeps the invariant if batches and queue do. -/
theorem Inv.of_tx (h : l.Inv) (hpt : t.persistTimeout = l.tx.persistTimeout) (hal : t.Aligned)
    (hheld : ∀ m ∈ t.held, ∃ m' ∈ l.tx.held, m'.serial = m.serial ∧ m'.index = m.index)
    (hnext : t.nextSerial = l.tx.nextSerial) (hposted : t.posted = l.tx.posted)
    (htimer : t.state = .interrupted ↔ t.expiryTimer = true)
    (hfly : ∀ d ∈ t.inFlight, l.Flies d)
    (hqueued : ∀ m ∈ t.pendingMessages, m.index ∈ l.done → 0 < m.deliveryAttempts)
    (hfresh : t.state = .live → ∀ m ∈ t.pendingMessages, m.index ∉ l.done)
    (hdisc : ∀ m ∈ t.discarded, m.index ∈ l.done) : Inv { l with tx := t } where
  persistent := hpt ▸ h.persistent
  aligned := hal
  timer := htimer
  increasing := h.increasing
  posted := hposted ▸ h.posted
  later m hm hn := by
    obtain ⟨m', hm', -, hi⟩ := hheld m hm
    exact hi ▸ h.later m' hm' (hi ▸ hn)
  fly d hd := (hfly d hd).1
  attempted d hd := (hfly d hd).2.1
  batches d hd := (hfly d hd).2.2
  queued := hqueued
  fresh := hfresh
  watermark hr m hm := by
    obtain ⟨m', hm', hs, hi⟩ := hheld m hm
    exact hi ▸ hs ▸ h.watermark hr m' hm'
  watermarkBound hr := hnext ▸ h.watermarkBound hr
  stale hr m hm := by
    obtain ⟨m', hm', -, hi⟩ := hheld m hm
    exact hi ▸ h.stale hr m' hm'
  discarded := hdisc

theorem Inv.flying (h : l.Inv) (hd : d ∈ l.tx.inFlight) : l.Flies d :=
  ⟨h.fly d hd, h.attempted d hd, h.batches d hd⟩

/-- While the transmitter is live nothing queued has been processed, so what a
trigger hands over has not been either. -/
theorem maybeDeliver_inv (h : l.Inv) :
    Inv { l with tx := l.tx.maybeDeliverPendingMessages } := by
  refine maybeDeliver_induction (I := fun t => Inv { l with tx := t }) h
    fun batch rest hready happ hsound _ => ?_
  have hb : ∀ m ∈ batch, m ∈ l.tx.pendingMessages := fun m hm =>
    happ ▸ List.mem_append_left _ hm
  have hr : ∀ m ∈ rest, m ∈ l.tx.pendingMessages := fun m hm =>
    happ ▸ List.mem_append_right _ hm
  have hq := h.aligned.queue
  rw [← happ, List.pairwise_append] at hq
  have hover : l.tx.handOver batch rest = deliverBatch { l.tx with
      pendingMessages := rest
      handedOver := l.tx.handedOver ++ [⟨l.tx.pendingMessages, batch⟩] } batch := by
    simp [handOver, h.persistent]
  refine h.of_tx (by rw [hover]; rfl) (handOver_aligned h.aligned happ hsound)
    (fun m hm => handOver_held happ hm)
    handOver_nextSerial handOver_posted ?_ ?_ ?_ ?_ ?_ <;> rw [hover]
  · exact h.timer
  · intro d hd
    rcases List.mem_append.mp hd with hd | hd
    · exact h.flying hd
    · obtain rfl := List.mem_singleton.mp hd
      refine ⟨?_, by simp [PendingMessage.attempt], by simpa using hsound.nonempty, ?_⟩
      · simp only [List.mem_map, forall_exists_index, and_imp, forall_apply_eq_imp_iff₂,
          PendingMessage.index_attempt, reduceCtorEq, iff_false]
        exact fun m hm => h.fresh hready.1 m (hb m hm)
      · exact List.pairwise_map.mpr hq.1
  · exact fun m hm => h.queued m (hr m hm)
  · exact fun hl m hm => h.fresh hl m (hr m hm)
  · exact h.discarded

theorem offer_inv (h : l.Inv) (hn : l.tx.nextSerial < 2 ^ 31 - 1) :
    Inv { l with tx := l.tx.offer kind scriptId text data } := by
  have hal : (l.tx.offer kind scriptId text data).Aligned := offer_aligned h.aligned hn
  have hnew : l.tx.posted.length ∉ l.done := fun hm => (h.posted _ hm).false
  have hpos := h.aligned.nextPositive
  have hwrap : wrapInt (l.tx.nextSerial + 1) = l.tx.nextSerial + 1 :=
    wrapInt_of_small (by omega) (by omega)
  have hqueue : ∀ m ∈ (l.tx.offer kind scriptId text data).pendingMessages,
      m ∈ l.tx.pendingMessages ∨ m.index = l.tx.posted.length := by
    intro m hm
    rcases mem_append.mp hm with hm | hm
    · exact .inl hm
    · exact .inr (by rw [mem_singleton.mp hm])
  refine { h with
    aligned := hal, posted := ?_, later := ?_, queued := ?_, fresh := ?_
    watermark := ?_, watermarkBound := ?_, stale := ?_ }
  · intro k hk
    have := h.posted k hk
    simp only [offer, length_append, length_singleton]
    omega
  · intro m hm hnd k hk
    rcases offer_held hm with hm | ⟨-, hi⟩
    · exact h.later m hm hnd k hk
    · exact hi ▸ h.posted k hk
  · intro m hm hdone
    rcases hqueue m hm with hm | hi
    · exact h.queued m hm hdone
    · exact absurd (hi ▸ hdone) hnew
  · intro hl m hm
    rcases hqueue m hm with hm | hi
    · exact h.fresh hl m hm
    · exact hi ▸ hnew
  · intro hr m hm
    rcases offer_held hm with hm' | ⟨hs, hi⟩
    · exact h.watermark hr m hm'
    · have hbound : (l.lastRxBatchId : Int) < l.tx.nextSerial := h.watermarkBound hr
      have := toUint_of_held hal hm
      refine iff_of_false (hi ▸ hnew) ?_
      show ¬ toUint m.serial ≤ l.lastRxBatchId
      omega
  · intro hr
    have hbound : (l.lastRxBatchId : Int) < l.tx.nextSerial := h.watermarkBound hr
    simp only [offer, hwrap]
    omega
  · intro hr m hm
    rcases offer_held hm with hm | ⟨-, hi⟩
    · exact h.stale hr m hm
    · exact hi ▸ hnew

theorem flatMap_set_of_eq {xs : List α} (h : xs[i]? = some a) (hf : f b = f a) :
    (xs.set i b).flatMap f = xs.flatMap f := by
  obtain ⟨hi, rfl⟩ := List.getElem?_eq_some_iff.mp h
  have hset : (xs.map f).set i (f xs[i]) = xs.map f := by
    rw [← map_set, set_getElem_self]
  rw [flatMap_def, flatMap_def, map_set, hf, hset]

theorem setCall_held (hd : l.tx.inFlight[i]? = some d) :
    (l.setCall i d call).tx.held = l.tx.held :=
  congrArg (l.tx.pendingMessages ++ ·) (flatMap_set_of_eq hd rfl)

theorem setCall_aligned (h : l.tx.Aligned) (hd : l.tx.inFlight[i]? = some d) :
    (l.setCall i d call).tx.Aligned := by
  have hheld : (l.setCall i d call).tx.held = l.tx.held := setCall_held hd
  have hacc := h.accounted
  refine h.of_held ⟨?_, hacc.numbered, hacc.emitted, ?_, hacc.sound⟩
    (fun m hm => ⟨m, hheld ▸ hm, rfl, rfl⟩) rfl rfl h.queue
  · unfold places
    rw [← held, hheld]
    exact hacc.places
  · simpa [setCall] using hacc.counted

theorem mem_setCall (hd : d' ∈ (l.setCall i d call).tx.inFlight) :
    d' = { d with call } ∨ d' ∈ l.tx.inFlight.eraseIdx i := by
  obtain ⟨j, hj⟩ := mem_iff_getElem?.mp hd
  simp only [setCall, getElem?_set] at hj
  split at hj
  · split at hj
    · exact .inl (some.inj hj).symm
    · cases hj
  · rename_i hij
    exact .inr (mem_eraseIdx_iff_getElem?.mpr ⟨j, fun h => hij h.symm, hj⟩)

theorem lose_inv (h : l.Inv) (hd : l.tx.inFlight[i]? = some d) (hcall : d.call = .inTransit) :
    (l.setCall i d .lost).Inv := by
  have hdm := mem_of_getElem? hd
  refine h.of_tx rfl (setCall_aligned h.aligned hd) ?_ rfl rfl h.timer ?_ h.queued h.fresh h.discarded
  · intro m hm
    have hheld : (l.setCall i d .lost).tx.held = l.tx.held := setCall_held hd
    exact ⟨m, hheld ▸ hm, rfl, rfl⟩
  · intro d' hd'
    rcases mem_setCall hd' with rfl | hd'
    · have hf := h.flying hdm
      refine ⟨fun m hm => ?_, hf.2⟩
      simpa [hcall] using hf.1 m hm
    · exact h.flying (mem_of_mem_eraseIdx hd')

/-- A call that arrives in its turn carries the lowest serials not processed yet. -/
theorem deliver_inv (h : l.Inv) (hrel : l.Reliable (.deliver i)) (hd : l.tx.inFlight[i]? = some d)
    (hcall : d.call = .inTransit) :
    ((l.setCall i d .processed).postMessages d.messages d.batchId).Inv := by
  obtain ⟨hpend, hother⟩ := hrel d hd
  have hdm := mem_of_getElem? hd
  obtain ⟨hfly, -, hne, hsorted⟩ := h.flying hdm
  have hnew : ∀ m ∈ d.messages, m.index ∉ l.done := fun m hm hin => by
    simpa [hcall] using (hfly m hm).mp hin
  have hmine : ∀ m ∈ d.messages, m ∈ l.tx.held := fun m hm => mem_held_of_inFlight hdm hm
  let after := (l.setCall i d .processed).postMessages d.messages d.batchId
  have hdone : after.done = l.done ++ d.messages.map PendingMessage.index := by
    simp [after, done, postMessages, setCall]
  have hheld : after.tx.held = l.tx.held := setCall_held hd
  have hal : after.tx.Aligned := setCall_aligned h.aligned hd
  -- messages outside the batch that are still unprocessed have higher serials
  have habove : ∀ m ∈ l.tx.held, m.index ∉ after.done → d.batchId < toUint m.serial := by
    intro m hm hnd
    rw [hdone, mem_append, not_or] at hnd
    rcases mem_held_cases hd hm with hin | hin
    · exact absurd (mem_map_of_mem hin) hnd.2
    · rcases mem_append.mp hin with hin | hin
      · exact hpend m hin
      · obtain ⟨d', hd', hm'⟩ := mem_flatMap.mp hin
        refine hother d' hd' (fun hp => hnd.1 ?_) m hm'
        exact ((h.flying (mem_of_mem_eraseIdx hd')).1 m hm').mpr hp
  have hbelow : ∀ m ∈ d.messages, toUint m.serial ≤ d.batchId := fun m hm =>
    serial_le_batchId h.aligned hdm hsorted hm
  have helse : ∀ m ∈ l.tx.pendingMessages ++
      (l.tx.inFlight.eraseIdx i).flatMap Delivery.messages, m.index ∈ after.done →
      m.index ∈ l.done := by
    intro m hm hin
    rw [hdone, mem_append] at hin
    rcases hin with hin | hin
    · exact hin
    · obtain ⟨m', hm', hi⟩ := mem_map.mp hin
      exact absurd hi (index_ne_of_elsewhere h.aligned.accounted hd hm' hm)
  have hmono : ∀ k ∈ l.done, k ∈ after.done := fun k hk => hdone ▸ mem_append_left _ hk
  refine ⟨h.persistent, hal, h.timer, ?_, ?_, ?_, ?_, ?_, ?_, ?_, ?_, ?_, ?_, ?_, ?_⟩
  · show after.done.Pairwise (· < ·)
    rw [hdone, pairwise_append]
    refine ⟨h.increasing, pairwise_map.mpr hsorted, ?_⟩
    intro k hk n hn
    obtain ⟨m, hm, rfl⟩ := mem_map.mp hn
    exact h.later m (hmine m hm) (hnew m hm) k hk
  · show ∀ k ∈ after.done, k < l.tx.posted.length
    rw [hdone]
    intro k hk
    rcases mem_append.mp hk with hk | hk
    · exact h.posted k hk
    · obtain ⟨m, hm, rfl⟩ := mem_map.mp hk
      exact h.aligned.accounted.index_lt (hmine m hm)
  · show ∀ m ∈ after.tx.held, m.index ∉ after.done → ∀ k ∈ after.done, k < m.index
    rw [hheld]
    intro m hm hnd k hk
    have hlt := habove m hm hnd
    rw [hdone, mem_append] at hk
    rcases hk with hk | hk
    · exact h.later m hm (fun hin => hnd (hmono _ hin)) k hk
    · obtain ⟨m', hm', rfl⟩ := mem_map.mp hk
      exact (toUint_lt_iff h.aligned (hmine m' hm') hm).mp ((hbelow m' hm').trans_lt hlt)
  · intro d' hd' m hm
    show m.index ∈ after.done ↔ _
    rcases mem_setCall hd' with rfl | hd'
    · simp only [iff_true]
      exact hdone ▸ mem_append_right _ (mem_map_of_mem hm)
    · have hin : m ∈ l.tx.pendingMessages ++
          (l.tx.inFlight.eraseIdx i).flatMap Delivery.messages :=
        mem_append_right _ (mem_flatMap.mpr ⟨d', hd', hm⟩)
      rw [← h.fly d' (mem_of_mem_eraseIdx hd') m hm]
      exact ⟨helse m hin, hmono _⟩
  · intro d' hd' m hm
    rcases mem_setCall hd' with rfl | hd'
    · exact h.attempted d hdm m hm
    · exact h.attempted d' (mem_of_mem_eraseIdx hd') m hm
  · intro d' hd'
    rcases mem_setCall hd' with rfl | hd'
    · exact ⟨hne, hsorted⟩
    · exact h.batches d' (mem_of_mem_eraseIdx hd')
  · intro m hm hin
    exact h.queued m hm (helse m (mem_append_left _ hm) hin)
  · intro hl m hm hin
    exact h.fresh hl m hm (helse m (mem_append_left _ hm) hin)
  · show _ → ∀ m ∈ after.tx.held, (m.index ∈ after.done ↔ toUint m.serial ≤ d.batchId)
    rw [hheld]
    intro _ m hm
    constructor
    · intro hin
      rcases mem_held_cases hd hm with hmd | hme
      · exact hbelow m hmd
      · -- processed before: covered by the old watermark, which the batch exceeds
        have hold := helse m hme hin
        cases hr : l.restarted with
        | true => exact absurd hold (h.stale hr m hm)
        | false =>
          obtain ⟨m', hm'⟩ := exists_mem_of_ne_nil _ hne
          have h1 := (h.watermark hr m hm).mp hold
          have h2 := mt (h.watermark hr m' (hmine m' hm')).mpr (hnew m' hm')
          have h3 := hbelow m' hm'
          omega
    · intro hle
      by_contra hnd
      have := habove m hm hnd
      omega
  · intro _
    show (d.batchId : Int) < l.tx.nextSerial
    obtain ⟨last, hlast⟩ : ∃ last, d.messages.getLast? = some last :=
      ⟨_, getLast?_eq_some_getLast hne⟩
    have hm := mem_of_getLast? hlast
    have hb : d.batchId = toUint last.serial := by simp [Delivery.batchId, hlast]
    have := toUint_of_held h.aligned (hmine last hm)
    have := h.aligned.serial_lt_next (hmine last hm)
    omega
  · intro hr
    cases hr
  · exact fun m hm => hmono _ (h.discarded m hm)

theorem batchSucceeded_inv (h : l.Inv) (hd : l.tx.inFlight[i]? = some d)
    (hk : l.tx.pendingDeliveries = 1 → l.tx.pendingMessages = []) :
    Inv { l with
      tx := l.tx.batchSucceeded i d
      restarted := l.restarted || l.tx.pendingDeliveries - 1 = 0 } := by
  have hal := batchSucceeded_aligned h.aligned hd hk
  have hheld := batchSucceeded_held_subset hd
  have hfly : ∀ d' ∈ (l.tx.batchSucceeded i d).inFlight, d' ∈ l.tx.inFlight := fun d' hd' =>
    mem_of_mem_eraseIdx hd'
  by_cases hlast : l.tx.pendingDeliveries - 1 = 0
  · have hnone : (l.tx.batchSucceeded i d).held = [] :=
      batchSucceeded_held_of_last h.aligned.accounted hd hlast hk
    refine ⟨h.persistent, hal, h.timer, h.increasing, h.posted, ?_,
      fun d' hd' => h.fly d' (hfly d' hd'),
      fun d' hd' => h.attempted d' (hfly d' hd'), fun d' hd' => h.batches d' (hfly d' hd'),
      h.queued, h.fresh, ?_, ?_, ?_, h.discarded⟩
    · exact fun m hm => h.later m (hheld hm)
    · intro hr
      simp [hlast] at hr
    · intro hr
      simp [hlast] at hr
    · intro _ m hm
      simp [hnone] at hm
  · have hsame : (l.restarted || decide (l.tx.pendingDeliveries - 1 = 0)) = l.restarted := by
      simp [hlast]
    rw [hsame]
    exact h.of_tx rfl hal (fun m hm => ⟨m, hheld hm, rfl, rfl⟩) (by simp [batchSucceeded, hlast])
      rfl h.timer (fun d' hd' => h.flying (hfly d' hd')) h.queued h.fresh h.discarded

theorem batchFailed_inv (h : l.Inv) (hd : l.tx.inFlight[i]? = some d)
    (hrel : d.call = .processed → l.tx.state = .interrupted) :
    Inv { l with tx := l.tx.batchFailed i d } := by
  have hdm := mem_of_getElem? hd
  obtain ⟨hfly, hattempts, -⟩ := h.flying hdm
  have hmem : ∀ m ∈ (l.tx.batchFailed i d).pendingMessages,
      m ∈ l.tx.pendingMessages ∨ m ∈ d.messages := fun m hm =>
    mem_append.mp ((sortBySerial_perm _).subset hm)
  refine h.of_tx rfl (batchFailed_aligned h.aligned hd)
    (fun m hm => ⟨m, (batchFailed_held hd).subset hm, rfl, rfl⟩) rfl rfl h.timer
    (fun d' hd' => h.flying (mem_of_mem_eraseIdx hd')) ?_ ?_ h.discarded
  · intro m hm hin
    rcases hmem m hm with hm | hm
    · exact h.queued m hm hin
    · exact hattempts m hm
  · intro hlive m hm hin
    rcases hmem m hm with hm | hm
    · exact h.fresh hlive m hm hin
    · have hint := hrel ((hfly m hm).mp hin)
      have hlive : l.tx.state = .live := hlive
      rw [hint] at hlive
      cases hlive

/-- The watermark covers a front of the queue: once a message is beyond it, or
was never tried, so are all that follow. -/
theorem dropWhile_unprocessed (h : l.Inv) (hr : l.restarted = false)
    (hm : m ∈ l.tx.pendingMessages.dropWhile (received l.lastRxBatchId)) : m.index ∉ l.done := by
  cases hdrop : l.tx.pendingMessages.dropWhile (received l.lastRxBatchId) with
  | nil => simp [hdrop] at hm
  | cons first rest =>
    rw [hdrop] at hm
    have hsub : (first :: rest).Sublist l.tx.pendingMessages :=
      hdrop ▸ dropWhile_sublist _
    have hfirst : first ∈ l.tx.pendingMessages := hsub.subset (by simp)
    have hmq : m ∈ l.tx.pendingMessages := hsub.subset hm
    have hnot : received l.lastRxBatchId first = false := by
      have := head_dropWhile_not (received l.lastRxBatchId)
        (l := l.tx.pendingMessages) (by simp [hdrop])
      simpa [hdrop] using this
    have hfree : first.index ∉ l.done := by
      intro hin
      have h1 := h.queued first hfirst hin
      have h2 := (h.watermark hr first (mem_held_of_pending hfirst)).mp hin
      simp [received, h1, h2] at hnot
    intro hin
    rcases mem_cons.mp hm with rfl | hrest
    · exact hfree hin
    · have hlt : first.index < m.index :=
        (pairwise_cons.mp (h.aligned.queue.sublist hsub)).1 m hrest
      have h1 := (h.watermark hr m (mem_held_of_pending hmq)).mp hin
      have h2 := mt (h.watermark hr first (mem_held_of_pending hfirst)).mpr hfree
      have h3 := (toUint_lt_iff h.aligned (mem_held_of_pending hfirst)
        (mem_held_of_pending hmq)).mpr hlt
      omega

theorem resumed_inv (h : l.Inv) (hrel : l.Reliable .resume) :
    Inv { l with tx := l.tx.resumed l.lastRxBatchId } := by
  have hsub : (l.tx.resumed l.lastRxBatchId).pendingMessages.Sublist l.tx.pendingMessages :=
    resumed_pendingMessages_sublist
  refine h.of_tx rfl (resumed_aligned h.aligned)
    (fun m hm => ⟨m, resumed_held_subset hm, rfl, rfl⟩) rfl rfl ?_
    (fun d hd => h.flying hd) ?_ ?_ ?_
  · simp [resumed]
  · exact fun m hm => h.queued m (hsub.subset hm)
  · intro _ m hm
    cases hr : l.restarted with
    | true => exact h.stale hr m (mem_held_of_pending (hsub.subset hm))
    | false =>
      by_cases hzero : l.lastRxBatchId = 0
      · have hmq := mem_held_of_pending (hsub.subset hm)
        rw [h.watermark hr m hmq, hzero]
        have := toUint_of_held h.aligned hmq
        have := h.aligned.positive m hmq
        omega
      · simp only [resumed, ne_eq, hzero, not_false_eq_true, ↓reduceIte] at hm
        exact dropWhile_unprocessed h hr hm
  · intro m hm
    by_cases hzero : l.lastRxBatchId = 0
    · simp only [resumed, ne_eq, hzero, not_true_eq_false, ↓reduceIte] at hm
      exact h.discarded m hm
    · simp only [resumed, ne_eq, hzero, not_false_eq_true, ↓reduceIte, mem_append] at hm
      rcases hm with hm | hm
      · exact h.discarded m hm
      · have hmq : m ∈ l.tx.pendingMessages := (takeWhile_sublist _).subset hm
        have hgot : received l.lastRxBatchId m = true := all_eq_true.mp all_takeWhile m hm
        cases hr : l.restarted with
        | true =>
          -- the first message is not covered, so nothing is taken at all
          have hhead := hrel hr
          cases hq : l.tx.pendingMessages with
          | nil => simp [hq] at hm
          | cons first rest =>
            have hnot := hhead first (by simp [hq])
            simp [hq, hnot] at hm
        | false =>
          refine (h.watermark hr m (mem_held_of_pending hmq)).mpr ?_
          simp only [received, gt_iff_lt, Bool.and_eq_true, decide_eq_true_eq] at hgot
          exact hgot.2

theorem interrupted_inv (h : l.Inv) :
    Inv { l with tx := { l.tx with state := .interrupted, expiryTimer := true } } := by
  have hal := h.aligned
  refine h.of_tx rfl { hal with accounted := { hal.accounted with } }
    (fun m hm => ⟨m, hm, rfl, rfl⟩) rfl rfl (by simp) (fun d hd => h.flying hd) h.queued ?_
    h.discarded
  intro hlive
  cases hlive

theorem idle_inv (h : l.Inv) : Inv { l with tx := l.tx.idle } := by
  have hbase : Inv { l with tx := { l.tx with scheduled := l.tx.scheduled - 1 } } :=
    { h with aligned := { h.aligned with accounted := { h.aligned.accounted with } } }
  exact maybeDeliver_inv hbase

theorem step_inv (h : l.Inv) (hrel : l.Reliable e) (hs : l.step e = some l') : l'.Inv := by
  cases e with
  | postMessageFromScript scriptId json data | postMessageFromDebugger scriptId message =>
    cases hs
    exact maybeDeliver_inv (offer_inv h hrel)
  | deliver i =>
    simp only [step] at hs
    split at hs
    · rename_i d hd
      split at hs
      · rename_i hcall
        cases hs
        exact deliver_inv h hrel hd hcall.1
      · cases hs
    · cases hs
  | lose i =>
    simp only [step] at hs
    split at hs
    · rename_i d hd
      split at hs
      · rename_i hcall
        cases hs
        exact lose_inv h hd hcall
      · cases hs
    · cases hs
  | batchSucceeded i =>
    simp only [step] at hs
    split at hs
    · rename_i d hd
      split at hs
      · cases hs
        exact batchSucceeded_inv h hd hrel
      · cases hs
    · cases hs
  | batchFailed i =>
    simp only [step] at hs
    split at hs
    · rename_i d hd
      split at hs
      · cases hs
        exact batchFailed_inv h hd (hrel d hd)
      · cases hs
    · cases hs
  | interrupt =>
    cases hs
    unfold Transmitter.interrupt
    split
    · exact h
    · exact interrupted_inv h
  | resume =>
    cases hs
    by_cases hok : l.tx.persistTimeout = 0 ∨ l.tx.expiryTimer = false
    · rw [resume_throws hok]
      exact h
    · rw [not_or, Bool.not_eq_false] at hok
      rw [resume_ok hok.1 hok.2]
      exact resumed_inv h hrel
  | idle =>
    simp only [step] at hs
    split at hs
    · cases hs
    · cases hs
      exact idle_inv h

theorem initial_inv (hp : timeout ≠ 0) : (initial timeout).Inv := by
  refine ⟨hp, ⟨⟨.nil, rfl, fun _ => rfl, rfl, ?_⟩, ?_, ?_, ?_, ?_, ?_⟩, ?_, ?_, ?_, ?_, ?_, ?_, ?_,
    ?_, ?_, ?_, ?_, ?_, ?_⟩ <;>
    simp [initial, held, done]

/-- On every run whose steps are all reliable, the peer gets each message once
and in order, and nothing is discarded that it did not get. -/
theorem reliable_exactlyOnce (hp : timeout ≠ 0)
    (h : Machine.EachStep step Reliable (initial timeout) es) :
    Machine.Always step ExactlyOnce (initial timeout) es :=
  (Machine.always_of_eachStep (fun _ _ _ => step_inv) (initial_inv hp) h).mono
    fun _ hl => hl.exactlyOnce

/-- The connection is cut after the peer got the first message, and the second
is posted before the reconnect. -/
def reconnect : List LinkEvent :=
  [.postMessageFromScript 1 "a" none, .deliver 0, .interrupt, .postMessageFromDebugger 1 "b",
    .batchFailed 0, .resume, .idle, .deliver 0, .batchSucceeded 0]

theorem reconnect_reliable : Machine.EachStep step Reliable (initial 5) reconnect := by
  decide

theorem reliable_exactlyOnce_reconnect :
    Machine.EachStep step Reliable (initial 5) reconnect ∧
      Machine.Always step ExactlyOnce (initial 5) reconnect :=
  ⟨reconnect_reliable, reliable_exactlyOnce (by decide) reconnect_reliable⟩

/-- The first message is acknowledged, so that the second gets serial 1 again.
Its call is lost, and the watermark left by the first makes `resume` discard it. -/
theorem restarted_watermark : ∃ l, Machine.exec step (initial 5)
    [.postMessageFromScript 1 "a" none, .deliver 0, .batchSucceeded 0,
      .postMessageFromScript 1 "b" none, .lose 0, .interrupt, .batchFailed 0, .resume] = some l ∧
    ¬ l.ExactlyOnce := by
  refine ⟨_, rfl, fun h => ?_⟩
  have := h.discarded
  revert this
  decide

-- A call whose reply is lost is made again by the next post.
example : (Machine.exec step (initial 5)
    [.postMessageFromScript 1 "a" none, .deliver 0, .batchFailed 0,
      .postMessageFromScript 1 "b" none, .deliver 0]).map done = some [0, 0, 1] := by
  decide

-- A lost call is overtaken by the one after it.
example : (Machine.exec step (initial 5)
    [.postMessageFromScript 1 "a" none, .postMessageFromScript 1 "b" none, .lose 0, .deliver 1,
      .batchFailed 0, .postMessageFromScript 1 "c" none, .deliver 1]).map done =
    some [1, 0, 2] := by
  decide

end FridaCore.Session.Link
