import FridaCore.Fruity.NcmTransfer
import FridaCore.Support.Lists
import FridaCore.Support.Machine

/-!
# The window of transfers that are on their way

`open` of `src/fruity/ncm.vala` takes its parameters from a reply of the device, and
`top_up_output_window` and `on_output_completed` keep transfers going. A handler of a
transfer's completion runs from the main loop, so it never runs inside of the window code.

The transfers on their way and the datagrams that have come in and gone out are recorded
beside what the driver knows.
-/

namespace FridaCore.Fruity.Ncm

open List Option Prod

inductive Speed
  | belowHigh
  | high
  | super
  deriving DecidableEq, Repr

inductive Stop
  | error (e : Error)
  | fault (f : Fault)
  deriving DecidableEq, Repr

def maxTransferMemory : Nat := 60 * 1518

def ntbParametersMinSize : Nat := 28

structure Config where
  ntbOutMaxSize : Nat
  ndpOutDivisor : Nat
  ndpOutPayloadRemainder : Nat
  ndpOutAlignment : Nat
  maxInTransfers : Nat
  maxOutTransfers : Nat
  maxOutBytesInFlight : Nat
  ndpReservedSlots : Nat
  ndpFixedHeaderSize : Nat
  deriving DecidableEq, Repr

def readNumber (reply : Bytes) (offset size : Nat) : Nat :=
  leValue ((reply.drop offset).take size)

def divide (a b : Nat) : Except Fault Nat :=
  if b = 0 then .error .divisionByZero else .ok (a / b)

def transferCounts (speed : Speed) (ntbInMaxSize ntbOutMaxSize : Nat) :
    Except Fault (Nat × Nat) :=
  match speed with
  | .super => do
    return (← divide (5 * maxTransferMemory) ntbInMaxSize,
      ← divide (5 * maxTransferMemory) ntbOutMaxSize)
  | .high => do
    let maxInTransfers ← divide maxTransferMemory ntbInMaxSize
    let maxOutTransfers ← divide (3 * maxTransferMemory) ntbOutMaxSize
    return (maxInTransfers, min (max maxOutTransfers 6) 16)
  | .belowHigh => .ok (4, 4)

def Fault.stop (x : Except Fault α) : Except Stop α := x.mapError .fault

/-- The part of `open` about the parameters in the reply. -/
def openDevice (reply : Bytes) (speed : Speed) : Except Stop Config :=
  if reply.length < ntbParametersMinSize then
    .error (.error (.protocol "Truncated NTB parameters response"))
  else do
    let ntbInMaxSize := min (readNumber reply 4 4) 16384
    let ntbOutMaxSize := min (readNumber reply 16 4) 16384
    let ndpOutAlignment := readNumber reply 24 2
    let (maxInTransfers, maxOutTransfers) ←
      Fault.stop (transferCounts speed ntbInMaxSize ntbOutMaxSize)
    let ndpReservedSlots := min 21 (readNumber reply 26 2)
    let ndpFixedHeaderSize ← Fault.stop (ndpFixedHeaderSize ndpReservedSlots ndpOutAlignment)
    return {
      ntbOutMaxSize
      ndpOutDivisor := readNumber reply 20 2
      ndpOutPayloadRemainder := readNumber reply 22 2
      ndpOutAlignment
      maxInTransfers
      maxOutTransfers
      maxOutBytesInFlight := 4 * maxTransferMemory
      ndpReservedSlots
      ndpFixedHeaderSize }

def Config.layoutParameters (c : Config) : LayoutParameters where
  maxTransferSize := c.ntbOutMaxSize
  ndpFixedHeaderSize := c.ndpFixedHeaderSize
  ndpAlignment := c.ndpOutAlignment
  datagramModulus := c.ndpOutDivisor
  datagramRemainder := c.ndpOutPayloadRemainder

structure Window where
  pendingOutput : List Bytes := []
  outInFlightCount : Nat := 0
  outInFlightBytes : Nat := 0
  /-- The sizes by the numbers of the transfers. -/
  outInFlightSizes : List (Nat × Nat) := []
  outTopupScheduled : Bool := false
  nextOutgoingSequence : Nat := 1
  fault : Option Fault := none
  /-- How many transfers there have been. -/
  issued : Nat := 0
  /-- The transfers that have not been completed. -/
  transfers : List (Nat × Bytes) := []
  /-- The datagrams of each transfer, in the order of submission. -/
  sent : List (List Bytes) := []
  /-- The datagrams that have come from the network stack. -/
  accepted : List Bytes := []

namespace Window

/-- What the loop of `top_up_output_window` does with a layout. -/
def submit (w : Window) (layout : TransferLayout) : Window :=
  let batch := w.pendingOutput.take layout.offsets.length
  let transfer := buildOutputTransfer batch layout w.nextOutgoingSequence
  { w with
    pendingOutput := w.pendingOutput.drop layout.offsets.length
    nextOutgoingSequence := uint16 (w.nextOutgoingSequence + 1)
    outInFlightCount := w.outInFlightCount + 1
    outInFlightBytes := w.outInFlightBytes + layout.size
    outInFlightSizes := w.outInFlightSizes ++ [(w.issued, layout.size)]
    issued := w.issued + 1
    transfers := w.transfers ++ [(w.issued, transfer)]
    sent := w.sent ++ [batch] }

/-- The loop of `top_up_output_window`, for a number of turns. -/
def topUp (c : Config) : Nat → Window → Window
  | 0, w => w
  | turns + 1, w =>
    if w.pendingOutput = [] then w
    else
      let maxDatagrams := min w.pendingOutput.length c.ndpReservedSlots
      match TransferLayout.compute w.pendingOutput maxDatagrams c.layoutParameters with
      | .error fault => { w with fault := some fault }
      | .ok layout =>
        if w.outInFlightBytes + layout.size > c.maxOutBytesInFlight then w
        else topUp c turns (w.submit layout)

def topUpOutputWindow (w : Window) (c : Config) : Window :=
  topUp c (c.maxOutTransfers - w.outInFlightCount) w

def complete (w : Window) (id : Nat) : Window :=
  let size := (w.outInFlightSizes.lookup id).getD 0
  { w with
    outInFlightSizes := w.outInFlightSizes.filter fun entry => entry.1 ≠ id
    outInFlightCount := w.outInFlightCount - 1
    outInFlightBytes := w.outInFlightBytes - size
    transfers := w.transfers.filter fun entry => entry.1 ≠ id }

inductive Event
  /-- The network stack hands over datagrams. -/
  | outgoing (datagrams : List Bytes)
  /-- The source that tops up the window is dispatched. -/
  | topUp
  /-- The handler for the completion of a transfer runs. -/
  | completed (id : Nat) (failed : Bool)

def step (c : Config) (w : Window) (event : Event) : Option Window :=
  if w.fault.isSome then none
  else
    match event with
    | .outgoing datagrams =>
      some { w with
        pendingOutput := w.pendingOutput ++ datagrams
        accepted := w.accepted ++ datagrams
        outTopupScheduled := true }
    | .topUp =>
      if w.outTopupScheduled then
        some ({ w with outTopupScheduled := false }.topUpOutputWindow c)
      else none
    | .completed id failed =>
      if w.transfers.any fun t => t.1 = id then
        some (if failed then w.complete id else (w.complete id).topUpOutputWindow c)
      else none

end Window

/-- None of the numbers that the driver divides by or makes room for is zero. -/
structure Serviceable (reply : Bytes) (speed : Speed) : Prop where
  complete : ntbParametersMinSize ≤ reply.length
  divisor : 0 < readNumber reply 20 2
  alignment : 0 < readNumber reply 24 2
  datagrams : 0 < readNumber reply 26 2
  sizes : speed ≠ .belowHigh → 0 < readNumber reply 4 4 ∧ 0 < readNumber reply 16 4

def Config.Fits (c : Config) (datagram : Bytes) : Prop :=
  startAfter c.layoutParameters (dataOffset c.layoutParameters) + datagram.length ≤
    c.ntbOutMaxSize

structure Config.Able (c : Config) : Prop where
  alignment : 0 < c.ndpOutAlignment
  divisor : 0 < c.ndpOutDivisor
  slots : 0 < c.ndpReservedSlots
  slots_le : c.ndpReservedSlots ≤ 21
  limit : c.ntbOutMaxSize ≤ 16384
  header : c.ndpFixedHeaderSize =
    uint16 (alignUp (8 + c.ndpReservedSlots * 4 + 4) c.ndpOutAlignment 0)

theorem divide_eq_ok (h : 0 < b) : divide a b = .ok (a / b) := by
  simp [divide, Nat.ne_of_gt h]

theorem transferCounts_eq_ok (speed : Speed) (ntbInMaxSize ntbOutMaxSize : Nat)
    (h : speed ≠ .belowHigh → 0 < ntbInMaxSize ∧ 0 < ntbOutMaxSize) :
    ∃ counts, transferCounts speed ntbInMaxSize ntbOutMaxSize = .ok counts := by
  cases speed with
  | belowHigh => exact ⟨_, rfl⟩
  | high | super =>
    obtain ⟨hin, hout⟩ := h (by decide)
    simp [transferCounts, divide_eq_ok hin, divide_eq_ok hout, bind, Except.bind, pure,
      Except.pure]

theorem openDevice_eq_ok (h : Serviceable reply speed) :
    ∃ c, openDevice reply speed = .ok c ∧ c.Able := by
  obtain ⟨counts, hcounts⟩ := transferCounts_eq_ok speed (min (readNumber reply 4 4) 16384)
    (min (readNumber reply 16 4) 16384)
    (fun hspeed => ⟨lt_min (h.sizes hspeed).1 (by decide), lt_min (h.sizes hspeed).2 (by decide)⟩)
  have hheader : ndpFixedHeaderSize (min 21 (readNumber reply 26 2)) (readNumber reply 24 2) =
      .ok (uint16 (alignUp (8 + min 21 (readNumber reply 26 2) * 4 + 4)
        (readNumber reply 24 2) 0)) := by
    simp only [ndpFixedHeaderSize, align_eq_ok h.alignment]
    rfl
  have hslots := h.datagrams
  simp only [openDevice, Nat.not_lt.mpr h.complete, if_false, hcounts, hheader, Fault.stop,
    Except.mapError, bind, Except.bind, pure, Except.pure]
  refine ⟨_, rfl, ⟨h.alignment, h.divisor, ?_, ?_, ?_, rfl⟩⟩
  · exact lt_min (by decide) hslots
  · exact Nat.min_le_left _ _
  · exact Nat.min_le_right _ _

structure Carries (queue : List Bytes) (layout : TransferLayout) : Prop where
  nonempty : 0 < layout.offsets.length
  le_length : layout.offsets.length ≤ queue.length
  length : ∀ sequenceNumber, (buildOutputTransfer (queue.take layout.offsets.length) layout
    sequenceNumber).length = layout.size

theorem compute_carries {c : Config} (h : c.Able) (hqueue : queue ≠ [])
    (hfits : ∀ d ∈ queue, c.Fits d) :
    ∃ layout, TransferLayout.compute queue (min queue.length c.ndpReservedSlots)
      c.layoutParameters = .ok layout ∧ Carries queue layout := by
  have hlimit := h.limit
  have hroom : 0 < min queue.length c.ndpReservedSlots :=
    lt_min (length_pos_iff.mpr hqueue) h.slots
  have hsizes : ∀ d ∈ queue, d.length < 2 ^ 16 := by
    intro d hd
    have := hfits d hd
    rw [Config.Fits] at this
    omega
  obtain ⟨size, offsets, hfirst, hcompute⟩ :=
    compute_eq_ok (p := c.layoutParameters) h.alignment h.divisor hsizes hroom
  refine ⟨_, hcompute, ?_⟩
  have hne : offsets ≠ [] := by
    rintro rfl
    obtain ⟨d, rest, rfl⟩ := exists_cons_of_ne_nil hqueue
    have hplaced := hfirst.placed
    cases hplaced
    have hfit := hfits d mem_cons_self
    rw [Config.Fits] at hfit
    rcases hfirst.full hroom d rfl with hover | hover
    · omega
    · exact absurd hfit (Nat.not_le.mpr hover)
  have hsize := hfirst.placed.size_le (hfirst.zip_ne_nil hne)
  have hdata : dataOffset c.layoutParameters ≤ size := hfirst.placed.le h.divisor
  have hsizeLimit : size ≤ 16384 := hsize.2.trans h.limit
  have hroomy : Roomy c.layoutParameters c.ndpReservedSlots :=
    roomy_of_reached h.alignment h.divisor h.slots_le h.header (hdata.trans hsizeLimit)
  refine ⟨length_pos_iff.mpr hne, hfirst.le_length, fun sequenceNumber => ?_⟩
  obtain ⟨⟨hsize16, -⟩, tail, htransfer, hwritten⟩ := hfirst.written hroomy hne sequenceNumber
  exact (congrArg length htransfer).trans (hwritten.length.trans hsize16.symm)

namespace Window

variable {c : Config} {w w' : Window} {id : Nat}

structure Healthy (c : Config) (w : Window) : Prop where
  noFault : w.fault = none
  count : w.outInFlightCount = w.transfers.length
  bytes : w.outInFlightBytes = (w.transfers.map fun t => t.2.length).sum
  bounded : w.outInFlightBytes ≤ c.maxOutBytesInFlight
  nonempty : ∀ batch ∈ w.sent, batch ≠ []
  inOrder : w.sent.flatten ++ w.pendingOutput = w.accepted

structure Inv (c : Config) (w : Window) : Prop extends Healthy c w where
  sizes : w.outInFlightSizes = w.transfers.map fun t => (t.1, t.2.length)
  distinct : (w.transfers.map Prod.fst).Nodup
  fresh : ∀ t ∈ w.transfers, t.1 < w.issued
  fits : ∀ d ∈ w.pendingOutput, c.Fits d

theorem inv_submit (h : Inv c w) (hlayout : Carries w.pendingOutput layout)
    (hbytes : w.outInFlightBytes + layout.size ≤ c.maxOutBytesInFlight) :
    Inv c (w.submit layout) := by
  have hlength := hlayout.length w.nextOutgoingSequence
  have hbatch : w.pendingOutput.take layout.offsets.length ≠ [] := by
    have := hlayout.nonempty
    have := hlayout.le_length
    rw [← length_pos_iff, length_take]
    omega
  refine ⟨⟨h.noFault, ?_, ?_, hbytes, ?_, ?_⟩, ?_, ?_, ?_, ?_⟩
  · simp [submit, h.count]
  · simp [submit, h.bytes, hlength]
  · intro batch hmem
    rcases mem_append.mp hmem with hold | hnew
    · exact h.nonempty batch hold
    · rw [mem_singleton.mp hnew]
      exact hbatch
  · simp [submit, h.inOrder]
  · simp [submit, h.sizes, hlength]
  · simp only [submit, map_append, map_cons, map_nil]
    refine nodup_append.mpr ⟨h.distinct, nodup_singleton _, ?_⟩
    intro id hid id' hid'
    obtain ⟨t, ht, rfl⟩ := mem_map.mp hid
    have := h.fresh t ht
    rw [mem_singleton.mp hid']
    omega
  · intro t ht
    rcases mem_append.mp ht with hold | hnew
    · exact Nat.lt_succ_of_lt (h.fresh t hold)
    · rw [mem_singleton.mp hnew]
      exact Nat.lt_succ_self _
  · intro d hd
    exact h.fits d (mem_of_mem_drop hd)

theorem inv_topUp (hc : c.Able) (turns : Nat) (h : Inv c w) : Inv c (topUp c turns w) := by
  induction turns generalizing w with
  | zero => exact h
  | succ turns ih =>
    rw [topUp]
    split
    · exact h
    · next hpending =>
      obtain ⟨layout, hcompute, hlayout⟩ := compute_carries hc hpending h.fits
      simp only [hcompute]
      split
      · exact h
      · next hbytes => exact ih (inv_submit h hlayout (Nat.not_lt.mp hbytes))

theorem perm_of_completed {transfers : List (Nat × Bytes)}
    (hdistinct : (transfers.map fst).Nodup) (hid : ∃ t ∈ transfers, t.1 = id) :
    ∃ transfer : Bytes,
      (transfers.map fun t => (t.1, t.2.length)).lookup id = some transfer.length ∧
        transfers.Perm ((id, transfer) :: transfers.filter fun t => t.1 ≠ id) := by
  obtain ⟨t, ht, rfl⟩ := hid
  refine ⟨t.2, (lookup_iff_mem ?_).mpr ?_, perm_cons_filter_ne hdistinct ht⟩
  · simpa [Function.comp_def] using hdistinct
  · exact mem_map_of_mem (f := fun t => (t.1, t.2.length)) ht

theorem inv_complete (h : Inv c w) (hid : ∃ t ∈ w.transfers, t.1 = id) :
    Inv c (w.complete id) := by
  obtain ⟨transfer, hlookup, hperm⟩ := perm_of_completed h.distinct hid
  have hcount := hperm.length_eq
  have hbytes : (w.transfers.map fun t => t.2.length).sum = transfer.length +
      ((w.transfers.filter fun t => t.1 ≠ id).map fun t => t.2.length).sum :=
    (hperm.map fun t => t.2.length).sum_eq
  rw [List.length_cons] at hcount
  have hsize : (w.outInFlightSizes.lookup id).getD 0 = transfer.length := by
    rw [h.sizes, hlookup, Option.getD_some]
  refine ⟨⟨h.noFault, ?_, ?_, ?_, h.nonempty, h.inOrder⟩, ?_, ?_, ?_, h.fits⟩
  · simp only [complete, h.count]
    omega
  · simp only [complete, hsize, h.bytes]
    omega
  · exact (Nat.sub_le _ _).trans h.bounded
  · simp only [complete, h.sizes, List.filter_map]
    rfl
  · exact h.distinct.sublist (List.filter_sublist.map Prod.fst)
  · intro t ht
    exact h.fresh t (List.mem_of_mem_filter ht)

def Fitting (c : Config) (_ : Window) : Event → Prop
  | .outgoing datagrams => ∀ d ∈ datagrams, d.length ≤ 1514 ∧ c.Fits d
  | .topUp => True
  | .completed _ _ => True

instance (c : Config) (w : Window) : DecidablePred (Fitting c w)
  | .outgoing datagrams =>
    inferInstanceAs (Decidable (∀ d ∈ datagrams, d.length ≤ 1514 ∧ _ ≤ c.ntbOutMaxSize))
  | .topUp => .isTrue trivial
  | .completed _ _ => .isTrue trivial

theorem inv_step (hc : c.Able) (h : Inv c w) (hfit : Fitting c w event)
    (hstep : step c w event = some w') : Inv c w' := by
  have hfault : w.fault.isSome = false := by simp [h.noFault]
  simp only [step, hfault, Bool.false_eq_true, if_false] at hstep
  cases event with
  | outgoing datagrams =>
    obtain rfl := some.inj hstep
    refine { h with inOrder := ?_, fits := ?_ }
    · simp [← h.inOrder]
    · intro d hd
      rcases mem_append.mp hd with hold | hnew
      · exact h.fits d hold
      · exact (hfit d hnew).2
  | topUp =>
    rw [ite_none_right_eq_some] at hstep
    obtain rfl := some.inj hstep.2
    exact inv_topUp hc _ { h with }
  | completed id failed =>
    rw [ite_none_right_eq_some] at hstep
    obtain ⟨hid, hstep⟩ := hstep
    have hcomplete : Inv c (w.complete id) := inv_complete h (by simpa using hid)
    obtain rfl := some.inj hstep
    cases failed with
    | true => exact hcomplete
    | false => exact inv_topUp hc _ hcomplete

theorem inv_initial (c : Config) : Inv c {} := by
  refine ⟨⟨rfl, rfl, rfl, Nat.zero_le _, ?_, rfl⟩, rfl, nodup_nil, ?_, ?_⟩ <;> simp

/-- The window is healthy throughout every run if the reply has no zeros where the driver
needs a number, and each datagram fits into a transfer. -/
theorem window_healthy (reply : Bytes) (speed : Speed) (h : Serviceable reply speed) :
    ∃ c, openDevice reply speed = .ok c ∧ ∀ events,
      Machine.EachStep (step c) (Fitting c) {} events →
        Machine.Always (step c) (Healthy c) {} events := by
  obtain ⟨c, hopen, hable⟩ := openDevice_eq_ok h
  refine ⟨c, hopen, fun events hfit => ?_⟩
  have hinv : Machine.Always (step c) (Inv c) {} events :=
    Machine.always_of_eachStep (fun _ _ _ hi hok ht => inv_step hable hi hok ht) (inv_initial c)
      hfit
  exact hinv.mono fun _ hi => hi.toHealthy

def ntbParameters (ntbInMaxSize ntbOutMaxSize divisor remainder alignment maxDatagrams : Nat) :
    Bytes :=
  leBytes 4 0 ++ leBytes 4 ntbInMaxSize ++ leBytes 8 0 ++ leBytes 4 ntbOutMaxSize ++
    leBytes 2 divisor ++ leBytes 2 remainder ++ leBytes 2 alignment ++ leBytes 2 maxDatagrams

/-- Three datagrams in two transfers, of which the second is completed first. -/
def twoTransfers : List Event :=
  [.outgoing [[1], [2, 3]], .topUp, .outgoing [[4]], .topUp, .completed 1 false,
    .completed 0 true]

theorem window_healthy_twoTransfers :
    ∃ c, openDevice (ntbParameters 16384 2048 4 0 4 16) .high = .ok c ∧
      Machine.EachStep (step c) (Fitting c) {} twoTransfers ∧
      (Machine.exec (step c) {} twoTransfers).map Window.sent = some [[[1], [2, 3]], [[4]]] ∧
      Machine.Always (step c) (Healthy c) {} twoTransfers := by
  obtain ⟨c, hopen, hrun⟩ := window_healthy (ntbParameters 16384 2048 4 0 4 16) .high
    ⟨by decide, by decide, by decide, by decide, by decide⟩
  have hc : openDevice (ntbParameters 16384 2048 4 0 4 16) .high =
      .ok ⟨2048, 4, 0, 4, 5, 16, 364320, 16, 76⟩ := by decide +kernel
  obtain rfl : c = ⟨2048, 4, 0, 4, 5, 16, 364320, 16, 76⟩ := by
    rw [hc] at hopen
    exact (Except.ok.inj hopen).symm
  have hfit : Machine.EachStep (step ⟨2048, 4, 0, 4, 5, 16, 364320, 16, 76⟩)
      (Fitting ⟨2048, 4, 0, 4, 5, 16, 364320, 16, 76⟩) {} twoTransfers := by decide +kernel
  exact ⟨_, hopen, hfit, by decide +kernel, hrun _ hfit⟩

/-- A device without a limit says that it takes zero datagrams, and the first one is then
written outside of the array. A device with room for none gets transfers without one. -/
theorem unlimited_outsideOffsets :
    (∃ c, openDevice (ntbParameters 16384 16384 4 0 4 0) .high = .ok c ∧
      (Machine.exec (step c) {} [.outgoing [[1]], .topUp]).map Window.fault =
        some (some .outsideOffsets)) ∧
    ∃ c, openDevice (ntbParameters 16384 64 4 0 4 16) .belowHigh = .ok c ∧
      (Machine.exec (step c) {} [.outgoing [[1]], .topUp]).map Window.sent =
        some [[], [], [], []] := by
  refine ⟨⟨⟨16384, 4, 0, 4, 5, 16, 364320, 0, 12⟩, ?_⟩, ⟨⟨64, 4, 0, 4, 4, 4, 364320, 16, 76⟩, ?_⟩⟩
  · decide +kernel
  · decide +kernel

end Window

end FridaCore.Fruity.Ncm
