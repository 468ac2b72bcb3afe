import FridaCore.Support.Machine

/-!
# Datagrams that come in through a tunnel

`on_recv_datagram` and `flush_pending_input` of `tunnel.vala`, with the loop of
`handle_incoming_datagrams` in `network-stack.vala`. The loop runs on another thread.
-/

namespace FridaCore.Fruity

open List

/-- `batch` is what the loop has yet to hand over. All that has come in is `arrived`, and all
that the network stack has been handed is `handed`. -/
structure TunnelInput where
  pendingInput : List (List UInt8) := []
  inputFlushScheduled : Bool := false
  inputFlushHappening : Bool := false
  batch : List (List UInt8) := []
  arrived : List (List UInt8) := []
  handed : List (List UInt8) := []
  deriving DecidableEq

namespace TunnelInput

inductive Event
  | onRecvDatagram (data : List UInt8)
  | idle
  | input (ok : Bool)
  | completed
  deriving DecidableEq

def onRecvDatagram (s : TunnelInput) (data : List UInt8) : TunnelInput :=
  { s with
    pendingInput := s.pendingInput ++ [data]
    inputFlushScheduled := true
    arrived := s.arrived ++ [data] }

def flushPendingInput (s : TunnelInput) : TunnelInput :=
  if s.inputFlushHappening then s
  else { s with inputFlushHappening := true, batch := s.pendingInput, pendingInput := [] }

def step (s : TunnelInput) : Event → Option TunnelInput
  | .onRecvDatagram data => some (s.onRecvDatagram data)
  | .idle =>
    if s.inputFlushScheduled then some (flushPendingInput { s with inputFlushScheduled := false })
    else none
  | .input ok => match s.batch with
    | [] => none
    -- An error ends the loop.
    | d :: rest => some { s with handed := s.handed ++ [d], batch := if ok then rest else [] }
  | .completed =>
    if s.inputFlushHappening ∧ s.batch = [] then some { s with inputFlushHappening := false }
    else none

/-- What has come in is handed over in order, and nothing waits while nothing is going to be
done about it. -/
structure Served (s : TunnelInput) : Prop where
  inOrder : s.handed ++ s.batch ++ s.pendingInput = s.arrived
  quiescent : s.inputFlushScheduled = false → s.inputFlushHappening = false → s.pendingInput = []

/-- A datagram that is refused is the last of its batch, and a flush completes with nothing left
behind, or with the next one scheduled. -/
def Orderly (s : TunnelInput) : Event → Prop
  | .input ok => ok = false → s.batch.length = 1
  | .completed => s.inputFlushScheduled = true ∨ s.pendingInput = []
  | _ => True

instance (s : TunnelInput) (e : Event) : Decidable (Orderly s e) := by
  cases e <;> unfold Orderly <;> infer_instance

/-- There is a batch during a flush only. -/
def Flushing (s : TunnelInput) : Prop := s.inputFlushHappening = false → s.batch = []

theorem step_served_iff (hf : Flushing s) (hs : Served s) (ht : step s e = some t) :
    Flushing t ∧ (Served t ↔ Orderly s e) := by
  have hall := hs.inOrder
  cases e with
  | onRecvDatagram data =>
    cases ht
    refine ⟨hf, fun _ => trivial, fun _ => ⟨?_, fun h => ?_⟩⟩
    · simp only [onRecvDatagram, ← append_assoc, hall]
    · cases h
  | idle =>
    obtain ⟨-, ⟨⟩⟩ := Option.ite_none_right_eq_some.mp ht
    unfold flushPendingInput
    split
    · rename_i hhappening
      refine ⟨fun h => ?_, fun _ => trivial, fun _ => ⟨hall, fun _ h => ?_⟩⟩
      · cases hhappening.symm.trans h
      · cases hhappening.symm.trans h
    · rename_i hidle
      rw [hf (Bool.eq_false_of_not_eq_true hidle), append_nil] at hall
      exact ⟨by simp [Flushing], fun _ => trivial,
        fun _ => ⟨(append_nil _).trans hall, fun _ _ => rfl⟩⟩
  | input ok =>
    cases hbatch : s.batch with
    | nil => simp [step, hbatch] at ht
    | cons d rest =>
      have hhappening : s.inputFlushHappening = true := by
        by_contra hno
        simp [hf (by simpa using hno)] at hbatch
      obtain rfl : { s with handed := s.handed ++ [d], batch := if ok then rest else [] } = t := by
        simpa [step, hbatch] using ht
      rw [hbatch] at hall
      refine ⟨fun h => ?_, fun h hok => ?_, fun hok => ⟨?_, fun _ h => ?_⟩⟩
      · cases hhappening.symm.trans h
      · have hlost := h.inOrder
        rw [← hall] at hlost
        subst hok
        simpa [hbatch] using hlost
      · cases ok with
        | true => simpa using hall
        | false =>
          obtain rfl : rest = [] := by simpa [Orderly, hbatch] using hok
          simpa using hall
      · cases hhappening.symm.trans h
  | completed =>
    obtain ⟨⟨-, hbatch⟩, ⟨⟩⟩ := Option.ite_none_right_eq_some.mp ht
    refine ⟨fun _ => hbatch, fun h => ?_, fun h => ⟨hall, fun hsched _ => ?_⟩⟩
    · cases hsched : s.inputFlushScheduled with
      | true => exact .inl hsched
      | false => exact .inr (h.quiescent hsched rfl)
    · exact h.resolve_left (by simp_all)

theorem served_iff (es : List Event) :
    Machine.Always step Served {} es ↔ Machine.EachStep step Orderly {} es :=
  Machine.always_iff_eachStep (fun _ _ _ => step_served_iff) (fun _ => rfl) ⟨rfl, fun _ _ => rfl⟩

/-- The second datagram comes in during the flush of the first, and so does its callback. -/
theorem datagram_left_behind : ∃ t, Machine.exec step {} [.onRecvDatagram [1], .idle,
    .onRecvDatagram [2], .idle, .input true, .completed] = some t ∧
    t.inputFlushScheduled = false ∧ t.inputFlushHappening = false ∧ t.pendingInput = [[2]] :=
  ⟨_, rfl, rfl, rfl, rfl⟩

end FridaCore.Fruity.TunnelInput
