import FridaCore.Support.Bytes
import FridaCore.Support.Machine

/-!
# The host link: frames

`send` and the transmit side of `process` in `hostlink_virtio.rs`: what the frames become when
descriptors are handed out as they should be.
-/

namespace FridaCore.Barebone

open List Option

def qsz : Nat := 64

abbrev Frame := List UInt8

/-- The frame `send` queues. -/
def frameOf (payload : List UInt8) : Frame := leBytes 4 payload.length ++ payload

/-- `posted` are the pages of all chains posted so far, in order, and `live` the lengths of
those the device still has. -/
structure Transmitter where
  queue : List Frame := []
  sent : List Frame := []
  freeCnt : Nat := qsz
  posted : List (List (List UInt8)) := []
  live : List Nat := []
  deriving DecidableEq

namespace Transmitter

/-- The pages a frame is copied to. The loop ends with the frame, or when no descriptor is
left. -/
def cut (page : Nat) : Nat → Frame → List (List UInt8)
  | 0, _ => []
  | free + 1, rest => if rest = [] then [] else rest.take page :: cut page free (rest.drop page)

def pushFrame (page : Nat) (s : Transmitter) (frame : Frame) : Transmitter :=
  let chain := cut page s.freeCnt frame
  if chain = [] then s
  else { s with
    freeCnt := s.freeCnt - chain.length
    posted := s.posted ++ [chain]
    live := s.live ++ [chain.length] }

def dataTxPush (page : Nat) (s : Transmitter) : Transmitter :=
  s.queue.foldl (pushFrame page) { s with queue := [] }

inductive Event
  | send (payload : List UInt8)
  | complete (k : Nat)
  | push
  deriving DecidableEq

def step (page : Nat) (s : Transmitter) : Event → Option Transmitter
  | .send payload =>
    let frame := frameOf payload
    some { s with queue := s.queue ++ [frame], sent := s.sent ++ [frame] }
  | .complete k => s.live[k]?.map fun n =>
    { s with live := s.live.eraseIdx k, freeCnt := s.freeCnt + n }
  | .push => some (dataTxPush page s)

/-- The bytes of the posted chains are the frames sent, up to those that still wait. -/
def Complete (s : Transmitter) : Prop := s.posted.map List.flatten ++ s.queue = s.sent

/-- There are descriptors for all the pages of all the frames that wait. -/
def Fits (page : Nat) (s : Transmitter) : Event → Prop
  | .push => (s.queue.map fun frame => (frame.length + page - 1) / page).sum ≤ s.freeCnt
  | _ => True

instance (page : Nat) (s : Transmitter) (e : Event) : Decidable (Fits page s e) := by
  cases e <;> unfold Fits <;> infer_instance

variable {page : Nat} {s : Transmitter} {frame : Frame}

theorem flatten_cut (page n : Nat) (frame : Frame) :
    (cut page n frame).flatten = frame.take (n * page) := by
  induction n generalizing frame with
  | zero => simp [cut]
  | succ n ih =>
    rw [cut]
    split
    · simp_all
    · rw [flatten_cons, ih, Nat.succ_mul, Nat.add_comm, take_add]

theorem length_cut (hpage : 0 < page) (n : Nat) (frame : Frame) :
    (cut page n frame).length = min n ((frame.length + page - 1) / page) := by
  induction n generalizing frame with
  | zero => simp [cut]
  | succ n ih =>
    rw [cut]
    split
    · rename_i hnil
      have hzero : (page - 1) / page = 0 := Nat.div_eq_of_lt (by omega)
      simp [hnil, hzero]
    · rename_i hne
      have hpos := length_pos_iff.mpr hne
      rw [length_cons, ih, length_drop]
      rcases Nat.lt_or_ge frame.length page with hlt | hge
      · have h1 : (frame.length - page + page - 1) / page = 0 := Nat.div_eq_of_lt (by omega)
        have h2 : (frame.length + page - 1) / page = 1 :=
          Nat.div_eq_of_lt_le (by omega) (by omega)
        omega
      · have h1 : frame.length + page - 1 = (frame.length - page + page - 1) + page := by omega
        rw [h1, Nat.add_div_right _ hpage]
        omega

theorem pages_le_iff (hpage : 0 < page) (len n : Nat) :
    (len + page - 1) / page ≤ n ↔ len ≤ n * page := by
  rw [Nat.div_le_iff_le_mul_add_pred hpage, Nat.mul_comm]
  omega

theorem pushFrame_spec (hpage : 0 < page) (s : Transmitter) (hne : frame ≠ []) :
    (pushFrame page s frame).freeCnt = s.freeCnt - (frame.length + page - 1) / page ∧
      (pushFrame page s frame).posted.map flatten = s.posted.map flatten ++
        if s.freeCnt = 0 then [] else [frame.take (s.freeCnt * page)] := by
  have hlen := length_cut hpage s.freeCnt frame
  have hflat := flatten_cut page s.freeCnt frame
  have hpos := length_pos_iff.mpr hne
  have hpages : 0 < (frame.length + page - 1) / page := Nat.div_pos (by omega) hpage
  rw [pushFrame]
  by_cases hfree : s.freeCnt = 0
  · simp [hfree, cut]
  · have hchain : cut page s.freeCnt frame ≠ [] := ne_nil_of_length_pos (by omega)
    simp only [if_neg hchain, if_neg hfree, map_append, map_cons, map_nil, hflat,
      and_true]
    omega

theorem pushFrame_of_full (h : s.freeCnt = 0) (frame : Frame) : pushFrame page s frame = s := by
  simp [pushFrame, h, cut]

theorem foldl_pushFrame_of_full (h : s.freeCnt = 0) (frames : List Frame) :
    frames.foldl (pushFrame page) s = s := by
  induction frames with
  | nil => rfl
  | cons frame frames ih => rw [foldl_cons, pushFrame_of_full h, ih]

/-- The frames of a round go out whole exactly when there are descriptors for all of them. A
frame that gets too few is cut off, and those after it are dropped. -/
theorem foldl_pushFrame_iff (hpage : 0 < page) (s : Transmitter) (frames : List Frame)
    (hne : ∀ frame ∈ frames, frame ≠ []) :
    (frames.foldl (pushFrame page) s).posted.map flatten =
        s.posted.map flatten ++ frames ↔
      (frames.map fun frame => (frame.length + page - 1) / page).sum ≤ s.freeCnt := by
  induction frames generalizing s with
  | nil => simp
  | cons frame frames ih =>
    obtain ⟨hframe, hne⟩ := forall_mem_cons.mp hne
    obtain ⟨hcnt, hposted⟩ := pushFrame_spec hpage s hframe
    have hpos := length_pos_iff.mpr hframe
    have hfits := pages_le_iff hpage frame.length s.freeCnt
    rw [foldl_cons, map_cons, sum_cons]
    by_cases hle : frame.length ≤ s.freeCnt * page
    · have hfree : s.freeCnt ≠ 0 := by
        rintro hzero
        rw [hzero, Nat.zero_mul] at hle
        omega
      have hih := ih (pushFrame page s frame) hne
      rw [if_neg hfree, take_of_length_le hle] at hposted
      rw [hposted, hcnt, append_assoc, singleton_append] at hih
      rw [hih]
      omega
    · rw [foldl_pushFrame_of_full (by omega), hposted]
      refine iff_of_false (fun heq => ?_) (by omega)
      have heq := append_cancel_left heq
      split at heq
      · cases heq
      · have htake := congrArg length (cons.inj heq).1
        rw [length_take] at htake
        omega

def Waiting (s : Transmitter) : Prop := ∀ frame ∈ s.queue, frame ≠ []

theorem foldl_pushFrame_frame (page : Nat) (frames : List Frame) (s : Transmitter) :
    (frames.foldl (pushFrame page) s).queue = s.queue ∧
      (frames.foldl (pushFrame page) s).sent = s.sent := by
  induction frames generalizing s with
  | nil => exact ⟨rfl, rfl⟩
  | cons frame frames ih =>
    obtain ⟨hqueue, hsent⟩ := ih (pushFrame page s frame)
    rw [foldl_cons, hqueue, hsent, pushFrame]
    split <;> exact ⟨rfl, rfl⟩

/-- The bytes posted are the frames sent, in every state of a run, exactly as long as each
round has descriptors for all it takes from the queue. -/
theorem frames_complete_iff (page : Nat) (hpage : 0 < page) (es : List Event) :
    Machine.Always (step page) Complete {} es ↔ Machine.EachStep (step page) (Fits page) {} es := by
  refine Machine.always_iff_eachStep (I := Waiting) (fun s e t hi hp ht => ?_)
    (by simp [Waiting]) rfl
  cases e with
  | send payload =>
    cases ht
    refine ⟨?_, iff_of_true ?_ trivial⟩
    · intro frame hframe
      rcases mem_append.mp hframe with h | h
      · exact hi frame h
      · rw [mem_singleton.mp h]
        exact ne_nil_of_length_pos (by simp [frameOf])
    · rw [Complete, ← append_assoc, hp]
  | complete k =>
    obtain ⟨n, -, rfl⟩ := map_eq_some_iff.mp ht
    exact ⟨hi, iff_of_true hp trivial⟩
  | push =>
    cases ht
    obtain ⟨hqueue, hsent⟩ := foldl_pushFrame_frame page s.queue { s with queue := [] }
    refine ⟨by simp [Waiting, dataTxPush, hqueue], ?_⟩
    rw [Complete, dataTxPush, hqueue, hsent, append_nil]
    exact (Eq.congr_right hp.symm).trans
      (foldl_pushFrame_iff hpage { s with queue := [] } s.queue hi)

theorem frames_complete_iff_page : 0 < 16384 ∧
    (Machine.Always (step 16384) Complete {} [.send [1], .push] ↔
      Machine.EachStep (step 16384) (Fits 16384) {} [.send [1], .push]) :=
  ⟨by decide, frames_complete_iff 16384 (by decide) _⟩

/-- A payload of 64 pages of 16 KiB, with its length, needs 65: its last four bytes are not
sent, and the frame is gone. -/
theorem frame_cut_off : ∃ payload : List UInt8, payload.length = 64 * 16384 ∧
    ∃ t, Machine.exec (step 16384) {} [.send payload, .push] = some t ∧ t.queue = [] ∧
      t.posted.map flatten = [(frameOf payload).take (64 * 16384)] ∧ ¬Complete t := by
  obtain ⟨payload, hlen⟩ : ∃ payload : List UInt8, payload.length = 64 * 16384 :=
    ⟨replicate _ 7, length_replicate⟩
  have hframe : (frameOf payload).length = 64 * 16384 + 4 := by simp [frameOf, hlen]
  have hne : frameOf payload ≠ [] := ne_nil_of_length_pos (by omega)
  have hqueue := (foldl_pushFrame_frame 16384 [frameOf payload] { sent := [frameOf payload] }).1
  have hposted := (pushFrame_spec (show 0 < 16384 by decide) { sent := [frameOf payload] } hne).2
  refine ⟨payload, hlen, _, rfl, hqueue, hposted, fun h => ?_⟩
  have htake := singleton_inj.mp (hposted.symm.trans ((append_nil _).symm.trans h))
  have hshort := congrArg length htake
  rw [length_take, hframe] at hshort
  simp [qsz] at hshort

end Transmitter

end FridaCore.Barebone
