import FridaCore.Base.Buffer
import FridaCore.Support.Machine

/-!
# Pairing

`PlainPairingTransport` and `find_peer_matching_service` of `src/fruity/pairing.vala`.

The transport writes the size of a message as a `uint16`. Messages come out as they were
posted, however the bytes are split into reads, exactly if none of them is too large for
that and no batch is too large to be written: a message that is gets cut, and what is behind
the cut is read as the next message; a batch that is gets lost.

A service is taken for a peer by comparing as many bytes as the service advertises, not
as many as there are in the tag of the peer.
-/

namespace FridaCore.Fruity

open Machine List

/-- The texts that `validate` and `JsonObjectReader` accept. -/
class JsonText where
  accepts : List UInt8 → Bool

namespace PlainPairingTransport

def magic : List UInt8 := "RPPairing".toList.map fun c => .ofNat c.toNat

/-- The data of some bytes as an array, whose length is an `int`. With one that is negative,
copying goes out of bounds. -/
def arrayOf (bytes : List UInt8) : Option (List UInt8) :=
  if bytes.length % 2 ^ 32 < 2 ^ 31 then some (bytes.take (bytes.length % 2 ^ 32)) else none

/-- The bytes that `post` appends to what is pending. -/
def frame (msg : List UInt8) : Option (List UInt8) := do
  let data ← arrayOf msg
  return (((BufferBuilder.ofBytes []).appendData magic).appendData
    (beBytes 2 (msg.length % 2 ^ 16))).appendData data |>.buffer

/-- The output: what is pending, the batch that is being written, and what has been. -/
structure Writer where
  pendingOutput : List UInt8 := []
  writing : Bool := false
  batch : Option (List UInt8) := none
  written : List UInt8 := []
  deriving DecidableEq, Repr

inductive WriterEvent
  | post (msg : List UInt8)
  | idle
  | batchWritten
  deriving DecidableEq, Repr

namespace Writer

/-- A turn of the loop of `process_pending_output`. -/
def writeNext (w : Writer) : Writer :=
  if w.pendingOutput = [] then { w with writing := false }
  else { w with pendingOutput := [], batch := some w.pendingOutput }

/-- The first `post` for a while has an idle callback started, which begins to write. The length
of a batch is an `int`: `write_all_async` refuses one that is negative, which ends the loop. There
is no more pending than a `GByteArray` can hold. -/
def step (w : Writer) : WriterEvent → Option Writer
  | .post msg => do
    let rawMsg ← frame msg
    if (w.pendingOutput ++ rawMsg).length < 2 ^ 32 then
      return { w with pendingOutput := w.pendingOutput ++ rawMsg, writing := true }
    else none
  | .idle => if w.writing ∧ w.batch = none then some w.writeNext else none
  | .batchWritten => do
    let batch ← w.batch
    if batch.length < 2 ^ 31 then
      return { w with batch := none, written := w.written ++ batch }.writeNext
    else return { w with batch := none, writing := false }

def Accepts (w : Writer) (e : WriterEvent) : Prop :=
  e = .batchWritten → ∀ batch ∈ w.batch, batch.length < 2 ^ 31

instance (w : Writer) (e : WriterEvent) : Decidable (w.Accepts e) :=
  inferInstanceAs (Decidable (_ → _))

end Writer

def posted (es : List WriterEvent) : List (List UInt8) :=
  es.filterMap fun
    | .post msg => some msg
    | _ => none

def headerSize : Nat := 11

/-- Reads until there are enough bytes. Without any the connection has been closed. -/
def fillUntilNBytesAvailable (minimum : Nat) :
    (input : List UInt8) → (reads : List (List UInt8)) → Option (List UInt8 × List (List UInt8))
  | input, reads =>
    if minimum ≤ input.length then some (input, reads)
    else match reads with
      | [] => none
      | read :: reads =>
        if read = [] then none else fillUntilNBytesAvailable minimum (input ++ read) reads

section
variable [JsonText]

def readMessage (input : List UInt8) (reads : List (List UInt8)) :
    Option (List UInt8 × List UInt8 × List (List UInt8)) := do
  let (input, reads) ← fillUntilNBytesAvailable headerSize input reads
  guard (input.take 9 = magic)
  let bodySize := beValue ((input.drop 9).take 2)
  guard (2 ≤ bodySize)
  let fullSize := headerSize + bodySize
  let (input, reads) ← fillUntilNBytesAvailable fullSize input reads
  let json := ((input.drop headerSize).take bodySize).takeWhile (· ≠ 0)
  guard (JsonText.accepts json)
  return (json, input.drop fullSize, reads)

def processIncomingMessages :
    (fuel : Nat) → (input : List UInt8) → (reads : List (List UInt8)) → List (List UInt8)
  | 0, _, _ => []
  | fuel + 1, input, reads =>
    match readMessage input reads with
    | none => []
    | some (json, input, reads) => json :: processIncomingMessages fuel input reads

def receive (reads : List (List UInt8)) : List (List UInt8) :=
  processIncomingMessages (reads.flatten.length + 1) [] reads

end

variable {msg : List UInt8} {msgs : List (List UInt8)} {stream : List UInt8}

theorem frame_eq (msg : List UInt8) : frame msg = (arrayOf msg).map fun data =>
    magic ++ beBytes 2 (msg.length % 2 ^ 16) ++ data := by
  cases h : arrayOf msg <;> simp [frame, h]

theorem frame_of_lt (h : msg.length < 2 ^ 31) :
    frame msg = some (magic ++ beBytes 2 (msg.length % 2 ^ 16) ++ msg) := by
  have hmod : msg.length % 2 ^ 32 = msg.length := Nat.mod_eq_of_lt (by omega)
  simp only [frame_eq, arrayOf, hmod, if_pos h, take_length, Option.map_some]

@[simp] theorem length_magic : magic.length = 9 := by decide

theorem frame_ne_nil (h : frame msg = some rawMsg) : rawMsg ≠ [] := by
  rw [frame_eq, Option.map_eq_some_iff] at h
  obtain ⟨data, -, rfl⟩ := h
  intro hnil
  have hlength := congrArg length hnil
  simp only [length_append, length_magic, length_nil] at hlength
  omega

def framed (msgs : List (List UInt8)) : Option (List UInt8) := (msgs.mapM frame).map List.flatten

theorem framed_append (msgs more : List (List UInt8)) : framed (msgs ++ more) =
    (framed msgs).bind fun stream => (framed more).map (stream ++ ·) := by
  simp only [framed, mapM_append]
  cases msgs.mapM frame <;> cases more.mapM frame <;> simp

theorem framed_cons : framed (msg :: msgs) = some stream ↔
    ∃ rawMsg more, frame msg = some rawMsg ∧ framed msgs = some more ∧ rawMsg ++ more = stream := by
  simp only [framed, mapM_cons]
  cases frame msg <;> cases msgs.mapM frame <;> simp

theorem length_le_framed (h : framed msgs = some stream) : msgs.length ≤ stream.length := by
  induction msgs generalizing stream with
  | nil => exact Nat.zero_le _
  | cons msg msgs ih =>
    obtain ⟨rawMsg, more, hframe, hmore, rfl⟩ := framed_cons.mp h
    have hpos := length_pos_iff.mpr (frame_ne_nil hframe)
    have hle := ih hmore
    rw [length_append, length_cons]
    omega

theorem length_framed (hlt : ∀ msg ∈ msgs, msg.length < 2 ^ 16) (h : framed msgs = some stream) :
    stream.length = (msgs.map fun msg => headerSize + msg.length).sum := by
  induction msgs generalizing stream with
  | nil =>
    cases h
    rfl
  | cons msg msgs ih =>
    obtain ⟨hmsg, hmsgs⟩ := forall_mem_cons.mp hlt
    obtain ⟨rawMsg, more, hframe, hmore, rfl⟩ := framed_cons.mp h
    rw [frame_of_lt (by omega), Option.some.injEq] at hframe
    subst hframe
    simp only [length_append, length_magic, length_beBytes, ih hmsgs hmore, map_cons, sum_cons,
      headerSize]

namespace Writer

variable {w w' : Writer}

def output (w : Writer) : List UInt8 := w.written ++ w.batch.getD [] ++ w.pendingOutput

def Idle (w : Writer) : Prop := w.writing = false → w.batch = none ∧ w.pendingOutput = []

theorem output_writeNext (h : w.batch = none) : w.writeNext.output = w.output := by
  unfold writeNext
  split
  · rfl
  · simp [output, h]

theorem idle_writeNext (h : w.batch = none) (hw : w.writing = true) : w.writeNext.Idle := by
  unfold writeNext
  split
  · next hnil => exact fun _ => ⟨h, hnil⟩
  · exact fun hidle => absurd (hw.symm.trans hidle) (by decide)

/-- A step adds to the output what is posted, unless a batch is refused: then less is left. -/
theorem output_step (h : w.step e = some w') :
    ∃ more, framed (posted [e]) = some more ∧
      if w.Accepts e then (w.Idle → w'.Idle) ∧ w'.output = w.output ++ more
      else w'.output.length < w.output.length + more.length := by
  cases e with
  | post msg =>
    simp only [step, Option.bind_eq_bind, Option.bind_eq_some_iff, Option.pure_def,
      Option.ite_none_right_eq_some, Option.some.injEq] at h
    obtain ⟨rawMsg, hframe, -, rfl⟩ := h
    refine ⟨rawMsg, by simp [posted, framed, hframe], ?_⟩
    rw [if_pos nofun]
    exact ⟨fun _ hidle => Bool.noConfusion hidle, by simp [output]⟩
  | idle =>
    simp only [step] at h
    split at h
    · next hw =>
      cases h
      refine ⟨[], rfl, ?_⟩
      rw [if_pos nofun]
      exact ⟨fun _ => idle_writeNext hw.2 hw.1, by rw [output_writeNext hw.2, append_nil]⟩
    · cases h
  | batchWritten =>
    simp only [step, Option.bind_eq_bind, Option.bind_eq_some_iff] at h
    obtain ⟨batch, hbatch, h⟩ := h
    refine ⟨[], rfl, ?_⟩
    split at h
    · next hlt =>
      cases h
      rw [if_pos (by simpa [Accepts, hbatch] using hlt)]
      refine ⟨fun hi => idle_writeNext rfl ?_, ?_⟩
      · by_contra hw
        have hnone := (hi (by simpa using hw)).1
        rw [hbatch] at hnone
        cases hnone
      · rw [output_writeNext rfl]
        simp [output, hbatch]
    · next hge =>
      cases h
      rw [if_neg (by simpa [Accepts, hbatch] using hge)]
      simp only [output, hbatch, length_append, Option.getD_none, Option.getD_some, length_nil]
      omega

/-- After any run in which no batch is refused, the output has the messages that were posted, in
their order; after another one, it has less. -/
theorem output_exec (h : exec step w es = some w') :
    ∃ more, framed (posted es) = some more ∧
      if EachStep step Accepts w es then (w.Idle → w'.Idle) ∧ w'.output = w.output ++ more
      else w'.output.length < w.output.length + more.length := by
  induction es generalizing w with
  | nil =>
    cases h
    have hnone : EachStep step Accepts w' [] := trivial
    refine ⟨[], rfl, ?_⟩
    rw [if_pos hnone, append_nil]
    exact ⟨id, rfl⟩
  | cons e es ih =>
    obtain ⟨w₁, hstep, hrest⟩ := Option.bind_eq_some_iff.mp h
    obtain ⟨more₁, hmore₁, hfirst⟩ := output_step hstep
    obtain ⟨more₂, hmore₂, hlater⟩ := ih hrest
    refine ⟨more₁ ++ more₂, ?_, ?_⟩
    · have happend : posted (e :: es) = posted [e] ++ posted es := by
        rw [posted, posted, posted, ← filterMap_append, singleton_append]
      rw [happend, framed_append, hmore₁, hmore₂]
      rfl
    · have heach : EachStep step Accepts w (e :: es) ↔
          w.Accepts e ∧ EachStep step Accepts w₁ es := by
        simp [EachStep, hstep]
      have hle₁ : w₁.output.length ≤ w.output.length + more₁.length := by
        split at hfirst
        · rw [hfirst.2, length_append]
        · exact hfirst.le
      simp only [heach]
      by_cases hlast : EachStep step Accepts w₁ es
      · rw [if_pos hlast] at hlater
        by_cases haccepts : w.Accepts e
        · rw [if_pos haccepts] at hfirst
          rw [if_pos ⟨haccepts, hlast⟩, hlater.2, hfirst.2, append_assoc]
          exact ⟨hlater.1 ∘ hfirst.1, rfl⟩
        · rw [if_neg haccepts] at hfirst
          rw [if_neg fun hboth => haccepts hboth.1, hlater.2, length_append, length_append]
          omega
      · rw [if_neg hlast] at hlater
        rw [if_neg fun hboth => hlast hboth.2, length_append]
        omega

end Writer

section
variable {minimum : Nat} {input : List UInt8} {reads : List (List UInt8)}

/-- What has been read and what is going to be, as far as there is something in each read. -/
structure Ahead (input : List UInt8) (reads : List (List UInt8)) (bytes : List UInt8) : Prop where
  eq : input ++ reads.flatten = bytes
  nonempty : ∀ read ∈ reads, read ≠ []

section
variable (h : Ahead input reads bytes)
include h

theorem fill_ahead (hfill : fillUntilNBytesAvailable minimum input reads = some (input', reads')) :
    Ahead input' reads' bytes ∧ minimum ≤ input'.length := by
  fun_induction fillUntilNBytesAvailable minimum input reads with
  | case1 input reads hle =>
    cases hfill
    exact ⟨h, hle⟩
  | case2 | case3 => cases hfill
  | case4 input hlt read reads hread ih =>
    exact ih ⟨by rw [← h.eq]; simp, (forall_mem_cons.mp h.nonempty).2⟩ hfill

theorem fill_of_le (hle : minimum ≤ bytes.length) : ∃ input' reads',
    fillUntilNBytesAvailable minimum input reads = some (input', reads') ∧
      Ahead input' reads' bytes ∧ minimum ≤ input'.length := by
  induction reads generalizing input with
  | nil =>
    have hinput : minimum ≤ input.length := by
      rw [← h.eq] at hle
      simpa using hle
    exact ⟨input, [], by rw [fillUntilNBytesAvailable, if_pos hinput], h, hinput⟩
  | cons read reads ih =>
    obtain ⟨heq, hne⟩ := h
    by_cases hinput : minimum ≤ input.length
    · exact ⟨input, _, by rw [fillUntilNBytesAvailable, if_pos hinput], ⟨heq, hne⟩, hinput⟩
    · obtain ⟨hread, hreads⟩ := forall_mem_cons.mp hne
      rw [fillUntilNBytesAvailable, if_neg hinput]
      simp only [if_neg hread]
      exact ih ⟨by rw [← heq]; simp, hreads⟩

theorem fill_of_lt (hlt : bytes.length < minimum) :
    fillUntilNBytesAvailable minimum input reads = none := by
  induction reads generalizing input with
  | nil =>
    have hinput : ¬minimum ≤ input.length := by
      rw [← h.eq] at hlt
      simpa using hlt
    rw [fillUntilNBytesAvailable, if_neg hinput]
  | cons read reads ih =>
    obtain ⟨heq, hne⟩ := h
    obtain ⟨hread, hreads⟩ := forall_mem_cons.mp hne
    have hinput : ¬minimum ≤ input.length := by
      rw [← heq, length_append] at hlt
      omega
    rw [fillUntilNBytesAvailable, if_neg hinput]
    simp only [if_neg hread]
    exact ih ⟨by rw [← heq]; simp, hreads⟩

theorem Ahead.take (hle : start + n ≤ input.length) :
    (input.drop start).take n = (bytes.drop start).take n := by
  rw [← h.eq, drop_append_of_le_length (by omega), take_append_of_le_length]
  rw [length_drop]
  omega

theorem Ahead.drop (hle : n ≤ input.length) : Ahead (input.drop n) reads (bytes.drop n) := by
  refine ⟨?_, h.nonempty⟩
  rw [← h.eq, drop_append_of_le_length hle]

end

variable [JsonText]

theorem readMessage_eq (hsize : body.length = size)
    (hlt : size < 2 ^ 16) (h : Ahead input reads (magic ++ beBytes 2 size ++ body ++ rest)) :
    ∃ input' reads', Ahead input' reads' rest ∧ readMessage input reads =
      if 2 ≤ size ∧ JsonText.accepts (body.takeWhile (· ≠ 0)) then
        some (body.takeWhile (· ≠ 0), input', reads')
      else none := by
  have hlength : (magic ++ beBytes 2 size ++ body ++ rest).length = 11 + size + rest.length := by
    simp only [length_append, length_magic, length_beBytes, hsize]
  have hmagic : ((magic ++ beBytes 2 size ++ body ++ rest).drop 0).take 9 = magic := by
    rw [append_assoc, append_assoc, drop_zero, ← length_magic, take_left]
  have hfield : ((magic ++ beBytes 2 size ++ body ++ rest).drop 9).take 2 = beBytes 2 size := by
    rw [append_assoc, append_assoc, ← length_magic, drop_left]
    exact take_left' (length_beBytes 2 size)
  have hheader : (magic ++ beBytes 2 size).length = headerSize := by
    simp only [length_append, length_magic, length_beBytes, headerSize]
  have hbody : ((magic ++ beBytes 2 size ++ body ++ rest).drop headerSize).take size = body := by
    rw [append_assoc, ← hheader, drop_left]
    exact take_left' hsize
  have hrest : (magic ++ beBytes 2 size ++ body ++ rest).drop (headerSize + size) = rest := by
    refine drop_left' ?_
    rw [length_append, hheader, hsize]
  have hvalue : beValue (beBytes 2 size) = size := by
    rw [beValue_beBytes, Nat.mod_eq_of_lt (by omega)]
  obtain ⟨input₁, reads₁, hfill₁, hahead₁, hle₁⟩ := fill_of_le h
    (show headerSize ≤ _ by rw [hlength, headerSize]; omega)
  obtain ⟨input₂, reads₂, hfill₂, hahead₂, hle₂⟩ := fill_of_le hahead₁
    (show headerSize + size ≤ _ by rw [hlength, headerSize]; omega)
  have htake₁ : (input₁.drop 0).take 9 = _ := hahead₁.take (by rw [headerSize] at hle₁; omega)
  have htake₂ : (input₁.drop 9).take 2 = _ := hahead₁.take (by rw [headerSize] at hle₁; omega)
  have htake₃ : (input₂.drop headerSize).take size = _ := hahead₂.take hle₂
  rw [hmagic, drop_zero] at htake₁
  rw [hfield] at htake₂
  rw [hbody] at htake₃
  refine ⟨input₂.drop (headerSize + size), reads₂, hrest ▸ hahead₂.drop hle₂, ?_⟩
  simp only [readMessage, hfill₁, Option.bind_eq_bind, Option.bind_some, htake₁, htake₂, hvalue,
    hfill₂, htake₃]
  by_cases h2 : 2 ≤ size
  · cases JsonText.accepts (body.takeWhile (· ≠ 0)) <;> simp [h2, guard]
  · simp [h2, guard]

theorem readMessage_nil (h : Ahead input reads []) : readMessage input reads = none := by
  have hfill : fillUntilNBytesAvailable headerSize input reads = none :=
    fill_of_lt h (by decide)
  simp only [readMessage, hfill, Option.bind_eq_bind, Option.bind_none]

structure IsText (msg : List UInt8) : Prop where
  two_le : 2 ≤ msg.length
  noNul : 0 ∉ msg
  accepted : JsonText.accepts msg = true

theorem IsText.takeWhile_eq (h : IsText msg) : msg.takeWhile (· ≠ 0) = msg :=
  takeWhile_eq_self_iff.2 fun _ hb => decide_eq_true fun h0 => h.noNul (h0 ▸ hb)

theorem readMessage_frame (htext : IsText msg)
    (hlt : msg.length < 2 ^ 16) (hframe : frame msg = some rawMsg)
    (h : Ahead input reads (rawMsg ++ rest)) :
    ∃ input' reads', Ahead input' reads' rest ∧
      readMessage input reads = some (msg, input', reads') := by
  rw [frame_of_lt (by omega), Nat.mod_eq_of_lt hlt, Option.some.injEq] at hframe
  subst hframe
  obtain ⟨input', reads', hahead, heq⟩ := readMessage_eq rfl hlt h
  rw [htext.takeWhile_eq, if_pos ⟨htext.two_le, htext.accepted⟩] at heq
  exact ⟨input', reads', hahead, heq⟩

/-- Messages that their sizes have room for are delivered one after the other. -/
theorem processIncomingMessages_append (fuel : Nat)
    (hmsgs : ∀ msg ∈ msgs, IsText msg ∧ msg.length < 2 ^ 16) (hframed : framed msgs = some stream)
    (h : Ahead input reads (stream ++ rest)) :
    ∃ input' reads', Ahead input' reads' rest ∧
      processIncomingMessages (msgs.length + fuel) input reads =
        msgs ++ processIncomingMessages fuel input' reads' := by
  induction msgs generalizing stream input reads with
  | nil =>
    cases hframed
    exact ⟨input, reads, h, by simp⟩
  | cons msg msgs ih =>
    obtain ⟨⟨htext, hlt⟩, hmsgs⟩ := forall_mem_cons.mp hmsgs
    obtain ⟨rawMsg, more, hframe, hmore, rfl⟩ := framed_cons.mp hframed
    rw [append_assoc] at h
    obtain ⟨input₁, reads₁, hahead₁, hread⟩ := readMessage_frame htext hlt hframe h
    obtain ⟨input₂, reads₂, hahead₂, heq⟩ := ih hmsgs hmore hahead₁
    refine ⟨input₂, reads₂, hahead₂, ?_⟩
    rw [length_cons, Nat.succ_add, processIncomingMessages, hread]
    simp only [heq, cons_append]

/-- A message that is delivered has a size that its header has room for, and takes as many bytes
of what is read. -/
theorem readMessage_size (h : Ahead input reads bytes)
    (hread : readMessage input reads = some (json, input', reads')) : json.length < 2 ^ 16 ∧
      ∃ rest, Ahead input' reads' rest ∧ headerSize + json.length + rest.length ≤ bytes.length := by
  simp only [readMessage, Option.bind_eq_bind, Option.bind_eq_some_iff, Option.pure_def,
    Option.some.injEq, Option.guard_eq_some', exists_const, Prod.exists, Prod.mk.injEq] at hread
  obtain ⟨input₁, reads₁, hfill₁, -, -, input₂, reads₂, hfill₂, -, rfl, rfl, rfl⟩ := hread
  obtain ⟨hahead₁, -⟩ := fill_ahead h hfill₁
  obtain ⟨hahead₂, hle⟩ := fill_ahead hahead₁ hfill₂
  have hvalue : beValue ((input₁.drop 9).take 2) < 2 ^ 16 :=
    (beValue_lt _).trans_le (Nat.pow_le_pow_right (by decide) (length_take_le _ _))
  have hshort := ((takeWhile_sublist (fun b : UInt8 => b ≠ 0)).length_le).trans
    (length_take_le (beValue ((input₁.drop 9).take 2)) (input₂.drop headerSize))
  refine ⟨by omega, _, hahead₂.drop hle, ?_⟩
  have htotal := congrArg length hahead₂.eq
  rw [length_append] at htotal
  rw [length_drop]
  omega

theorem processIncomingMessages_size (fuel : Nat) (h : Ahead input reads bytes) :
    (∀ msg ∈ processIncomingMessages fuel input reads, msg.length < 2 ^ 16) ∧
      ((processIncomingMessages fuel input reads).map fun msg => headerSize + msg.length).sum ≤
        bytes.length := by
  induction fuel generalizing input reads bytes with
  | zero => simp [processIncomingMessages]
  | succ fuel ih =>
    rw [processIncomingMessages]
    split
    · simp
    · next json input reads hread =>
      obtain ⟨hjson, rest, hahead, hsize⟩ := readMessage_size h hread
      obtain ⟨hall, hsum⟩ := ih hahead
      refine ⟨forall_mem_cons.mpr ⟨hjson, hall⟩, ?_⟩
      rw [map_cons, sum_cons]
      omega

theorem receive_size (hne : ∀ read ∈ reads, read ≠ []) :
    (∀ msg ∈ receive reads, msg.length < 2 ^ 16) ∧
      ((receive reads).map fun msg => headerSize + msg.length).sum ≤ reads.flatten.length :=
  processIncomingMessages_size _ ⟨nil_append _, hne⟩

/-- Messages are delivered as they were posted, however their bytes are split into reads,
exactly if their sizes have room for them and each batch has a size that can be written. -/
theorem delivered_iff (hmsgs : ∀ msg ∈ posted es, IsText msg)
    (hrun : exec Writer.step {} es = some w) (hdone : w.writing = false)
    (hne : ∀ read ∈ reads, read ≠ []) (hreads : reads.flatten = w.written) :
    receive reads = posted es ↔ (∀ msg ∈ posted es, msg.length < 2 ^ 16) ∧
      EachStep Writer.step Writer.Accepts {} es := by
  obtain ⟨stream, hstream, houtput⟩ := Writer.output_exec hrun
  constructor
  · intro hreceived
    obtain ⟨hlt, hsum⟩ := receive_size hne
    rw [hreceived] at hlt hsum
    refine ⟨hlt, ?_⟩
    -- a batch that was refused would be missing from what was received
    by_contra hrefused
    rw [if_neg hrefused] at houtput
    have hlength := length_framed hlt hstream
    simp only [Writer.output, Option.getD_none, length_append, length_nil] at houtput
    rw [hreads] at hsum
    omega
  · rintro ⟨hlt, haccepted⟩
    rw [if_pos haccepted] at houtput
    obtain ⟨hbatch, hpending⟩ := houtput.1 (fun _ => ⟨rfl, rfl⟩) hdone
    have hwritten : w.written = stream := by
      simpa [Writer.output, hbatch, hpending] using houtput.2
    rw [← hreads] at hwritten
    have hahead : Ahead [] reads (stream ++ []) := ⟨by simp [hwritten], hne⟩
    have hle := length_le_framed hstream
    obtain ⟨input, reads', hrest, heq⟩ := processIncomingMessages_append
      (stream.length - (posted es).length + 1)
      (fun msg hmem => ⟨hmsgs msg hmem, hlt msg hmem⟩) hstream hahead
    rw [receive, hwritten, show stream.length + 1 =
      (posted es).length + (stream.length - (posted es).length + 1) by omega, heq,
      processIncomingMessages, readMessage_nil hrest]
    exact append_nil _

end

@[reducible] def anyText : JsonText := ⟨fun _ => true⟩

/-- An empty object and an empty array in one batch, which is read in two parts. -/
theorem delivered_iff_sample : ∃ w,
    exec Writer.step {} [.post [0x7b, 0x7d], .post [0x5b, 0x5d], .idle, .batchWritten] = some w ∧
      @receive anyText [w.written.take 20, w.written.drop 20] = [[0x7b, 0x7d], [0x5b, 0x5d]] := by
  let _ := anyText
  have hmsgs : ∀ msg ∈ posted [.post [0x7b, 0x7d], .post [0x5b, 0x5d], .idle, .batchWritten],
      IsText msg := forall_mem_cons.mpr ⟨⟨by decide, by decide, rfl⟩,
    forall_mem_cons.mpr ⟨⟨by decide, by decide, rfl⟩, by simp⟩⟩
  exact ⟨_, rfl, (delivered_iff hmsgs rfl rfl (by decide) (by decide)).mpr (by decide)⟩

theorem exec_post (h : frame msg = some rawMsg) (hlt : rawMsg.length < 2 ^ 31) :
    exec Writer.step {} [.post msg, .idle, .batchWritten] = some { written := rawMsg } := by
  have hlength : rawMsg.length < 2 ^ 32 := hlt.trans (by decide)
  have hne := frame_ne_nil h
  have hpost : Writer.step {} (.post msg) =
      some { pendingOutput := rawMsg, writing := true } := by
    simp only [Writer.step, h, Option.bind_eq_bind, Option.bind_some, nil_append, if_pos hlength]
    rfl
  have hidle : Writer.step { pendingOutput := rawMsg, writing := true } .idle =
      some { writing := true, batch := some rawMsg } := by
    simp [Writer.step, Writer.writeNext, hne]
  rw [exec, hpost, Option.bind_some, exec, hidle, Option.bind_some, exec]
  simp only [Writer.step, Option.bind_eq_bind, Option.bind_some, if_pos hlt]
  rfl

/-- A text that is too large by one byte is not delivered. -/
theorem largeMessage_not_delivered : ∃ msg : List UInt8, msg.length = 2 ^ 16 ∧
    @IsText anyText msg ∧ ∃ w, exec Writer.step {} [.post msg, .idle, .batchWritten] = some w ∧
      w.writing = false ∧ w.written ≠ [] ∧ @receive anyText [w.written] ≠ [msg] := by
  let _ := anyText
  have hlength : (replicate (2 ^ 16) (0x20 : UInt8)).length = 2 ^ 16 :=
    length_replicate ..
  have htext : IsText (replicate (2 ^ 16) 0x20) := by
    refine ⟨by rw [hlength]; decide, fun hzero => ?_, rfl⟩
    exact absurd (mem_replicate.mp hzero).2 (by decide)
  have hframe := frame_of_lt (hlength.trans_lt (by decide))
  have hrun := exec_post hframe
    (by simp only [length_append, length_magic, length_beBytes, hlength]; decide)
  have hne := frame_ne_nil hframe
  refine ⟨_, hlength, htext, _, hrun, rfl, hne, fun hreceived => ?_⟩
  have hall := (receive_size (forall_mem_singleton.mpr hne)).1
  rw [hreceived] at hall
  exact absurd (hall _ mem_cons_self) (by rw [hlength]; decide)

end PlainPairingTransport

structure PairingPeer where
  identifier : List UInt8
  irk : List UInt8
  deriving DecidableEq, Repr

/-- `PairingServiceDetails`, as far as it is compared. -/
structure PairingServiceDetails where
  identifier : List UInt8
  authTag : List UInt8
  deriving DecidableEq, Repr

/-- The code that `OpenSSL` makes, and the memory behind a local array. -/
class PairingMemory where
  siphash : (key message : List UInt8) → Fin 8 → UInt8
  behind : PairingPeer → List UInt8

namespace PairingStore

variable [PairingMemory] {peers : List PairingPeer} {service : PairingServiceDetails}

def tag (service : PairingServiceDetails) (peer : PairingPeer) : List UInt8 :=
  let output := PairingMemory.siphash peer.irk service.identifier
  [output 5, output 4, output 3, output 2, output 1, output 0]

/-- `Memory.cmp`, over as many bytes as the service has. -/
def matchesTag (service : PairingServiceDetails) (peer : PairingPeer) : Bool :=
  service.authTag.isPrefixOf (tag service peer ++ PairingMemory.behind peer)

def findPeerMatchingService (peers : List PairingPeer) (service : PairingServiceDetails) :
    Option PairingPeer :=
  peers.find? (matchesTag service)

theorem length_tag (service : PairingServiceDetails) (peer : PairingPeer) :
    (tag service peer).length = 6 := rfl

/-- The peer that is found is the right one exactly if the service has a tag of six bytes, or
there is no peer whose tag agrees with what it has. -/
theorem findPeer_iff : (∀ peer, findPeerMatchingService peers service = some peer →
      service.authTag.length = 6 ∧ service.authTag = tag service peer) ↔
    service.authTag.length = 6 ∨
      ∀ peer ∈ peers, ¬service.authTag <+: tag service peer ++ PairingMemory.behind peer := by
  have hmatches : ∀ peer, matchesTag service peer = true ↔
      service.authTag <+: tag service peer ++ PairingMemory.behind peer := fun peer =>
    isPrefixOf_iff_prefix
  constructor
  · intro h
    cases hfind : findPeerMatchingService peers service with
    | none =>
      refine .inr fun peer hpeer => ?_
      rw [← hmatches]
      exact find?_eq_none.mp hfind peer hpeer
    | some peer => exact .inl (h peer hfind).1
  · intro h peer hfind
    have hprefix := (hmatches peer).mp (find?_some hfind)
    rcases h with hsix | hnone
    · refine ⟨hsix, ?_⟩
      have htake := prefix_iff_eq_take.mp hprefix
      rwa [hsix, ← length_tag service peer, take_left] at htake
    · exact absurd hprefix (hnone peer (mem_of_find?_eq_some hfind))

end PairingStore

@[reducible] def zeroMemory : PairingMemory := ⟨fun _ _ _ => 0, fun _ => []⟩

/-- A service without a tag is taken for the first peer. -/
theorem emptyTag_matches :
    @PairingStore.findPeerMatchingService zeroMemory [⟨[1], [2]⟩] ⟨[3], []⟩ = some ⟨[1], [2]⟩ ∧
      ([] : List UInt8).length ≠ 6 :=
  ⟨rfl, by decide⟩

end FridaCore.Fruity
