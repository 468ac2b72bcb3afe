import FridaCore.Gdb.MemoryAccess
import FridaCore.Gdb.PacketStream
import FridaCore.Gdb.Responses

/-!
# Binary reads of the LLDB client

`read_byte_array` of `src/fruity/lldb.vala` asks for raw memory. The reply goes through
`depacketize` and through the dispatcher, which tells packets by how they begin: memory
that begins like a notification, or like what some request waits for, does not reach the
read.
-/

namespace FridaCore.Gdb

open List Option Connection Query

namespace Lldb

/-- The request of `read_byte_array`. -/
def readRequest (checksumType : ChecksumType) (address : UInt64) (size : Nat) : Text :=
  build checksumType
    (appendC (chr 'x') ++ appendAddress address ++ appendC (chr ',') ++ appendSize size)

/-- A reply of the stub to a request for raw memory. It may be encoded in any way. -/
def Serves (memory : Memory) (checksumType : ChecksumType) (request reply : Text) : Prop :=
  ∃ text address size body, unpack checksumType request = some (chr 'x' :: text) ∧
    readRange text = some (address, size, []) ∧ Encodes (memory.load address size) body ∧
    reply = build checksumType body

/-- The rest of `read_byte_array`, once its query is over. -/
def checkSize (address : UInt64) (size : Nat) (result : List UInt8) :
    Except QueryError (List UInt8) :=
  if result.length ≠ size then
    .error (.error (.invalidArgument
      s!"Unable to read from 0x{(hexDigits address.toNat).str}: invalid address"))
  else .ok result

/-- A turn of `process_incoming_packets` on what has come in. -/
def receive (s : Connection) (input : Text) : Option Connection :=
  (readPacket input).map fun (packet, _) =>
    match packet with
    | .ok packet => s.process packet
    | .error e => s.fail e

/-- What `read_byte_array` returns when its query is resumed; none if it is not. -/
def resume (s : Connection) (q : Nat) (address : UInt64) (size : Nat) :
    Option (Except QueryError (List UInt8)) := do
  let resumed ← s.step (.idle q)
  let (_, result) ← (resumed.query q).resumptions.getLast?
  return result.bind (checkSize address size)

/-- What `read_byte_array` returns after a packet has come in, if its query is `q`. -/
def readByteArray (s : Connection) (q : Nat) (address : UInt64) (size : Nat) (input : Text) :
    Option (Except QueryError (List UInt8)) :=
  (receive s input).bind fun received => resume received q address size

structure Awaiting (s : Connection) (q : Nat) : Prop where
  isOpen : s.closed = false
  issued : q < s.issued
  first : s.pendingResponses.find? (fun other => (s.query other).predicate.isNone) = some q
  query : s.query q = {}

variable {s : Connection} {q : Nat} {packet : Packet} {memory : Memory}

def rangeText (address : UInt64) (size : Nat) : Text :=
  appendAddress address ++ chr ',' :: appendSize size

theorem readRange_rangeText (address : UInt64) (size : Nat) :
    readRange (rangeText address size) = some (address, size, []) := by
  have hend : readHex size [] = (size, []) := rfl
  simpa [rangeText] using readRange_eq address size hend

theorem unpack_readRequest (checksumType : ChecksumType) (address : UInt64) (size : Nat) :
    unpack checksumType (readRequest checksumType address size) =
      some (chr 'x' :: rangeText address size) := by
  have hrequest : readRequest checksumType address size =
      build checksumType (chr 'x' :: rangeText address size) := by
    have hx : appendC (chr 'x') = [chr 'x'] := by decide
    have hsep : appendC (chr ',') = [chr ','] := by decide
    simp [readRequest, rangeText, hx, hsep]
  have hmarker : chr '#' ∉ (chr 'x' :: rangeText address size) := by
    have haddress := not_mem_of_digits (isLowerDigit_hexDigits address.toNat)
    have hsize := not_mem_of_digits (isLowerDigit_hexDigits size)
    have hx : chr '#' ≠ chr 'x' := by decide
    have hsep : chr '#' ≠ chr ',' := by decide
    simp [rangeText, appendAddress, appendSize, haddress, hsize, hx, hsep]
  rw [hrequest, unpack_build hmarker]

theorem serves_iff (address : UInt64) (size : Nat) :
    Serves memory checksumType (readRequest checksumType address size) reply ↔
      ∃ body, Encodes (memory.load address size) body ∧ reply = build checksumType body := by
  simp only [Serves, unpack_readRequest]
  constructor
  · rintro ⟨text, address', size', body, hunpack, hrange, hencodes, hreply⟩
    cases hunpack
    rw [readRange_rangeText] at hrange
    cases hrange
    exact ⟨body, hencodes, hreply⟩
  · rintro ⟨body, hencodes, hreply⟩
    exact ⟨_, address, size, body, rfl, readRange_rangeText address size, hencodes, hreply⟩

theorem receive_served
    (h : Serves memory checksumType (readRequest checksumType address size) reply) :
    receive s reply = some (s.process (memory.load address size)) := by
  obtain ⟨body, hencodes, rfl⟩ := (serves_iff address size).mp h
  have hread := readPacket_build checksumType hencodes.not_mem_marker []
  rw [append_nil, depacketize, hencodes.depacketizeFrom_eq] at hread
  simp [receive, hread]

theorem resume_eq_some (hissued : q < t.issued) (hidles : 0 < (t.query q).idles)
    (hhandler : (t.query q).handler = true) :
    resume t q address size = some ((t.query q).result.bind (checkSize address size)) := by
  simp [resume, step, hissued, hidles, update, runIdle, hhandler,
    result]

theorem resume_eq_none (hidles : (t.query q).idles = 0) :
    resume t q address size = none := by
  simp [resume, step, hidles]

theorem query_process_specific (hs : Awaiting s q) (hother : other ∈ s.pendingResponses)
    (haction : s.action packet other ≠ .keepTrying) : (s.process packet).query q = {} := by
  obtain ⟨taker, htaker⟩ : ∃ taker,
      s.pendingResponses.find? (fun q => s.action packet q ≠ .keepTrying) = some taker := by
    rw [← isSome_iff_exists, find?_isSome]
    exact ⟨other, hother, by simpa using haction⟩
  have hne : q ≠ taker := by
    rintro rfl
    have := find?_some htaker
    simp [action, hs.query] at this
  rw [process_specific htaker]
  split
  · exact hs.query
  · simp [update, hne, hs.query]

theorem query_process_wildcard (hs : Awaiting s q)
    (hnote : notificationType packet.payload = none)
    (hreject : ∀ other ∈ s.pendingResponses, s.action packet other = .keepTrying) :
    (s.process packet).query q = ({} : Query).completeWithResponse packet := by
  rw [process_wildcard hs.isOpen hs.first hreject hnote]
  simp [update, hs.query]

theorem resume_notification (hs : Awaiting s q) (hnote : notificationType packet.payload ≠ none)
    (hreject : ∀ other ∈ s.pendingResponses, s.action packet other = .keepTrying)
    (bytes : List UInt8) :
    resume (s.process packet) q address size ≠ some (.ok bytes) := by
  rcases process_notification hs.isOpen hreject
    (isSome_iff_ne_none.mpr hnote) with heq | ⟨e, heq⟩
  · rw [heq, resume_eq_none (by simp [hs.query])]
    exact some_ne_none _ |>.symm
  · have hmem : q ∈ s.pendingResponses := mem_of_find?_eq_some hs.first
    have hquery : (s.fail e).query q = ({} : Query).completeWithError (.error e) := by
      simp [fail, hmem, hs.query]
    rw [heq, resume_eq_some (t := s.fail e) hs.issued (by rw [hquery]; exact Nat.one_pos)
      (by rw [hquery]; rfl), hquery]
    intro h
    cases h

/-- A read returns the memory of the target if and only if what it reads is taken neither
for a notification nor by the predicate of another request. -/
theorem readByteArray_iff (s : Connection) (q : Nat) (hs : Awaiting s q) (memory : Memory)
    (checksumType : ChecksumType) (address : UInt64) (size : Nat) (reply : Text)
    (hreply : Serves memory checksumType (readRequest checksumType address size) reply) :
    readByteArray s q address size reply = some (.ok (memory.load address size)) ↔
      notificationType (Packet.payload (memory.load address size)) = none ∧
        ∀ other ∈ s.pendingResponses, s.action (memory.load address size) other = .keepTrying := by
  simp only [readByteArray, receive_served hreply, bind_some]
  by_cases hreject :
      ∀ other ∈ s.pendingResponses, s.action (memory.load address size) other = .keepTrying
  · by_cases hnote : notificationType (Packet.payload (memory.load address size)) = none
    · refine iff_of_true ?_ ⟨hnote, hreject⟩
      have hquery := query_process_wildcard hs hnote hreject
      have hissued : q < (s.process (memory.load address size)).issued := by
        rw [process_wildcard hs.isOpen hs.first hreject hnote]
        exact hs.issued
      rw [resume_eq_some hissued (by rw [hquery]; exact Nat.one_pos) (by rw [hquery]; rfl), hquery]
      simp [result, completeWithResponse, invokeHandlerInIdle, Except.bind,
        checkSize]
    · exact iff_of_false (resume_notification hs hnote hreject _) fun h => hnote h.1
  · refine iff_of_false ?_ fun h => hreject h.2
    push Not at hreject
    obtain ⟨other, hother, haction⟩ := hreject
    rw [resume_eq_none (by simp [query_process_specific hs hother haction])]
    exact some_ne_none _ |>.symm

def oneRead : Connection :=
  Connection.issue (Connection.issue {} none) (some remoteCommandPredicate)

theorem awaiting_oneRead : Awaiting oneRead 0 := by
  constructor <;> simp [oneRead, issue]

def filled (c : UInt8) : Memory := fun _ => c

theorem encodes_replicate (hc : ¬IsSpecial c) (n : Nat) :
    Encodes (replicate n c) (replicate n c) := by
  induction n with
  | zero => exact .nil
  | succ n ih => exact .plain hc ih

theorem serves_filled (checksumType : ChecksumType) (c : UInt8) (hc : ¬IsSpecial c)
    (address : UInt64) (size : Nat) :
    Serves (filled c) checksumType (readRequest checksumType address size)
      (build checksumType (replicate size c)) := by
  have hload : (filled c).load address size = replicate size c := by
    simp [Memory.load, filled, map_const']
  exact (serves_iff address size).mpr ⟨_, hload ▸ encodes_replicate hc size, rfl⟩

theorem readByteArray_iff_text :
    Awaiting oneRead 0 ∧
      Serves (filled (chr 'a')) .zeroed (readRequest .zeroed 0x1000 4)
        (build .zeroed (replicate 4 (chr 'a'))) ∧
      readByteArray oneRead 0 0x1000 4 (build .zeroed (replicate 4 (chr 'a'))) =
        some (.ok ((filled (chr 'a')).load 0x1000 4)) := by
  have hserves := serves_filled .zeroed (chr 'a') (by decide) 0x1000 4
  refine ⟨awaiting_oneRead, hserves, ?_⟩
  exact (readByteArray_iff oneRead 0 awaiting_oneRead _ .zeroed 0x1000 4 _ hserves).mpr
    (by decide +kernel)

/-- Memory that begins with a T is taken for a stop, and the read goes on waiting. -/
theorem stop_letter_lost :
    Awaiting oneRead 0 ∧
      Serves (filled (chr 'T')) .zeroed (readRequest .zeroed 0x1000 4)
        (build .zeroed (replicate 4 (chr 'T'))) ∧
      readByteArray oneRead 0 0x1000 4 (build .zeroed (replicate 4 (chr 'T'))) = none := by
  refine ⟨awaiting_oneRead, serves_filled .zeroed (chr 'T') (by decide) 0x1000 4, ?_⟩
  decide +kernel

end Lldb

end FridaCore.Gdb
