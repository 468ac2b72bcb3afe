import FridaCore.Gdb.Protocol

/-!
# Streams of packets

What a stub may put on the wire for a payload is `Encodes`: other than `append_c`, it may
write several of the same character as one with a repeat mark and a count. No encoding has
the checksum marker inside, so packets are told apart, and each is read as its payload.
-/

namespace FridaCore.Gdb

open List

/-- The characters that have to be escaped. -/
def IsSpecial (c : UInt8) : Prop := c = chr '$' ∨ c = chr '#' ∨ c = chr '\x7d' ∨ c = chr '*'

instance (c : UInt8) : Decidable (IsSpecial c) := inferInstanceAs (Decidable (_ ∨ _))

/-- Characters that need not be escaped may be, unless that gives the checksum marker. A count is
29 more than the number of repetitions, and a printable character if the stub keeps to that. -/
inductive Encodes : List UInt8 → Text → Prop
  | nil : Encodes [] []
  | plain : ¬IsSpecial c → Encodes payload body → Encodes (c :: payload) (c :: body)
  | escaped : c ^^^ escapeKey ≠ chr '#' → Encodes payload body →
      Encodes (c :: payload) (chr '\x7d' :: (c ^^^ escapeKey) :: body)
  | run : ¬IsSpecial c → n < 256 → times.toNat = (29 + n) % 256 → times ≠ chr '#' →
      Encodes payload body → Encodes (c :: replicate n c ++ payload) (c :: chr '*' :: times :: body)

/-- A packet of `PacketBuilder`, or of a stub. -/
inductive Packed (payload : List UInt8) : Text → Prop
  | builder (checksumType : ChecksumType) : Packed payload (build checksumType (Gdb.append payload))
  | stub (upper lower : UInt8) : Encodes payload body →
      Packed payload (chr '$' :: body ++ [chr '#', upper, lower])

inductive Stream : List (List UInt8) → Text → Prop
  | nil : Stream [] []
  | cons : (∀ ch ∈ acks, ch = chr '+' ∨ ch = chr '-') → Packed payload packet →
      Stream payloads rest → Stream (payload :: payloads) (acks ++ packet ++ rest)

/-- `read_packet`, as many times as given. -/
def readPackets : Nat → Text → Option (List (Except Error (List UInt8)) × Text)
  | 0, input => some ([], input)
  | count + 1, input => (readPacket input).bind fun first =>
      (readPackets count first.2).map fun others => (first.1 :: others.1, others.2)

theorem appendC_encodes (c : UInt8) (h : Encodes payload body) :
    Encodes (c :: payload) (appendC c ++ body) := by
  unfold appendC
  split
  · next hspecial =>
    refine .escaped ?_ h
    rcases hspecial with rfl | rfl | rfl | rfl <;> decide
  · next hplain => exact .plain hplain h

theorem append_encodes (payload : List UInt8) : Encodes payload (Gdb.append payload) := by
  induction payload with
  | nil => exact .nil
  | cons c payload ih =>
    rw [Gdb.append, flatMap_cons]
    exact appendC_encodes c ih

theorem depacketizeFrom_plain (h : ¬IsSpecial c) (previous : Option UInt8) (body : Text) :
    depacketizeFrom previous (c :: body) = (depacketizeFrom (some c) body).map (c :: ·) := by
  simp only [IsSpecial, not_or] at h
  cases body <;> simp [depacketizeFrom, h, Except.map]

section
variable (h : Encodes payload body)
include h

theorem Encodes.not_mem_marker : chr '#' ∉ body := by
  induction h with
  | nil => exact not_mem_nil
  | plain hc _ ih => exact not_mem_cons_of_ne_of_not_mem (fun heq => hc (.inr (.inl heq.symm))) ih
  | escaped hc _ ih =>
    simp only [mem_cons, not_or]
    exact ⟨by decide, hc.symm, ih⟩
  | run hc _ _ htimes _ ih =>
    simp only [mem_cons, not_or]
    exact ⟨fun heq => hc (.inr (.inl heq.symm)), by decide, htimes.symm, ih⟩

/-- Whatever was before, an encoding is read as its payload: a repeat mark comes only behind
the character it repeats. -/
theorem Encodes.depacketizeFrom_eq (previous : Option UInt8) :
    depacketizeFrom previous body = .ok payload := by
  induction h generalizing previous with
  | nil => rfl
  | plain hc _ ih =>
    rw [depacketizeFrom_plain hc, ih]
    rfl
  | escaped _ _ ih =>
    simp only [depacketizeFrom, if_true, ih, Except.map, UInt8.xor_assoc, UInt8.xor_self,
      UInt8.xor_zero]
  | @run c n times payload body hc hn htimes _ _ ih =>
    have hrepeat : (times - repeatBase + repeatBias).toNat = n := by
      simp only [repeatBase, repeatBias, UInt8.toNat_add, UInt8.toNat_sub]
      change ((2 ^ 8 - 32 + times.toNat) % 2 ^ 8 + 3) % 2 ^ 8 = n
      omega
    have hmark : ¬chr '*' = chr '\x7d' := by decide
    rw [depacketizeFrom_plain hc]
    simp only [depacketizeFrom, hmark, if_false, if_true, ih, hrepeat]
    rfl

end

theorem Packed.readPacket_eq (h : Packed payload packet) (remaining : Text) :
    readPacket (packet ++ remaining) = some (.ok payload, remaining) := by
  cases h with
  | builder checksumType =>
    have hencodes := append_encodes payload
    rw [readPacket_build _ hencodes.not_mem_marker, depacketize, hencodes.depacketizeFrom_eq]
  | stub upper lower hencodes =>
    rw [append_assoc, ← hencodes.depacketizeFrom_eq none]
    exact readPacket_packet hencodes.not_mem_marker upper lower remaining

theorem readPacket_acks (h : ∀ ch ∈ acks, ch = chr '+' ∨ ch = chr '-') (input : Text) :
    readPacket (acks ++ input) = readPacket input := by
  induction acks with
  | nil => rfl
  | cons ch acks ih =>
    obtain ⟨hch, hacks⟩ := forall_mem_cons.mp h
    rw [cons_append, readPacket, if_pos hch, ih hacks]

theorem toNat_computeChecksum (data : Text) :
    (computeChecksum data).toNat = (data.map UInt8.toNat).sum % 256 := by
  induction data using reverseRecOn with
  | nil => rfl
  | append_singleton data byte ih =>
    rw [computeChecksum] at ih ⊢
    simp only [foldl_append, foldl_cons, foldl_nil, UInt8.toNat_add, ih, map_append, sum_append,
      map_cons, map_nil, sum_singleton]
    omega

theorem hexByte_eq (byte : UInt8) :
    hexByte byte = [chr (byte.toNat / 16).digitChar, chr (byte.toNat % 16).digitChar] := by
  have hall : ∀ n : Fin 256, hexByte (.ofFin n) =
      [chr (n.val / 16).digitChar, chr (n.val % 16).digitChar] := by
    decide +kernel
  exact hall byte.toFin

/-- The payloads of a stream are read one after the other, whatever comes behind it, and
`build` ends a packet with the digits of the sum of its bytes. -/
theorem packetStream_roundTrip (h : Stream payloads stream) (remaining content : Text) :
    readPackets payloads.length (stream ++ remaining) = some (payloads.map .ok, remaining) ∧
      let sum := (content.map UInt8.toNat).sum % 256
      build .proper content = chr '$' :: content ++
        [chr '#', chr (sum / 16).digitChar, chr (sum % 16).digitChar] := by
  constructor
  · induction h with
    | nil => rfl
    | cons hacks hpacked _ ih =>
      rw [append_assoc, append_assoc, length_cons, readPackets, readPacket_acks hacks,
        hpacked.readPacket_eq]
      simp only [Option.bind_some, ih, Option.map_some, map_cons]
  · simp only [build, hexByte_eq, toNat_computeChecksum]

/-- Four zeros as a run, and after two acknowledgements a `#` as the client writes it. -/
theorem packetStream_roundTrip_sample : ∃ stream,
    Stream [replicate 4 (chr '0'), [chr '#']] stream ∧
      readPackets 2 stream = some ([.ok (replicate 4 (chr '0')), .ok [chr '#']], []) := by
  have hzeros : Encodes (replicate 4 (chr '0')) [chr '0', chr '*', chr ' '] :=
    .run (n := 3) (by decide) (by decide) rfl (by decide) .nil
  have hstream : Stream [replicate 4 (chr '0'), [chr '#']] _ :=
    @Stream.cons [] _ _ _ _ (by simp) (.stub (chr '7') (chr 'a') hzeros)
      (@Stream.cons [chr '+', chr '-'] _ _ _ _ (by simp) (.builder .proper) .nil)
  have hread := (packetStream_roundTrip hstream [] []).1
  rw [append_nil] at hread
  exact ⟨_, hstream, hread⟩

end FridaCore.Gdb
