import FridaCore.Error
import FridaCore.Support.Bytes
import FridaCore.Support.Except

/-!
# Numbers, bytes and packets as text

The namespace `Protocol` of `src/gdb.vala`. A string is its bytes, without the NUL at
the end. What is parsed and unparsed again is the same text, but for the case of its
digits. Of `PacketBuilder`, what is appended is given by itself; `build` puts the marker
before it and the checksum behind it.
-/

namespace FridaCore.Gdb

open List Option UInt8

abbrev Text := List UInt8

def chr (c : Char) : UInt8 := c.toUInt8

def Text.ofString (s : String) : Text := s.toList.map chr

def Text.str (text : Text) : String := String.ofList (text.map fun b => Char.ofNat b.toNat)

inductive ByteOrder
  | bigEndian
  | littleEndian
  deriving DecidableEq, Repr

/-- `NIBBLE_TO_HEX_CHAR` -/
def nibbleToHexChar (nibble : UInt8) : UInt8 :=
  if nibble < 10 then chr '0' + nibble else chr 'a' + (nibble - 10)

/-- `HEX_CHAR_TO_NIBBLE`, where -1 is none. A `char` of 0x80 or more may be negative, and read what
is in front of the table; this is not modelled, and none here. -/
def hexCharToNibble (ch : UInt8) : Option UInt8 :=
  if chr '0' ≤ ch ∧ ch ≤ chr '9' then some (ch - chr '0')
  else if chr 'A' ≤ ch ∧ ch ≤ chr 'F' then some (ch - chr 'A' + 10)
  else if chr 'a' ≤ ch ∧ ch ≤ chr 'f' then some (ch - chr 'a' + 10)
  else none

def parseHexByte (upperCh lowerCh : UInt8) : Except Error UInt8 :=
  match hexCharToNibble upperCh, hexCharToNibble lowerCh with
  | some upper, some lower => .ok (upper <<< 4 ||| lower)
  | _, _ => .error (.protocol "Invalid hex byte")

/-- `parse_hex_bytes`. A character that is left over is not looked at. -/
def parseHexBytes : Text → Except Error (List UInt8)
  | upperCh :: lowerCh :: rest => do
    let byte ← parseHexByte upperCh lowerCh
    let bytes ← parseHexBytes rest
    return byte :: bytes
  | _ => .ok []

/-- The two digits of `append_hexbyte`. -/
def hexByte (byte : UInt8) : Text :=
  [nibbleToHexChar (byte >>> 4), nibbleToHexChar (byte &&& 0xf)]

def unparseHexBytes (bytes : List UInt8) : Text := bytes.flatMap hexByte

/-- `parse_integer_value`. The loop goes over the pairs of digits from either end. -/
def parseIntegerValue (rawVal : Text) (byteOrder : ByteOrder) : Except Error UInt64 := do
  if rawVal.length % 2 ≠ 0 then .error (.protocol s!"Invalid integer value: {rawVal.str}")
  let bytes ← parseHexBytes rawVal
  let ordered := if byteOrder = .bigEndian then bytes else bytes.reverse
  return ordered.foldl (fun val byte => val <<< 8 ||| byte.toUInt64) 0

def parsePointerValue (rawVal : Text) (pointerSize : Nat) (byteOrder : ByteOrder) :
    Except Error UInt64 := do
  if rawVal.length ≠ pointerSize * 2 then
    .error (.protocol s!"Invalid pointer value: {rawVal.str}")
  parseIntegerValue rawVal byteOrder

def byteAt (val : UInt64) (offset : Nat) : UInt8 := (val >>> (.ofNat (offset * 8)) &&& 0xff).toUInt8

def unparseIntegerValue (val : UInt64) (size : Nat) (byteOrder : ByteOrder) : Text :=
  let bytes := (List.range size).map (byteAt val)
  unparseHexBytes (if byteOrder = .littleEndian then bytes else bytes.reverse)

def IsHexDigit (ch : UInt8) : Prop := (hexCharToNibble ch).isSome

def IsLowerDigit (ch : UInt8) : Prop := IsHexDigit ch ∧ ¬(chr 'A' ≤ ch ∧ ch ≤ chr 'F')

instance : DecidablePred IsHexDigit := fun _ => inferInstanceAs (Decidable (_ = true))

instance : DecidablePred IsLowerDigit := fun _ => inferInstanceAs (Decidable (_ ∧ _))

theorem nibble_spec (ch : UInt8) : ∀ nibble ∈ hexCharToNibble ch,
    nibble < 16 ∧ (nibbleToHexChar nibble = ch ↔ IsLowerDigit ch) := by
  have hall : ∀ n : Fin 256, (hexCharToNibble (.ofFin n)).all fun nibble =>
      nibble < 16 ∧ (nibbleToHexChar nibble = .ofFin n ↔ IsLowerDigit (.ofFin n)) := by
    decide +kernel
  intro nibble hnibble
  simpa [mem_def.mp hnibble] using hall ch.toFin

theorem hexByte_or (upper lower : UInt8) (hupper : upper < 16) (hlower : lower < 16) :
    hexByte (upper <<< 4 ||| lower) = [nibbleToHexChar upper, nibbleToHexChar lower] := by
  have hall : ∀ u l : Fin 16, hexByte (ofNat u <<< 4 ||| ofNat l) =
      [nibbleToHexChar (.ofNat u), nibbleToHexChar (.ofNat l)] := by
    decide +kernel
  simpa using hall ⟨upper.toNat, hupper⟩ ⟨lower.toNat, hlower⟩

theorem parseHexByte_hexByte (byte : UInt8) :
    parseHexByte (nibbleToHexChar (byte >>> 4)) (nibbleToHexChar (byte &&& 0xf)) = .ok byte := by
  have hall : ∀ n : Fin 256, parseHexByte (nibbleToHexChar (ofFin n >>> 4))
      (nibbleToHexChar (ofFin n &&& 0xf)) = .ok (.ofFin n) := by
    decide +kernel
  exact hall byte.toFin

theorem isLowerDigit_hexByte (byte ch : UInt8) (h : ch ∈ hexByte byte) : IsLowerDigit ch := by
  have hall : ∀ n : Fin 256, (hexByte (.ofFin n)).all fun ch => IsLowerDigit ch := by
    decide +kernel
  simpa using all_eq_true.mp (hall byte.toFin) ch h

theorem parseHexByte_spec (hupper : IsHexDigit u) (hlower : IsHexDigit l) :
    ∃ byte, parseHexByte u l = .ok byte ∧
      (hexByte byte = [u, l] ↔ IsLowerDigit u ∧ IsLowerDigit l) := by
  obtain ⟨upper, hu⟩ := isSome_iff_exists.mp hupper
  obtain ⟨lower, hl⟩ := isSome_iff_exists.mp hlower
  obtain ⟨hu16, huiff⟩ := nibble_spec u upper hu
  obtain ⟨hl16, hliff⟩ := nibble_spec l lower hl
  refine ⟨upper <<< 4 ||| lower, by simp [parseHexByte, hu, hl], ?_⟩
  rw [hexByte_or upper lower hu16 hl16, ← huiff, ← hliff]
  simp

@[simp] theorem length_hexByte (byte : UInt8) : (hexByte byte).length = 2 := rfl

@[simp] theorem length_unparseHexBytes (bytes : List UInt8) :
    (unparseHexBytes bytes).length = 2 * bytes.length := by
  simp [unparseHexBytes, length_flatMap, Nat.mul_comm]

theorem isLowerDigit_unparse (bytes : List UInt8) :
    ∀ ch ∈ unparseHexBytes bytes, IsLowerDigit ch := by
  intro ch h
  obtain ⟨byte, -, hch⟩ := mem_flatMap.mp h
  exact isLowerDigit_hexByte byte ch hch

theorem parseHexBytes_unparseHexBytes (bytes : List UInt8) :
    parseHexBytes (unparseHexBytes bytes) = .ok bytes := by
  induction bytes with
  | nil => rfl
  | cons byte rest ih =>
    change (do
      let byte ← parseHexByte _ _
      let bytes ← parseHexBytes (unparseHexBytes rest)
      return byte :: bytes) = _
    rw [ih, parseHexByte_hexByte]
    rfl

theorem parseHexBytes_spec (hlength : text.length = 2 * n) (htext : ∀ ch ∈ text, IsHexDigit ch) :
    ∃ bytes, parseHexBytes text = .ok bytes ∧ bytes.length = n ∧
      (unparseHexBytes bytes = text ↔ ∀ ch ∈ text, IsLowerDigit ch) := by
  induction n generalizing text with
  | zero =>
    obtain rfl := eq_nil_of_length_eq_zero hlength
    exact ⟨[], rfl, rfl, by simp [unparseHexBytes]⟩
  | succ n ih =>
    obtain ⟨u, l, rest, rfl⟩ : ∃ u l rest, text = u :: l :: rest := by
      rcases text with _ | ⟨u, _ | ⟨l, rest⟩⟩
      · cases hlength
      · rw [length_singleton] at hlength
        omega
      · exact ⟨u, l, rest, rfl⟩
    simp only [forall_mem_cons] at htext ⊢
    obtain ⟨hu, hl, hrest⟩ := htext
    obtain ⟨byte, hbyte, hiff⟩ := parseHexByte_spec hu hl
    obtain ⟨bytes, hbytes, hlen, hiffs⟩ := ih (by simpa [Nat.mul_succ] using hlength) hrest
    refine ⟨byte :: bytes, ?_, by simp [hlen], ?_⟩
    · rw [parseHexBytes, hbyte, hbytes]
      rfl
    · rw [← and_assoc, ← hiff, ← hiffs]
      constructor
      · exact fun h => append_inj h rfl
      · rintro ⟨hfirst, hothers⟩
        rw [unparseHexBytes, flatMap_cons, hfirst, ← unparseHexBytes, hothers]
        rfl

theorem shift_or (val : UInt64) (byte : UInt8) :
    val <<< 8 ||| byte.toUInt64 = val * 256 + byte.toUInt64 := by
  have hbyte : byte.toNat < 2 ^ 8 := byte.toNat_lt
  have hval : (val <<< 8).toNat = (val.toNat % 2 ^ 56) <<< 8 := by
    rw [UInt64.toNat_shiftLeft, Nat.shiftLeft_eq, Nat.shiftLeft_eq]
    exact Nat.mul_mod_mul_right (2 ^ 8) val.toNat (2 ^ 56)
  rw [← UInt64.toNat_inj, UInt64.toNat_or, hval, toNat_toUInt64,
    ← Nat.shiftLeft_add_eq_or_of_lt hbyte, Nat.shiftLeft_eq, UInt64.toNat_add, UInt64.toNat_mul,
    toNat_toUInt64]
  change _ = (val.toNat * 256 % 2 ^ 64 + byte.toNat) % 2 ^ 64
  omega

theorem foldl_bytes (bytes : List UInt8) :
    bytes.foldl (fun (val : UInt64) byte => val <<< 8 ||| byte.toUInt64) 0 =
      .ofNat (beValue bytes) := by
  induction bytes using reverseRecOn with
  | nil => rfl
  | append_singleton bytes byte ih =>
    rw [foldl_append, ih, beValue_append]
    simp [shift_or]

theorem byteAt_eq (val : UInt64) (hoffset : offset < 8) :
    byteAt val offset = .ofNat (val.toNat / 256 ^ offset) := by
  have hshift : (UInt64.ofNat (offset * 8)).toNat % 64 = 8 * offset := by
    rw [UInt64.toNat_ofNat']
    omega
  rw [byteAt, ← UInt8.toNat_inj, UInt64.toNat_toUInt8, UInt64.toNat_and, UInt64.toNat_shiftRight,
    hshift, Nat.shiftRight_eq_div_pow, Nat.pow_mul, UInt8.toNat_ofNat']
  change (_ &&& (2 ^ 8 - 1)) % 2 ^ 8 = _
  rw [Nat.and_two_pow_sub_one_eq_mod, Nat.mod_mod]

theorem map_byteAt (hlength : bytes.length = 8) :
    (range 8).map (byteAt (.ofNat (beValue bytes))) = bytes.reverse := by
  have hlt : beValue bytes < 2 ^ 64 := by
    have := beValue_lt bytes
    rwa [hlength] at this
  calc
    _ = (range 8).map fun i => ofNat (beValue bytes / 256 ^ i) := by
      refine map_congr_left fun offset hoffset => ?_
      rw [byteAt_eq _ (mem_range.mp hoffset), UInt64.toNat_ofNat', Nat.mod_eq_of_lt hlt]
    _ = (beBytes 8 (beValue bytes)).reverse := (reverse_beBytes ..).symm
    _ = bytes.reverse := by rw [← hlength, beBytes_beValue]

theorem unparse_parseIntegerValue (byteOrder : ByteOrder) (hraw : rawVal.length = 2 * 8)
    (hparse : parseHexBytes rawVal = .ok bytes) (hlength : bytes.length = 8) :
    ∃ val, parseIntegerValue rawVal byteOrder = .ok val ∧
      unparseIntegerValue val 8 byteOrder = unparseHexBytes bytes := by
  have heven : ¬rawVal.length % 2 ≠ 0 := by omega
  simp only [parseIntegerValue, heven, if_false, hparse, unparseIntegerValue]
  refine ⟨_, rfl, ?_⟩
  cases byteOrder with
  | bigEndian => simp [foldl_bytes, map_byteAt hlength]
  | littleEndian =>
    have hreverse : bytes.reverse.length = 8 := by simp [hlength]
    simp only [reduceCtorEq, if_false, if_true, foldl_bytes, map_byteAt hreverse,
      reverse_reverse]

/-- `Packet.OVERHEAD`: the marker, and the checksum with its own. -/
def overhead : Nat := 1 + 1 + 2

inductive ChecksumType
  | proper
  | zeroed
  deriving DecidableEq, Repr

def escapeKey : UInt8 := 0x20

/-- `append_c` -/
def appendC (c : UInt8) : Text :=
  if c = chr '$' ∨ c = chr '#' ∨ c = chr '\x7d' ∨ c = chr '*' then [chr '\x7d', c ^^^ escapeKey]
  else [c]

def append (val : Text) : Text := val.flatMap appendC

/-- Digits as `%x` prints them. -/
def hexDigits (n : Nat) : Text := (Nat.toDigits 16 n).map chr

def appendAddress (address : UInt64) : Text := hexDigits address.toNat

def appendSize (size : Nat) : Text := hexDigits size

def computeChecksum (data : Text) : UInt8 := data.foldl (· + ·) 0

/-- `build`, for what has been appended. -/
def build (checksumType : ChecksumType) (content : Text) : Text :=
  let checksum := match checksumType with
    | .proper => hexByte (computeChecksum content)
    | .zeroed => [chr '0', chr '0']
  chr '$' :: content ++ chr '#' :: checksum

@[simp] theorem length_build (checksumType : ChecksumType) (content : Text) :
    (build checksumType content).length = content.length + overhead := by
  cases checksumType <;> simp [build, overhead]

def repeatBase : UInt8 := 0x20

def repeatBias : UInt8 := 0x03

/-- The loop of `depacketize`, with the character before the offset, if there is one. What
is repeated is that character as it came in. -/
def depacketizeFrom : Option UInt8 → Text → Except Error (List UInt8)
  | _, [] => .ok []
  | _, [ch] =>
    if ch = chr '\x7d' ∨ ch = chr '*' then .error (.protocol "Invalid packet") else .ok [ch]
  | previous, ch :: next :: rest =>
    if ch = chr '\x7d' then
      (depacketizeFrom (some next) rest).map fun result => (next ^^^ escapeKey) :: result
    else if ch = chr '*' then
      match previous with
      | none => .error (.protocol "Invalid packet")
      | some charToRepeat =>
        (depacketizeFrom (some next) rest).map fun result =>
          List.replicate (next - repeatBase + repeatBias).toNat charToRepeat ++ result
    else (depacketizeFrom (some ch) (next :: rest)).map fun result => ch :: result

def depacketize (data : Text) : Except Error (List UInt8) := depacketizeFrom none data

/-- `read_packet`, from what has come in: none if it waits for more, else the packet and
what is left. Acknowledgements are skipped; neither the header nor the checksum is looked
at. -/
def readPacket : Text → Option (Except Error (List UInt8) × Text)
  | [] => none
  | header :: rest =>
    if header = chr '+' ∨ header = chr '-' then readPacket rest
    else
      match rest.dropWhile (· ≠ chr '#') with
      | _ :: _ :: _ :: remaining => some (depacketize (rest.takeWhile (· ≠ chr '#')), remaining)
      | _ => none

theorem readPacket_packet (h : chr '#' ∉ content) (upper lower : UInt8) (remaining : Text) :
    readPacket (chr '$' :: content ++ chr '#' :: upper :: lower :: remaining) =
      some (depacketize content, remaining) := by
  have hcontent : ∀ ch ∈ content, ch ≠ chr '#' := fun ch hch => ne_of_mem_of_not_mem hch h
  have htake : ∀ tail, (content ++ chr '#' :: tail).takeWhile (· ≠ chr '#') = content := by
    intro tail
    rw [takeWhile_append_of_pos (by simpa using hcontent)]
    simp
  have hdrop : ∀ tail,
      (content ++ chr '#' :: tail).dropWhile (· ≠ chr '#') = chr '#' :: tail := by
    intro tail
    rw [dropWhile_append_of_pos (by simpa using hcontent)]
    simp
  have hheader : ¬(chr '$' = chr '+' ∨ chr '$' = chr '-') := by decide
  simp only [cons_append, readPacket, hheader, if_false, htake, hdrop]

theorem readPacket_build (checksumType : ChecksumType) (h : chr '#' ∉ content) (remaining : Text) :
    readPacket (build checksumType content ++ remaining) =
      some (depacketize content, remaining) := by
  cases checksumType with
  | proper | zeroed => simpa [build, hexByte] using readPacket_packet h _ _ remaining

end FridaCore.Gdb
