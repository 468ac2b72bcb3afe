import FridaCore.Fruity.DtxArguments
import FridaCore.Fruity.DtxFragments

/-!
# DTX messages come back

An argument list that is built is parsed to its arguments if it is shorter than 2³¹ bytes, and
only then. A message that fits in a fragment is received as it was sent.
-/

namespace FridaCore.Fruity.Dtx

open PrimitiveBuilder PrimitiveReader Argument List

def keyed (type : PrimitiveType) (bytes : List UInt8) : List UInt8 :=
  leBytes 4 PrimitiveType.index.toNat ++ leBytes 4 type.toNat ++ bytes

def prefixed (bytes : List UInt8) : List UInt8 := leBytes 4 bytes.length ++ bytes

def entry (archive : Archive ν) : Argument ν → List UInt8
  | .string str => keyed .string (prefixed str)
  | .object obj => keyed .buffer (prefixed (archive.encode obj))
  | .int32 val => keyed .int32 (leBytes 4 val.toUInt32.toNat)
  | .int64 val => keyed .int64 (leBytes 8 val.toUInt64.toNat)
  | .double bits => keyed .double (leBytes 8 bits.toNat)

def entries (archive : Archive ν) (args : List (Argument ν)) : List UInt8 :=
  args.flatMap (entry archive)

def argumentsSize (archive : Archive ν) (args : List (Argument ν)) : Nat :=
  primitiveDictionaryHeaderSize + (entries archive args).length

def Argument.Allowed (archive : Archive ν) : Argument ν → Prop
  | .string str => 0 ∉ str ∧ str.length < 2 ^ 32
  | .object obj => (archive.encode obj).length < 2 ^ 32
  | .int32 _ | .int64 _ | .double _ => True

/-- The builder with the cursor behind the bytes, if their number is a `uint`. -/
def filled (bytes : List UInt8) : Option PrimitiveBuilder :=
  if bytes.length < 2 ^ 32 then some ⟨bytes, bytes.length⟩ else none

theorem append_filled (buffer bytes : List UInt8) :
    (filled buffer >>= append bytes) = filled (buffer ++ bytes) := by
  by_cases hbuffer : buffer.length < 2 ^ 32
  · have hsome : filled buffer = some ⟨buffer, buffer.length⟩ := if_pos hbuffer
    rw [hsome, Option.bind_eq_bind, Option.bind_some, append, filled,
      length_append]
    by_cases hnil : bytes = []
    · subst hnil
      simpa using hbuffer
    have hpos := length_pos_of_ne_nil hnil
    have hgrow : buffer.length < buffer.length + bytes.length := by omega
    simp only [if_pos hgrow]
    by_cases hlt : buffer.length + bytes.length < 2 ^ 32
    · -- the buffer has been made as long as it has to be
      have hsize : setSize buffer (buffer.length + bytes.length) =
          buffer ++ replicate bytes.length 0 := by
        rw [setSize, Nat.mod_eq_of_lt hlt, take_of_length_le (by omega),
          Nat.add_sub_cancel_left]
      have hlength : buffer.length + bytes.length =
          (buffer ++ replicate bytes.length (0 : UInt8)).length := by
        rw [length_append, length_replicate]
      rw [hsize, if_pos hlength.le, if_pos hlt, take_left,
        drop_eq_nil_of_le hlength.ge, append_nil]
    · have hshort : (setSize buffer (buffer.length + bytes.length)).length <
          buffer.length + bytes.length := by
        simp only [setSize, length_append, length_take, length_replicate]
        omega
      rw [if_neg (by omega), if_neg hlt]
  · have hnone : filled buffer = none := if_neg hbuffer
    have hnone' : filled (buffer ++ bytes) = none :=
      if_neg (by rw [length_append]; omega)
    rw [hnone, hnone']
    rfl

theorem append_overwrite (before rest : List UInt8) (h : bytes.length = old.length) :
    append bytes ⟨before ++ (old ++ rest), before.length⟩ =
      some ⟨before ++ bytes ++ rest, before.length + bytes.length⟩ := by
  have hle : before.length + bytes.length ≤ (before ++ (old ++ rest)).length := by
    simp only [length_append]
    omega
  have hdrop : (before ++ (old ++ rest)).drop (before.length + bytes.length) = rest := by
    rw [h, ← drop_drop, drop_left, drop_left]
  rw [append]
  simp only [if_neg (Nat.not_lt.mpr hle), if_pos hle, take_left, hdrop]

theorem beginEntry_filled (buffer : List UInt8) (type : PrimitiveType) :
    (filled buffer >>= beginEntry type) =
      filled (buffer ++ leBytes 4 PrimitiveType.index.toNat ++ leBytes 4 type.toNat) := by
  unfold beginEntry appendUint32
  rw [← bind_assoc, append_filled, append_filled]

theorem appendBytes_filled (buffer : List UInt8) (type : PrimitiveType)
    (h : bytes.length < 2 ^ 32) :
    (filled buffer >>= appendBytes type bytes) = filled (buffer ++ keyed type (prefixed bytes)) := by
  have htake : bytes.take (bytes.length % 2 ^ 32) = bytes := by
    rw [Nat.mod_eq_of_lt h, take_length]
  unfold appendBytes appendByteArray appendUint32
  rw [← bind_assoc, beginEntry_filled, ← bind_assoc, append_filled, htake, append_filled]
  simp only [keyed, prefixed, append_assoc]

theorem appendNumber_filled (buffer bytes : List UInt8) (type : PrimitiveType) :
    (filled buffer >>= fun blob => beginEntry type blob >>= append bytes) =
      filled (buffer ++ keyed type bytes) := by
  rw [← bind_assoc, beginEntry_filled, append_filled]
  simp only [keyed, append_assoc]

theorem appendArgument_filled (buffer : List UInt8) (h : arg.Allowed archive) :
    (filled buffer >>= appendArgument archive arg) = filled (buffer ++ entry archive arg) := by
  cases arg with
  | string str => exact appendBytes_filled buffer .string h.2
  | object obj => exact appendBytes_filled buffer .buffer h
  | int32 val => exact appendNumber_filled buffer _ .int32
  | int64 val => exact appendNumber_filled buffer _ .int64
  | double bits => exact appendNumber_filled buffer _ .double

theorem appendArguments_filled {args : List (Argument ν)}
    (h : ∀ arg ∈ args, arg.Allowed archive) (buffer : List UInt8) :
    (filled buffer >>= args.foldlM fun blob arg => appendArgument archive arg blob) =
      filled (buffer ++ entries archive args) := by
  induction args generalizing buffer with
  | nil => simp [entries]
  | cons arg args ih =>
    obtain ⟨harg, hargs⟩ := forall_mem_cons.mp h
    have hfirst := appendArgument_filled buffer harg
    simp only [foldlM_cons]
    rw [← bind_assoc, hfirst, ih hargs]
    simp [entries]

theorem fillHeader_eq (size : Nat) (rest : List UInt8) (cursor : Nat) :
    fillHeader size ⟨replicate 16 0 ++ rest, cursor⟩ =
      some ⟨leBytes 8 size ++ (leBytes 8 size ++ rest), 16⟩ := by
  have hlength : (leBytes 8 size).length = (replicate 8 (0 : UInt8)).length := by simp
  have hback : seek 0 ⟨replicate 16 0 ++ rest, cursor⟩ =
      some ⟨replicate 8 0 ++ (replicate 8 0 ++ rest), 0⟩ := rfl
  have hfirst : append (leBytes 8 size)
      ⟨replicate 8 0 ++ (replicate 8 0 ++ rest), 0⟩ =
        some ⟨leBytes 8 size ++ (replicate 8 0 ++ rest), 8⟩ := by
    have h := append_overwrite [] (replicate 8 0 ++ rest) hlength
    simpa only [nil_append, length_nil, Nat.zero_add, length_leBytes] using h
  have hsecond : append (leBytes 8 size)
      ⟨leBytes 8 size ++ (replicate 8 0 ++ rest), 8⟩ =
        some ⟨leBytes 8 size ++ (leBytes 8 size ++ rest), 16⟩ := by
    have h := append_overwrite (leBytes 8 size) rest hlength
    simpa only [append_assoc, length_leBytes] using h
  rw [fillHeader, hback, appendUint64, Option.bind_eq_bind, Option.bind_some, hfirst]
  exact hsecond

theorem buildArguments_eq {args : List (Argument ν)} (h : ∀ arg ∈ args, arg.Allowed archive) :
    buildArguments archive args =
      if argumentsSize archive args < 2 ^ 32 then
        some (leBytes 8 (entries archive args).length ++
          (leBytes 8 (entries archive args).length ++ entries archive args))
      else none := by
  have hseek : seek primitiveDictionaryHeaderSize {} = filled (replicate 16 0) := by decide
  have hall := appendArguments_filled h (replicate 16 0)
  rw [buildArguments, hseek, ← bind_assoc, hall]
  have hlength : (replicate 16 (0 : UInt8) ++ entries archive args).length =
      argumentsSize archive args := by
    rw [length_append, length_replicate]
    rfl
  by_cases hlt : argumentsSize archive args < 2 ^ 32
  · rw [if_pos hlt, filled, hlength, if_pos hlt]
    have hcursor : argumentsSize archive args - primitiveDictionaryHeaderSize =
        (entries archive args).length := Nat.add_sub_cancel_left ..
    rw [Option.bind_eq_bind, Option.bind_some]
    rw [hcursor, fillHeader_eq]
    rfl
  · rw [if_neg hlt, filled, hlength, if_neg hlt]
    rfl

def full (rest : List UInt8) : PrimitiveReader := ⟨rest, rest.length⟩

theorem takeBytes_append (h : bytes.length = n)
    (rest : List UInt8) : takeBytes n (full (bytes ++ rest)) = .ok (bytes, full rest) := by
  subst h
  have hthere : ¬ ((bytes ++ rest).length : Int) < bytes.length := by
    rw [length_append]
    omega
  have hleft : ((bytes ++ rest).length : Int) - bytes.length = rest.length := by
    rw [length_append]
    omega
  simp only [takeBytes, full, if_neg hthere, hleft, take_left, drop_left]

theorem takeNumber_append (size n : Nat) (rest : List UInt8) :
    takeNumber size (full (leBytes size n ++ rest)) = .ok (n % 256 ^ size, full rest) := by
  rw [takeNumber, reading_bind_of_ok (takeBytes_append (length_leBytes size n) rest),
    leValue_leBytes]
  rfl

theorem takeNumber_length {bytes : List UInt8} (h : bytes.length < 2 ^ 32) (rest : List UInt8) :
    takeNumber 4 (full (leBytes 4 bytes.length ++ rest)) = .ok (bytes.length, full rest) := by
  have hmod : bytes.length % 256 ^ 4 = bytes.length := Nat.mod_eq_of_lt h
  rw [takeNumber_append, hmod]

theorem PrimitiveType.ofNat?_toNat (type : PrimitiveType) : ofNat? type.toNat = some type := by
  cases type <;> rfl

theorem readEntry_keyed (archive : Archive ν) (type : PrimitiveType) (bytes rest : List UInt8) :
    readEntry archive (full (keyed type bytes ++ rest)) =
      readValue archive (some type) (full (bytes ++ rest)) := by
  have htype : type.toNat % 256 ^ 4 = type.toNat := by cases type <;> rfl
  simp only [keyed, append_assoc]
  rw [readEntry, reading_bind_of_ok (takeNumber_append ..), if_neg (by decide),
    reading_bind_of_ok (takeNumber_append ..), htype, PrimitiveType.ofNat?_toNat]

theorem readString_prefixed {str : List UInt8} (hnul : 0 ∉ str) (hlt : str.length < 2 ^ 32)
    (archive : Archive ν) (rest : List UInt8) :
    readValue archive (some .string) (full (prefixed str ++ rest)) =
      .ok (.string (some str), full rest) := by
  have hread : readString str.length (full (str ++ rest)) = .ok (some str, full rest) := by
    rw [readString, reading_bind_of_ok (takeBytes_append rfl rest), if_neg hnul]
    rfl
  rw [prefixed, append_assoc, readValue, reading_bind_of_ok (takeNumber_length hlt _),
    reading_bind_of_ok hread]
  rfl

theorem readObject_prefixed (hlt : (archive.encode obj).length < 2 ^ 32) (rest : List UInt8) :
    readValue archive (some .buffer) (full (prefixed (archive.encode obj) ++ rest)) =
      .ok (.object obj, full rest) := by
  rw [prefixed, append_assoc, readValue, reading_bind_of_ok (takeNumber_length hlt _)]
  cases obj with
  | none =>
    rw [archive.encode_none]
    rfl
  | some obj =>
    have hpos := length_pos_of_ne_nil (archive.encode_ne_nil obj)
    rw [if_neg (by omega), reading_bind_of_ok (takeBytes_append rfl rest), archive.decode_encode]
    rfl

theorem ofNat_toNat_mod_64 (x : UInt64) : UInt64.ofNat (x.toNat % 256 ^ 8) = x := by
  have hlt : x.toNat < 256 ^ 8 := x.toNat_lt
  rw [Nat.mod_eq_of_lt hlt, UInt64.ofNat_toNat]

theorem readEntry_entry (h : arg.Allowed archive) (rest : List UInt8) :
    readEntry archive (full (entry archive arg ++ rest)) = .ok (arg.value, full rest) := by
  cases arg with
  | string str =>
    rw [entry, readEntry_keyed]
    exact readString_prefixed h.1 h.2 archive rest
  | object obj =>
    rw [entry, readEntry_keyed]
    exact readObject_prefixed h rest
  | int32 val =>
    rw [entry, readEntry_keyed, readValue, reading_bind_of_ok (takeNumber_append ..),
      ofNat_toNat_mod_32]
    rfl
  | int64 val | double bits =>
    rw [entry, readEntry_keyed, readValue, reading_bind_of_ok (takeNumber_append ..),
      ofNat_toNat_mod_64]
    rfl

theorem entry_length_pos (archive : Archive ν) (arg : Argument ν) :
    0 < (entry archive arg).length := by
  cases arg <;> simp [entry, keyed]

theorem readEntries_entries {args : List (Argument ν)} (h : ∀ arg ∈ args, arg.Allowed archive) :
    readEntries archive (full (entries archive args)) = .ok (args.map value) := by
  induction args with
  | nil =>
    rw [readEntries]
    rfl
  | cons arg args ih =>
    obtain ⟨harg, hargs⟩ := forall_mem_cons.mp h
    have hsplit : entries archive (arg :: args) = entry archive arg ++ entries archive args := rfl
    have hpos := entry_length_pos archive arg
    have hleft : ¬ (full (entries archive (arg :: args))).left = 0 := by
      simp only [full, hsplit, length_append]
      omega
    rw [readEntries, if_neg hleft, hsplit]
    split
    next e he =>
      rw [readEntry_entry harg] at he
      cases he
    next v t ht =>
      rw [readEntry_entry harg] at ht
      cases ht
      rw [ih hargs]
      rfl

theorem intLength_of_lt (h : n < 2 ^ 31) : intLength n = n := by
  have hmod : n % 2 ^ 32 = n := Nat.mod_eq_of_lt (by omega)
  rw [intLength, hmod, if_pos h]
  exact_mod_cast Nat.mod_eq_of_lt (by omega : n < 2 ^ 32)

theorem intLength_neg (h : 2 ^ 31 ≤ n) (hlt : n < 2 ^ 32) : intLength n < 0 := by
  rw [intLength, if_neg (by omega)]
  omega

theorem parseArguments_buildArguments {args : List (Argument ν)}
    (h : ∀ arg ∈ args, arg.Allowed archive) :
    (∃ bytes, buildArguments archive args = some bytes ∧
      parseArguments archive bytes = .ok (args.map value)) ↔
      argumentsSize archive args < 2 ^ 31 := by
  rw [buildArguments_eq h]
  set size := leBytes 8 (entries archive args).length with hdef
  have hlength : (size ++ (size ++ entries archive args)).length = argumentsSize archive args := by
    simp only [hdef, length_append, length_leBytes, argumentsSize,
      primitiveDictionaryHeaderSize]
    omega
  constructor
  · rintro ⟨bytes, hbuilt, hparsed⟩
    by_contra hlarge
    split at hbuilt
    · cases hbuilt
      have hneg := intLength_neg (n := argumentsSize archive args) (by omega) ‹_›
      have hstop : takeBytes primitiveDictionaryHeaderSize
          (.new (size ++ (size ++ entries archive args))) =
            .error (.protocol "Invalid dictionary") := by
        apply if_pos
        rw [new, hlength]
        exact hneg.trans (by decide)
      rw [parseArguments, hstop] at hparsed
      cases hparsed
    · cases hbuilt
  · intro hsmall
    refine ⟨_, if_pos (by omega), ?_⟩
    have hnew : new (size ++ (size ++ entries archive args)) =
        full ((size ++ size) ++ entries archive args) := by
      rw [new, intLength_of_lt (by omega), append_assoc]
      rfl
    have hheader : (size ++ size).length = primitiveDictionaryHeaderSize := by
      simp [hdef, primitiveDictionaryHeaderSize]
    rw [parseArguments, hnew, takeBytes_append hheader]
    exact readEntries_entries h

def messageSize (m : Message) : Nat := 16 + (m.auxData.length + m.payloadData.length)

def rawMessage (m : Message) : List UInt8 :=
  [m.type.toByte, 0, 0, 0] ++ leBytes 4 m.auxData.length ++
    leBytes 8 (m.auxData.length + m.payloadData.length) ++ m.auxData ++ m.payloadData

def sentFragment (identifier : UInt32) (m : Message) : Fragment where
  index := 0
  count := 1
  dataSize := .ofNat (messageSize m)
  identifier := identifier
  conversationIndex := m.conversationIndex
  channelCode := m.channelCode
  flags := m.transportFlags
  bytes := some (rawMessage m)

theorem length_rawMessage (m : Message) : (rawMessage m).length = messageSize m := by
  simp only [rawMessage, messageSize, length_append, length_leBytes, length_cons,
    length_nil]
  omega

section
variable {m : Message} (h : messageSize m ≤ maxFragmentSize)
include h

theorem messageSize_lt : messageSize m < 2 ^ 32 :=
  lt_of_le_of_lt h (by decide)

theorem toNat_dataSize (identifier : UInt32) :
    (sentFragment identifier m).dataSize.toNat = messageSize m :=
  UInt32.toNat_ofNat_of_lt' (messageSize_lt h)

theorem sendMessage_wire (next : UInt32) :
    (sendMessage next m).1 = (sentFragment (sendMessage next m).2.1 m).wire := by
  have hsmall := messageSize_lt h
  have hmod : (m.auxData.length + m.payloadData.length) % 2 ^ 32 =
      m.auxData.length + m.payloadData.length :=
    Nat.mod_eq_of_lt (by unfold messageSize at hsmall; omega)
  rw [Fragment.wire, toNat_dataSize h]
  simp only [sendMessage, hmod, append_assoc]
  rfl

theorem wellRead_sentFragment (identifier : UInt32) : (sentFragment identifier m).WellRead := by
  have hlength := length_rawMessage m
  have hpos : 0 < messageSize m := by
    unfold messageSize
    omega
  refine ⟨fun _ => ⟨rawMessage m, rfl, ?_, ?_, ?_⟩, fun hn => absurd (.inl rfl) hn⟩
  · rw [hlength, toNat_dataSize h]
  · omega
  · omega

theorem parseMessage_rawMessage (hknown : m.type.IsKnown) (identifier : UInt32) :
    parseMessage (rawMessage m) (sentFragment identifier m) =
      .ok { m with identifier := identifier } := by
  have hlength := length_rawMessage m
  have hsmall := messageSize_lt h
  unfold messageSize at hlength hsmall
  set size := m.auxData.length + m.payloadData.length with hsize
  have haux : leValue (((rawMessage m).drop 4).take 4) = m.auxData.length := by
    have htake : ((rawMessage m).drop 4).take 4 = leBytes 4 m.auxData.length := by
      simp [rawMessage]
    have hmod : m.auxData.length % 256 ^ 4 = m.auxData.length := Nat.mod_eq_of_lt (by omega)
    rw [htake, leValue_leBytes, hmod]
  have hdata : leValue (((rawMessage m).drop 8).take 8) = size := by
    have htake : ((rawMessage m).drop 8).take 8 = leBytes 8 size := by
      simp [rawMessage, ← hsize]
    have hmod : size % 256 ^ 8 = size := Nat.mod_eq_of_lt (by omega)
    rw [htake, leValue_leBytes, hmod]
  have hrest : (rawMessage m).drop 16 = m.auxData ++ m.payloadData := by
    rw [rawMessage, append_assoc]
    exact drop_left' (by simp)
  have hauxData : ((rawMessage m).drop 16).take m.auxData.length = m.auxData := by
    rw [hrest, take_left]
  have hpayload : ((rawMessage m).drop (16 + m.auxData.length)).take
      (size - m.auxData.length) = m.payloadData := by
    rw [← drop_drop, hrest, drop_left, take_of_length_le (by omega)]
  have htype : MessageType.ofByte ((rawMessage m).headD 0) = m.type :=
    MessageType.ofByte_toByte hknown
  rw [parseMessage]
  simp only [haux, hdata, hauxData, hpayload, htype]
  rw [if_neg (by omega), if_neg (by omega)]
  rfl

/-- The fragment that is sent is read, and its message is the one that was sent. -/
theorem received_message (hknown : m.type.IsKnown) (next : UInt32) (rest : List UInt8) :
    ∃ f, readFragment ((sendMessage next m).1 ++ rest) = .ok (f, rest) ∧
      (∀ process c, c.closed = false → receive process c f = handOver process c f.data f) ∧
      ∀ channels, processMessage channels f.data f =
        route channels { m with identifier := (sendMessage next m).2.1 } := by
  refine ⟨sentFragment (sendMessage next m).2.1 m, ?_, fun process c hopen => ?_,
    fun channels => ?_⟩
  · rw [sendMessage_wire h]
    exact readFragment_wire (wellRead_sentFragment h _) rest
  · rw [receive, if_neg (by simp [hopen])]
    exact if_pos rfl
  · have hparsed := parseMessage_rawMessage h hknown (sendMessage next m).2.1
    exact congrArg (· >>= route channels) hparsed

end

/-- **Round trip.** The arguments come back exactly if the list is shorter than 2³¹ bytes. A
message that fits in a fragment is received with the identifier that `send_message` returns,
which is its own unless that is zero, and is otherwise the same. -/
theorem arguments_and_messages_iff (ν : Type) (archive : Archive ν) (args : List (Argument ν))
    (hallowed : ∀ arg ∈ args, arg.Allowed archive) (m : Message) (next : UInt32)
    (rest : List UInt8) (hknown : m.type.IsKnown) (hsize : messageSize m ≤ maxFragmentSize) :
    ((∃ bytes, buildArguments archive args = some bytes ∧
      parseArguments archive bytes = .ok (args.map value)) ↔
      argumentsSize archive args < 2 ^ 31) ∧
    (m.identifier ≠ 0 → (sendMessage next m).2.1 = m.identifier) ∧
    ∃ f, readFragment ((sendMessage next m).1 ++ rest) = .ok (f, rest) ∧
      (∀ process c, c.closed = false → receive process c f = handOver process c f.data f) ∧
      ∀ channels, processMessage channels f.data f =
        route channels { m with identifier := (sendMessage next m).2.1 } :=
  ⟨parseArguments_buildArguments hallowed, fun hid => if_neg hid,
    received_message hsize hknown next rest⟩

def unitArchive : Archive Unit where
  encode obj := if obj.isSome then [1] else []
  decode _ := .ok (some ())
  encode_none := rfl
  encode_ne_nil _ := List.cons_ne_nil 1 []
  decode_encode _ := rfl

/-- A list of all kinds of arguments and a small message. -/
theorem arguments_and_messages_iff_sample :
    (∃ bytes,
      buildArguments unitArchive [.string [97], .object (some ()), .int32 7, .int64 8, .double 9] =
        some bytes ∧
      parseArguments unitArchive bytes =
        .ok [.string (some [97]), .object (some ()), .int32 7, .int64 8, .double 9]) ∧
    ∃ f, readFragment (sendMessage 5 ⟨.dispatch, 0, 1, 2, 0, [3], [4]⟩).1 = .ok (f, []) ∧
      processMessage [2] f.data f =
        .ok (some ⟨2, .dispatch, ⟨.dispatch, 5, 1, 2, 0, [3], [4]⟩⟩) := by
  obtain ⟨hiff, -, f, hread, -, hmessage⟩ := arguments_and_messages_iff Unit unitArchive
    [.string [97], .object (some ()), .int32 7, .int64 8, .double 9]
    (by simp [Argument.Allowed, unitArchive]) ⟨.dispatch, 0, 1, 2, 0, [3], [4]⟩ 5 [] trivial
    (by decide)
  exact ⟨hiff.mpr (by decide), f, hread, (hmessage [2]).trans (by decide)⟩

theorem argumentsSize_string (archive : Archive ν) (n : Nat) :
    argumentsSize archive [.string (replicate n 97)] = 28 + n := by
  simp only [argumentsSize, entries, entry, keyed, prefixed, flatMap_cons, flatMap_nil,
    length_append, length_leBytes, length_replicate, length_nil,
    primitiveDictionaryHeaderSize]
  omega

theorem allowed_string (h : n < 2 ^ 32) :
    (string (replicate n 97) : Argument ν).Allowed archive :=
  ⟨fun hmem => absurd (eq_of_mem_replicate hmem) (by decide), by rwa [length_replicate]⟩

/-- A string of 2³¹ letters is appended, and the list is not parsed. -/
theorem largeString_not_parsed :
    (string (replicate (2 ^ 31) 97)).Allowed unitArchive ∧
    ¬ ∃ bytes, buildArguments unitArchive [.string (replicate (2 ^ 31) 97)] = some bytes ∧
      parseArguments unitArchive bytes =
        .ok ([.string (replicate (2 ^ 31) 97)].map value) := by
  have hallowed : (string (replicate (2 ^ 31) 97)).Allowed unitArchive :=
    allowed_string (by decide)
  refine ⟨hallowed, fun hback => ?_⟩
  have hsmall := (parseArguments_buildArguments (forall_mem_singleton.mpr hallowed)).mp hback
  rw [argumentsSize_string] at hsmall
  omega

end FridaCore.Fruity.Dtx
