import FridaCore.Gdb.Memory

/-!
# Memory access through packets of a limited size

What the stub reads in a request is what the client has put there, so that each turn of
the two loops reads or writes a chunk of memory. A read is exact and within the packet
size if and only if the requests it consists of fit into a packet (`RequestsFit`). A
write is so from a packet size of 33 on; below 31 the room for data has wrapped around,
and all of it is sent at once; in between there is no room, and no progress.
-/

namespace FridaCore.Gdb

open List

theorem digit_spec (hd : d < 16) :
    hexCharToNibble (chr d.digitChar) = some (.ofNat d) ∧ IsLowerDigit (chr d.digitChar) := by
  have hall : ∀ d : Fin 16, hexCharToNibble (chr d.val.digitChar) = some (.ofNat d.val) ∧
      IsLowerDigit (chr d.val.digitChar) := by
    decide +kernel
  exact hall ⟨d, hd⟩

theorem hexDigits_eq (n : Nat) :
    hexDigits n = if n < 16 then [chr n.digitChar]
      else hexDigits (n / 16) ++ [chr (n % 16).digitChar] := by
  rw [hexDigits, Nat.toDigits_eq_if (by decide)]
  split <;> simp [hexDigits]

theorem isLowerDigit_hexDigits (n : Nat) : ∀ ch ∈ hexDigits n, IsLowerDigit ch := by
  induction n using Nat.strongRecOn with
  | ind n ih =>
    rw [hexDigits_eq]
    split
    · next hlt => exact forall_mem_singleton.mpr (digit_spec hlt).2
    · next hle =>
      rw [forall_mem_append]
      exact ⟨ih (n / 16) (by omega),
        forall_mem_singleton.mpr (digit_spec (Nat.mod_lt n (by decide))).2⟩

theorem readHex_hexDigits (n : Nat) (rest : Text) :
    readHex 0 (hexDigits n ++ rest) = readHex n rest := by
  induction n using Nat.strongRecOn generalizing rest with
  | ind n ih =>
    rw [hexDigits_eq]
    split
    · next hlt =>
      have hn : n % 256 = n := by omega
      simp [readHex, (digit_spec hlt).1, hn]
    · next hle =>
      have hdigit := (digit_spec (Nat.mod_lt n (show 0 < 16 by decide))).1
      have hmod : n % 16 % 256 = n % 16 := by omega
      rw [append_assoc, ih (n / 16) (by omega), singleton_append, readHex, hdigit]
      simp only [UInt8.toNat_ofNat', hmod, Nat.div_add_mod']

theorem readRange_eq (address : UInt64) (size : Nat) (hrest : readHex size rest = (size, rest)) :
    readRange (appendAddress address ++ chr ',' :: (appendSize size ++ rest)) =
      some (address, size, rest) := by
  have hfirst : readHex 0 (appendAddress address ++ chr ',' :: (appendSize size ++ rest)) =
      (address.toNat, chr ',' :: (appendSize size ++ rest)) := by
    rw [appendAddress, readHex_hexDigits]
    rfl
  have hsecond : readHex 0 (appendSize size ++ rest) = (size, rest) := by
    rw [appendSize, readHex_hexDigits, hrest]
  simp only [readRange, hfirst, if_true, hsecond, UInt64.ofNat_toNat]

theorem unpack_build (h : chr '#' ∉ content) :
    unpack checksumType (build checksumType content) = some content := by
  have hcontent : (build checksumType content).tail.takeWhile (· ≠ chr '#') = content := by
    simp only [build, cons_append, tail_cons]
    rw [takeWhile_append_of_pos]
    · simp
    · intro ch hch
      simpa using ne_of_mem_of_not_mem hch h
  simp only [unpack, hcontent, if_true]

theorem not_mem_of_digits {text : Text} (h : ∀ ch ∈ text, IsLowerDigit ch) :
    chr '#' ∉ text := by
  intro hmem
  exact absurd (h _ hmem) (by decide)

namespace Client

variable (client : Client) (target : Target) (address : UInt64)

theorem readRequest_eq (size : Nat) :
    client.readRequest address size = build client.checksumType
      (chr 'm' :: (appendAddress address ++ chr ',' :: (appendSize size ++ []))) := by
  have hm : appendC (chr 'm') = [chr 'm'] := by decide
  have hcomma : appendC (chr ',') = [chr ','] := by decide
  simp [readRequest, hm, hcomma]

theorem writeRequest_eq (bytes : List UInt8) :
    client.writeRequest address bytes = build client.checksumType
      (chr 'M' :: (appendAddress address ++ chr ',' ::
        (appendSize bytes.length ++ chr ':' :: unparseHexBytes bytes))) := by
  have hm : appendC (chr 'M') = [chr 'M'] := by decide
  have hcomma : appendC (chr ',') = [chr ','] := by decide
  have hcolon : appendC (chr ':') = [chr ':'] := by decide
  simp [writeRequest, hm, hcomma, hcolon]

theorem length_readRequest (size : Nat) :
    (client.readRequest address size).length =
      6 + (hexDigits address.toNat).length + (hexDigits size).length := by
  simp [readRequest_eq, appendAddress, appendSize, overhead]
  omega

theorem length_writeRequest (bytes : List UInt8) :
    (client.writeRequest address bytes).length = 7 + (hexDigits address.toNat).length +
      (hexDigits bytes.length).length + 2 * bytes.length := by
  simp [writeRequest_eq, appendAddress, appendSize, overhead]
  omega

theorem query_readRequest (size : Nat) :
    target.query client.checksumType (client.readRequest address size) =
      ({ memory := target.memory, log := target.log ++ [client.readRequest address size] },
        unparseHexBytes (target.memory.load address size)) := by
  have hrange : readRange (appendAddress address ++ chr ',' :: (appendSize size ++ [])) =
      some (address, size, []) := readRange_eq address size rfl
  have hmarker : chr '#' ∉
      (chr 'm' :: (appendAddress address ++ chr ',' :: (appendSize size ++ []))) := by
    have hdigits (n : Nat) := not_mem_of_digits (isLowerDigit_hexDigits n)
    simp only [mem_cons, mem_append, not_mem_nil, or_false, not_or]
    exact ⟨by decide, hdigits _, by decide, hdigits _⟩
  simp only [Target.query, readRequest_eq, unpack_build hmarker, serveCommand, if_true, serveRead,
    hrange]

theorem query_writeRequest (bytes : List UInt8) :
    target.query client.checksumType (client.writeRequest address bytes) =
      ({ memory := target.memory.store address bytes
         log := target.log ++ [client.writeRequest address bytes] }, okReply) := by
  have hrange : readRange (appendAddress address ++ chr ',' ::
      (appendSize bytes.length ++ chr ':' :: unparseHexBytes bytes)) =
        some (address, bytes.length, chr ':' :: unparseHexBytes bytes) :=
    readRange_eq address bytes.length rfl
  have hmarker : chr '#' ∉ (chr 'M' :: (appendAddress address ++ chr ',' ::
      (appendSize bytes.length ++ chr ':' :: unparseHexBytes bytes))) := by
    have hdigits (n : Nat) := not_mem_of_digits (isLowerDigit_hexDigits n)
    have hbytes := not_mem_of_digits (isLowerDigit_unparse bytes)
    simp only [mem_cons, mem_append, not_or]
    exact ⟨by decide, hdigits _, by decide, hdigits _, by decide, hbytes⟩
  have hother : ¬chr 'M' = chr 'm' := by decide
  simp only [Target.query, writeRequest_eq, unpack_build hmarker, serveCommand, hother, if_false,
    if_true, serveWrite, hrange, parseHexBytes_unparseHexBytes, and_self]

variable {client target address} {size offset fuel : Nat} {result : List UInt8}

def chunkAt (client : Client) (size offset : Nat) : Nat := min (size - offset) client.readRoom

def requestAt (client : Client) (address : UInt64) (size offset : Nat) : Text :=
  client.readRequest (address + .ofNat offset) (client.chunkAt size offset)

theorem readLoop_succ :
    client.readLoop address size (fuel + 1) target offset result =
      let chunk := target.memory.load (address + .ofNat offset) (client.chunkAt size offset)
      let target : Target := ⟨target.memory, target.log ++ [client.requestAt address size offset]⟩
      if offset + client.chunkAt size offset ≠ size then
        client.readLoop address size fuel target (offset + client.chunkAt size offset)
          (result ++ chunk)
      else some (target, .ok (result ++ chunk)) := by
  rw [readLoop, query_readRequest]
  simp only [parseHexBytes_unparseHexBytes, Memory.length_load, ne_eq, not_true, if_false]
  rfl

/-- With room for data, the loop gets to the end, by a request for each chunk. -/
theorem readLoop_done (hroom : 0 < client.readRoom) (hoffset : offset ≤ size) :
    ∃ fuel log, client.readLoop address size fuel target offset result =
        some (⟨target.memory, log⟩, .ok (result ++
          target.memory.load (address + .ofNat offset) (size - offset))) ∧
      ∀ packet, packet ∈ log ↔ packet ∈ target.log ∨
        ∃ k, (k = 0 ∨ offset + k * client.readRoom < size) ∧
          packet = client.requestAt address size (offset + k * client.readRoom) := by
  induction hn : size - offset using Nat.strongRecOn generalizing offset target result with
  | ind n ih =>
    by_cases hlast : size - offset ≤ client.readRoom
    · have hchunk : client.chunkAt size offset = size - offset := Nat.min_eq_left hlast
      refine ⟨1, target.log ++ [client.requestAt address size offset], ?_, ?_⟩
      · rw [readLoop_succ]
        rw [if_neg (by omega), hchunk, hn]
      · have honly (k : Nat) : k = 0 ∨ offset + k * client.readRoom < size ↔ k = 0 := by
          constructor
          · rintro (hk | hk)
            · exact hk
            · by_contra hne
              have := Nat.le_mul_of_pos_left client.readRoom (Nat.pos_of_ne_zero hne)
              omega
          · exact .inl
        simp [honly]
    · have hchunk : client.chunkAt size offset = client.readRoom :=
        Nat.min_eq_right (Nat.le_of_not_le hlast)
      obtain ⟨fuel, log, hrun, hlog⟩ := @ih (size - (offset + client.readRoom)) (by omega)
        ⟨target.memory, target.log ++ [client.requestAt address size offset]⟩
        (offset + client.readRoom)
        (result ++ target.memory.load (address + .ofNat offset) client.readRoom) (by omega) rfl
      refine ⟨fuel + 1, log, ?_, ?_⟩
      · have hrest : n = client.readRoom + (size - (offset + client.readRoom)) := by omega
        rw [readLoop_succ]
        rw [hchunk, if_pos (by omega), hrun, hrest, Memory.load_add, append_assoc,
          UInt64.add_assoc, ← UInt64.ofNat_add]
      · intro packet
        rw [hlog, mem_append, mem_singleton, or_assoc]
        refine or_congr_right ⟨?_, ?_⟩
        · rintro (rfl | ⟨k, hk, rfl⟩)
          · exact ⟨0, .inl rfl, by simp⟩
          · refine ⟨k + 1, .inr ?_, by rw [Nat.succ_mul]; congr 1; omega⟩
            rw [Nat.succ_mul]
            rcases hk with rfl | hk
            · omega
            · omega
        · rintro ⟨k, hk, rfl⟩
          cases k with
          | zero => exact .inl (by simp)
          | succ k =>
            rw [Nat.succ_mul] at hk ⊢
            exact .inr ⟨k, .inr (by omega), by congr 1; omega⟩

theorem readLoop_unique (h : client.readLoop address size fuel target offset result = some r)
    (h' : client.readLoop address size fuel' target offset result = some r') : r = r' := by
  induction fuel generalizing target offset result fuel' with
  | zero => cases h
  | succ fuel ih =>
    cases fuel' with
    | zero => cases h'
    | succ fuel' =>
      rw [readLoop_succ] at h h'
      split at h
      · next hne =>
        rw [if_pos hne] at h'
        exact ih h h'
      · next heq =>
        rw [if_neg heq, h] at h'
        exact Option.some.inj h'

/-- The requests that have been sent stay in the log, and the first one is in it. -/
theorem readLoop_log (h : client.readLoop address size fuel target offset result = some (t, r)) :
    (∀ packet ∈ target.log, packet ∈ t.log) ∧ client.requestAt address size offset ∈ t.log := by
  induction fuel generalizing target offset result with
  | zero => cases h
  | succ fuel ih =>
    rw [readLoop_succ] at h
    split at h
    · obtain ⟨hlog, -⟩ := ih h
      simp only [mem_append, mem_singleton] at hlog
      exact ⟨fun packet hpacket => hlog packet (.inl hpacket), hlog _ (.inr rfl)⟩
    · cases h
      exact ⟨fun _ h => mem_append_left _ h, mem_append_right _ mem_cons_self⟩

variable {remaining : List UInt8}

theorem writeLoop_succ (hne : remaining ≠ []) :
    client.writeLoop (fuel + 1) target address remaining =
      let slice := remaining.take client.writeRoom
      client.writeLoop fuel ⟨target.memory.store address slice,
          target.log ++ [client.writeRequest address slice]⟩
        (address + .ofNat slice.length) (remaining.drop client.writeRoom) := by
  have htake : remaining.take (min remaining.length client.writeRoom) =
      remaining.take client.writeRoom := by
    rw [Nat.min_comm, ← take_eq_take_min]
  have hdrop : remaining.drop (remaining.take client.writeRoom).length =
      remaining.drop client.writeRoom := by
    rw [length_take]
    rcases Nat.le_total client.writeRoom remaining.length with hle | hle
    · rw [Nat.min_eq_left hle]
    · rw [Nat.min_eq_right hle, drop_length, drop_eq_nil_of_le hle]
  have hok : checkExecuteResponse okReply = .ok () := by decide
  rw [writeLoop, if_neg hne]
  simp only [htake, query_writeRequest, hok, hdrop]

theorem writeLoop_done (hroom : 0 < client.writeRoom) (hlength : remaining.length < 2 ^ 64) :
    ∃ fuel log, client.writeLoop fuel target address remaining =
        some (⟨target.memory.store address remaining, log⟩, .ok ()) ∧
      ∀ packet ∈ log, packet ∈ target.log ∨
        ∃ a slice, slice.length ≤ min remaining.length client.writeRoom ∧
          packet = client.writeRequest a slice := by
  induction hn : remaining.length using Nat.strongRecOn
    generalizing remaining target address with
  | ind n ih =>
    by_cases hne : remaining = []
    · subst hne
      exact ⟨1, target.log, rfl, fun _ h => .inl h⟩
    · have hpos := length_pos_iff.mpr hne
      let slice := remaining.take client.writeRoom
      have hslice : slice.length = min client.writeRoom remaining.length := length_take
      obtain ⟨fuel, log, hrun, hlog⟩ := @ih (remaining.drop client.writeRoom).length
        (by rw [length_drop]; omega)
        ⟨target.memory.store address slice, target.log ++ [client.writeRequest address slice]⟩
        (address + .ofNat slice.length) (remaining.drop client.writeRoom)
        (by rw [length_drop]; omega) rfl
      refine ⟨fuel + 1, log, ?_, fun packet hpacket => ?_⟩
      · rw [writeLoop_succ hne, hrun, Memory.store_append (by rwa [take_append_drop]),
          take_append_drop]
      · rcases hlog packet hpacket with hold | ⟨a, s, hs, rfl⟩
        · rcases mem_append.mp hold with hold | hnew
          · exact .inl hold
          · exact .inr ⟨address, slice, by omega, mem_singleton.mp hnew⟩
        · rw [length_drop] at hs
          exact .inr ⟨a, s, by omega, rfl⟩

theorem writeLoop_stuck (hroom : client.writeRoom = 0) (hne : remaining ≠ []) (fuel : Nat) :
    client.writeLoop fuel target address remaining = none := by
  induction fuel generalizing target address with
  | zero => rfl
  | succ fuel ih =>
    rw [writeLoop_succ hne, hroom]
    exact ih

theorem writeLoop_log (h : client.writeLoop fuel target address remaining = some (t, r)) :
    (∀ packet ∈ target.log, packet ∈ t.log) ∧
      (remaining ≠ [] → client.writeRequest address (remaining.take client.writeRoom) ∈ t.log) := by
  induction fuel generalizing target address remaining with
  | zero => cases h
  | succ fuel ih =>
    by_cases hne : remaining = []
    · subst hne
      cases h
      exact ⟨fun _ h => h, fun hne => absurd rfl hne⟩
    · rw [writeLoop_succ hne] at h
      obtain ⟨hlog, -⟩ := ih h
      simp only [mem_append, mem_singleton] at hlog
      exact ⟨fun packet hpacket => hlog packet (.inl hpacket), fun _ => hlog _ (.inr rfl)⟩

def WithinSize (client : Client) (log : List Text) : Prop :=
  ∀ packet ∈ log, packet.length ≤ client.maxPacketSize.toNat

def ReadsExactly (client : Client) (memory : Memory) (address : UInt64) (size : Nat) : Prop :=
  ∃ fuel target, client.readByteArray fuel { memory } address size =
      some (target, .ok (memory.load address size)) ∧
    target.memory = memory ∧ client.WithinSize target.log

/-- Exactly the given bytes are written, in packets that are within the size. -/
def WritesExactly (client : Client) (memory : Memory) (address : UInt64) (data : List UInt8) :
    Prop :=
  ∃ fuel target, client.writeByteArray fuel { memory } address data = some (target, .ok ()) ∧
    target.memory = memory.store address data ∧ client.WithinSize target.log

/-- The requests for chunks of half of what the packet size leaves fit into packets. -/
def RequestsFit (packetSize : Nat) (address : UInt64) (size : Nat) : Prop :=
  let room := (packetSize - 4) / 2
  ∀ k, k = 0 ∨ k * room < size →
    6 + (hexDigits (address + .ofNat (k * room)).toNat).length +
      (hexDigits (min (size - k * room) room)).length ≤ packetSize

/-- The data can be written: there is none, or the packet size has room for an address, a
size and a byte, or it is so small that there seems to be no limit and all goes into one
packet. -/
def DataFits (packetSize : Nat) (address : UInt64) (data : List UInt8) : Prop :=
  data = [] ∨ 33 ≤ packetSize ∨
    packetSize < 31 ∧ 7 + (hexDigits address.toNat).length +
      (hexDigits data.length).length + 2 * data.length ≤ packetSize

theorem length_hexDigits_le (hk : 0 < k) (hn : n < 16 ^ k) : (hexDigits n).length ≤ k := by
  rw [hexDigits, length_map]
  exact (Nat.length_toDigits_le_iff (by decide) hk).mpr hn

theorem readRoom_eq (h : 4 ≤ client.maxPacketSize.toNat) :
    client.readRoom = (client.maxPacketSize.toNat - 4) / 2 := by
  have hlt := client.maxPacketSize.toNat_lt
  simp only [readRoom, sizeSub, overhead]
  omega

theorem length_requestAt (h : 4 ≤ client.maxPacketSize.toNat) :
    (client.requestAt address size (k * client.readRoom)).length =
      let room := (client.maxPacketSize.toNat - 4) / 2
      6 + (hexDigits (address + .ofNat (k * room)).toNat).length +
        (hexDigits (min (size - k * room) room)).length := by
  rw [requestAt, length_readRequest, chunkAt, readRoom_eq h]

theorem readsExactly_iff (client : Client) (memory : Memory) (address : UInt64) (size : Nat) :
    client.ReadsExactly memory address size ↔
      RequestsFit client.maxPacketSize.toNat address size := by
  constructor
  · rintro ⟨fuel, target, hrun, -, hwithin⟩
    have hfirst := hwithin _ (readLoop_log hrun).2
    rw [requestAt, length_readRequest] at hfirst
    have hroom : 0 < client.readRoom := by
      rw [readRoom_eq (by omega)]
      omega
    obtain ⟨fuel', log, hrun', hlog⟩ := readLoop_done hroom (Nat.zero_le size)
    obtain ⟨rfl, -⟩ := Prod.mk.inj (readLoop_unique hrun hrun')
    intro k hk
    have hmem := (hlog _).mpr (.inr ⟨k, by rwa [Nat.zero_add, readRoom_eq (by omega)], rfl⟩)
    have hlength := hwithin _ hmem
    rwa [Nat.zero_add, length_requestAt (by omega)] at hlength
  · intro h
    have hfirst := h 0 (.inl rfl)
    have hroom : 0 < client.readRoom := by
      rw [readRoom_eq (by omega)]
      omega
    obtain ⟨fuel, log, hrun, hlog⟩ := readLoop_done hroom (Nat.zero_le size)
    refine ⟨fuel, ⟨memory, log⟩, ?_, rfl, fun packet hpacket => ?_⟩
    · rw [readByteArray, hrun]
      simp
    · rcases (hlog packet).mp hpacket with hold | ⟨k, hk, rfl⟩
      · cases hold
      · rw [Nat.zero_add] at hk ⊢
        rw [length_requestAt (by omega)]
        rw [readRoom_eq (by omega)] at hk
        exact h k hk

theorem writesExactly_iff (client : Client) (memory : Memory) (address : UInt64)
    (hdata : data.length < 2 ^ 31) :
    client.WritesExactly memory address data ↔
      DataFits client.maxPacketSize.toNat address data := by
  have hlt := client.maxPacketSize.toNat_lt
  by_cases hne : data = []
  · subst hne
    exact iff_of_true ⟨1, _, rfl, rfl, by simp [WithinSize]⟩ (.inl rfl)
  constructor
  · rintro ⟨fuel, target, hrun, -, hwithin⟩
    have hfirst := hwithin _ ((writeLoop_log hrun).2 hne)
    rw [length_writeRequest] at hfirst
    rcases Nat.lt_or_ge client.maxPacketSize.toNat 31 with hsmall | hlarge
    · have hall : data.take client.writeRoom = data := by
        refine take_of_length_le ?_
        simp only [writeRoom, sizeSub, overhead]
        omega
      rw [hall] at hfirst
      exact .inr (.inr ⟨hsmall, hfirst⟩)
    · refine .inr (.inl ?_)
      by_contra hfew
      have hroom : client.writeRoom = 0 := by
        simp only [writeRoom, sizeSub, overhead]
        omega
      rw [writeByteArray, writeLoop_stuck hroom hne] at hrun
      cases hrun
  · rintro (hnil | hlarge | ⟨hsmall, hfits⟩)
    · exact absurd hnil hne
    · have hroom : 0 < client.writeRoom := by
        simp only [writeRoom, sizeSub, overhead]
        omega
      obtain ⟨fuel, log, hrun, hlog⟩ := writeLoop_done hroom (show data.length < 2 ^ 64 by omega)
      refine ⟨fuel, ⟨memory.store address data, log⟩, hrun, rfl, fun packet hpacket => ?_⟩
      rcases hlog packet hpacket with hold | ⟨a, slice, hslice, rfl⟩
      · cases hold
      · have ha : (hexDigits a.toNat).length ≤ 16 := length_hexDigits_le (by decide) a.toNat_lt
        have hlength : (hexDigits slice.length).length ≤ 8 :=
          length_hexDigits_le (by decide) (show slice.length < 2 ^ 32 by omega)
        have hroom : client.writeRoom = (client.maxPacketSize.toNat - 31) / 2 := by
          simp only [writeRoom, sizeSub, overhead]
          omega
        rw [length_writeRequest]
        omega
    · have hroom : data.length ≤ client.writeRoom := by
        simp only [writeRoom, sizeSub, overhead]
        omega
      refine ⟨2, ⟨memory.store address data, [client.writeRequest address data]⟩, ?_, rfl, ?_⟩
      · rw [writeByteArray, writeLoop_succ hne, take_of_length_le hroom,
          drop_eq_nil_of_le hroom]
        rfl
      · rw [WithinSize, forall_mem_singleton, length_writeRequest]
        exact hfits

/-- Reading and writing are exact, and within the packet size, exactly where requests and
data fit. -/
theorem memoryAccess_iff (client : Client) (memory : Memory) (address : UInt64) :
    (∀ size, size < 2 ^ 31 → 2 * min size client.readRoom < 2 ^ 31 →
      (client.ReadsExactly memory address size ↔
        RequestsFit client.maxPacketSize.toNat address size)) ∧
    ∀ data : List UInt8, data.length < 2 ^ 31 →
      (client.WritesExactly memory address data ↔
        DataFits client.maxPacketSize.toNat address data) :=
  ⟨fun size _ _ => client.readsExactly_iff memory address size,
    fun _ hdata => client.writesExactly_iff memory address hdata⟩

theorem memoryAccess_iff_page :
    let client : Client := ⟨1024, .proper⟩
    let data := replicate 4096 0xcc
    client.ReadsExactly (fun _ => 0) 0xffff800000000000 4 ∧
      client.WritesExactly (fun _ => 0) 0xffff800000000000 data ∧ data.length < 2 ^ 31 ∧
      DataFits 1024 0xffff800000000000 data := by
  have hdata : (replicate 4096 (0xcc : UInt8)).length < 2 ^ 31 := by
    rw [length_replicate]
    decide
  have hfits : DataFits 1024 0xffff800000000000 (replicate 4096 0xcc) :=
    .inr (.inl (by decide))
  have hrequests : RequestsFit 1024 0xffff800000000000 4 := by
    intro k hk
    obtain rfl : k = 0 := by omega
    decide
  obtain ⟨hreads, hwrites⟩ := memoryAccess_iff ⟨1024, .proper⟩ (fun _ => 0) 0xffff800000000000
  exact ⟨(hreads 4 (by decide) (by decide)).mpr hrequests, (hwrites _ hdata).mpr hfits, hdata,
    hfits⟩

/-- With packets of 32 bytes there is no end to writing a byte; with packets of 16 bytes a
request to read one takes 23. -/
theorem small_packets_exceeded :
    (∀ fuel, writeByteArray ⟨32, .proper⟩ fuel { memory := fun _ => 0 } 0x1000 [1] = none) ∧
      ∃ target, readByteArray ⟨16, .proper⟩ 1 { memory := fun _ => 0 } 0xffff800000000000 1 =
          some (target, .ok [0]) ∧ ∃ packet ∈ target.log, packet.length = 23 := by
  refine ⟨writeLoop_stuck (by decide) (by decide), ?_⟩
  have hlast : ¬0 + chunkAt ⟨16, .proper⟩ 1 0 ≠ 1 := by decide
  refine ⟨⟨fun _ => 0, [requestAt ⟨16, .proper⟩ 0xffff800000000000 1 0]⟩, ?_, _,
    mem_singleton.mpr rfl, ?_⟩
  · rw [readByteArray, readLoop_succ]
    rw [if_neg hlast]
    rfl
  · decide +kernel

end Client

end FridaCore.Gdb
