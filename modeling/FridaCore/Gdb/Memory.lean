import FridaCore.Gdb.Protocol

/-!
# Access to the memory of the target

`read_byte_array` and `write_byte_array` of `src/gdb.vala`, with a stub that serves the
packets they send. Sizes are `size_t`: the room for data in a packet is what is left of
the size the stub has advertised, modulo 2^64.

A loop is given fuel, and is none if it is not done by then. The log of the packets that
have been sent is only there to talk about them.
-/

namespace FridaCore.Gdb

open List

abbrev Memory := UInt64 → UInt8

namespace Memory

def load (memory : Memory) (address : UInt64) (size : Nat) : List UInt8 :=
  (List.range size).map fun i => memory (address + .ofNat i)

def store (memory : Memory) (address : UInt64) (bytes : List UInt8) : Memory :=
  fun a => bytes[(a - address).toNat]?.getD (memory a)

variable {memory : Memory} {address : UInt64}

@[simp] theorem length_load (memory : Memory) (address : UInt64) (size : Nat) :
    (memory.load address size).length = size := by
  simp [load]

theorem load_add (memory : Memory) (address : UInt64) (m n : Nat) :
    memory.load address (m + n) =
      memory.load address m ++ memory.load (address + .ofNat m) n := by
  simp [load, range_add, UInt64.add_assoc]

theorem toNat_sub_add (a : UInt64) (hn : n < 2 ^ 64) :
    (a - (address + .ofNat n)).toNat = ((a - address).toNat + 2 ^ 64 - n) % 2 ^ 64 := by
  have haddress := address.toNat_lt
  simp only [UInt64.toNat_sub, UInt64.toNat_add, UInt64.toNat_ofNat', Nat.mod_eq_of_lt hn]
  omega

theorem store_append (h : (first ++ second).length < 2 ^ 64) :
    (memory.store address first).store (address + .ofNat first.length) second =
      memory.store address (first ++ second) := by
  rw [length_append] at h
  funext a
  have hlt := (a - address).toNat_lt
  have hsub : (a - (address + .ofNat first.length)).toNat =
      ((a - address).toNat + 2 ^ 64 - first.length) % 2 ^ 64 := toNat_sub_add a (by omega)
  simp only [store, getElem?_append]
  by_cases hin : (a - address).toNat < first.length
  · -- the second part ends before it comes round to the address
    have hout : second.length ≤ (a - (address + .ofNat first.length)).toNat := by omega
    rw [if_pos hin, getElem?_eq_none hout]
    rfl
  · have hsecond : (a - (address + .ofNat first.length)).toNat =
        (a - address).toNat - first.length := by omega
    rw [if_neg hin, hsecond, getElem?_eq_none (Nat.le_of_not_lt hin)]
    rfl

end Memory

def readHex (acc : Nat) : Text → Nat × Text
  | [] => (acc, [])
  | ch :: rest =>
    match hexCharToNibble ch with
    | some nibble => readHex (acc * 16 + nibble.toNat) rest
    | none => (acc, ch :: rest)

def readRange (text : Text) : Option (UInt64 × Nat × Text) :=
  let (address, rest) := readHex 0 text
  match rest with
  | sep :: rest =>
    if sep = chr ',' then
      let (size, rest) := readHex 0 rest
      some (.ofNat address, size, rest)
    else none
  | [] => none

def okReply : Text := [chr 'O', chr 'K']

def errorReply : Text := [chr 'E', chr '0', chr '1']

/-- The reply to `m`. -/
def serveRead (memory : Memory) (text : Text) : Text :=
  match readRange text with
  | some (address, size, []) => unparseHexBytes (memory.load address size)
  | _ => errorReply

/-- What `M` makes of the memory, and the reply to it. -/
def serveWrite (memory : Memory) (text : Text) : Memory × Text :=
  match readRange text with
  | some (address, size, sep :: rest) =>
    match parseHexBytes rest with
    | .ok bytes =>
      if sep = chr ':' ∧ bytes.length = size then (memory.store address bytes, okReply)
      else (memory, errorReply)
    | .error _ => (memory, errorReply)
  | _ => (memory, errorReply)

def serveCommand (memory : Memory) : Text → Memory × Text
  | [] => (memory, [])
  | command :: text =>
    if command = chr 'm' then (memory, serveRead memory text)
    else if command = chr 'M' then serveWrite memory text
    else (memory, [])

def unpack (checksumType : ChecksumType) (packet : Text) : Option Text :=
  let content := packet.tail.takeWhile (· ≠ chr '#')
  if packet = build checksumType content then some content else none

structure Target where
  memory : Memory
  log : List Text := []

/-- `query`: the packet is sent, and its reply comes back. -/
def Target.query (target : Target) (checksumType : ChecksumType) (packet : Text) :
    Target × Text :=
  let (memory, reply) := match unpack checksumType packet with
    | some content => serveCommand target.memory content
    | none => (target.memory, [])
  ({ memory, log := target.log ++ [packet] }, reply)

structure Client where
  maxPacketSize : UInt64
  checksumType : ChecksumType

namespace Client

/-- An unsigned subtraction of `size_t`. -/
def sizeSub (a b : Nat) : Nat := (a + 2 ^ 64 - b) % 2 ^ 64

def readRoom (client : Client) : Nat := sizeSub client.maxPacketSize.toNat overhead / 2

def writeRoom (client : Client) : Nat :=
  sizeSub client.maxPacketSize.toNat (1 + 16 + 1 + 8 + 1 + overhead) / 2

def readRequest (client : Client) (address : UInt64) (size : Nat) : Text :=
  build client.checksumType
    (appendC (chr 'm') ++ appendAddress address ++ appendC (chr ',') ++ appendSize size)

/-- The loop of `read_byte_array`, whose condition comes last. -/
def readLoop (client : Client) (address : UInt64) (size : Nat) :
    (fuel : Nat) → Target → (offset : Nat) → List UInt8 →
      Option (Target × Except Error (List UInt8))
  | 0, _, _, _ => none
  | fuel + 1, target, offset, result =>
    let chunkSize := min (size - offset) client.readRoom
    let (target, reply) := target.query client.checksumType
      (client.readRequest (address + .ofNat offset) chunkSize)
    match parseHexBytes reply with
    | .error e => some (target, .error e)
    | .ok chunk =>
      if chunk.length ≠ chunkSize then
        some (target, .error (.invalidArgument
          s!"Unable to read from 0x{(hexDigits address.toNat).str}: invalid address"))
      else
        let offset := offset + chunkSize
        if offset ≠ size then client.readLoop address size fuel target offset (result ++ chunk)
        else some (target, .ok (result ++ chunk))

/-- The length of an array is an `int`, and so is that of a text: the bytes are those that were read
as long as there are less than 2³¹ of them, and less than 2³¹ digits in a reply. -/
def readByteArray (client : Client) (fuel : Nat) (target : Target) (address : UInt64)
    (size : Nat) : Option (Target × Except Error (List UInt8)) :=
  client.readLoop address size fuel target 0 []

def writeRequest (client : Client) (address : UInt64) (bytes : List UInt8) : Text :=
  build client.checksumType
    (appendC (chr 'M') ++ appendAddress address ++ appendC (chr ',') ++ appendSize bytes.length ++
      appendC (chr ':') ++ unparseHexBytes bytes)

def checkExecuteResponse (response : Text) : Except Error Unit :=
  if response.head? = some (chr 'E') then
    if Text.str response.tail = "Locked" then .error (.invalidOperation "Device is locked")
    else .error (.notSupported (Text.str response.tail))
  else if response ≠ okReply then .error (.protocol s!"Unexpected response: {response.str}")
  else .ok ()

/-- The loop of `write_byte_array`, for what remains of the data. -/
def writeLoop (client : Client) :
    (fuel : Nat) → Target → (address : UInt64) → List UInt8 → Option (Target × Except Error Unit)
  | 0, _, _, _ => none
  | fuel + 1, target, address, remaining =>
    if remaining = [] then some (target, .ok ())
    else
      let slice := remaining.take (min remaining.length client.writeRoom)
      let (target, reply) := target.query client.checksumType (client.writeRequest address slice)
      match checkExecuteResponse reply with
      | .error e => some (target, .error e)
      | .ok _ =>
        client.writeLoop fuel target (address + .ofNat slice.length)
          (remaining.drop slice.length)

def writeByteArray (client : Client) (fuel : Nat) (target : Target) (address : UInt64)
    (data : List UInt8) : Option (Target × Except Error Unit) :=
  client.writeLoop fuel target address data

end Client

end FridaCore.Gdb
