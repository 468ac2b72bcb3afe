import FridaCore.Base.Buffer
import FridaCore.Error

/-!
# Datagrams in transfers

The CDC-NCM driver of `src/fruity/ncm.vala` puts datagrams into transfers and takes them
out again. A transfer has a header, a table of datagrams (NDP) that may link to another
one, and the datagrams.

Divisors, alignments and limits are what the device says. Numbers that are stored as
`uint16` are cut down to 16 bits.
-/

namespace FridaCore.Fruity.Ncm

abbrev Bytes := List UInt8

def transferHeaderSize : Nat := 4 + 2 + 2 + 2 + 2

def uint16 (n : Nat) : Nat := n % 2 ^ 16

inductive Fault
  | divisionByZero
  | outsideOffsets
  deriving DecidableEq, Repr

def align (val modulus remainder : Nat) : Except Fault Nat :=
  if modulus = 0 then .error .divisionByZero
  else
    let delta := val % modulus
    if delta ≠ remainder then .ok (val + modulus - delta + remainder) else .ok val

structure TransferLayout where
  size : Nat
  ndpHeaderOffset : Nat
  ndpHeaderSize : Nat
  offsets : List Nat
  deriving DecidableEq, Repr

/-- What `TransferLayout.compute` is told. -/
structure LayoutParameters where
  maxTransferSize : Nat
  ndpFixedHeaderSize : Nat
  ndpAlignment : Nat
  datagramModulus : Nat
  datagramRemainder : Nat
  deriving DecidableEq, Repr

namespace TransferLayout

def ethernetHeaderSize : Nat := 14

/-- The loop of `compute`: the size so far and the offsets that have been written into an
array of `maxDatagrams`. -/
def place (p : LayoutParameters) (maxDatagrams : Nat) :
    (current : Nat) → (offsets : List Nat) → List Bytes → Except Fault (Nat × List Nat)
  | current, offsets, [] => .ok (current, offsets)
  | current, offsets, datagram :: rest => do
    let startOffset ←
      align (current + ethernetHeaderSize) p.datagramModulus p.datagramRemainder
    let endOffset := startOffset + uint16 datagram.length
    if endOffset > 0xffff ∨ endOffset > p.maxTransferSize then return (current, offsets)
    if maxDatagrams ≤ offsets.length then throw .outsideOffsets
    let offsets := offsets ++ [uint16 startOffset]
    if offsets.length = maxDatagrams then return (endOffset, offsets)
    place p maxDatagrams endOffset offsets rest

def compute (datagrams : List Bytes) (maxDatagrams : Nat) (p : LayoutParameters) :
    Except Fault TransferLayout := do
  let ndpHeaderOffset ← align transferHeaderSize p.ndpAlignment 0
  let (size, offsets) ←
    place p maxDatagrams (ndpHeaderOffset + p.ndpFixedHeaderSize) [] datagrams
  return {
    size := uint16 size
    ndpHeaderOffset := uint16 ndpHeaderOffset
    ndpHeaderSize := p.ndpFixedHeaderSize
    offsets }

end TransferLayout

def nthSignature : Bytes := ['N', 'C', 'M', 'H'].map Char.toUInt8

def ndpSignature : Bytes := ['N', 'C', 'M', '0'].map Char.toUInt8

def appendEntries (b : BufferBuilder) (entries : List (Nat × Bytes)) : BufferBuilder :=
  entries.foldl (fun b e => (b.appendUint16 e.1).appendUint16 e.2.length) b

def appendDatagrams (b : BufferBuilder) (entries : List (Nat × Bytes)) : BufferBuilder :=
  entries.foldl (fun b e => (b.seek e.1).appendData e.2) b

def buildOutputTransfer (datagrams : List Bytes) (layout : TransferLayout)
    (sequenceNumber : Nat) : Bytes :=
  let b : BufferBuilder := {}
  let b := b.appendData nthSignature
  let b := b.appendUint16 transferHeaderSize
  let b := b.appendUint16 sequenceNumber
  let b := b.appendUint16 layout.size
  let b := b.appendUint16 layout.ndpHeaderOffset
  let b := b.seek layout.ndpHeaderOffset
  let b := b.appendData ndpSignature
  let b := b.appendUint16 layout.ndpHeaderSize
  let b := b.appendUint16 0
  let b := appendEntries b (layout.offsets.zip datagrams)
  let b := appendDatagrams b (layout.offsets.zip datagrams)
  (b.seek layout.size).buffer

inductive FrameError
  | error (e : Error)
  | invalidSeek
  | endOfStream
  deriving DecidableEq, Repr

/-- A datagram that has been taken out of a frame. Only the bytes are handed on; where
they have come from is there to talk about it. -/
structure Datagram where
  index : Nat
  length : Nat
  bytes : Bytes
  deriving DecidableEq, Repr

/-- `read_all` into a new array, which is zero where the frame ends too early. -/
def readDatagram (frame : Bytes) (index length : Nat) : Datagram :=
  let bytes := (frame.drop index).take length
  ⟨index, length, bytes ++ List.replicate (length - bytes.length) 0⟩

/-- The inner loop of `handle_ncm_frame`, from what is left of the frame. -/
def readDatagrams (frame : Bytes) : Bytes → Except FrameError (List Datagram)
  | i0 :: i1 :: l0 :: l1 :: rest =>
    let index := leValue [i0, i1]
    let length := leValue [l0, l1]
    if index = 0 ∨ length = 0 then .ok []
    else if frame.length < index then .error .invalidSeek
    else (readDatagrams frame rest).map fun datagrams =>
      readDatagram frame index length :: datagrams
  | _ => .error .endOfStream

/-- `read_all` into the array for signatures: what is not read stays from before. -/
def readSignature (rawSignature input : Bytes) : Bytes :=
  input.take 4 ++ rawSignature.drop (input.take 4).length

/-- The body of the outer loop: the signature, the next index and the datagrams. -/
def readNdp (frame rawSignature : Bytes) (ndpIndex : Nat) :
    Except FrameError (Bytes × Nat × List Datagram) :=
  if frame.length < ndpIndex then .error .invalidSeek
  else
    let input := frame.drop ndpIndex
    let rawSignature := readSignature rawSignature input
    if rawSignature ≠ ndpSignature then
      .error (.error (.protocol "Invalid NDP16 signature"))
    else
      match input.drop 6 with
      | n0 :: n1 :: rest =>
        (readDatagrams frame rest).map fun datagrams =>
          (rawSignature, leValue [n0, n1], datagrams)
      | _ => .error .endOfStream

def readNdps (frame : Bytes) :
    (fuel : Nat) → (rawSignature : Bytes) → (ndpIndex : Nat) →
      Option (Except FrameError (List Datagram))
  | 0, _, _ => none
  | fuel + 1, rawSignature, ndpIndex =>
    match readNdp frame rawSignature ndpIndex with
    | .error e => some (.error e)
    | .ok (rawSignature, next, datagrams) =>
      if next = 0 then some (.ok datagrams)
      else (readNdps frame fuel rawSignature next).map fun rest => rest.map (datagrams ++ ·)

def readHeader (frame : Bytes) : Except FrameError Nat :=
  if readSignature [0, 0, 0, 0] frame ≠ nthSignature then
    .error (.error (.protocol "Invalid NTH16 signature"))
  else
    match frame.drop 10 with
    | i0 :: i1 :: _ => .ok (leValue [i0, i1])
    | _ => .error .endOfStream

def handleNcmFrame (fuel : Nat) (frame : Bytes) : Option (Except FrameError (List Datagram)) :=
  match readHeader frame with
  | .error e => some (.error e)
  | .ok ndpIndex => readNdps frame fuel nthSignature ndpIndex

end FridaCore.Fruity.Ncm
