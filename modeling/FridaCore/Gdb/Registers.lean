import FridaCore.Gdb.Protocol
import FridaCore.Support.Lists

/-!
# Registers

`Thread.read_registers` and `Thread.write_registers` of `src/gdb.vala`. What has been
read is written back as it was if and only if the stub prints its digits in lower case
and each register is 64 bits wide or wider than a pointer, or is a 32-bit register of a
64-bit target that is zero (`Kept`).
-/

namespace FridaCore.Gdb

open List Prod

structure Register where
  name : String
  bitsize : Nat
  deriving DecidableEq, Repr

def Register.size (reg : Register) : Nat := reg.bitsize / 8

inductive Variant
  | uint64 (val : UInt64)
  | uint32 (val : UInt32)
  | bytes (val : List UInt8)
  deriving DecidableEq, Repr

/-- `g_variant_get_uint64`, which is 0 for a value of another type. -/
def Variant.getUint64 : Variant → UInt64
  | .uint64 val => val
  | _ => 0

abbrev RegisterMap := List (String × Variant)

def RegisterMap.set (regs : RegisterMap) (name : String) (val : Variant) : RegisterMap :=
  if regs.any (·.1 = name) then regs.map fun e => if e.1 = name then (name, val) else e
  else regs ++ [(name, val)]

def decode (pointerSize : Nat) (byteOrder : ByteOrder) (regSize : Nat) (rawVal : Text) :
    Except Error Variant :=
  if regSize = pointerSize then
    (parsePointerValue rawVal pointerSize byteOrder).map .uint64
  else if regSize < pointerSize then
    (parseIntegerValue rawVal byteOrder).map fun val => .uint32 val.toUInt32
  else
    (parseHexBytes rawVal).map .bytes

/-- The loop of `read_registers`, for the registers from the `i`-th on. -/
def readFrom (pointerSize : Nat) (byteOrder : ByteOrder) (payload : Text) :
    List Register → (i offset : Nat) → RegisterMap → Except Error RegisterMap
  | registers, i, offset, result =>
    let size := payload.length / 2
    if offset = size then .ok result
    else
      match registers with
      | [] => .error (.invalidArgument s!"Invalid register index: {i}")
      | reg :: rest =>
        let endOffset := offset + reg.size
        if endOffset > size then .error (.protocol "Truncated register value")
        else
          let rawVal := (payload.drop (offset * 2)).take ((endOffset - offset) * 2)
          match decode pointerSize byteOrder reg.size rawVal with
          | .error _ => .error (.protocol "Unexpected register value encoding")
          | .ok val =>
            readFrom pointerSize byteOrder payload rest (i + 1) endOffset (result.set reg.name val)

/-- `read_registers`, given the reply to `g`. -/
def readRegisters (registers : List Register) (pointerSize : Nat) (byteOrder : ByteOrder)
    (payload : Text) : Except Error RegisterMap :=
  readFrom pointerSize byteOrder payload registers 0 0 []

def encode (byteOrder : ByteOrder) : Variant → Text
  | .uint64 val => unparseIntegerValue val 8 byteOrder
  | val@(.uint32 _) => unparseIntegerValue val.getUint64 4 byteOrder
  | .bytes val => unparseHexBytes val

/-- The values in the order of the registers, each of which there has to be. -/
def valuesOf (regs : RegisterMap) : List Register → Except Error (List Variant)
  | [] => .ok []
  | reg :: rest =>
    match regs.lookup reg.name with
    | none => .error (.invalidArgument s!"Missing {reg.name}")
    | some val => (valuesOf regs rest).map (val :: ·)

/-- The packet that `write_registers` sends. -/
def writeRegisters (registers : List Register) (byteOrder : ByteOrder)
    (checksumType : ChecksumType) (regs : RegisterMap) : Except Error Text := do
  let n := min regs.length registers.length
  let values ← valuesOf regs (registers.take n)
  return build checksumType (appendC (chr 'G') ++ values.flatMap fun val =>
    append (encode byteOrder val))

structure Layout where
  registers : List Register
  distinct : (registers.map Register.name).Nodup
  bitsizes : ∀ reg ∈ registers, reg.bitsize ∈ [8, 16, 32, 64, 80, 128, 256]

/-- Lengths and offsets are `int`s in the source. -/
structure Covers (registers : List Register) (payload : Text) : Prop where
  length : payload.length = 2 * (registers.map Register.size).sum
  short : payload.length < 2 ^ 31
  digits : ∀ ch ∈ payload, IsHexDigit ch

def parts : List Register → Text → List (Register × Text)
  | [], _ => []
  | reg :: rest, payload =>
    (reg, payload.take (2 * reg.size)) :: parts rest (payload.drop (2 * reg.size))

def Kept (pointerSize : Nat) (part : Register × Text) : Prop :=
  pointerSize < part.1.size ∨ part.1.size = 8 ∨
    pointerSize = 8 ∧ part.1.size = 4 ∧ part.2 = List.replicate 8 (chr '0')

instance : Decidable (Kept pointerSize part) := inferInstanceAs (Decidable (_ ∨ _ ∨ _))

variable {registers : List Register} {pointerSize : Nat} {byteOrder : ByteOrder}
  {payload : Text} {values : List Variant} {reg : Register}

theorem Covers.cons (h : Covers (reg :: registers) payload) :
    (payload.take (2 * reg.size)).length = 2 * reg.size ∧
      (∀ ch ∈ payload.take (2 * reg.size), IsHexDigit ch) ∧
      Covers registers (payload.drop (2 * reg.size)) := by
  have hlength := h.length
  rw [map_cons, sum_cons] at hlength
  have hshort := h.short
  refine ⟨?_, fun ch hch => h.digits ch (mem_of_mem_take hch), ?_, ?_, fun ch hch =>
    h.digits ch (mem_of_mem_drop hch)⟩
  · rw [length_take]
    omega
  · rw [length_drop]
    omega
  · rw [length_drop]
    omega

theorem flatten_parts (h : Covers registers payload) :
    ((parts registers payload).map snd).flatten = payload := by
  induction registers generalizing payload with
  | nil => exact (eq_nil_of_length_eq_zero h.length).symm
  | cons reg rest ih =>
    rw [parts, map_cons, flatten_cons, ih h.cons.2.2, take_append_drop]

def Reads (pointerSize : Nat) (byteOrder : ByteOrder) (part : Register × Text) (val : Variant) :
    Prop :=
  decode pointerSize byteOrder part.1.size part.2 = .ok val

theorem set_eq_append {regs : RegisterMap} (h : ∀ e ∈ regs, e.1 ≠ name) (val : Variant) :
    regs.set name val = regs ++ [(name, val)] := by
  have hnone : regs.any (·.1 = name) = false := by simpa using h
  rw [RegisterMap.set, hnone]
  rfl

theorem readFrom_eq (hsizes : ∀ reg ∈ registers, 0 < reg.size)
    (hdistinct : (registers.map Register.name).Nodup)
    (hresult : ∀ reg ∈ registers, ∀ e ∈ result, e.1 ≠ reg.name)
    (hoffset : 2 * offset ≤ payload.length)
    (hcovers : Covers registers (payload.drop (2 * offset)))
    (hreads : List.Forall₂ (Reads pointerSize byteOrder)
      (parts registers (payload.drop (2 * offset))) values) :
    readFrom pointerSize byteOrder payload registers i offset result =
      .ok (result ++ (registers.map Register.name).zip values) := by
  induction registers generalizing i offset result values with
  | nil =>
    have hlength := hcovers.length
    have hend : offset = payload.length / 2 := by
      simp at hlength
      omega
    rw [readFrom, if_pos hend]
    simp
  | cons reg rest ih =>
    obtain ⟨htake, -, hrest⟩ := hcovers.cons
    cases hreads with
    | cons hval hvalues =>
      rename_i val values
      have hpos := hsizes reg mem_cons_self
      rw [length_take, length_drop] at htake
      rw [drop_drop] at hrest hvalues
      have hval' : decode pointerSize byteOrder reg.size
          ((payload.drop (offset * 2)).take ((offset + reg.size - offset) * 2)) = .ok val := by
        rw [Nat.add_sub_cancel_left, Nat.mul_comm offset, Nat.mul_comm reg.size]
        exact hval
      rw [readFrom, if_neg (by omega)]
      simp only [hval']
      rw [if_neg (by omega), set_eq_append (hresult reg mem_cons_self),
        ih (fun r hr => hsizes r (mem_cons_of_mem _ hr)) (nodup_cons.mp hdistinct).2 ?_
          (by omega) (by rwa [Nat.mul_add]) (by rwa [Nat.mul_add])]
      · simp
      · intro r hr e he
        rcases mem_append.mp he with he | he
        · exact hresult r (mem_cons_of_mem _ hr) e he
        · rw [mem_singleton.mp he]
          intro heq
          exact (nodup_cons.mp hdistinct).1 (mem_map.mpr ⟨r, hr, heq.symm⟩)

theorem valuesOf_eq (hlength : registers.length = values.length)
    (h : ∀ p ∈ registers.zip values, regs.lookup p.1.name = some p.2) :
    valuesOf regs registers = .ok values := by
  induction registers generalizing values with
  | nil =>
    obtain rfl := eq_nil_of_length_eq_zero hlength.symm
    rfl
  | cons reg rest ih =>
    cases values with
    | nil => cases hlength
    | cons val values =>
      rw [zip_cons_cons, forall_mem_cons] at h
      rw [valuesOf, h.1]
      rw [ih (Nat.succ.inj hlength) h.2]
      rfl

theorem lookup_zip (hdistinct : (registers.map Register.name).Nodup)
    (hlength : registers.length = values.length) : ∀ p ∈ registers.zip values,
      ((registers.map Register.name).zip values).lookup p.1.name = some p.2 := by
  intro p hp
  refine (lookup_iff_mem ?_).mpr ?_
  · rwa [map_fst_zip (by simp [hlength])]
  · rw [zip_map_left]
    exact mem_map_of_mem (f := Prod.map Register.name id) hp

theorem append_of_digits (h : ∀ ch ∈ text, IsLowerDigit ch) :
    append text = text := by
  have hall : ∀ n : Fin 256, IsLowerDigit (.ofFin n) → appendC (.ofFin n) = [.ofFin n] := by
    decide +kernel
  induction text with
  | nil => rfl
  | cons ch rest ih =>
    rw [forall_mem_cons] at h
    have hfirst : appendC ch = [ch] := hall ch.toFin h.1
    rw [append, flatMap_cons, hfirst, ← append, ih h.2]
    rfl

theorem append_encode (val : Variant) : append (encode byteOrder val) = encode byteOrder val := by
  cases val <;> exact append_of_digits (isLowerDigit_unparse _)

theorem writeRegisters_zip (hdistinct : (registers.map Register.name).Nodup)
    (hlength : registers.length = values.length) :
    writeRegisters registers byteOrder checksumType ((registers.map Register.name).zip values) =
      .ok (build checksumType (chr 'G' :: values.flatMap (encode byteOrder))) := by
  have hmin : min (zip (registers.map Register.name) values).length registers.length =
      registers.length := by
    simp [hlength]
  simp only [writeRegisters, hmin, take_length,
    valuesOf_eq hlength (lookup_zip hdistinct hlength), append_encode]
  rfl

theorem build_inj :
    build checksumType first = build checksumType second ↔ first = second := by
  constructor
  · intro h
    have hlength := congrArg length h
    simp only [length_build, Nat.add_right_cancel_iff] at hlength
    exact (append_inj (cons.inj h).2 hlength).1
  · exact fun h => by rw [h]

@[simp] theorem length_unparseIntegerValue (val : UInt64) (size : Nat) :
    (unparseIntegerValue val size byteOrder).length = 2 * size := by
  cases byteOrder <;> simp [unparseIntegerValue]

theorem unparse_zero : unparseIntegerValue 0 4 byteOrder = replicate 8 (chr '0') := by
  cases byteOrder <;> decide

theorem parseIntegerValue_ok (byteOrder : ByteOrder) (hlength : rawVal.length = 2 * n)
    (hdigits : ∀ ch ∈ rawVal, IsHexDigit ch) :
    ∃ val, parseIntegerValue rawVal byteOrder = .ok val := by
  obtain ⟨bytes, hbytes, -⟩ := parseHexBytes_spec hlength hdigits
  have heven : ¬rawVal.length % 2 ≠ 0 := by omega
  simp only [parseIntegerValue, heven, if_false, hbytes]
  exact ⟨_, rfl⟩

theorem size_of_bitsize (h : reg.bitsize ∈ [8, 16, 32, 64, 80, 128, 256]) :
    reg.size = 1 ∨ reg.size = 2 ∨ reg.size = 4 ∨ 8 ≤ reg.size := by
  simp only [mem_cons, not_mem_nil, or_false] at h
  rw [Register.size]
  omega

/-- A part of the reply is read, and the value is written as that part if and only if it
is kept and in lower case. -/
theorem reads_spec (hps : pointerSize = 4 ∨ pointerSize = 8)
    (hbitsize : reg.bitsize ∈ [8, 16, 32, 64, 80, 128, 256])
    (hlength : rawVal.length = 2 * reg.size) (hdigits : ∀ ch ∈ rawVal, IsHexDigit ch) :
    ∃ val, Reads pointerSize byteOrder (reg, rawVal) val ∧
      rawVal.length ≤ (encode byteOrder val).length ∧
      (encode byteOrder val = rawVal ↔
        (∀ ch ∈ rawVal, IsLowerDigit ch) ∧ Kept pointerSize (reg, rawVal)) := by
  obtain ⟨bytes, hbytes, hcount, hlower⟩ := parseHexBytes_spec hlength hdigits
  have hsize := size_of_bitsize hbitsize
  rcases Nat.lt_trichotomy reg.size pointerSize with hlt | heq | hgt
  · obtain ⟨val, hval⟩ := parseIntegerValue_ok byteOrder hlength hdigits
    refine ⟨.uint32 val.toUInt32, ?_, ?_, ?_⟩
    · simp [Reads, decode, hlt, hlt.ne, hval, Except.map]
    · simp only [encode, length_unparseIntegerValue]
      omega
    · simp only [encode, Variant.getUint64, unparse_zero, Kept]
      constructor
      · intro h
        have hzero : rawVal.length = 8 := by simp [← h]
        refine ⟨fun ch hch => ?_, .inr (.inr ⟨by omega, by omega, h.symm⟩)⟩
        rw [← h] at hch
        rw [eq_of_mem_replicate hch]
        decide
      · rintro ⟨-, h | h | ⟨-, -, h⟩⟩
        · omega
        · omega
        · exact h.symm
  · have hpointer : rawVal.length = pointerSize * 2 := by omega
    rcases hps with rfl | rfl
    · obtain ⟨val, hval⟩ := parseIntegerValue_ok byteOrder hlength hdigits
      refine ⟨.uint64 val, ?_, ?_, ?_⟩
      · simp [Reads, decode, heq, parsePointerValue, hpointer, hval, Except.map]
      · simp only [encode, length_unparseIntegerValue]
        omega
      · -- the value takes twice the digits
        have hne : encode byteOrder (.uint64 val) ≠ rawVal := by
          intro h
          have := congrArg length h
          simp only [encode, length_unparseIntegerValue] at this
          omega
        have hlost : ¬Kept 4 (reg, rawVal) := by
          simp only [Kept]
          omega
        exact iff_of_false hne fun h => hlost h.2
    · rw [heq] at hlength hcount
      obtain ⟨val, hval, hsame⟩ := unparse_parseIntegerValue byteOrder hlength hbytes hcount
      refine ⟨.uint64 val, ?_, ?_, ?_⟩
      · simp [Reads, decode, heq, parsePointerValue, hpointer, hval, Except.map]
      · simp [encode, hlength]
      · simp [encode, hsame, hlower, Kept, heq]
  · refine ⟨.bytes bytes, ?_, ?_, ?_⟩
    · simp [Reads, decode, hgt.ne', hgt.not_gt, hbytes, Except.map]
    · simp [encode, hcount, hlength]
    · simp [encode, hlower, Kept, hgt]

/-- Texts that are no shorter, one by one, are the same once they are put together only
if each of them is. -/
theorem flatten_eq_iff
    (h : List.Forall₂ (fun new old : Text => old.length ≤ new.length) news olds) :
    news.flatten = olds.flatten ↔ news = olds := by
  refine ⟨fun heq => ?_, fun heq => by rw [heq]⟩
  induction h with
  | nil => rfl
  | cons hfirst hrest ih =>
    rename_i new old news olds
    have hlengths : olds.flatten.length ≤ news.flatten.length := by
      rw [length_flatten, length_flatten]
      exact List.Forall₂.sum_le_sum (forall₂_map_left_iff.mpr
        (forall₂_map_right_iff.mpr hrest.flip))
    rw [flatten_cons, flatten_cons] at heq
    have hlength := congrArg length heq
    rw [length_append, length_append] at hlength
    obtain ⟨rfl, hrests⟩ := append_inj heq (by omega)
    rw [ih hrests]

theorem exists_reads (hps : pointerSize = 4 ∨ pointerSize = 8)
    (hbitsizes : ∀ reg ∈ registers, reg.bitsize ∈ [8, 16, 32, 64, 80, 128, 256])
    (hcovers : Covers registers payload) :
    ∃ values, List.Forall₂ (Reads pointerSize byteOrder) (parts registers payload) values ∧
      registers.length = values.length ∧
      List.Forall₂ (fun new old : Text => old.length ≤ new.length)
        (values.map (encode byteOrder)) ((parts registers payload).map snd) ∧
      (values.map (encode byteOrder) = (parts registers payload).map snd ↔
        (∀ ch ∈ payload, IsLowerDigit ch) ∧
          ∀ part ∈ parts registers payload, Kept pointerSize part) := by
  induction registers generalizing payload with
  | nil =>
    obtain rfl := eq_nil_of_length_eq_zero hcovers.length
    exact ⟨[], .nil, rfl, .nil, by simp [parts]⟩
  | cons reg rest ih =>
    rw [forall_mem_cons] at hbitsizes
    obtain ⟨hlength, hdigits, hrest⟩ := hcovers.cons
    obtain ⟨val, hval, hle, hiff⟩ := reads_spec hps hbitsizes.1 hlength hdigits
    obtain ⟨values, hvalues, hcount, hles, hiffs⟩ := ih hbitsizes.2 hrest
    refine ⟨val :: values, .cons hval hvalues, by simp [hcount], .cons hle hles, ?_⟩
    have hpayload : (∀ ch ∈ payload, IsLowerDigit ch) ↔
        (∀ ch ∈ payload.take (2 * reg.size), IsLowerDigit ch) ∧
          ∀ ch ∈ payload.drop (2 * reg.size), IsLowerDigit ch := by
      conv_lhs => rw [← take_append_drop (2 * reg.size) payload]
      exact forall_mem_append
    rw [parts, map_cons, map_cons, cons.injEq, hiff, hiffs, forall_mem_cons,
      hpayload]
    tauto

/-- Writing the registers that have just been read sends the reply back as it was if and
only if its digits are in lower case and each register is kept. -/
theorem writeRegisters_readRegisters_iff (layout : Layout) (byteOrder : ByteOrder)
    (checksumType : ChecksumType) (hps : pointerSize = 4 ∨ pointerSize = 8)
    (hcovers : Covers layout.registers payload) :
    (∃ regs, readRegisters layout.registers pointerSize byteOrder payload = .ok regs ∧
      writeRegisters layout.registers byteOrder checksumType regs =
        .ok (build checksumType (chr 'G' :: payload))) ↔
      (∀ ch ∈ payload, IsLowerDigit ch) ∧
        ∀ part ∈ parts layout.registers payload, Kept pointerSize part := by
  obtain ⟨values, hreads, hcount, hles, hiff⟩ := exists_reads hps layout.bitsizes hcovers
  have hsizes : ∀ reg ∈ layout.registers, 0 < reg.size := by
    intro reg hreg
    have := size_of_bitsize (layout.bitsizes reg hreg)
    omega
  have hread : readRegisters layout.registers pointerSize byteOrder payload =
      .ok ([] ++ (layout.registers.map Register.name).zip values) :=
    readFrom_eq hsizes layout.distinct (by simp) (by simp) (by simpa using hcovers)
      (by simpa using hreads)
  rw [hread, nil_append, ← hiff, ← flatten_eq_iff hles, flatten_parts hcovers]
  simp only [Except.ok.injEq, exists_eq_left', writeRegisters_zip layout.distinct hcount,
    build_inj, cons.injEq, true_and]
  rw [flatMap_def]

def arm64Layout : Layout where
  registers := [⟨"x0", 64⟩, ⟨"v0", 128⟩, ⟨"cpsr", 32⟩]
  distinct := by decide
  bitsizes := by decide

def arm64Reply : Text :=
  unparseHexBytes ([1, 2, 3, 4, 5, 6, 7, 8] ++ List.replicate 16 0xab ++ [0, 0, 0, 0])

theorem writeRegisters_readRegisters_iff_arm64 :
    (∃ regs, readRegisters arm64Layout.registers 8 .littleEndian arm64Reply = .ok regs ∧
      writeRegisters arm64Layout.registers .littleEndian .proper regs =
        .ok (build .proper (chr 'G' :: arm64Reply))) ∧
      Covers arm64Layout.registers arm64Reply ∧ (∀ ch ∈ arm64Reply, IsLowerDigit ch) ∧
        ∀ part ∈ parts arm64Layout.registers arm64Reply, Kept 8 part := by
  have hcovers : Covers arm64Layout.registers arm64Reply :=
    ⟨rfl, by decide, fun ch hch => (isLowerDigit_unparse _ ch hch).1⟩
  have hlower : ∀ ch ∈ arm64Reply, IsLowerDigit ch := isLowerDigit_unparse _
  have hkept : ∀ part ∈ parts arm64Layout.registers arm64Reply, Kept 8 part := by
    decide +kernel
  have hiff :=
    writeRegisters_readRegisters_iff arm64Layout .littleEndian .proper (.inr rfl) hcovers
  exact ⟨hiff.mpr ⟨hlower, hkept⟩, hcovers, hlower, hkept⟩

/-- A 32-bit register is written in 64 bits where it is as wide as a pointer, and as zero
where it is narrower. -/
theorem narrow_registers_lost :
    let registers : List Register := [⟨"r0", 32⟩]
    let payload := unparseHexBytes [0x78, 0x56, 0x34, 0x12]
    let written (pointerSize : Nat) := do
      let regs ← readRegisters registers pointerSize .littleEndian payload
      writeRegisters registers .littleEndian .zeroed regs
    Covers registers payload ∧
      written 4 = .ok (build .zeroed
        (chr 'G' :: unparseHexBytes [0x78, 0x56, 0x34, 0x12, 0, 0, 0, 0])) ∧
      written 8 = .ok (build .zeroed (chr 'G' :: unparseHexBytes [0, 0, 0, 0])) ∧
      ∀ pointerSize ∈ [4, 8], written pointerSize ≠ .ok (build .zeroed (chr 'G' :: payload)) := by
  refine ⟨⟨rfl, by decide, fun ch hch => (isLowerDigit_unparse _ ch hch).1⟩, ?_, ?_, ?_⟩
  · decide +kernel
  · decide +kernel
  · decide +kernel

end FridaCore.Gdb
