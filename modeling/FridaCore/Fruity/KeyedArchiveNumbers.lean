import FridaCore.Fruity.KeyedArchiveTable

/-!
# Numbers in an archive

A real is encoded as the integer it is truncated to. If that is possible at all, what is
encoded is a number of the same kind that is neither a negative zero nor not a number, and
it is equal to the real if and only if there is nothing after its point.
-/

namespace FridaCore.Fruity

open Option

namespace NSKeyedArchive

open BinaryFormat

/-- A real is an integer, and one that an `int64` can be. -/
def WholeInt64 (fmt : BinaryFormat) (bits : Nat) : Prop :=
  fmt.Integral bits ∧ ∃ i, fmt.truncate bits = some i ∧ -2 ^ 63 ≤ i ∧ i < 2 ^ 63

theorem int64OfReal_eq_some :
    int64OfReal fmt bits = some val ↔
      ∃ i, fmt.truncate bits = some i ∧ (-2 ^ 63 ≤ i ∧ i < 2 ^ 63) ∧ val.toInt = i := by
  simp only [int64OfReal, bind_eq_bind, bind_eq_some_iff]
  refine exists_congr fun i => and_congr_right fun _ => ?_
  constructor
  · intro h
    split at h
    · next hrange =>
      cases h
      exact ⟨hrange, Int64.toInt_ofInt_of_le hrange.1 hrange.2⟩
    · cases h
  · rintro ⟨hrange, rfl⟩
    rw [if_pos hrange, Int64.ofInt_toInt]

theorem int64OfReal_of_range (hi : fmt.truncate bits = some i) (hrange : -2 ^ 63 ≤ i ∧ i < 2 ^ 63) :
    ∃ val, int64OfReal fmt bits = some val ∧ val.toInt = i :=
  have hto := Int64.toInt_ofInt_of_le hrange.1 hrange.2
  ⟨.ofInt i, int64OfReal_eq_some.mpr ⟨i, hi, hrange, hto⟩, hto⟩

theorem toNat_and_float (bits : UInt32) : (bits &&& 0x7fffffff).toNat = bits.toNat % 2 ^ 31 := by
  exact Nat.and_two_pow_sub_one_eq_mod bits.toNat 31

theorem toNat_and_double (bits : UInt64) :
    (bits &&& 0x7fffffffffffffff).toNat = bits.toNat % 2 ^ 63 := by
  exact Nat.and_two_pow_sub_one_eq_mod bits.toNat 63

theorem isZero_float {bits : UInt32} :
    bits &&& 0x7fffffff = 0 ↔ binary32.IsZero bits.toNat := by
  rw [← UInt32.toNat_inj, toNat_and_float]
  rfl

theorem isZero_double {bits : UInt64} :
    bits &&& 0x7fffffffffffffff = 0 ↔ binary64.IsZero bits.toNat := by
  rw [← UInt64.toNat_inj, toNat_and_double]
  rfl

theorem isNanFloat_eq_false (h : binary32.exponent bits.toNat ≠ 2 ^ 8 - 1) :
    isNanFloat bits = false := by
  have hlt : bits.toNat % 2 ^ 31 < (2 ^ 8 - 1) * 2 ^ 23 := mod_lt_of_exponent h
  refine decide_eq_false fun hnan => ?_
  rw [gt_iff_lt, UInt32.lt_iff_toNat_lt, toNat_and_float] at hnan
  exact absurd hlt (Nat.not_lt.mpr hnan.le)

theorem isNanDouble_eq_false (h : binary64.exponent bits.toNat ≠ 2 ^ 11 - 1) :
    isNanDouble bits = false := by
  have hlt : bits.toNat % 2 ^ 63 < (2 ^ 11 - 1) * 2 ^ 52 := mod_lt_of_exponent h
  refine decide_eq_false fun hnan => ?_
  rw [gt_iff_lt, UInt64.lt_iff_toNat_lt, toNat_and_double] at hnan
  exact absurd hlt (Nat.not_lt.mpr hnan.le)

section
variable {bits : UInt32} {i : Int} (h : binary32.truncate bits.toNat = some i)
include h

theorem toNat_ofInt_float : (UInt32.ofNat (binary32.ofInt i)).toNat = binary32.ofInt i := by
  have hle : binary32.ofInt i ≤ bits.toNat := ofInt_le bits.toNat_lt h
  rw [UInt32.toNat_ofNat', Nat.mod_eq_of_lt (hle.trans_lt bits.toNat_lt)]

theorem unsigned_ofInt_float : (Scalar.float (.ofNat (binary32.ofInt i))).unsigned =
    .float (.ofNat (binary32.ofInt i)) := by
  rw [Scalar.unsigned]
  split
  · next hzero =>
    rw [isZero_float, toNat_ofInt_float h] at hzero
    rw [ofInt_eq_zero h hzero]
    rfl
  · rfl

theorem notNan_ofInt_float : isNanFloat (.ofNat (binary32.ofInt i)) = false :=
  isNanFloat_eq_false (by rw [toNat_ofInt_float h]; exact exponent_ofInt_ne h)

theorem floatEq_ofInt_iff :
    floatEq bits (.ofNat (binary32.ofInt i)) = true ↔ binary32.Integral bits.toNat := by
  rw [← ofInt_truncate_iff bits.toNat_lt h, floatEq,
    isNanFloat_eq_false (exponent_of_truncate h), notNan_ofInt_float h]
  simp only [Bool.not_false, Bool.true_and, Bool.or_eq_true, decide_eq_true_eq]
  rw [or_and_eq_zero_float, isZero_float, isZero_float, ← UInt32.toNat_inj, toNat_ofInt_float h,
    eq_comm, and_comm]

end

section
variable {bits : UInt64} {i : Int} (h : binary64.truncate bits.toNat = some i)
include h

theorem toNat_ofInt_double : (UInt64.ofNat (binary64.ofInt i)).toNat = binary64.ofInt i := by
  have hle : binary64.ofInt i ≤ bits.toNat := ofInt_le bits.toNat_lt h
  rw [UInt64.toNat_ofNat', Nat.mod_eq_of_lt (hle.trans_lt bits.toNat_lt)]

theorem unsigned_ofInt_double : (Scalar.double (.ofNat (binary64.ofInt i))).unsigned =
    .double (.ofNat (binary64.ofInt i)) := by
  rw [Scalar.unsigned]
  split
  · next hzero =>
    rw [isZero_double, toNat_ofInt_double h] at hzero
    rw [ofInt_eq_zero h hzero]
    rfl
  · rfl

theorem notNan_ofInt_double : isNanDouble (.ofNat (binary64.ofInt i)) = false :=
  isNanDouble_eq_false (by rw [toNat_ofInt_double h]; exact exponent_ofInt_ne h)

theorem doubleEq_ofInt_iff :
    doubleEq bits (.ofNat (binary64.ofInt i)) = true ↔ binary64.Integral bits.toNat := by
  rw [← ofInt_truncate_iff bits.toNat_lt h, doubleEq,
    isNanDouble_eq_false (exponent_of_truncate h), notNan_ofInt_double h]
  simp only [Bool.not_false, Bool.true_and, Bool.or_eq_true, decide_eq_true_eq]
  rw [or_and_eq_zero_double, isZero_double, isZero_double, ← UInt64.toNat_inj, toNat_ofInt_double h,
    eq_comm, and_comm]

end

end NSKeyedArchive

end FridaCore.Fruity
