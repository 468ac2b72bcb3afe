import Mathlib

/-!
# Binary floating point

The binary formats of IEEE 754 as bits: a sign, a biased exponent and a fraction. What
is here takes numbers to integers, by dropping what is after the point, and integers to
the nearest number, ties to even. An integer that a number was truncated to has no more
digits than the number, so it is not rounded on the way back.
-/

namespace FridaCore

structure BinaryFormat where
  exponentBits : Nat
  fractionBits : Nat
  two_le_exponentBits : 2 ≤ exponentBits
  deriving DecidableEq, Repr

namespace BinaryFormat

def binary32 : BinaryFormat := ⟨8, 23, by decide⟩

def binary64 : BinaryFormat := ⟨11, 52, by decide⟩

variable (fmt : BinaryFormat)

def bias : Nat := 2 ^ (fmt.exponentBits - 1) - 1

def fraction (bits : Nat) : Nat := bits % 2 ^ fmt.fractionBits

def exponent (bits : Nat) : Nat := bits / 2 ^ fmt.fractionBits % 2 ^ fmt.exponentBits

def Negative (bits : Nat) : Prop := 2 ^ (fmt.exponentBits + fmt.fractionBits) ≤ bits

instance (bits : Nat) : Decidable (fmt.Negative bits) := inferInstanceAs (Decidable (_ ≤ _))

def IsZero (bits : Nat) : Prop := bits % 2 ^ (fmt.exponentBits + fmt.fractionBits) = 0

instance (bits : Nat) : Decidable (fmt.IsZero bits) := inferInstanceAs (Decidable (_ = _))

def scaled (bits : Nat) : Nat :=
  (2 ^ fmt.fractionBits + fmt.fraction bits) * 2 ^ (fmt.exponent bits - fmt.bias)

def magnitude (bits : Nat) : Nat :=
  if fmt.exponent bits < fmt.bias then 0 else fmt.scaled bits / 2 ^ fmt.fractionBits

def truncate (bits : Nat) : Option Int :=
  if fmt.exponent bits = 2 ^ fmt.exponentBits - 1 then none
  else if fmt.Negative bits then some (-fmt.magnitude bits) else some (fmt.magnitude bits)

def Integral (bits : Nat) : Prop :=
  if fmt.exponent bits < fmt.bias then fmt.IsZero bits
  else 2 ^ fmt.fractionBits ∣ fmt.scaled bits

instance (bits : Nat) : Decidable (fmt.Integral bits) := by
  unfold Integral
  infer_instance

def divRound (n d : Nat) : Nat :=
  n / d + if d < 2 * (n % d) ∨ 2 * (n % d) = d ∧ n / d % 2 = 1 then 1 else 0

def ofInt (i : Int) : Nat :=
  if i = 0 then 0
  else
    (if i < 0 then 2 ^ (fmt.exponentBits + fmt.fractionBits) else 0) +
      (i.natAbs.log2 + fmt.bias) * 2 ^ fmt.fractionBits +
      (divRound (i.natAbs * 2 ^ fmt.fractionBits) (2 ^ i.natAbs.log2) - 2 ^ fmt.fractionBits)

variable {fmt} {bits : Nat} {i : Int}

theorem bias_pos (fmt : BinaryFormat) : 0 < fmt.bias := by
  have := fmt.two_le_exponentBits
  exact Nat.sub_pos_of_lt (Nat.one_lt_two_pow (by omega))

theorem divRound_of_dvd (h : d ∣ n) : divRound n d = n / d := by
  rw [divRound, Nat.mod_eq_zero_of_dvd h, if_neg, Nat.add_zero]
  rintro (hlt | ⟨rfl, hodd⟩)
  · omega
  · simp at hodd

theorem mod_eq_fields : bits % 2 ^ (fmt.exponentBits + fmt.fractionBits) =
    fmt.exponent bits * 2 ^ fmt.fractionBits + fmt.fraction bits := by
  rw [exponent, fraction, Nat.add_comm fmt.exponentBits, Nat.pow_add, Nat.mod_mul]
  ring

theorem eq_fields (h : bits < 2 ^ (1 + (fmt.exponentBits + fmt.fractionBits))) :
    bits = (if fmt.Negative bits then 2 ^ (fmt.exponentBits + fmt.fractionBits) else 0) +
      fmt.exponent bits * 2 ^ fmt.fractionBits + fmt.fraction bits := by
  rw [Nat.add_assoc, ← mod_eq_fields]
  by_cases hneg : fmt.Negative bits
  · have hle : 2 ^ (fmt.exponentBits + fmt.fractionBits) ≤ bits := hneg
    rw [if_pos hneg, Nat.mod_eq_sub_mod hle, Nat.mod_eq_of_lt (by rw [Nat.pow_add] at h; omega)]
    omega
  · rw [if_neg hneg, Nat.mod_eq_of_lt (Nat.not_le.mp hneg), Nat.zero_add]

theorem isZero_iff : fmt.IsZero bits ↔ fmt.exponent bits = 0 ∧ fmt.fraction bits = 0 := by
  have := Nat.two_pow_pos fmt.fractionBits
  rw [IsZero, mod_eq_fields, Nat.add_eq_zero_iff, Nat.mul_eq_zero, or_iff_left (by omega)]

theorem fraction_lt (fmt : BinaryFormat) (bits : Nat) :
    fmt.fraction bits < 2 ^ fmt.fractionBits :=
  Nat.mod_lt _ (Nat.two_pow_pos _)

section
variable (hone : fmt.bias ≤ fmt.exponent bits)
include hone

theorem magnitude_eq : fmt.magnitude bits = fmt.scaled bits / 2 ^ fmt.fractionBits :=
  if_neg (Nat.not_lt.mpr hone)

theorem le_magnitude : 2 ^ (fmt.exponent bits - fmt.bias) ≤ fmt.magnitude bits := by
  rw [magnitude_eq hone, Nat.le_div_iff_mul_le (Nat.two_pow_pos _), scaled, Nat.mul_comm]
  exact Nat.mul_le_mul_right _ (Nat.le_add_right _ _)

theorem log2_magnitude : (fmt.magnitude bits).log2 = fmt.exponent bits - fmt.bias := by
  have hle := le_magnitude hone
  have hpos := Nat.two_pow_pos (fmt.exponent bits - fmt.bias)
  refine (Nat.log2_eq_iff (by omega)).mpr ⟨hle, ?_⟩
  rw [magnitude_eq hone, Nat.div_lt_iff_lt_mul (Nat.two_pow_pos _), scaled, Nat.pow_succ]
  have hlt := Nat.mul_lt_mul_of_pos_right
    (Nat.add_lt_add_left (fmt.fraction_lt bits) (2 ^ fmt.fractionBits)) hpos
  linarith

theorem pow_dvd_magnitude :
    2 ^ (fmt.exponent bits - fmt.bias) ∣ fmt.magnitude bits * 2 ^ fmt.fractionBits := by
  rcases Nat.le_total (fmt.exponent bits - fmt.bias) fmt.fractionBits with h | h
  · exact (Nat.pow_dvd_pow 2 h).mul_left _
  · have hdvd : 2 ^ fmt.fractionBits ∣ fmt.scaled bits := (Nat.pow_dvd_pow 2 h).mul_left _
    rw [magnitude_eq hone, Nat.div_mul_cancel hdvd]
    exact Nat.dvd_mul_left _ _

theorem significand_eq_iff :
    divRound (fmt.magnitude bits * 2 ^ fmt.fractionBits) (2 ^ (fmt.exponent bits - fmt.bias)) =
        2 ^ fmt.fractionBits + fmt.fraction bits ↔
      2 ^ fmt.fractionBits ∣ fmt.scaled bits := by
  rw [divRound_of_dvd (pow_dvd_magnitude hone),
    Nat.div_eq_iff_eq_mul_left (Nat.two_pow_pos _) (pow_dvd_magnitude hone), magnitude_eq hone]
  exact ⟨fun h => ⟨_, (h.symm.trans (Nat.mul_comm _ _))⟩, fun h => Nat.div_mul_cancel h⟩

theorem le_significand : 2 ^ fmt.fractionBits ≤
    divRound (fmt.magnitude bits * 2 ^ fmt.fractionBits) (2 ^ (fmt.exponent bits - fmt.bias)) := by
  rw [divRound_of_dvd (pow_dvd_magnitude hone), Nat.le_div_iff_mul_le (Nat.two_pow_pos _),
    Nat.mul_comm]
  exact Nat.mul_le_mul_right _ (le_magnitude hone)

end

theorem natAbs_of_truncate (h : fmt.truncate bits = some i) : i.natAbs = fmt.magnitude bits := by
  unfold truncate at h
  split_ifs at h <;> cases h <;> simp

theorem ofInt_truncate (hone : fmt.bias ≤ fmt.exponent bits) (h : fmt.truncate bits = some i) :
    fmt.ofInt i = (if fmt.Negative bits then 2 ^ (fmt.exponentBits + fmt.fractionBits) else 0) +
      fmt.exponent bits * 2 ^ fmt.fractionBits +
      (divRound (fmt.magnitude bits * 2 ^ fmt.fractionBits) (2 ^ (fmt.exponent bits - fmt.bias)) -
        2 ^ fmt.fractionBits) := by
  have hpos : 0 < fmt.magnitude bits := (Nat.two_pow_pos _).trans_le (le_magnitude hone)
  have habs := natAbs_of_truncate h
  have hsign : i < 0 ↔ fmt.Negative bits := by
    unfold truncate at h
    split_ifs at h with hinf hneg <;> cases h
    · exact iff_of_true (by omega) hneg
    · exact iff_of_false (by omega) hneg
  rw [ofInt, if_neg (by omega), habs, log2_magnitude hone, Nat.sub_add_cancel hone]
  simp only [hsign]

theorem ofInt_of_small (hsmall : fmt.exponent bits < fmt.bias) (h : fmt.truncate bits = some i) :
    fmt.ofInt i = 0 := by
  rw [ofInt, if_pos]
  rw [← Int.natAbs_eq_zero, natAbs_of_truncate h, magnitude, if_pos hsmall]

theorem exponent_fields [Decidable sign] (he : e < 2 ^ fmt.exponentBits)
    (hf : f < 2 ^ fmt.fractionBits) :
    fmt.exponent ((if sign then 2 ^ (fmt.exponentBits + fmt.fractionBits) else 0) +
      e * 2 ^ fmt.fractionBits + f) = e := by
  have hpos := Nat.two_pow_pos fmt.fractionBits
  have hdiv : ((if sign then 2 ^ (fmt.exponentBits + fmt.fractionBits) else 0) +
      e * 2 ^ fmt.fractionBits + f) / 2 ^ fmt.fractionBits =
        (if sign then 2 ^ fmt.exponentBits else 0) + e := by
    have hsum : (if sign then 2 ^ (fmt.exponentBits + fmt.fractionBits) else 0) +
        e * 2 ^ fmt.fractionBits + f =
          f + ((if sign then 2 ^ fmt.exponentBits else 0) + e) * 2 ^ fmt.fractionBits := by
      split_ifs <;> ring
    rw [hsum, Nat.add_mul_div_right _ _ hpos, Nat.div_eq_of_lt hf, Nat.zero_add]
  rw [exponent, hdiv]
  split_ifs
  · rw [Nat.add_mod_left, Nat.mod_eq_of_lt he]
  · rw [Nat.zero_add, Nat.mod_eq_of_lt he]

theorem exponent_lt (fmt : BinaryFormat) (bits : Nat) :
    fmt.exponent bits < 2 ^ fmt.exponentBits :=
  Nat.mod_lt _ (Nat.two_pow_pos _)

theorem significand_le (hone : fmt.bias ≤ fmt.exponent bits) :
    divRound (fmt.magnitude bits * 2 ^ fmt.fractionBits) (2 ^ (fmt.exponent bits - fmt.bias)) ≤
      2 ^ fmt.fractionBits + fmt.fraction bits := by
  rw [divRound_of_dvd (pow_dvd_magnitude hone), magnitude_eq hone]
  exact (Nat.div_le_div_right (Nat.div_mul_le_self _ _)).trans_eq
    (Nat.mul_div_cancel _ (Nat.two_pow_pos _))

theorem exponent_ofInt (h : fmt.truncate bits = some i) :
    fmt.ofInt i = 0 ∨ fmt.bias ≤ fmt.exponent bits ∧
      fmt.exponent (fmt.ofInt i) = fmt.exponent bits := by
  by_cases hone : fmt.exponent bits < fmt.bias
  · exact .inl (ofInt_of_small hone h)
  · right
    have hone := Nat.not_lt.mp hone
    have hle := significand_le hone
    have hlt := fmt.fraction_lt bits
    rw [ofInt_truncate hone h]
    exact ⟨hone, exponent_fields (fmt.exponent_lt bits) (by omega)⟩

theorem ofInt_eq_zero (h : fmt.truncate bits = some i) (hzero : fmt.IsZero (fmt.ofInt i)) :
    fmt.ofInt i = 0 := by
  rcases exponent_ofInt h with h0 | ⟨hone, hexp⟩
  · exact h0
  · have := fmt.bias_pos
    have := (isZero_iff.mp hzero).1
    omega

theorem mod_lt_of_exponent (h : fmt.exponent bits ≠ 2 ^ fmt.exponentBits - 1) :
    bits % 2 ^ (fmt.exponentBits + fmt.fractionBits) <
      (2 ^ fmt.exponentBits - 1) * 2 ^ fmt.fractionBits := by
  have hexp : fmt.exponent bits + 1 ≤ 2 ^ fmt.exponentBits - 1 := by
    have := fmt.exponent_lt bits
    omega
  have hlt := fmt.fraction_lt bits
  have hle := Nat.mul_le_mul_right (2 ^ fmt.fractionBits) hexp
  rw [mod_eq_fields]
  rw [Nat.add_mul, Nat.one_mul] at hle
  omega

theorem exponent_of_truncate (h : fmt.truncate bits = some i) :
    fmt.exponent bits ≠ 2 ^ fmt.exponentBits - 1 := by
  unfold truncate at h
  split_ifs at h with hinf <;> exact hinf

theorem exponent_ofInt_ne (h : fmt.truncate bits = some i) :
    fmt.exponent (fmt.ofInt i) ≠ 2 ^ fmt.exponentBits - 1 := by
  rcases exponent_ofInt h with h0 | ⟨-, hexp⟩
  · have := Nat.one_lt_two_pow (show fmt.exponentBits ≠ 0 by have := fmt.two_le_exponentBits; omega)
    rw [h0, exponent, Nat.zero_div, Nat.zero_mod]
    omega
  · rw [hexp]
    exact exponent_of_truncate h

section
variable (hbits : bits < 2 ^ (1 + (fmt.exponentBits + fmt.fractionBits)))
  (h : fmt.truncate bits = some i)
include hbits h

theorem ofInt_le : fmt.ofInt i ≤ bits := by
  by_cases hone : fmt.exponent bits < fmt.bias
  · exact (ofInt_of_small hone h).trans_le (Nat.zero_le _)
  · have hone := Nat.not_lt.mp hone
    have hle := significand_le hone
    have hfields := eq_fields hbits
    rw [ofInt_truncate hone h]
    omega

/-- An integer goes back to the number that it was truncated to if and only if there was
nothing to drop. -/
theorem ofInt_truncate_iff :
    fmt.ofInt i = bits ∨ fmt.IsZero (fmt.ofInt i) ∧ fmt.IsZero bits ↔ fmt.Integral bits := by
  unfold Integral
  by_cases hone : fmt.exponent bits < fmt.bias
  · have hof := ofInt_of_small hone h
    have h0 : fmt.IsZero 0 := Nat.zero_mod _
    rw [if_pos hone, hof]
    exact ⟨fun hor => hor.elim (fun heq => heq ▸ h0) And.right, fun hz => .inr ⟨h0, hz⟩⟩
  · rw [if_neg hone]
    have hone := Nat.not_lt.mp hone
    have hle := le_significand hone
    have hof := ofInt_truncate hone h
    have hfields := eq_fields hbits
    rw [← significand_eq_iff hone]
    constructor
    · rintro (heq | ⟨-, hzero⟩)
      · omega
      · -- no zero has an exponent this large
        have := fmt.bias_pos
        have := (isZero_iff.mp hzero).1
        omega
    · intro heq
      exact .inl (by omega)

end

end BinaryFormat

end FridaCore
