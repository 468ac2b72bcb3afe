import Mathlib

/-!
# Bytes at a position

Numbers in big-endian and in little-endian order, and what is where in a sequence of
bytes.
-/

namespace FridaCore

open List

def beValue (bytes : List UInt8) : Nat := bytes.foldl (fun n b => n * 256 + b.toNat) 0

def beBytes : (size n : Nat) → List UInt8
  | 0, _ => []
  | size + 1, n => beBytes size (n / 256) ++ [.ofNat n]

@[simp] theorem length_beBytes (size n : Nat) : (beBytes size n).length = size := by
  induction size generalizing n with
  | zero => rfl
  | succ size ih => simp [beBytes, ih]

theorem beValue_append (bytes : List UInt8) (b : UInt8) :
    beValue (bytes ++ [b]) = beValue bytes * 256 + b.toNat := by
  simp [beValue]

theorem beValue_beBytes (size n : Nat) : beValue (beBytes size n) = n % 256 ^ size := by
  induction size generalizing n with
  | zero => simp [beBytes, beValue, Nat.mod_one]
  | succ size ih =>
    rw [beBytes, beValue_append, ih, Nat.pow_succ', Nat.mod_mul, UInt8.toNat_ofNat']
    omega

theorem beValue_lt (bytes : List UInt8) : beValue bytes < 256 ^ bytes.length := by
  induction bytes using reverseRecOn with
  | nil => simp [beValue]
  | append_singleton bytes b ih =>
    have hb := b.toNat_lt
    rw [beValue_append, length_append, length_singleton, Nat.pow_succ]
    omega

theorem beBytes_beValue (bytes : List UInt8) : beBytes bytes.length (beValue bytes) = bytes := by
  induction bytes using reverseRecOn with
  | nil => rfl
  | append_singleton bytes b ih =>
    have hb := b.toNat_lt
    have hdiv : beValue (bytes ++ [b]) / 256 = beValue bytes := by
      rw [beValue_append]
      omega
    have hlast : UInt8.ofNat (beValue (bytes ++ [b])) = b := by
      rw [← UInt8.toNat_inj, UInt8.toNat_ofNat', beValue_append]
      omega
    rw [length_append, length_singleton, beBytes, hdiv, hlast, ih]

/-- The digits of a number to the base 256, the least significant one first. -/
theorem reverse_beBytes (size n : Nat) :
    (beBytes size n).reverse = (range size).map fun i => .ofNat (n / 256 ^ i) := by
  induction size generalizing n with
  | zero => rfl
  | succ size ih =>
    rw [beBytes, reverse_append, ih, range_succ_eq_map]
    simp [Nat.div_div_eq_div_mul, Nat.pow_succ']

def leValue (bytes : List UInt8) : Nat := beValue bytes.reverse

def leBytes (size n : Nat) : List UInt8 := (beBytes size n).reverse

@[simp] theorem length_leBytes (size n : Nat) : (leBytes size n).length = size := by
  simp [leBytes]

theorem leValue_leBytes (size n : Nat) : leValue (leBytes size n) = n % 256 ^ size := by
  rw [leValue, leBytes, reverse_reverse, beValue_beBytes]

theorem leValue_lt (bytes : List UInt8) : leValue bytes < 256 ^ bytes.length := by
  simpa [leValue] using beValue_lt bytes.reverse

def BytesAt (data : List UInt8) (pos : Nat) (bytes : List UInt8) : Prop :=
  bytes <+: data.drop pos

variable {data bytes more : List UInt8} {pos : Nat}

theorem BytesAt.left (h : BytesAt data pos (bytes ++ more)) : BytesAt data pos bytes :=
  (prefix_append bytes more).trans h

theorem BytesAt.right (h : BytesAt data pos (bytes ++ more)) :
    BytesAt data (pos + bytes.length) more := by
  obtain ⟨rest, hrest⟩ := h
  refine ⟨rest, ?_⟩
  rw [← drop_drop, ← hrest, append_assoc, drop_left]

theorem BytesAt.take (h : BytesAt data pos bytes) :
    (data.drop pos).take bytes.length = bytes := by
  obtain ⟨rest, hrest⟩ := h
  rw [← hrest, take_left]

theorem BytesAt.length_le (h : BytesAt data pos bytes) (hne : bytes ≠ []) :
    pos + bytes.length ≤ data.length := by
  have hle : bytes.length ≤ (data.drop pos).length := List.IsPrefix.length_le h
  have hpos := length_pos_iff.mpr hne
  rw [length_drop] at hle
  omega

theorem BytesAt.append (h : BytesAt data pos bytes) (hpos : pos ≤ data.length) :
    BytesAt (data ++ more) pos bytes := by
  rw [BytesAt, drop_append_of_le_length hpos]
  exact h.trans (prefix_append _ _)

theorem bytesAt_append (before bytes after : List UInt8) :
    BytesAt (before ++ bytes ++ after) before.length bytes := by
  refine ⟨after, ?_⟩
  rw [append_assoc, drop_left]

end FridaCore
