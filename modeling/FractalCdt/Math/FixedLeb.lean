/-
# Numerals of a fixed number of groups

Where a number is filled in later, its numeral gets as many groups as any number
may need: groups of zeros are put on top, or groups of ones if the number is
negative.  Such a numeral is read like any other.
-/

import FractalCdt.Math.Leb128
import FractalCdt.Math.Sleb128

namespace FractalCdt.Math

/-- The numeral of `n + 1` groups. -/
def ulebFixed : ℕ → ℕ → List Byte
  | 0, x => [BitVec.ofNat 8 (x % 128)]
  | n + 1, x => BitVec.ofNat 8 (x % 128 + 128) :: ulebFixed n (x / 128)

/-- The signed numeral of `n + 1` groups. -/
def slebFixed : ℕ → ℤ → List Byte
  | 0, x => [BitVec.ofInt 8 (x % 128)]
  | n + 1, x => BitVec.ofInt 8 (x % 128 + 128) :: slebFixed n (x / 128)

section Fixed

variable (n : ℕ)

@[simp]
theorem length_ulebFixed (x : ℕ) : (ulebFixed n x).length = n + 1 := by
  induction n generalizing x with
  | zero => rfl
  | succ n ih => rw [ulebFixed, List.length_cons, ih]

@[simp]
theorem length_slebFixed (x : ℤ) : (slebFixed n x).length = n + 1 := by
  induction n generalizing x with
  | zero => rfl
  | succ n ih => rw [slebFixed, List.length_cons, ih]

theorem ulebFixed_ne_nil (x : ℕ) : ulebFixed n x ≠ [] := by
  rw [← List.length_pos_iff, length_ulebFixed]
  exact Nat.succ_pos n

theorem slebFixed_ne_nil (x : ℤ) : slebFixed n x ≠ [] := by
  rw [← List.length_pos_iff, length_slebFixed]
  exact Nat.succ_pos n

theorem terminated_ulebFixed (x : ℕ) : Terminated (ulebFixed n x) := by
  induction n generalizing x with
  | zero =>
      show (BitVec.ofNat 8 (x % 128)).toNat < 128
      rw [BitVec.toNat_ofNat]
      omega
  | succ n ih =>
      rw [ulebFixed, terminated_cons (ulebFixed_ne_nil n _)]
      refine ⟨?_, ih _⟩
      rw [BitVec.toNat_ofNat]
      omega

theorem terminated_slebFixed (x : ℤ) : Terminated (slebFixed n x) := by
  induction n generalizing x with
  | zero =>
      have hgroup := toNat_group x
      show (BitVec.ofInt 8 (x % 128)).toNat < 128
      omega
  | succ n ih =>
      have hgroup := toNat_group_more x
      rw [slebFixed, terminated_cons (slebFixed_ne_nil n _)]
      exact ⟨by omega, ih _⟩

theorem groupsValue_ulebFixed (x : ℕ) : groupsValue (ulebFixed n x) = x % 128 ^ (n + 1) := by
  induction n generalizing x with
  | zero =>
      show (BitVec.ofNat 8 (x % 128)).toNat % 128 + 128 * 0 = _
      rw [BitVec.toNat_ofNat]
      omega
  | succ n ih =>
      rw [ulebFixed, groupsValue, ih, BitVec.toNat_ofNat, pow_succ' 128 (n + 1), Nat.mod_mul]
      omega

/-- A number of `7 (n + 1)` signed bits is what its numeral stands for. -/
theorem slebValue_slebFixed {x : ℤ} (hlow : -(64 * 128 ^ n) ≤ x) (hhigh : x < 64 * 128 ^ n) :
    slebValue (slebFixed n x) = x := by
  induction n generalizing x with
  | zero =>
      have hgroup := toNat_group x
      show (if (BitVec.ofInt 8 (x % 128)).toNat % 128 < 64 then
        ((BitVec.ofInt 8 (x % 128)).toNat % 128 : ℤ)
        else (BitVec.ofInt 8 (x % 128)).toNat % 128 - 128) = x
      split <;> omega
  | succ n ih =>
      have hgroup := toNat_group_more x
      rw [pow_succ] at hlow hhigh
      rw [slebFixed, slebValue_cons (slebFixed_ne_nil n _), ih (by omega) (by omega)]
      omega

end Fixed

/-! ## Zeros and signs on top -/

/-- Zero is groups of zeros. -/
theorem ulebFixed_zero (n : ℕ) : ulebFixed n 0 = List.replicate n 0x80 ++ [0x00] := by
  induction n with
  | zero => rfl
  | succ n ih =>
      rw [ulebFixed, Nat.zero_div, ih]
      rfl

theorem slebFixed_zero (n : ℕ) : slebFixed n 0 = List.replicate n 0x80 ++ [0x00] := by
  induction n with
  | zero => rfl
  | succ n ih =>
      rw [slebFixed, Int.zero_ediv, ih]
      rfl

/-- Minus one is groups of ones. -/
theorem slebFixed_neg_one (n : ℕ) : slebFixed n (-1) = List.replicate n 0xff ++ [0x7f] := by
  induction n with
  | zero => rfl
  | succ n ih =>
      have hdiv : (-1 : ℤ) / 128 = -1 := rfl
      rw [slebFixed, hdiv, ih]
      rfl

end FractalCdt.Math
