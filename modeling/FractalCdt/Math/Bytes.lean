/-
# Bytes and little-endian numerals

A byte string denotes the number whose base-256 digits it lists, least
significant digit first.  `leBytes` writes a given number of digits and
`ofLeBytes` reads them back; the two are inverse up to the modulus the digit
count fixes.  Nothing here depends on what the digits are used for.
-/

import Mathlib.Data.Nat.Notation
import Mathlib.Tactic.Ring
import Mathlib.Data.List.Basic

namespace FractalCdt.Math

/-- One unit of a byte string. -/
abbrev Byte := BitVec 8

/-- The `n` low base-256 digits of `x`, least significant first. -/
def leBytes : ℕ → ℕ → List Byte
  | 0, _ => []
  | n + 1, x => BitVec.ofNat 8 x :: leBytes n (x / 256)

/-- The number a byte string denotes, least significant digit first. -/
def ofLeBytes : List Byte → ℕ
  | [] => 0
  | b :: bs => b.toNat + 256 * ofLeBytes bs

@[simp]
theorem length_leBytes (n x : ℕ) : (leBytes n x).length = n := by
  induction n generalizing x with
  | zero => rfl
  | succ n ih => rw [leBytes, List.length_cons, ih]

/-- Reading back `n` digits recovers the number modulo `256 ^ n`. -/
theorem ofLeBytes_leBytes (n x : ℕ) : ofLeBytes (leBytes n x) = x % 256 ^ n := by
  induction n generalizing x with
  | zero => rw [leBytes, ofLeBytes, pow_zero, Nat.mod_one]
  | succ n ih =>
      rw [leBytes, ofLeBytes, ih, BitVec.toNat_ofNat, pow_succ' 256 n, Nat.mod_mul]

/-- Writing back the digits of a byte string gives the string again. -/
theorem leBytes_ofLeBytes (bs : List Byte) : leBytes bs.length (ofLeBytes bs) = bs := by
  induction bs with
  | nil => rfl
  | cons b bs ih =>
      have hb : b.toNat < 256 := b.isLt
      have hdigit : BitVec.ofNat 8 (b.toNat + 256 * ofLeBytes bs) = b := by
        apply BitVec.eq_of_toNat_eq
        rw [BitVec.toNat_ofNat]
        omega
      have hrest : (b.toNat + 256 * ofLeBytes bs) / 256 = ofLeBytes bs := by omega
      rw [List.length_cons, ofLeBytes, leBytes, hdigit, hrest, ih]

/-- A bit vector of `8 * n` bits is recovered from its `n` digits. -/
theorem ofNat_ofLeBytes_leBytes {n : ℕ} (v : BitVec (8 * n)) :
    BitVec.ofNat (8 * n) (ofLeBytes (leBytes n v.toNat)) = v := by
  have hpow : 256 ^ n = 2 ^ (8 * n) := by rw [pow_mul]; norm_num
  rw [ofLeBytes_leBytes, hpow, Nat.mod_eq_of_lt v.isLt, BitVec.ofNat_toNat, BitVec.setWidth_eq]

end FractalCdt.Math
