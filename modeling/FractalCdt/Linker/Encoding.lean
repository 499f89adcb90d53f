/-
# Numerals that relocations are written with

A relocation is written over five bytes, or four if it is no numeral, whatever its
value is.  The post-pass reads the value back from them.
-/

import FractalCdt.Math.FixedLeb
import FractalCdt.Toolchain.WasmBinary

namespace FractalCdt.Linker

open FractalCdt.Math FractalCdt.Toolchain

/-- `encodeULEB128`, from the round of its loop with this `Count` on. -/
def encodeULEB128 (PadTo Count Value : ℕ) : List Byte :=
  let Byte := BitVec.ofNat 8 (Value % 128)
  if Value / 128 ≠ 0 then (Byte ||| 0x80) :: encodeULEB128 PadTo (Count + 1) (Value / 128)
  else if Count + 1 < PadTo then
    (Byte ||| 0x80) :: (List.replicate (PadTo - 1 - (Count + 1)) 0x80 ++ [0x00])
  else [Byte]
termination_by Value

/-- `encodeSLEB128`, likewise; the shifts are arithmetic. -/
def encodeSLEB128 (PadTo Count : ℕ) (Value : ℤ) : List Byte :=
  let Byte := BitVec.ofInt 8 (Value % 128)
  if h : ¬ SlebStops Value then (Byte ||| 0x80) :: encodeSLEB128 PadTo (Count + 1) (Value / 128)
  else if Count + 1 < PadTo then
    let PadValue : BitVec 8 := if Value / 128 < 0 then 0x7f else 0x00
    (Byte ||| 0x80) :: (List.replicate (PadTo - 1 - (Count + 1)) (PadValue ||| 0x80) ++ [PadValue])
  else [Byte]
termination_by Value.natAbs
decreasing_by
  unfold SlebStops at h
  omega

/-- `write32le`. -/
def write32le (Value : BitVec 32) : List Byte := leBytes 4 Value.toNat

section Fixed

variable {PadTo Count : ℕ}

theorem or_top (b : Byte) (h : b.toNat < 128) : b ||| 0x80 = BitVec.ofNat 8 (b.toNat + 128) := by
  revert b
  decide

theorem more_group (x : ℕ) :
    BitVec.ofNat 8 (x % 128) ||| 0x80 = BitVec.ofNat 8 (x % 128 + 128) := by
  have hgroup : (BitVec.ofNat 8 (x % 128)).toNat = x % 128 := by
    rw [BitVec.toNat_ofNat]
    omega
  rw [or_top _ (by omega), hgroup]

theorem more_group_int (x : ℤ) :
    BitVec.ofInt 8 (x % 128) ||| 0x80 = BitVec.ofInt 8 (x % 128 + 128) := by
  have hgroup := toNat_group x
  rw [or_top _ (by omega), ← BitVec.ofInt_natCast]
  congr 1
  push_cast
  omega

/-- Padded, a number has as many groups as it is padded to. -/
theorem encodeULEB128_eq {Value : ℕ} (hcount : Count < PadTo)
    (hvalue : Value < 128 ^ (PadTo - Count)) :
    encodeULEB128 PadTo Count Value = ulebFixed (PadTo - 1 - Count) Value := by
  fun_induction encodeULEB128 PadTo Count Value with
  | case1 Count Value Byte hmore ih =>
      have hlarge : 128 ≤ Value := by omega
      obtain ⟨k, hk⟩ : ∃ k, PadTo - Count = k + 1 := ⟨PadTo - Count - 1, by omega⟩
      rw [hk, pow_succ] at hvalue
      have hroom : k ≠ 0 := by
        rintro rfl
        omega
      have hrest : PadTo - (Count + 1) = k := by omega
      rw [ih (by omega) (by rw [hrest]; omega)]
      obtain ⟨j, rfl⟩ := Nat.exists_eq_succ_of_ne_zero hroom
      have hj : PadTo - 1 - Count = j + 1 := by omega
      have hj' : PadTo - 1 - (Count + 1) = j := by omega
      rw [hj, hj', ulebFixed]
      congr 1
      exact more_group Value
  | case2 Count Value Byte hlast hpad =>
      obtain ⟨j, hj⟩ : ∃ j, PadTo - 1 - Count = j + 1 := ⟨PadTo - 2 - Count, by omega⟩
      have hj' : PadTo - 1 - (Count + 1) = j := by omega
      have hzero : Value / 128 = 0 := not_not.mp hlast
      rw [hj, hj', ulebFixed, hzero, ulebFixed_zero]
      congr 1
      exact more_group Value
  | case3 Count Value Byte hlast hfull =>
      have hj : PadTo - 1 - Count = 0 := by omega
      rw [hj]
      rfl

theorem encodeSLEB128_eq {Value : ℤ} (hcount : Count < PadTo)
    (hlow : -(64 * 128 ^ (PadTo - 1 - Count)) ≤ Value)
    (hhigh : Value < 64 * 128 ^ (PadTo - 1 - Count)) :
    encodeSLEB128 PadTo Count Value = slebFixed (PadTo - 1 - Count) Value := by
  fun_induction encodeSLEB128 PadTo Count Value with
  | case1 Count Value Byte hmore ih =>
      have hroom : PadTo - 1 - Count ≠ 0 := by
        intro hzero
        rw [hzero] at hlow hhigh
        refine hmore ?_
        unfold SlebStops
        omega
      obtain ⟨j, hj⟩ := Nat.exists_eq_succ_of_ne_zero hroom
      have hj' : PadTo - 1 - (Count + 1) = j := by omega
      rw [hj, pow_succ] at hlow hhigh
      rw [ih (by omega) (by rw [hj']; omega) (by rw [hj']; omega), hj, hj', slebFixed]
      congr 1
      exact more_group_int Value
  | case2 Count Value Byte hstops hpad PadValue =>
      obtain ⟨j, hj⟩ : ∃ j, PadTo - 1 - Count = j + 1 := ⟨PadTo - 2 - Count, by omega⟩
      have hj' : PadTo - 1 - (Count + 1) = j := by omega
      rw [hj, hj', slebFixed]
      congr 1
      · exact more_group_int Value
      · -- what is left is a sign
        rcases not_not.mp hstops with ⟨hzero, -⟩ | ⟨hone, -⟩
        · have hpadValue : PadValue = 0x00 := if_neg (by omega)
          rw [hpadValue, hzero, slebFixed_zero]
          rfl
        · have hpadValue : PadValue = 0x7f := if_pos (by omega)
          rw [hpadValue, hone, slebFixed_neg_one]
          rfl
  | case3 Count Value Byte hstops hfull =>
      have hj : PadTo - 1 - Count = 0 := by omega
      rw [hj]
      rfl

end Fixed

/-! ## Reading them -/

theorem unsigned_encodeULEB128 (v : BitVec 32) : Unsigned v.toNat (encodeULEB128 5 0 v.toNat) := by
  have hv := v.isLt
  rw [encodeULEB128_eq (by decide) (by omega)]
  refine ⟨terminated_ulebFixed 4 _, by simp, ?_, hv⟩
  show groupsValue (ulebFixed 4 v.toNat) = v.toNat
  rw [groupsValue_ulebFixed]
  omega

theorem numeral_encodeSLEB128 (v : BitVec 32) : Numeral v (encodeSLEB128 5 0 v.toInt) := by
  have hlow := BitVec.le_toInt v
  have hhigh := @BitVec.toInt_lt 32 v
  rw [encodeSLEB128_eq (by decide) (by omega) (by omega)]
  exact ⟨terminated_slebFixed 4 _, by simp, slebValue_slebFixed 4 (by omega) (by omega)⟩

theorem length_encodeULEB128 (v : BitVec 32) : (encodeULEB128 5 0 v.toNat).length = 5 := by
  have hv := v.isLt
  rw [encodeULEB128_eq (by decide) (by omega), length_ulebFixed]

theorem length_encodeSLEB128 (v : BitVec 32) : (encodeSLEB128 5 0 v.toInt).length = 5 := by
  have hlow := BitVec.le_toInt v
  have hhigh := @BitVec.toInt_lt 32 v
  rw [encodeSLEB128_eq (by decide) (by omega) (by omega), length_slebFixed]

/-- What is written over five bytes is read back from them. -/
theorem readU32Leb128_encodeULEB128 (v : BitVec 32) (rest : List Byte) :
    readU32Leb128 (encodeULEB128 5 0 v.toNat ++ rest) = some (v, 5) := by
  rw [(unsigned_encodeULEB128 v).readU32Leb128_eq, length_encodeULEB128, BitVec.ofNat_toNat,
    BitVec.setWidth_eq]

theorem readS32Leb128_encodeSLEB128 (v : BitVec 32) (rest : List Byte) :
    readS32Leb128 (encodeSLEB128 5 0 v.toInt ++ rest) = some (v, 5) :=
  readS32Leb128_eq_some_iff.mpr
    ⟨_, rest, rfl, (length_encodeSLEB128 v).symm, numeral_encodeSLEB128 v⟩

theorem ofLeBytes_write32le (v : BitVec 32) : BitVec.ofNat 32 (ofLeBytes (write32le v)) = v := by
  have hv := v.isLt
  rw [write32le, ofLeBytes_leBytes, Nat.mod_eq_of_lt (by omega), BitVec.ofNat_toNat,
    BitVec.setWidth_eq]

end FractalCdt.Linker
