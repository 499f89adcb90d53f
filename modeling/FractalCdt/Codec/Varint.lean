/-
# Variable-length integers

`unsigned_int` and `signed_int` are written as LEB128 numerals, the second after
a zigzag that folds the sign into the lowest bit.  Both writing loops and both
reading loops have the same body; they differ in the width of the accumulator,
which is a parameter here.
-/

import FractalCdt.Math.Leb128
import FractalCdt.Stream.Pending

namespace FractalCdt.Codec

open FractalCdt.Math

variable {w : ℕ}

/-- `uint8_t b = uint8_t(val) & 0x7f; val >>= 7; b |= ((val > 0) << 7);`. -/
def groupByte (val : BitVec w) : Byte :=
  (val.setWidth 8 &&& 0x7f#8) ||| (if 0#w < val >>> 7 then 1#8 else 0#8) <<< 7

/-- The `do … while (val)` loop of both `operator<<`, cut off after the turns it
takes to shift every bit out of `val`. -/
def writeGroups : ℕ → BitVec w → WriteProgram Fault
  | 0, _ => fun _ _ => pure ()
  | turns + 1, val => fun σ _ => do
      ByteSink.write [groupByte val]
      if val >>> 7 ≠ 0#w then writeGroups turns (val >>> 7) σ

/-- `operator<<(DataStream &ds, const unsigned_int &v)`. -/
def writeUnsignedInt (v : BitVec 32) : WriteProgram Fault := writeGroups 10 (v.setWidth 64)

/-- `uint32_t((v.value << 1) ^ (v.value >> 31))`. -/
def zigzag (v : BitVec 32) : BitVec 32 := (v <<< 1) ^^^ v.sshiftRight 31

/-- `operator<<(DataStream &ds, const signed_int &v)`. -/
def writeSignedInt (v : BitVec 32) : WriteProgram Fault := writeGroups 5 (zigzag v)

/-- The `do … while (uint8_t(b) & 0x80)` loop of both `operator>>`, entered with
`turns` turns left before the shift reaches the width of its operand. -/
def readGroups {σ : Type} [ByteSource σ Fault] :
    ℕ → BitVec w → ℕ → StateT σ (Except Fault) (BitVec w)
  | 0, _, _ => do
      let _ ← ByteSource.get (σ := σ)
      throw .undefinedShift
  | turns + 1, v, shift => do
      let b ← ByteSource.get
      let v := v ||| (((b &&& 0x7f#8).setWidth 32) <<< shift).setWidth w
      if b &&& 0x80#8 ≠ 0#8 then readGroups turns v (shift + 7) else return v

/-- `operator>>(DataStream &ds, unsigned_int &vi)`. -/
def readUnsignedInt {σ : Type} [ByteSource σ Fault] : StateT σ (Except Fault) (BitVec 32) := do
  let v ← readGroups 5 (0 : BitVec 64) 0
  return v.setWidth 32

/-- `(v >> 1) ^ (~(v & 1) + 1ull)`, which is computed in 64 bits. -/
def unzigzag (v : BitVec 32) : BitVec 32 :=
  ((v >>> 1).setWidth 64 ^^^ ((~~~(v &&& 1#32)).setWidth 64 + 1)).setWidth 32

/-- `operator>>(DataStream &ds, signed_int &vi)`. -/
def readSignedInt {σ : Type} [ByteSource σ Fault] : StateT σ (Except Fault) (BitVec 32) := do
  let v ← readGroups 5 (0 : BitVec 32) 0
  return unzigzag v

/-! ## Writing -/

/-- One turn writes the low group, with its top bit set when groups remain. -/
theorem groupByte_eq (val : BitVec w) :
    groupByte val =
      if val.toNat < 128 then BitVec.ofNat 8 val.toNat
      else BitVec.ofNat 8 (val.toNat % 128 + 128) := by
  have hlow : (val.setWidth 8 &&& 0x7f#8).toNat = val.toNat % 128 := by
    rw [BitVec.toNat_and, BitVec.toNat_setWidth]
    show val.toNat % 256 &&& (2 ^ 7 - 1) = _
    rw [Nat.and_two_pow_sub_one_eq_mod]
    omega
  have hrest : 0#w < val >>> 7 ↔ ¬ val.toNat < 128 := by
    rw [BitVec.lt_def, BitVec.toNat_ushiftRight, Nat.shiftRight_eq_div_pow]
    simp
  apply BitVec.eq_of_toNat_eq
  rw [groupByte]
  by_cases h : val.toNat < 128
  · rw [if_neg (by rw [hrest]; simpa using h), if_pos h]
    have hzero : (val.setWidth 8 &&& 0x7f#8) ||| 0#8 <<< 7 = val.setWidth 8 &&& 0x7f#8 :=
      BitVec.or_zero
    rw [hzero, hlow, BitVec.toNat_ofNat]
    omega
  · rw [if_pos (hrest.mpr h), if_neg h, BitVec.toNat_or, hlow, Nat.or_comm]
    show 2 ^ 7 * 1 ||| val.toNat % 128 = _
    rw [← Nat.two_pow_add_eq_or_of_lt (Nat.mod_lt _ (by decide))]
    simp
    omega

/-- The loop writes the numeral when its turns suffice for all groups. -/
theorem emits_writeGroups {turns : ℕ} (hturns : 0 < turns) {val : BitVec w}
    (hval : val.toNat < 128 ^ turns) : Emits (writeGroups turns val) (uleb val.toNat) := by
  induction turns generalizing val with
  | zero => cases hturns
  | succ turns ih =>
      have hshift : (val >>> 7).toNat = val.toNat / 128 := by
        rw [BitVec.toNat_ushiftRight, Nat.shiftRight_eq_div_pow]
      have hlast : val >>> 7 ≠ 0#w ↔ 128 ≤ val.toNat := by
        rw [ne_eq, ← BitVec.toNat_inj, hshift]
        simp
      simp only [writeGroups, groupByte_eq]
      by_cases h : val.toNat < 128
      · have hstop : ¬ val >>> 7 ≠ 0#w := by
          rw [hlast]
          omega
        simp only [if_pos h, if_neg hstop, uleb_of_lt h]
        exact (emits_write _).bind emits_pure
      · have hmore : val >>> 7 ≠ 0#w := hlast.mpr (by omega)
        have hturns : 0 < turns := by
          rcases Nat.eq_zero_or_pos turns with rfl | hpos
          · omega
          · exact hpos
        have hrest : (val >>> 7).toNat < 128 ^ turns := by
          rw [hshift, Nat.div_lt_iff_lt_mul (by decide), ← pow_succ]
          exact hval
        simp only [if_neg h, if_pos hmore, uleb_of_le (Nat.le_of_not_lt h)]
        rw [← hshift]
        exact (emits_write _).bind (ih hturns hrest)

theorem emits_writeUnsignedInt (v : BitVec 32) : Emits (writeUnsignedInt v) (uleb v.toNat) := by
  have hwide : (v.setWidth 64).toNat = v.toNat := BitVec.toNat_setWidth_of_le (by decide)
  have hval : (v.setWidth 64).toNat < 128 ^ 10 := by
    rw [hwide]
    exact v.isLt.trans (by decide)
  rw [← hwide]
  exact emits_writeGroups (by decide) hval

theorem emits_writeSignedInt (v : BitVec 32) :
    Emits (writeSignedInt v) (uleb (zigzag v).toNat) :=
  emits_writeGroups (by decide) ((zigzag v).isLt.trans (by decide))

/-! ## Reading back -/

section Reading

/-- Adding a group above the bits already there. -/
theorem or_group_eq {v : BitVec w} {g shift : ℕ} (hw : 32 ≤ w) (hv : v.toNat < 2 ^ shift)
    (hg : g * 2 ^ shift < 2 ^ 32) :
    v ||| (BitVec.ofNat 32 g <<< shift).setWidth w =
      BitVec.ofNat w (v.toNat + g * 2 ^ shift) := by
  have hpow : 2 ^ 32 ≤ 2 ^ w := Nat.pow_le_pow_right (by decide) hw
  have hsmall : g < 2 ^ 32 :=
    Nat.lt_of_le_of_lt (Nat.le_mul_of_pos_right g (Nat.two_pow_pos shift)) hg
  have hword : ((BitVec.ofNat 32 g <<< shift).setWidth w).toNat = g * 2 ^ shift := by
    rw [BitVec.toNat_setWidth, BitVec.toNat_shiftLeft, BitVec.toNat_ofNat, Nat.mod_eq_of_lt hsmall,
      Nat.shiftLeft_eq, Nat.mod_eq_of_lt hg, Nat.mod_eq_of_lt (by omega)]
  have hsum : v.toNat + g * 2 ^ shift < 2 ^ w := by
    rw [Nat.add_comm, Nat.mul_comm, Nat.two_pow_add_eq_or_of_lt hv]
    refine Nat.or_lt_two_pow ?_ v.isLt
    rw [Nat.mul_comm]
    omega
  apply BitVec.eq_of_toNat_eq
  rw [BitVec.toNat_or, hword, BitVec.toNat_ofNat, Nat.mod_eq_of_lt hsum, Nat.or_comm, Nat.mul_comm,
    ← Nat.two_pow_add_eq_or_of_lt hv, Nat.add_comm]

/-- What the loop keeps of a byte of a numeral. -/
theorem group_of_last {x : ℕ} (h : x < 128) :
    ((BitVec.ofNat 8 x &&& 0x7f#8).setWidth 32 : BitVec 32) = BitVec.ofNat 32 x ∧
      BitVec.ofNat 8 x &&& 0x80#8 = 0#8 := by
  revert x
  decide

theorem group_of_more {g : ℕ} (h : g < 128) :
    ((BitVec.ofNat 8 (g + 128) &&& 0x7f#8).setWidth 32 : BitVec 32) = BitVec.ofNat 32 g ∧
      BitVec.ofNat 8 (g + 128) &&& 0x80#8 ≠ 0#8 := by
  revert g
  decide

/-- Reading a numeral adds it, shifted, to what was read before. -/
theorem run_readGroups {turns shift x : ℕ} {v : BitVec w} {rest : List Byte} (hw : 32 ≤ w)
    (hturns : shift + 7 * turns = 35) (hpos : 0 < turns) (hv : v.toNat < 2 ^ shift)
    (hx : x * 2 ^ shift < 2 ^ 32) :
    (readGroups turns v shift).run (uleb x ++ rest) =
      .ok (BitVec.ofNat w (v.toNat + x * 2 ^ shift), rest) := by
  induction turns generalizing shift x v with
  | zero => cases hpos
  | succ turns ih =>
      by_cases h : x < 128
      · obtain ⟨hgroup, hstop⟩ := group_of_last h
        rw [uleb_of_lt h, List.cons_append, List.nil_append, readGroups, StateT.run_bind,
          run_get_cons]
        show (if BitVec.ofNat 8 x &&& 0x80#8 ≠ 0#8 then _ else _ : StateT _ _ _).run rest = _
        rw [if_neg (not_not_intro hstop), hgroup, or_group_eq hw hv hx]
        rfl
      · obtain ⟨hgroup, hmore⟩ := group_of_more (Nat.mod_lt x (by decide : 0 < 128))
        have hpow : 2 ^ (shift + 7) = 128 * 2 ^ shift := by rw [pow_add, Nat.mul_comm]; norm_num
        have hsplit : x % 128 * 2 ^ shift + x / 128 * 2 ^ (shift + 7) = x * 2 ^ shift := by
          rw [hpow, ← Nat.mul_assoc, ← Nat.add_mul, Nat.mul_comm (x / 128), Nat.mod_add_div]
        have hlow : x % 128 * 2 ^ shift < 2 ^ 32 :=
          Nat.lt_of_le_of_lt (hsplit ▸ Nat.le_add_right _ _) hx
        -- The bits read so far stay below the next group.
        have hv' : (BitVec.ofNat w (v.toNat + x % 128 * 2 ^ shift)).toNat < 2 ^ (shift + 7) := by
          have hgroups : x % 128 * 2 ^ shift ≤ 127 * 2 ^ shift :=
            Nat.mul_le_mul_right _ (Nat.le_of_lt_succ (Nat.mod_lt x (by decide)))
          rw [BitVec.toNat_ofNat]
          refine Nat.lt_of_le_of_lt (Nat.mod_le _ _) ?_
          omega
        have hx' : x / 128 * 2 ^ (shift + 7) < 2 ^ 32 :=
          Nat.lt_of_le_of_lt (hsplit ▸ Nat.le_add_left _ _) hx
        have hturns' : 0 < turns := by
          rcases Nat.eq_zero_or_pos turns with rfl | hpos
          · obtain rfl : shift = 28 := by omega
            omega
          · exact hpos
        rw [uleb_of_le (by omega), List.cons_append, readGroups, StateT.run_bind, run_get_cons]
        show (if BitVec.ofNat 8 (x % 128 + 128) &&& 0x80#8 ≠ 0#8 then _ else _ :
          StateT _ _ _).run _ = _
        rw [if_pos hmore, hgroup, or_group_eq hw hv hlow, ih (by omega) hturns' hv' hx']
        congr 2
        apply BitVec.eq_of_toNat_eq
        simp only [BitVec.toNat_ofNat, Nat.mod_add_mod]
        rw [Nat.add_assoc, hsplit]

theorem decodes_readUnsignedInt {x : ℕ} (hx : x < 2 ^ 32) :
    Decodes readUnsignedInt (uleb x) (BitVec.ofNat 32 x) := by
  intro rest
  have hgroups := @run_readGroups 64 5 0 x 0 rest (by decide)
    (show 0 + 7 * 5 = 35 from rfl) (by decide) (by decide) (by simpa using hx)
  rw [readUnsignedInt, StateT.run_bind, hgroups]
  show Except.ok _ = _
  congr 2
  apply BitVec.eq_of_toNat_eq
  simp

/-! ### The zigzag -/

theorem sshiftRight_31 (v : BitVec 32) :
    v.sshiftRight 31 = if v.toNat < 2 ^ 31 then 0#32 else BitVec.allOnes 32 := by
  apply BitVec.eq_of_toInt_eq
  rw [BitVec.toInt_sshiftRight, BitVec.toInt_eq_toNat_cond, Int.shiftRight_eq_div_pow]
  split_ifs <;> simp <;> omega

theorem zigzag_eq (v : BitVec 32) :
    zigzag v = if v.toNat < 2 ^ 31 then v <<< 1 else ~~~(v <<< 1) := by
  rw [zigzag, sshiftRight_31]
  split_ifs
  · exact BitVec.xor_zero
  · exact BitVec.xor_allOnes

theorem unzigzag_eq (z : BitVec 32) :
    unzigzag z = if z.toNat % 2 = 0 then z >>> 1 else ~~~(z >>> 1) := by
  have hnarrow : unzigzag z = (z >>> 1) ^^^ (~~~(z &&& 1#32) + 1#32) := by
    rw [unzigzag, BitVec.setWidth_xor, BitVec.setWidth_add _ _ (by decide)]
    simp only [BitVec.setWidth_setWidth_of_le _ (by decide : 32 ≤ 64), BitVec.setWidth_eq]
    rfl
  have hlow : z &&& 1#32 = BitVec.ofNat 32 (z.toNat % 2) := by
    apply BitVec.eq_of_toNat_eq
    rw [BitVec.toNat_and, BitVec.toNat_ofNat, BitVec.toNat_ofNat]
    show z.toNat &&& 1 = _
    rw [Nat.and_one_is_mod]
    omega
  rw [hnarrow, hlow]
  rcases Nat.mod_two_eq_zero_or_one z.toNat with h | h
  · rw [h, if_pos rfl]
    exact BitVec.xor_zero
  · rw [h, if_neg one_ne_zero]
    exact BitVec.xor_allOnes

theorem unzigzag_zigzag (v : BitVec 32) : unzigzag (zigzag v) = v := by
  rw [unzigzag_eq, zigzag_eq]
  by_cases h : v.toNat < 2 ^ 31
  · have heven : (v <<< 1).toNat % 2 = 0 := by
      simp
      omega
    rw [if_pos h, if_pos heven]
    bv_omega
  · have hodd : (~~~(v <<< 1)).toNat % 2 ≠ 0 := by
      simp
      omega
    rw [if_neg h, if_neg hodd]
    bv_omega

theorem decodes_readSignedInt (v : BitVec 32) :
    Decodes readSignedInt (uleb (zigzag v).toNat) v := by
  intro rest
  have hgroups := @run_readGroups 32 5 0 (zigzag v).toNat 0 rest (le_refl 32)
    (show 0 + 7 * 5 = 35 from rfl) (by decide) (by decide) (by simpa using (zigzag v).isLt)
  rw [readSignedInt, StateT.run_bind, hgroups]
  show Except.ok _ = _
  congr 2
  simp [unzigzag_zigzag]

end Reading

end FractalCdt.Codec
