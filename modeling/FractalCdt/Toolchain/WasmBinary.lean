/-
# The binary format

Numbers are written in groups of seven bits, and a reader goes through the sections of a
file from an offset to the next.  What stands behind a numeral, and what a step reads
wherever its bytes stand, is the same for every section.
-/

import FractalCdt.Math.Numerals
import FractalCdt.Math.Reading
import Mathlib.Data.List.GetD
import Mathlib.Tactic.IntervalCases

namespace FractalCdt.Toolchain

open FractalCdt.Math

/-! ## Writing -/

/-- `wasm::writeSleb128(OS, int32_t Number)`. -/
def writeSleb128 (Number : BitVec 32) : List Byte := sleb Number.toInt

/-- A count and the items. -/
def writeVector {α : Type} (write : α → List Byte) (xs : List α) : List Byte :=
  uleb xs.length ++ xs.flatMap write

/-! ## Reading numerals -/

/-- `BYTE_AT(uint32_t, i, shift)`. -/
def byteAt (p : List Byte) (i shift : ℕ) : BitVec 32 :=
  ((p.getD i 0).setWidth 32 &&& 0x7f) <<< shift

/-- `LEB128_1` to `LEB128_5`. -/
def leb128 : ℕ → List Byte → BitVec 32
  | 0, _ => 0
  | n + 1, p => byteAt p n (7 * n) ||| leb128 n p

/-- `p + i < end && (p[i] & 0x80) == 0`, for the bytes up to `end`. -/
def ends (p : List Byte) (i : ℕ) : Bool :=
  match p[i]? with
  | some b => b &&& 0x80 == 0
  | none => false

/-- `SIGN_EXTEND(int32_t, value, sign_bit)`. -/
def signExtend (value : BitVec 32) (signBit : ℕ) : BitVec 32 :=
  (value <<< (31 - signBit)).sshiftRight (31 - signBit)

/-- `ReadU32Leb128`: the value and the bytes read. -/
def readU32Leb128 (p : List Byte) : Option (BitVec 32 × ℕ) :=
  if ends p 0 then some (leb128 1 p, 1)
  else if ends p 1 then some (leb128 2 p, 2)
  else if ends p 2 then some (leb128 3 p, 3)
  else if ends p 3 then some (leb128 4 p, 4)
  else if ends p 4 then
    -- The top bits set represent values above 32 bits.
    if p.getD 4 0 &&& 0xf0 ≠ 0 then none else some (leb128 5 p, 5)
  else none

/-- `ReadS32Leb128`: the value and the bytes read. -/
def readS32Leb128 (p : List Byte) : Option (BitVec 32 × ℕ) :=
  if ends p 0 then some (signExtend (leb128 1 p) 6, 1)
  else if ends p 1 then some (signExtend (leb128 2 p) 13, 2)
  else if ends p 2 then some (signExtend (leb128 3 p) 20, 3)
  else if ends p 3 then some (signExtend (leb128 4 p) 27, 4)
  else if ends p 4 then
    -- The top bits should be a sign-extension of the sign bit.
    let signBitSet := p.getD 4 0 &&& 0x8 ≠ 0
    let topBits := p.getD 4 0 &&& 0xf0
    if (signBitSet ∧ topBits ≠ 0x70) ∨ (¬ signBitSet ∧ topBits ≠ 0) then none
    else some (leb128 5 p, 5)
  else none

/-- `LEB128_1` to `LEB128_10`. -/
def leb128Wide : ℕ → List Byte → BitVec 64
  | 0, _ => 0
  | n + 1, p => (((p.getD n 0).setWidth 64 &&& 0x7f) <<< (7 * n)) ||| leb128Wide n p

/-- `SIGN_EXTEND(int64_t, value, sign_bit)`. -/
def signExtendWide (value : BitVec 64) (signBit : ℕ) : BitVec 64 :=
  (value <<< (63 - signBit)).sshiftRight (63 - signBit)

/-- `ReadS64Leb128`: the value and the bytes read. -/
def readS64Leb128 (p : List Byte) : Option (BitVec 64 × ℕ) :=
  match (List.range 10).find? (ends p) with
  | none => none
  | some i =>
      if i < 9 then some (signExtendWide (leb128Wide (i + 1) p) (7 * i + 6), i + 1)
      else
        -- The top bits should be a sign-extension of the sign bit.
        let signBitSet := p.getD 9 0 &&& 0x1 ≠ 0
        let topBits := p.getD 9 0 &&& 0xfe
        if (signBitSet ∧ topBits ≠ 0x7e) ∨ (¬ signBitSet ∧ topBits ≠ 0) then none
        else some (leb128Wide 10 p, 10)

section Numerals

/-- A group shifted to its place in a word, above bits that are already there. -/
theorem or_shifted_eq {g low shift : ℕ} (hshift : shift ≤ 32) (hlow : low < 2 ^ shift) :
    (g <<< shift) % 2 ^ 32 ||| low = (low + 2 ^ shift * g) % 2 ^ 32 := by
  have hword : 2 ^ 32 = 2 ^ shift * 2 ^ (32 - shift) := by
    rw [← pow_add, Nat.add_sub_cancel' hshift]
  have hhigh : (g <<< shift) % 2 ^ 32 = 2 ^ shift * (g % 2 ^ (32 - shift)) := by
    rw [Nat.shiftLeft_eq, Nat.mul_comm, hword, Nat.mul_mod_mul_left]
  have hfits : 2 ^ shift * (g % 2 ^ (32 - shift)) + low < 2 ^ 32 := by
    have hgroup : g % 2 ^ (32 - shift) + 1 ≤ 2 ^ (32 - shift) :=
      Nat.mod_lt _ (Nat.two_pow_pos _)
    have hmul := Nat.mul_le_mul_left (2 ^ shift) hgroup
    rw [← hword, Nat.mul_add] at hmul
    omega
  rw [hhigh, ← Nat.two_pow_add_eq_or_of_lt hlow, Nat.add_comm low, ← Nat.mod_add_mod,
    Nat.mul_comm (2 ^ shift) g, ← Nat.shiftLeft_eq, hhigh, Nat.mod_eq_of_lt hfits]

/-- The groups of the bytes, as a word. -/
theorem leb128_eq {n : ℕ} (hn : n ≤ 5) {p : List Byte} (hp : n ≤ p.length) :
    leb128 n p = BitVec.ofNat 32 (groupsValue (p.take n)) := by
  induction n with
  | zero => rfl
  | succ n ih =>
      have hget : p.getD n 0 = p[n] := List.getD_eq_getElem p 0 hp
      have htake : p.take (n + 1) = p.take n ++ [p[n]] := List.take_succ_eq_append_getElem hp
      have hlow := groupsValue_lt (p.take n)
      have hlength : (p.take n).length = n := List.length_take_of_le (by omega)
      have hpow : (128 : ℕ) ^ n = 2 ^ (7 * n) := pow_mul 2 7 n ▸ rfl
      rw [hlength, hpow] at hlow
      have hword : 2 ^ (7 * n) ≤ 2 ^ 28 := Nat.pow_le_pow_right (by decide) (by omega)
      have hgroup : ((p[n]).setWidth 32 &&& 0x7f).toNat = p[n].toNat % 128 := by
        rw [BitVec.toNat_and, BitVec.toNat_setWidth]
        show p[n].toNat % 2 ^ 32 &&& 2 ^ 7 - 1 = _
        rw [Nat.and_two_pow_sub_one_eq_mod]
        omega
      have hsmall : groupsValue (p.take n) < 2 ^ 32 := hlow.trans_le (hword.trans (by decide))
      have hvalue : groupsValue [p[n]] = p[n].toNat % 128 := rfl
      apply BitVec.eq_of_toNat_eq
      rw [leb128, ih (by omega) (by omega), byteAt, hget, htake, groupsValue_append, hlength, hpow,
        hvalue, BitVec.toNat_or, BitVec.toNat_shiftLeft, hgroup, BitVec.toNat_ofNat,
        Nat.mod_eq_of_lt hsmall, or_shifted_eq (by omega) hlow, BitVec.toNat_ofNat]

/-- Sign extension of the `n` groups of a number of `7 n` signed bits. -/
theorem signExtend_ofInt {n : ℕ} (hn : n ≤ 3) {x : ℤ} (hlow : -(64 * 128 ^ n) ≤ x)
    (hhigh : x < 64 * 128 ^ n) :
    signExtend (BitVec.ofInt 32 (x % 128 ^ (n + 1))) (7 * n + 6) = BitVec.ofInt 32 x := by
  apply BitVec.eq_of_toInt_eq
  rw [signExtend, BitVec.toInt_sshiftRight, BitVec.toInt_shiftLeft, BitVec.toInt_ofInt,
    BitVec.toNat_ofInt]
  interval_cases n <;>
    norm_num [Nat.shiftLeft_eq, Int.shiftRight_eq_div_pow, Int.bmod] at hlow hhigh ⊢ <;>
    omega

theorem and_top_eq_zero (b : Byte) : (b &&& 0x80 == 0) = decide (b.toNat < 128) := by
  revert b
  decide

/-- The first byte without a top bit is the last of the numeral. -/
theorem ends_append {numeral : List Byte} (h : Terminated numeral) (rest : List Byte) {i : ℕ}
    (hi : i < numeral.length) : ends (numeral ++ rest) i = decide (i + 1 = numeral.length) := by
  induction numeral generalizing i with
  | nil => cases hi
  | cons b bs ih =>
      have hfirst : ends (b :: bs ++ rest) 0 = decide (b.toNat < 128) := and_top_eq_zero b
      by_cases hnil : bs = []
      · subst hnil
        obtain rfl : i = 0 := Nat.lt_one_iff.mp hi
        rw [hfirst]
        exact decide_eq_decide.mpr (iff_of_true h rfl)
      · obtain ⟨hmore, hbs⟩ := (terminated_cons hnil).mp h
        have hpos := List.length_pos_of_ne_nil hnil
        cases i with
        | zero =>
            rw [hfirst, List.length_cons]
            exact decide_eq_decide.mpr (iff_of_false (by omega) (by omega))
        | succ i =>
            rw [List.length_cons] at hi ⊢
            show ends (bs ++ rest) i = _
            rw [ih hbs (by omega)]
            exact decide_eq_decide.mpr (by omega)

/-- Either the bytes start with a numeral of at most `n`, or none of the first `n`
ends one. -/
theorem exists_terminated (n : ℕ) (p : List Byte) :
    (∃ numeral rest, p = numeral ++ rest ∧ Terminated numeral ∧ numeral.length ≤ n) ∨
      ∀ i < n, ends p i = false := by
  induction n generalizing p with
  | zero => exact .inr fun i hi => absurd hi (Nat.not_lt_zero i)
  | succ n ih =>
      cases p with
      | nil => exact .inr fun _ _ => rfl
      | cons b bs =>
          have hfirst : ends (b :: bs) 0 = decide (b.toNat < 128) := and_top_eq_zero b
          by_cases hb : b.toNat < 128
          · exact .inl ⟨[b], bs, rfl, hb, Nat.le_add_left 1 n⟩
          · rcases ih bs with ⟨numeral, rest, rfl, hnumeral, hlength⟩ | hnone
            · left
              refine ⟨b :: numeral, rest, rfl, ?_, Nat.succ_le_succ hlength⟩
              exact (terminated_cons hnumeral.ne_nil).mpr ⟨not_lt.mp hb, hnumeral⟩
            · right
              intro i hi
              cases i with
              | zero => rw [hfirst, decide_eq_false hb]
              | succ i => exact hnone i (Nat.lt_of_succ_lt_succ hi)

/-- The check on the fifth byte of a numeral keeps it within 32 signed bits. -/
theorem topBits_iff {b : Byte} (h : b.toNat < 128) :
    ¬ ((b &&& 0x8 ≠ 0 ∧ b &&& 0xf0 ≠ 0x70) ∨ (¬ b &&& 0x8 ≠ 0 ∧ b &&& 0xf0 ≠ 0)) ↔
      -8 ≤ slebValue [b] ∧ slebValue [b] ≤ 7 := by
  revert b
  decide

/-- A numeral of up to five bytes is read when its number fits 32 signed bits. -/
theorem readS32Leb128_append {numeral : List Byte} (h : Terminated numeral)
    (hlength : numeral.length ≤ 5) (rest : List Byte) :
    readS32Leb128 (numeral ++ rest) =
      if -2 ^ 31 ≤ slebValue numeral ∧ slebValue numeral < 2 ^ 31 then
        some (BitVec.ofInt 32 (slebValue numeral), numeral.length)
      else none := by
  have hends := fun i hi => @ends_append numeral h rest i hi
  obtain ⟨bs, b, rfl⟩ : ∃ bs b, numeral = bs ++ [b] :=
    ⟨_, _, (List.dropLast_append_getLast h.ne_nil).symm⟩
  have hrange := slebValue_range bs b
  have hsplit := slebValue_append_singleton bs b
  have hgroups : (groupsValue bs : ℤ) < 128 ^ bs.length := by exact_mod_cast groupsValue_lt bs
  have hget : (bs ++ [b] ++ rest).getD bs.length 0 = b := by simp [List.getD_eq_getElem?_getD]
  have hvalue : leb128 (bs.length + 1) (bs ++ [b] ++ rest) =
      BitVec.ofInt 32 (slebValue (bs ++ [b]) % 128 ^ (bs.length + 1)) := by
    rw [leb128_eq (by simpa using hlength) (by simp), List.take_left' (by simp),
      ← groupsValue_eq_emod, BitVec.ofInt_natCast]
  have hsign : bs.length ≤ 3 → signExtend (leb128 (bs.length + 1) (bs ++ [b] ++ rest))
      (7 * bs.length + 6) = BitVec.ofInt 32 (slebValue (bs ++ [b])) := by
    intro hshort
    rw [hvalue]
    exact signExtend_ofInt hshort hrange.1 hrange.2
  have hlast := h.last
  simp only [List.length_append, List.length_singleton] at hlength hends ⊢
  generalize slebValue (bs ++ [b]) = x at *
  generalize bs ++ [b] ++ rest = p at *
  generalize bs.length = k at *
  have hmore : ∀ i < k, ¬ ends p i = true := by
    intro i hi
    rw [hends i (by omega), decide_eq_true_iff]
    omega
  have hstop : ends p k = true := by rw [hends k (by omega), decide_eq_true_iff]
  have hshort : k < 5 := by omega
  unfold readS32Leb128
  interval_cases k
  · rw [if_pos hstop, hsign (by decide), if_pos (by omega)]
  · rw [if_neg (hmore 0 (by decide)), if_pos hstop, hsign (by decide), if_pos (by omega)]
  · rw [if_neg (hmore 0 (by decide)), if_neg (hmore 1 (by decide)), if_pos hstop,
      hsign (by decide), if_pos (by omega)]
  · rw [if_neg (hmore 0 (by decide)), if_neg (hmore 1 (by decide)), if_neg (hmore 2 (by decide)),
      if_pos hstop, hsign (by decide), if_pos (by omega)]
  · rw [if_neg (hmore 0 (by decide)), if_neg (hmore 1 (by decide)), if_neg (hmore 2 (by decide)),
      if_neg (hmore 3 (by decide)), if_pos hstop]
    -- The bits above the thirty-second are dropped.
    have hword : BitVec.ofInt 32 (x % 128 ^ 5) = BitVec.ofInt 32 x := by
      apply BitVec.eq_of_toNat_eq
      rw [BitVec.toNat_ofInt, BitVec.toNat_ofInt]
      omega
    have hcheck := topBits_iff hlast
    dsimp only
    rw [hget, hvalue, hword]
    by_cases hfits : -8 ≤ slebValue [b] ∧ slebValue [b] ≤ 7
    · rw [if_neg (hcheck.mpr hfits), if_pos (by omega)]
    · rw [if_pos (not_not.mp (mt hcheck.mp hfits)), if_neg (by omega)]

/-- What `writeSleb128` has written is read back. -/
theorem readS32Leb128_writeSleb128 (v : BitVec 32) (rest : List Byte) :
    readS32Leb128 (writeSleb128 v ++ rest) = some (v, (writeSleb128 v).length) := by
  have hlow := BitVec.le_toInt v
  have hhigh := @BitVec.toInt_lt 32 v
  have hlength : (writeSleb128 v).length ≤ 5 := sleb_length_le (n := 4) (by omega) (by omega)
  unfold writeSleb128 at hlength ⊢
  rw [readS32Leb128_append (terminated_sleb v.toInt) hlength, slebValue_sleb,
    if_pos ⟨hlow, hhigh⟩, BitVec.ofInt_toInt]

/-- The bytes are a signed numeral of the word, of any length the reader takes. -/
structure Numeral (v : BitVec 32) (bytes : List Byte) : Prop where
  terminated : Terminated bytes
  length_le : bytes.length ≤ 5
  value_eq : slebValue bytes = v.toInt

/-- The bytes are an unsigned numeral of the number, of any length the reader takes. -/
structure Unsigned (n : ℕ) (bytes : List Byte) : Prop where
  terminated : Terminated bytes
  length_le : bytes.length ≤ 5
  value_eq : groupsValue bytes = n
  lt : n < 2 ^ 32

theorem unsigned_uleb {n : ℕ} (hn : n < 2 ^ 32) : Unsigned n (uleb n) :=
  ⟨terminated_uleb n, @length_uleb_le n 4 (by omega), groupsValue_uleb n, hn⟩

/-- The reader takes exactly the numerals of its answer. -/
theorem readS32Leb128_eq_some_iff {p : List Byte} {v : BitVec 32} {n : ℕ} :
    readS32Leb128 p = some (v, n) ↔
      ∃ numeral rest, p = numeral ++ rest ∧ n = numeral.length ∧ Numeral v numeral := by
  constructor
  · intro hread
    rcases exists_terminated 5 p with ⟨numeral, rest, rfl, hnumeral, hlength⟩ | hnone
    · rw [readS32Leb128_append hnumeral hlength] at hread
      split at hread
      case isTrue hrange =>
        cases hread
        refine ⟨numeral, rest, rfl, rfl, hnumeral, hlength, ?_⟩
        rw [BitVec.toInt_ofInt]
        exact (Int.bmod_eq_of_le (by omega) (by omega)).symm
      case isFalse => cases hread
    · rw [readS32Leb128, hnone 0 (by decide), hnone 1 (by decide), hnone 2 (by decide),
        hnone 3 (by decide), hnone 4 (by decide)] at hread
      cases hread
  · rintro ⟨numeral, rest, rfl, rfl, hnumeral⟩
    have hlow := BitVec.le_toInt v
    have hhigh := @BitVec.toInt_lt 32 v
    rw [readS32Leb128_append hnumeral.terminated hnumeral.length_le, hnumeral.value_eq,
      if_pos ⟨hlow, hhigh⟩, BitVec.ofInt_toInt]

/-- The check on the fifth byte of a numeral keeps it within 32 bits. -/
theorem highBits_iff {b : Byte} (h : b.toNat < 128) : ¬ (b &&& 0xf0 ≠ 0) ↔ b.toNat < 16 := by
  revert b
  decide

/-- A numeral of up to five bytes is read when its number fits 32 bits. -/
theorem readU32Leb128_append {numeral : List Byte} (h : Terminated numeral)
    (hlength : numeral.length ≤ 5) (hvalue : groupsValue numeral < 2 ^ 32) (rest : List Byte) :
    readU32Leb128 (numeral ++ rest) =
      some (BitVec.ofNat 32 (groupsValue numeral), numeral.length) := by
  have hends := fun i hi => @ends_append numeral h rest i hi
  have hleb : leb128 numeral.length (numeral ++ rest) = BitVec.ofNat 32 (groupsValue numeral) := by
    rw [leb128_eq hlength (by simp), List.take_left' rfl]
  obtain ⟨bs, b, rfl⟩ : ∃ bs b, numeral = bs ++ [b] :=
    ⟨_, _, (List.dropLast_append_getLast h.ne_nil).symm⟩
  have hget : (bs ++ [b] ++ rest).getD bs.length 0 = b := by simp [List.getD_eq_getElem?_getD]
  have hlast : b.toNat < 128 := h.last
  have htop : groupsValue (bs ++ [b]) = groupsValue bs + 128 ^ bs.length * b.toNat := by
    rw [groupsValue_append, groupsValue, groupsValue, Nat.mod_eq_of_lt hlast]
    rfl
  simp only [List.length_append, List.length_singleton] at hlength hends hleb ⊢
  generalize groupsValue (bs ++ [b]) = x at *
  generalize bs ++ [b] ++ rest = p at *
  generalize bs.length = k at *
  have hmore : ∀ i < k, ¬ ends p i = true := by
    intro i hi
    rw [hends i (by omega), decide_eq_true_iff]
    omega
  have hstop : ends p k = true := by rw [hends k (by omega), decide_eq_true_iff]
  have hshort : k < 5 := by omega
  unfold readU32Leb128
  interval_cases k
  · rw [if_pos hstop, hleb]
  · rw [if_neg (hmore 0 (by decide)), if_pos hstop, hleb]
  · rw [if_neg (hmore 0 (by decide)), if_neg (hmore 1 (by decide)), if_pos hstop, hleb]
  · rw [if_neg (hmore 0 (by decide)), if_neg (hmore 1 (by decide)), if_neg (hmore 2 (by decide)),
      if_pos hstop, hleb]
  · rw [if_neg (hmore 0 (by decide)), if_neg (hmore 1 (by decide)), if_neg (hmore 2 (by decide)),
      if_neg (hmore 3 (by decide)), if_pos hstop, hget, hleb,
      if_neg ((highBits_iff hlast).mpr (by omega))]

theorem Unsigned.readU32Leb128_eq {n : ℕ} {bytes : List Byte} (h : Unsigned n bytes)
    (rest : List Byte) :
    readU32Leb128 (bytes ++ rest) = some (BitVec.ofNat 32 n, bytes.length) := by
  obtain ⟨hterminated, hlength, rfl, hlt⟩ := h
  exact readU32Leb128_append hterminated hlength hlt rest

end Numerals

/-! ## The reader -/

/-- The file and the end of the section that is being read. -/
structure BinaryReader where
  data : List Byte
  readEnd : ℕ

/-- The state of a reader is its offset. -/
abbrev ReadM := StateT ℕ Option

/-- `ERROR_UNLESS(expr, …)`. -/
def errorUnless (expr : Bool) : ReadM Unit := if expr then pure () else failure

/-- `IsConcreteType`, without the types of the features that are off. -/
def isConcreteType (type : BitVec 32) : Bool :=
  type == -1 || type == -2 || type == -3 || type == -4

/-- The byte that stands for a type. -/
def typeCode (type : BitVec 32) : Byte := (type &&& 0x7f).setWidth 8

/-- A value type. -/
def Concrete (type : Byte) : Prop := type = 0x7f ∨ type = 0x7e ∨ type = 0x7d ∨ type = 0x7c

instance (type : Byte) : Decidable (Concrete type) :=
  inferInstanceAs (Decidable (_ ∨ _ ∨ _ ∨ _))

namespace BinaryReader

variable (r : BinaryReader)

/-- The bytes from an offset up to `read_end_`. -/
def window (offset : ℕ) : List Byte := (r.data.drop offset).take (r.readEnd - offset)

/-- `ReadU8`. -/
def readU8 : ReadM Byte := fun offset =>
  match r.window offset with
  | [] => none
  | b :: _ => some (b, offset + 1)

/-- `BinaryReader::ReadS32Leb128`. -/
def readS32 : ReadM (BitVec 32) := fun offset =>
  (readS32Leb128 (r.window offset)).map fun (value, bytesRead) => (value, offset + bytesRead)

/-- `BinaryReader::ReadU32Leb128`. -/
def readU32 : ReadM (BitVec 32) := fun offset =>
  (readU32Leb128 (r.window offset)).map fun (value, bytesRead) => (value, offset + bytesRead)

/-- `BinaryReader::ReadS64Leb128`. -/
def readS64 : ReadM (BitVec 64) := fun offset =>
  (readS64Leb128 (r.window offset)).map fun (value, bytesRead) => (value, offset + bytesRead)

/-- `ReadT`, for the little-endian words of the float literals. -/
def readT (size : ℕ) : ReadM ℕ := fun offset =>
  if size ≤ (r.window offset).length then
    some (ofLeBytes ((r.window offset).take size), offset + size)
  else none

/-- `ReadCount`. -/
def readCount : ReadM ℕ := do
  let count ← r.readU32
  let offset ← get
  errorUnless (count.toNat ≤ r.readEnd - offset)
  return count.toNat

/-- A count and the items. -/
def readVector {α : Type} (read : ReadM α) : ReadM (List α) := do
  let count ← r.readCount
  repeated read count

/-- `ReadType`, of a type that `IsConcreteType` lets pass. -/
def readConcrete : ReadM Byte := do
  let type ← r.readS32
  errorUnless (isConcreteType type)
  return typeCode type

/-- A step that succeeds is followed by the rest of the parser. -/
theorem run_bind_of_some {α β : Type} {m : ReadM α} {f : α → ReadM β} {a : α} {offset offset' : ℕ}
    (h : m.run offset = some (a, offset')) : (m >>= f).run offset = (f a).run offset' := by
  rw [StateT.run_bind, h]
  rfl

theorem run_errorUnless {expr : Bool} (h : expr = true) {β : Type} (f : Unit → ReadM β)
    (offset : ℕ) : (errorUnless expr >>= f).run offset = (f ()).run offset := by
  rw [h]
  rfl

/-- A parser that succeeds has gone through its first step. -/
theorem exists_of_run_bind {α β : Type} {m : ReadM α} {f : α → ReadM β} {b : β} {offset offset' : ℕ}
    (h : (m >>= f).run offset = some (b, offset')) :
    ∃ a mid, m.run offset = some (a, mid) ∧ (f a).run mid = some (b, offset') := by
  rw [StateT.run_bind] at h
  cases hm : m.run offset with
  | none =>
      rw [hm] at h
      cases h
  | some x =>
      obtain ⟨a, mid⟩ := x
      rw [hm] at h
      exact ⟨a, mid, rfl, h⟩

theorem of_run_errorUnless {expr : Bool} {u : Unit} {offset offset' : ℕ}
    (h : (errorUnless expr).run offset = some (u, offset')) : expr = true ∧ offset' = offset := by
  cases expr with
  | false => cases h
  | true =>
      cases h
      exact ⟨rfl, rfl⟩

section Spec

variable {r} {offset offset' : ℕ} {bytes rest : List Byte}

/-- Behind the bytes that were read stands the rest. -/
theorem window_add (h : r.window offset = bytes ++ rest) :
    r.window (offset + bytes.length) = rest := by
  rw [window, ← List.drop_drop, Nat.sub_add_eq, ← List.drop_take, ← window, h, List.drop_left]

/-- What the reader sees stands in the file. -/
theorem exists_drop_eq (h : r.window offset = bytes ++ rest) :
    ∃ tail, r.data.drop offset = bytes ++ tail := by
  refine ⟨rest ++ (r.data.drop offset).drop (r.readEnd - offset), ?_⟩
  rw [← List.append_assoc, ← h, window, List.take_append_drop]

theorem run_readU8 {b : Byte} (h : r.window offset = b :: rest) :
    r.readU8.run offset = some (b, offset + 1) := by
  show r.readU8 offset = _
  rw [readU8, h]

theorem run_readS32 {v : BitVec 32} (h : r.window offset = writeSleb128 v ++ rest) :
    r.readS32.run offset = some (v, offset + (writeSleb128 v).length) := by
  show r.readS32 offset = _
  rw [readS32, h, readS32Leb128_writeSleb128]
  rfl

theorem of_run_readU8 {b : Byte} (h : r.readU8.run offset = some (b, offset')) :
    offset' = offset + 1 ∧ ∃ rest, r.window offset = [b] ++ rest := by
  change r.readU8 offset = _ at h
  rw [readU8] at h
  split at h
  · cases h
  case h_2 c rest hwindow =>
    cases h
    exact ⟨rfl, rest, hwindow⟩

theorem of_run_readS32 {v : BitVec 32} (h : r.readS32.run offset = some (v, offset')) :
    ∃ numeral rest, r.window offset = numeral ++ rest ∧ Numeral v numeral ∧
      offset' = offset + numeral.length := by
  obtain ⟨⟨value, n⟩, hread, heq⟩ := Option.map_eq_some_iff.mp h
  cases heq
  obtain ⟨numeral, rest, hwindow, rfl, hnumeral⟩ := readS32Leb128_eq_some_iff.mp hread
  exact ⟨numeral, rest, hwindow, hnumeral, rfl⟩

end Spec

end BinaryReader

/-! ## Steps -/

section Steps

variable {r : BinaryReader}

def view (r : BinaryReader) : View Byte where
  left := r.window
  left_add offset n := by
    rw [BinaryReader.window, BinaryReader.window, List.drop_take, List.drop_drop, Nat.sub_add_eq]

/-- A window ends where the reader may read to. -/
theorem length_window_le (offset : ℕ) : (r.window offset).length ≤ r.readEnd - offset := by
  rw [BinaryReader.window]
  exact List.length_take_le ..

theorem toNat_ofNat {n : ℕ} (hn : n < 2 ^ 32) : (BitVec.ofNat 32 n).toNat = n := by
  rw [BitVec.toNat_ofNat, Nat.mod_eq_of_lt hn]

theorem reads_u8 (b : Byte) : Reads (view r) r.readU8 [b] b :=
  fun _ _ h => BinaryReader.run_readU8 h

theorem reads_s32 (v : BitVec 32) : Reads (view r) r.readS32 (writeSleb128 v) v :=
  fun _ _ h => BinaryReader.run_readS32 h

theorem reads_errorUnless {expr : Bool} (h : expr = true) :
    Reads (view r) (errorUnless expr) [] () := by
  rw [h]
  exact Reads.pure ()

theorem reads_unsigned {n : ℕ} {bytes : List Byte} (h : Unsigned n bytes) :
    Reads (view r) r.readU32 bytes (BitVec.ofNat 32 n) := by
  intro offset rest hwindow
  have hwindow : r.window offset = bytes ++ rest := hwindow
  show r.readU32 offset = _
  rw [BinaryReader.readU32, hwindow, h.readU32Leb128_eq]
  rfl

theorem reads_signed {v : BitVec 32} {bytes : List Byte} (h : Numeral v bytes) :
    Reads (view r) r.readS32 bytes v := by
  intro offset rest hwindow
  have hwindow : r.window offset = bytes ++ rest := hwindow
  show r.readS32 offset = _
  rw [BinaryReader.readS32, hwindow, readS32Leb128_eq_some_iff.mpr ⟨bytes, rest, rfl, rfl, h⟩]
  rfl

theorem run_get (offset : ℕ) : (get : ReadM ℕ).run offset = some (offset, offset) := rfl

/-- A count is read where at least as many bytes follow it. -/
theorem run_readCount {n offset : ℕ} {count rest : List Byte} (hcount : Unsigned n count)
    (h : r.window offset = count ++ rest) (hrest : n ≤ rest.length) :
    r.readCount.run offset = some (n, offset + count.length) := by
  have hleft : r.window (offset + count.length) = rest := BinaryReader.window_add h
  have hroom := @length_window_le r (offset + count.length)
  rw [hleft] at hroom
  have hcheck :
      decide ((BitVec.ofNat 32 n).toNat ≤ r.readEnd - (offset + count.length)) = true := by
    rw [toNat_ofNat hcount.lt]
    exact decide_eq_true (by omega)
  rw [BinaryReader.readCount,
    BinaryReader.run_bind_of_some (reads_unsigned hcount offset rest h),
    BinaryReader.run_bind_of_some (run_get _), BinaryReader.run_errorUnless hcheck,
    toNat_ofNat hcount.lt]
  rfl

theorem length_le_flatMap {α : Type} {write : α → List Byte} {xs : List α}
    (h : ∀ x ∈ xs, write x ≠ []) : xs.length ≤ (xs.flatMap write).length := by
  induction xs with
  | nil => exact Nat.le_refl 0
  | cons x xs ih =>
      have hpos := List.length_pos_iff.mpr (h x List.mem_cons_self)
      have hrest := ih fun y hy => h y (List.mem_cons_of_mem x hy)
      rw [List.flatMap_cons, List.length_append, List.length_cons]
      omega

theorem writeSleb128_type (type : BitVec 32) (hlow : -64 ≤ type.toInt) (hhigh : type.toInt < 0) :
    writeSleb128 type = [BitVec.ofInt 8 (type.toInt % 128)] :=
  sleb_of_stops (by unfold SlebStops; omega)

/-- A type is read from any numeral of it. -/
theorem reads_type {type : BitVec 32} {bytes : List Byte} (h : Numeral type bytes)
    (hconcrete : isConcreteType type = true) :
    Reads (view r) r.readConcrete bytes (typeCode type) := by
  unfold BinaryReader.readConcrete
  exact (reads_signed h).ending ((reads_errorUnless hconcrete).check (Reads.pure _))

theorem reads_concrete {type : Byte} (h : Concrete type) :
    Reads (view r) r.readConcrete [type] type := by
  obtain ⟨code, hbytes, hconcrete, rfl⟩ : ∃ code : BitVec 32, writeSleb128 code = [type] ∧
      isConcreteType code = true ∧ typeCode code = type := by
    rcases h with rfl | rfl | rfl | rfl
    · exact ⟨-1, writeSleb128_type (-1) (by decide) (by decide), rfl, rfl⟩
    · exact ⟨-2, writeSleb128_type (-2) (by decide) (by decide), rfl, rfl⟩
    · exact ⟨-3, writeSleb128_type (-3) (by decide) (by decide), rfl, rfl⟩
    · exact ⟨-4, writeSleb128_type (-4) (by decide) (by decide), rfl, rfl⟩
  rw [← hbytes]
  unfold BinaryReader.readConcrete
  exact (reads_s32 code).ending ((reads_errorUnless hconcrete).check (Reads.pure (typeCode code)))

end Steps

end FractalCdt.Toolchain
