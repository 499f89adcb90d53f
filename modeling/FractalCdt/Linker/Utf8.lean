/-
# Names

The linker writes names as bytes, and the post-pass takes them only as UTF-8: by a
table of lengths for the first byte, and by bounds on the second where a longer form
would do or where no scalar value is meant.
-/

import FractalCdt.Math.Bytes

namespace FractalCdt.Linker

open FractalCdt.Math

/-- The length that `s_utf8_length` tells from the first byte. -/
def utf8Length (cu0 : Byte) : ℕ :=
  if cu0 < 0x80 then 1
  else if cu0 < 0xc2 then 0
  else if cu0 < 0xe0 then 2
  else if cu0 < 0xf0 then 3
  else if cu0 < 0xf5 then 4
  else 0

/-- `IsCont`. -/
def isCont (c : Byte) : Bool := c &&& 0xc0 == 0x80

/-- `IsValidUtf8`. -/
def isValidUtf8 : List Byte → Bool
  | [] => true
  | cu0 :: s =>
      match utf8Length cu0, s with
      | 1, s => isValidUtf8 s
      | 2, cu1 :: s => isCont cu1 && isValidUtf8 s
      | 3, cu1 :: cu2 :: s =>
          isCont cu1 && isCont cu2 && !(cu0 == 0xe0 && cu1 < 0xa0) &&
            !(cu0 == 0xed && cu1 ≥ 0xa0) && isValidUtf8 s
      | 4, cu1 :: cu2 :: cu3 :: s =>
          isCont cu1 && isCont cu2 && isCont cu3 && !(cu0 == 0xf0 && cu1 < 0x90) &&
            !(cu0 == 0xf4 && cu1 ≥ 0x90) && isValidUtf8 s
      | _, _ => false

/-- The bytes of a character. -/
def charBytes (c : Char) : List Byte := (String.utf8EncodeChar c).map (·.toBitVec)

/-- The bytes of a name. -/
def nameBytes (Name : String) : List Byte := Name.toList.flatMap charBytes

/-! ## One character -/

theorem isCont_iff (c : Byte) : isCont c = true ↔ 0x80 ≤ c.toNat ∧ c.toNat < 0xc0 := by
  revert c
  decide

theorem utf8Length_spec (c : Byte) :
    (utf8Length c = 1 ↔ c.toNat < 0x80) ∧
    (utf8Length c = 2 ↔ 0xc2 ≤ c.toNat ∧ c.toNat < 0xe0) ∧
    (utf8Length c = 3 ↔ 0xe0 ≤ c.toNat ∧ c.toNat < 0xf0) ∧
    (utf8Length c = 4 ↔ 0xf0 ≤ c.toNat ∧ c.toNat < 0xf5) := by
  revert c
  decide

/-- The checks on a second byte, as bounds. -/
theorem second_spec (cu0 cu1 : Byte) :
    ((!(cu0 == 0xe0 && cu1 < 0xa0)) = true ↔ (cu0.toNat = 0xe0 → 0xa0 ≤ cu1.toNat)) ∧
    ((!(cu0 == 0xed && cu1 ≥ 0xa0)) = true ↔ (cu0.toNat = 0xed → cu1.toNat < 0xa0)) ∧
    ((!(cu0 == 0xf0 && cu1 < 0x90)) = true ↔ (cu0.toNat = 0xf0 → 0x90 ≤ cu1.toNat)) ∧
    ((!(cu0 == 0xf4 && cu1 ≥ 0x90)) = true ↔ (cu0.toNat = 0xf4 → cu1.toNat < 0x90)) := by
  simp [BitVec.lt_def, BitVec.le_def, ← BitVec.toNat_inj, imp_iff_not_or]

/-- The number of a character is a scalar value. -/
theorem scalar (c : Char) :
    c.val.toNat < 0xd800 ∨ 0xdfff < c.val.toNat ∧ c.val.toNat < 0x110000 := c.valid

/-- The characters of each length. -/
theorem charBytes_cases (c : Char) :
    (c.val.toNat < 0x80 ∧ charBytes c = [BitVec.ofNat 8 c.val.toNat]) ∨
    (0x80 ≤ c.val.toNat ∧ c.val.toNat < 0x800 ∧ charBytes c =
      [BitVec.ofNat 8 (c.val.toNat / 64 % 32 + 0xc0), BitVec.ofNat 8 (c.val.toNat % 64 + 0x80)]) ∨
    (0x800 ≤ c.val.toNat ∧ c.val.toNat < 0x10000 ∧ charBytes c =
      [BitVec.ofNat 8 (c.val.toNat / 4096 % 16 + 0xe0),
        BitVec.ofNat 8 (c.val.toNat / 64 % 64 + 0x80), BitVec.ofNat 8 (c.val.toNat % 64 + 0x80)]) ∨
    (0x10000 ≤ c.val.toNat ∧ charBytes c =
      [BitVec.ofNat 8 (c.val.toNat / 262144 % 8 + 0xf0),
        BitVec.ofNat 8 (c.val.toNat / 4096 % 64 + 0x80),
        BitVec.ofNat 8 (c.val.toNat / 64 % 64 + 0x80),
        BitVec.ofNat 8 (c.val.toNat % 64 + 0x80)]) := by
  unfold charBytes String.utf8EncodeChar
  dsimp only
  split
  case isTrue h => exact .inl ⟨by omega, rfl⟩
  case isFalse h₁ =>
    split
    case isTrue h => exact .inr (.inl ⟨by omega, by omega, rfl⟩)
    case isFalse h₂ =>
      split
      case isTrue h => exact .inr (.inr (.inl ⟨by omega, by omega, rfl⟩))
      case isFalse h₃ => exact .inr (.inr (.inr ⟨by omega, rfl⟩))

theorem toNat_byte {n : ℕ} (hn : n < 256) : (BitVec.ofNat 8 n).toNat = n := by
  rw [BitVec.toNat_ofNat, Nat.mod_eq_of_lt hn]

section Lengths

variable {cu0 cu1 cu2 cu3 : Byte} {s : List Byte}

theorem isValidUtf8_one (h : utf8Length cu0 = 1) : isValidUtf8 (cu0 :: s) = isValidUtf8 s := by
  rw [isValidUtf8.eq_def]
  dsimp only
  rw [h]
  rfl

theorem isValidUtf8_two (h : utf8Length cu0 = 2) :
    isValidUtf8 (cu0 :: cu1 :: s) = (isCont cu1 && isValidUtf8 s) := by
  rw [isValidUtf8.eq_def]
  dsimp only
  rw [h]
  rfl

theorem isValidUtf8_three (h : utf8Length cu0 = 3) :
    isValidUtf8 (cu0 :: cu1 :: cu2 :: s) = (isCont cu1 && isCont cu2 &&
      !(cu0 == 0xe0 && cu1 < 0xa0) && !(cu0 == 0xed && cu1 ≥ 0xa0) && isValidUtf8 s) := by
  rw [isValidUtf8.eq_def]
  dsimp only
  rw [h]
  rfl

theorem isValidUtf8_four (h : utf8Length cu0 = 4) :
    isValidUtf8 (cu0 :: cu1 :: cu2 :: cu3 :: s) = (isCont cu1 && isCont cu2 && isCont cu3 &&
      !(cu0 == 0xf0 && cu1 < 0x90) && !(cu0 == 0xf4 && cu1 ≥ 0x90) && isValidUtf8 s) := by
  rw [isValidUtf8.eq_def]
  dsimp only
  rw [h]
  rfl

end Lengths

theorem ofNat_eq {n : ℕ} {b : Byte} (h : n = b.toNat) : BitVec.ofNat 8 n = b := by
  rw [h, BitVec.ofNat_toNat, BitVec.setWidth_eq]

/-- Behind a character the check goes on. -/
theorem isValidUtf8_charBytes (c : Char) (rest : List Byte) :
    isValidUtf8 (charBytes c ++ rest) = isValidUtf8 rest := by
  have hscalar := scalar c
  rcases charBytes_cases c with
    ⟨hlt, hbytes⟩ | ⟨hle, hlt, hbytes⟩ | ⟨hle, hlt, hbytes⟩ | ⟨hle, hbytes⟩
  · have hfirst := toNat_byte (n := c.val.toNat) (by omega)
    rw [hbytes]
    exact isValidUtf8_one ((utf8Length_spec _).1.mpr (by omega))
  · have hfirst := toNat_byte (n := c.val.toNat / 64 % 32 + 0xc0) (by omega)
    have hsecond := toNat_byte (n := c.val.toNat % 64 + 0x80) (by omega)
    rw [hbytes]
    generalize BitVec.ofNat 8 (c.val.toNat / 64 % 32 + 0xc0) = cu0 at *
    generalize BitVec.ofNat 8 (c.val.toNat % 64 + 0x80) = cu1 at *
    refine (isValidUtf8_two ((utf8Length_spec cu0).2.1.mpr (by omega))).trans ?_
    rw [(isCont_iff cu1).mpr (by omega)]
    rfl
  · have hfirst := toNat_byte (n := c.val.toNat / 4096 % 16 + 0xe0) (by omega)
    have hsecond := toNat_byte (n := c.val.toNat / 64 % 64 + 0x80) (by omega)
    have hthird := toNat_byte (n := c.val.toNat % 64 + 0x80) (by omega)
    rw [hbytes]
    generalize BitVec.ofNat 8 (c.val.toNat / 4096 % 16 + 0xe0) = cu0 at *
    generalize BitVec.ofNat 8 (c.val.toNat / 64 % 64 + 0x80) = cu1 at *
    generalize BitVec.ofNat 8 (c.val.toNat % 64 + 0x80) = cu2 at *
    refine (isValidUtf8_three ((utf8Length_spec cu0).2.2.1.mpr (by omega))).trans ?_
    rw [(isCont_iff cu1).mpr (by omega), (isCont_iff cu2).mpr (by omega),
      (second_spec cu0 cu1).1.mpr (by omega), (second_spec cu0 cu1).2.1.mpr (by omega)]
    rfl
  · have hfirst := toNat_byte (n := c.val.toNat / 262144 % 8 + 0xf0) (by omega)
    have hsecond := toNat_byte (n := c.val.toNat / 4096 % 64 + 0x80) (by omega)
    have hthird := toNat_byte (n := c.val.toNat / 64 % 64 + 0x80) (by omega)
    have hfourth := toNat_byte (n := c.val.toNat % 64 + 0x80) (by omega)
    rw [hbytes]
    generalize BitVec.ofNat 8 (c.val.toNat / 262144 % 8 + 0xf0) = cu0 at *
    generalize BitVec.ofNat 8 (c.val.toNat / 4096 % 64 + 0x80) = cu1 at *
    generalize BitVec.ofNat 8 (c.val.toNat / 64 % 64 + 0x80) = cu2 at *
    generalize BitVec.ofNat 8 (c.val.toNat % 64 + 0x80) = cu3 at *
    refine (isValidUtf8_four ((utf8Length_spec cu0).2.2.2.mpr (by omega))).trans ?_
    rw [(isCont_iff cu1).mpr (by omega), (isCont_iff cu2).mpr (by omega),
      (isCont_iff cu3).mpr (by omega), (second_spec cu0 cu1).2.2.1.mpr (by omega),
      (second_spec cu0 cu1).2.2.2.mpr (by omega)]
    rfl

/-- The character with a number. -/
theorem exists_char {v : ℕ} (hv : v < 0xd800 ∨ 0xdfff < v ∧ v < 0x110000) :
    ∃ c : Char, c.val.toNat = v := by
  refine ⟨Char.ofNatAux v hv, ?_⟩
  show (UInt32.ofNatLT v _).toNat = v
  rw [UInt32.toNat_ofNatLT]

/-- What passes the check starts with a character. -/
theorem exists_charBytes {bs : List Byte} (h : isValidUtf8 bs = true) (hne : bs ≠ []) :
    ∃ c rest, bs = charBytes c ++ rest ∧ isValidUtf8 rest = true := by
  obtain ⟨cu0, tail, rfl⟩ := List.exists_cons_of_ne_nil hne
  have hcu0 := cu0.isLt
  obtain ⟨hone, htwo, hthree, hfour⟩ := utf8Length_spec cu0
  rw [isValidUtf8.eq_def] at h
  dsimp only at h
  split at h
  case h_1 tail _ _ hlength =>
    have hlt := hone.mp hlength
    obtain ⟨c, hc⟩ := @exists_char cu0.toNat (by omega)
    refine ⟨c, tail, ?_, h⟩
    obtain ⟨-, hbytes⟩ := (charBytes_cases c).resolve_right (by omega)
    rw [hbytes, hc, BitVec.ofNat_toNat, BitVec.setWidth_eq]
    rfl
  case h_2 _ _ cu1 s hlength =>
    rw [Bool.and_eq_true, isCont_iff] at h
    have hrange := htwo.mp hlength
    obtain ⟨c, hc⟩ := @exists_char ((cu0.toNat - 0xc0) * 64 + (cu1.toNat - 0x80)) (by omega)
    refine ⟨c, s, ?_, h.2⟩
    obtain ⟨-, -, hbytes⟩ := ((charBytes_cases c).resolve_left (by omega)).resolve_right (by omega)
    rw [hbytes, hc, ofNat_eq (b := cu0) (by omega), ofNat_eq (b := cu1) (by omega)]
    rfl
  case h_3 _ _ cu1 cu2 s hlength =>
    simp only [Bool.and_eq_true, isCont_iff, second_spec] at h
    have hrange := hthree.mp hlength
    obtain ⟨c, hc⟩ := @exists_char ((cu0.toNat - 0xe0) * 4096 + (cu1.toNat - 0x80) * 64 +
      (cu2.toNat - 0x80)) (by omega)
    refine ⟨c, s, ?_, h.2⟩
    obtain ⟨-, -, hbytes⟩ := (((charBytes_cases c).resolve_left (by omega)).resolve_left
      (by omega)).resolve_right (by omega)
    rw [hbytes, hc, ofNat_eq (b := cu0) (by omega), ofNat_eq (b := cu1) (by omega),
      ofNat_eq (b := cu2) (by omega)]
    rfl
  case h_4 _ _ cu1 cu2 cu3 s hlength =>
    simp only [Bool.and_eq_true, isCont_iff, second_spec] at h
    have hrange := hfour.mp hlength
    obtain ⟨c, hc⟩ := @exists_char ((cu0.toNat - 0xf0) * 262144 + (cu1.toNat - 0x80) * 4096 +
      (cu2.toNat - 0x80) * 64 + (cu3.toNat - 0x80)) (by omega)
    refine ⟨c, s, ?_, h.2⟩
    obtain ⟨-, hbytes⟩ := (((charBytes_cases c).resolve_left (by omega)).resolve_left
      (by omega)).resolve_left (by omega)
    rw [hbytes, hc, ofNat_eq (b := cu0) (by omega), ofNat_eq (b := cu1) (by omega),
      ofNat_eq (b := cu2) (by omega), ofNat_eq (b := cu3) (by omega)]
    rfl
  case h_5 => cases h

theorem charBytes_ne_nil (c : Char) : charBytes c ≠ [] := by
  rcases charBytes_cases c with ⟨-, h⟩ | ⟨-, -, h⟩ | ⟨-, -, h⟩ | ⟨-, h⟩ <;>
    exact h ▸ List.cons_ne_nil _ _

theorem exists_chars {bs : List Byte} (h : isValidUtf8 bs = true) :
    ∃ cs : List Char, bs = cs.flatMap charBytes := by
  induction hlength : bs.length using Nat.strong_induction_on generalizing bs with
  | _ n ih =>
      by_cases hne : bs = []
      · exact ⟨[], hne⟩
      · obtain ⟨c, rest, rfl, hrest⟩ := exists_charBytes h hne
        have hpos := List.length_pos_iff.mpr (charBytes_ne_nil c)
        rw [List.length_append] at hlength
        obtain ⟨cs, rfl⟩ := ih rest.length (by omega) hrest rfl
        exact ⟨c :: cs, rfl⟩

/-- Exactly the names of characters pass the check. -/
theorem isValidUtf8_iff (bs : List Byte) :
    isValidUtf8 bs = true ↔ ∃ Name : String, bs = nameBytes Name := by
  constructor
  · intro h
    obtain ⟨cs, rfl⟩ := exists_chars h
    exact ⟨String.ofList cs, by rw [nameBytes, String.toList_ofList]⟩
  · rintro ⟨Name, rfl⟩
    unfold nameBytes
    induction Name.toList with
    | nil => rfl
    | cons c cs ih => rw [List.flatMap_cons, isValidUtf8_charBytes, ih]

end FractalCdt.Linker
