/-
# Addresses from C strings

The constructor skips two characters and then takes two for each byte, until it
meets the NUL.  A read behind the NUL and a write behind the twenty bytes are
faults of the model, so that a string decides which accesses are made.
-/

import FractalCdt.Math.Bytes
import Mathlib.Data.Vector.Basic
import Mathlib.Data.Fintype.Basic
import Mathlib.Data.List.GetD

namespace FractalCdt.Address

open FractalCdt.Math

/-- The code of an ASCII character. -/
def ascii (c : Char) : Byte := BitVec.ofNat 8 c.toNat

/-- A NUL-terminated string, as the characters before the NUL. -/
structure CString where
  chars : List Byte
  nul_not_mem : 0 ∉ chars

inductive Fault where
  /-- a character behind the NUL is read -/
  | readBeyond (k : ℕ)
  /-- a byte behind the array is written -/
  | writeBeyond (i : ℕ)
  /-- the turns that the model allows the loop are used up -/
  | unfinished
  deriving DecidableEq

/-- `s[k]`. -/
def CString.read (s : CString) (k : ℕ) : Except Fault Byte :=
  match (s.chars ++ [0])[k]? with
  | some c => .ok c
  | none => .error (.readBeyond k)

/-- `addr[i] = b`. -/
def write (addr : List.Vector Byte 20) (i : ℕ) (b : Byte) : Except Fault (List.Vector Byte 20) :=
  if h : i < 20 then .ok (addr.set ⟨i, h⟩ b) else .error (.writeBeyond i)

/-- `char2uint8`. -/
def char2uint8 (c : Byte) : Byte :=
  if (ascii '0').sle c ∧ c.sle (ascii '9') then c - ascii '0'
  else if (ascii 'a').sle c ∧ c.sle (ascii 'f') then c - ascii 'a' + 10
  else if (ascii 'A').sle c ∧ c.sle (ascii 'F') then c - ascii 'A' + 10
  else 0

/-- The loop of the constructor, with `p` the offset of the pointer in the string. -/
def fill (s : CString) : ℕ → ℕ → ℕ → List.Vector Byte 20 → Except Fault (List.Vector Byte 20)
  | 0, _, _, _ => .error .unfinished
  | turns + 1, p, i, addr => do
      let c ← s.read p
      if c = 0 then
        return addr
      let d ← s.read (p + 1)
      if d = 0 then
        return addr
      let addr ← write addr i (char2uint8 c * 16 + char2uint8 d)
      fill s turns (p + 2) (i + 1) addr

/-- `address::address(const char*)`. -/
def ofCString (s : CString) : Except Fault (List.Vector Byte 20) :=
  fill s (s.chars.length + 1) 2 0 (List.Vector.replicate 20 0)

/-- `address::operator==`. -/
def operatorEq (a b : List.Vector Byte 20) : Bool :=
  (List.finRange 20).all fun i => a.get i == b.get i

/-! ## What is read -/

namespace CString

variable {s : CString} {k : ℕ}

/-- The character at an index, NUL from the end on. -/
def char (s : CString) (k : ℕ) : Byte := s.chars.getD k 0

theorem read_of_le (h : k ≤ s.chars.length) : s.read k = .ok (s.char k) := by
  rw [read, char, List.getD_eq_getElem?_getD]
  by_cases hend : k = s.chars.length
  · subst hend
    simp
  · have hlt : k < s.chars.length := by omega
    rw [List.getElem?_append_left hlt, List.getElem?_eq_getElem hlt]
    rfl

theorem read_of_lt (h : s.chars.length < k) : s.read k = .error (.readBeyond k) := by
  rw [read, List.getElem?_eq_none]
  simp
  omega

theorem char_ne_zero (h : k < s.chars.length) : s.char k ≠ 0 := by
  rw [char, List.getD_eq_getElem _ _ h]
  intro hnul
  exact s.nul_not_mem (hnul ▸ List.getElem_mem h)

theorem char_length : s.char s.chars.length = 0 :=
  List.getD_eq_default _ _ le_rfl

end CString

/-! ## The loop -/

variable {s : CString} {turns p i : ℕ} {addr : List.Vector Byte 20}

/-- The byte that two characters give. -/
def pair (s : CString) (p : ℕ) : Byte := char2uint8 (s.char p) * 16 + char2uint8 (s.char (p + 1))

/-- With fewer than two characters left the loop ends. -/
theorem fill_of_end (hp : p ≤ s.chars.length) (hend : s.chars.length < p + 2) :
    fill s (turns + 1) p i addr = .ok addr := by
  rw [fill, CString.read_of_le hp]
  by_cases hnul : p = s.chars.length
  · rw [hnul, CString.char_length]
    rfl
  · have hlast : p + 1 = s.chars.length := by omega
    have hne := @CString.char_ne_zero s p (by omega)
    rw [CString.read_of_le hlast.le, hlast, CString.char_length]
    show (if s.char p = 0 then _ else _) = _
    rw [if_neg hne]
    rfl

/-- With two characters left a byte is written. -/
theorem fill_of_pair (hp : p + 2 ≤ s.chars.length) :
    fill s (turns + 1) p i addr =
      (write addr i (pair s p) >>= fill s turns (p + 2) (i + 1)) := by
  have hfirst := @CString.char_ne_zero s p (by omega)
  have hsecond := @CString.char_ne_zero s (p + 1) (by omega)
  rw [fill, CString.read_of_le (by omega), CString.read_of_le (by omega)]
  show (if s.char p = 0 then _ else if s.char (p + 1) = 0 then _ else _) = _
  rw [if_neg hfirst, if_neg hsecond]
  rfl

/-- While the pairs fit, every byte is that of its pair. -/
theorem fill_of_fits (hp : p ≤ s.chars.length) (hturns : s.chars.length < p + turns)
    (hfits : 2 * i + s.chars.length < p + 42) :
    ∃ a, fill s turns p i addr = .ok a ∧ ∀ j : Fin 20, a.get j =
      if i ≤ j ∧ p + 2 * (j - i) + 1 < s.chars.length then pair s (p + 2 * (j - i))
      else addr.get j := by
  induction turns generalizing p i addr with
  | zero => omega
  | succ turns ih =>
      by_cases hpair : p + 2 ≤ s.chars.length
      · have hi : i < 20 := by omega
        rw [fill_of_pair hpair, write, dif_pos hi]
        obtain ⟨a, ha, hget⟩ := @ih (p + 2) (i + 1) (addr.set ⟨i, hi⟩ (pair s p)) hpair (by omega)
          (by omega)
        refine ⟨a, ha, ?_⟩
        intro j
        rw [hget j]
        rcases Nat.lt_trichotomy j i with hlt | heq | hgt
        · rw [if_neg (by omega), if_neg (by omega), List.Vector.get_set_of_ne]
          exact Fin.ne_of_val_ne (by simp; omega)
        · have hj : j = ⟨i, hi⟩ := Fin.ext heq
          rw [if_neg (by omega), if_pos (by omega), hj, List.Vector.get_set_same]
          simp
        · have hoff : p + 2 + 2 * (j - (i + 1)) = p + 2 * (j - i) := by omega
          rw [hoff, List.Vector.get_set_of_ne (Fin.ne_of_val_ne (by simp; omega))]
          congr 1
          simp
          omega
      · refine ⟨addr, fill_of_end hp (by omega), ?_⟩
        intro j
        rw [if_neg (by omega)]

/-- With more pairs than bytes the loop leaves the array. -/
theorem fill_of_not_fits (hp : p ≤ s.chars.length) (hturns : s.chars.length < p + turns)
    (hi : i ≤ 20) (hfits : p + 42 ≤ 2 * i + s.chars.length) :
    fill s turns p i addr = .error (.writeBeyond 20) := by
  induction turns generalizing p i addr with
  | zero => omega
  | succ turns ih =>
      rw [fill_of_pair (by omega), write]
      by_cases hlt : i < 20
      · rw [dif_pos hlt]
        exact ih (by omega) (by omega) (by omega) (by omega)
      · rw [dif_neg hlt]
        have hi20 : i = 20 := by omega
        rw [hi20]
        rfl

/-- What the constructor stores, when it stays in bounds. -/
theorem ofCString_of_bounds (hlow : 2 ≤ s.chars.length) (hhigh : s.chars.length ≤ 43) :
    ∃ a, ofCString s = .ok a ∧ ∀ j : Fin 20, 2 * j + 3 < s.chars.length →
      a.get j = pair s (2 * j + 2) := by
  obtain ⟨a, ha, hget⟩ := @fill_of_fits s (s.chars.length + 1) 2 0 (List.Vector.replicate 20 0)
    hlow (by omega) (by omega)
  refine ⟨a, ha, ?_⟩
  intro j hj
  have hoff : 2 + 2 * ((j : ℕ) - 0) = 2 * j + 2 := by omega
  rw [hget j, hoff, if_pos (by omega)]

theorem inBounds_iff :
    (∃ a, ofCString s = .ok a) ↔ 2 ≤ s.chars.length ∧ s.chars.length ≤ 43 := by
  constructor
  · rintro ⟨a, ha⟩
    by_contra hbounds
    by_cases hshort : s.chars.length < 2
    · rw [ofCString, fill, CString.read_of_lt hshort] at ha
      cases ha
    · rw [ofCString, fill_of_not_fits (by omega) (by omega) (by omega) (by omega)] at ha
      cases ha
  · rintro ⟨hlow, hhigh⟩
    obtain ⟨a, ha, -⟩ := ofCString_of_bounds hlow hhigh
    exact ⟨a, ha⟩

/-! ## Hexadecimal digits -/

/-- A letter of the lower case for one of the upper case. -/
def lower (c : Byte) : Byte := if ascii 'A' ≤ c ∧ c ≤ ascii 'Z' then c + 32 else c

def hexDigits : List Byte := "0123456789abcdef".toList.map ascii

/-- The value of a hexadecimal digit in either case. -/
def hexValue (c : Byte) : ℕ := hexDigits.idxOf (lower c)

/-- `0x` and forty hexadecimal digits. -/
structure CString.IsHex (s : CString) : Prop where
  mark : s.chars.take 2 = [ascii '0', ascii 'x']
  length : s.chars.length = 42
  digits : ∀ c ∈ s.chars.drop 2, lower c ∈ hexDigits

theorem char2uint8_ofNat : ∀ n < 256, lower (BitVec.ofNat 8 n) ∈ hexDigits →
    (char2uint8 (BitVec.ofNat 8 n)).toNat = hexValue (BitVec.ofNat 8 n) := by
  decide +kernel

theorem toNat_char2uint8 {c : Byte} (h : lower c ∈ hexDigits) :
    (char2uint8 c).toNat = hexValue c := by
  have hall := char2uint8_ofNat c.toNat c.isLt
  rw [BitVec.ofNat_toNat, BitVec.setWidth_eq] at hall
  exact hall h

theorem hexValue_lt {c : Byte} (h : lower c ∈ hexDigits) : hexValue c < 16 :=
  List.idxOf_lt_length_iff.mpr h

theorem toNat_pair (hfirst : lower (s.char p) ∈ hexDigits)
    (hsecond : lower (s.char (p + 1)) ∈ hexDigits) :
    (pair s p).toNat = 16 * hexValue (s.char p) + hexValue (s.char (p + 1)) := by
  have hlt := hexValue_lt hfirst
  have hlt' := hexValue_lt hsecond
  rw [pair, BitVec.toNat_add, BitVec.toNat_mul, toNat_char2uint8 hfirst, toNat_char2uint8 hsecond]
  show ((hexValue (s.char p) * 16 % 256) + hexValue (s.char (p + 1))) % 256 = _
  omega

namespace CString.IsHex

variable {t : CString} {a b : List.Vector Byte 20}

theorem char_mem (hs : s.IsHex) (hlow : 2 ≤ p) (hhigh : p < 42) :
    lower (s.char p) ∈ hexDigits := by
  have hlt : p < s.chars.length := hs.length.symm ▸ hhigh
  apply hs.digits
  rw [char, List.getD_eq_getElem _ _ hlt, List.mem_iff_getElem]
  have hdrop : p - 2 < (s.chars.drop 2).length := by
    rw [List.length_drop]
    omega
  refine ⟨p - 2, hdrop, ?_⟩
  rw [List.getElem_drop]
  congr 1
  omega

/-- Two such strings agree up to case when their digits do. -/
theorem map_lower_eq_iff (hs : s.IsHex) (ht : t.IsHex) :
    s.chars.map lower = t.chars.map lower ↔
      ∀ p, 2 ≤ p → p < 42 → lower (s.char p) = lower (t.char p) := by
  constructor
  · intro hmap p _ hp
    have hget := congrArg (·[p]?) hmap
    rw [char, char, List.getD_eq_getElem _ _ (hs.length.symm ▸ hp),
      List.getD_eq_getElem _ _ (ht.length.symm ▸ hp)]
    simpa [hs.length, ht.length, hp] using hget
  · intro hall
    rw [← List.take_append_drop 2 s.chars, ← List.take_append_drop 2 t.chars, List.map_append,
      List.map_append, hs.mark, ht.mark]
    congr 1
    apply List.ext_getElem
    · rw [List.length_map, List.length_map, List.length_drop, List.length_drop, hs.length,
        ht.length]
    · intro k hk hk'
      rw [List.length_map, List.length_drop] at hk hk'
      have hlength := hs.length
      have hchar := hall (2 + k) (by omega) (by omega)
      rw [char, char, List.getD_eq_getElem _ _ (by omega), List.getD_eq_getElem _ _ (by omega)]
        at hchar
      simpa using hchar

end CString.IsHex

/-- The twenty bytes are those that the forty digits denote. -/
def CString.Denotes (s : CString) (a : List.Vector Byte 20) : Prop :=
  ∀ j : Fin 20,
    (a.get j).toNat = 16 * hexValue (s.char (2 * j + 2)) + hexValue (s.char (2 * j + 3))

theorem denotes_of_ofCString {a : List.Vector Byte 20} (hs : s.IsHex) (ha : ofCString s = .ok a) :
    s.Denotes a := by
  intro j
  have hlength := hs.length
  obtain ⟨a', ha', hget⟩ := ofCString_of_bounds (s := s) (by omega) (by omega)
  rw [ha] at ha'
  cases ha'
  rw [hget j (by omega), toNat_pair (hs.char_mem (by omega) (by omega))
    (hs.char_mem (by omega) (by omega))]

theorem operatorEq_iff {a b : List.Vector Byte 20} : operatorEq a b = true ↔ a = b := by
  rw [operatorEq, List.all_eq_true]
  constructor
  · intro hall
    apply List.Vector.ext
    intro i
    exact eq_of_beq (hall i (List.mem_finRange i))
  · rintro rfl i -
    exact beq_self_eq_true _

theorem hexValue_inj {c d : Byte} (hc : lower c ∈ hexDigits) (h : hexValue c = hexValue d) :
    lower c = lower d :=
  (List.idxOf_inj hc).mp h

theorem eq_iff_map_lower {t : CString} {a b : List.Vector Byte 20} (hs : s.IsHex) (ht : t.IsHex)
    (ha : s.Denotes a) (hb : t.Denotes b) :
    a = b ↔ s.chars.map lower = t.chars.map lower := by
  rw [hs.map_lower_eq_iff ht]
  constructor
  · rintro rfl p hlow hhigh
    have hmem := hs.char_mem hlow hhigh
    have hbyte := (ha ⟨p / 2 - 1, by omega⟩).symm.trans (hb ⟨p / 2 - 1, by omega⟩)
    have hfirst : 2 * (p / 2 - 1) + 2 = p / 2 * 2 := by omega
    have hsecond : 2 * (p / 2 - 1) + 3 = p / 2 * 2 + 1 := by omega
    simp only [hfirst, hsecond] at hbyte
    have hs' := hexValue_lt (@CString.IsHex.char_mem s (p / 2 * 2 + 1) hs (by omega) (by omega))
    have ht' := hexValue_lt (@CString.IsHex.char_mem t (p / 2 * 2 + 1) ht (by omega) (by omega))
    apply hexValue_inj hmem
    rcases Nat.mod_two_eq_zero_or_one p with heven | hodd
    · have hp : p / 2 * 2 = p := by omega
      rw [hp] at hbyte hs' ht'
      omega
    · have hp : p / 2 * 2 + 1 = p := by omega
      rw [hp] at hbyte hs' ht'
      omega
  · intro hall
    apply List.Vector.ext
    intro j
    apply BitVec.eq_of_toNat_eq
    rw [ha j, hb j, hexValue, hexValue, hexValue, hexValue, hall _ (by omega) (by omega),
      hall _ (by omega) (by omega)]

/-! ## Bounds and meaning -/

/-- No access leaves the string or the array, and a hexadecimal string gives the bytes
that it denotes, whatever the case of its letters. -/
structure CString.Sound (s : CString) : Prop where
  inBounds : ∃ a, ofCString s = .ok a
  denotes : s.IsHex → ∀ a, ofCString s = .ok a → s.Denotes a
  equal_iff : s.IsHex → ∀ t : CString, t.IsHex → ∀ a b, ofCString s = .ok a →
    ofCString t = .ok b → (operatorEq a b = true ↔ s.chars.map lower = t.chars.map lower)

/-- The constructor stays in bounds on strings of two to forty-three characters. -/
theorem ofCString_sound_iff (s : CString) : s.Sound ↔ 2 ≤ s.chars.length ∧ s.chars.length ≤ 43 := by
  constructor
  · intro hsound
    exact inBounds_iff.mp hsound.inBounds
  · intro hbounds
    refine ⟨inBounds_iff.mpr hbounds, fun hs a ha => denotes_of_ofCString hs ha, ?_⟩
    intro hs t ht a b ha hb
    rw [operatorEq_iff]
    exact eq_iff_map_lower hs ht (denotes_of_ofCString hs ha) (denotes_of_ofCString ht hb)

/-- Twenty-one pairs of digits are one too many. -/
theorem not_forall_sound : ¬ ∀ s : CString, s.Sound := by
  intro hall
  have hsound := hall ⟨List.replicate 44 (ascii '0'), by decide⟩
  obtain ⟨a, ha⟩ := hsound.inBounds
  have hoob : ofCString ⟨List.replicate 44 (ascii '0'), by decide⟩ = .error (.writeBeyond 20) := by
    decide
  rw [hoob] at ha
  cases ha

end FractalCdt.Address
