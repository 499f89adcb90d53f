/-
# Names as 64-bit words

`ftl::name` packs up to thirteen characters of a 32-letter alphabet into a word,
most significant first, and pads with dots.  A table is known to the host by the
word of its name, so two tables are kept apart exactly when their words differ.
For names without dots that pass `validate_table_name` they do.
-/

import FractalCdt.Stream.Datastream
import Mathlib.Data.Nat.Digits.Lemmas

namespace FractalCdt.Name

/-- `static constexpr uint8_t char_to_value(char c)`. -/
def charToValue (c : Char) : Except Fault (BitVec 8) :=
  if c = '.' then .ok 0
  else if '1' ≤ c ∧ c ≤ '5' then .ok (BitVec.ofNat 8 (c.toNat - '1'.toNat + 1))
  else if 'a' ≤ c ∧ c ≤ 'z' then .ok (BitVec.ofNat 8 (c.toNat - 'a'.toNat + 6))
  else .error (.check "character is not in allowed character set for names")

/-- `value <<= 5; value |= char_to_value(str[i]);`. -/
def pushChar (value : BitVec 64) (c : Char) : Except Fault (BitVec 64) := do
  return (value <<< 5) ||| (← charToValue c).setWidth 64

/-- The first twelve characters, padded with dots. -/
def packPrefix (str : List Char) : Except Fault (BitVec 64) := do
  let value ← str.foldlM pushChar 0
  return value <<< (4 + 5 * (12 - str.length))

/-- The thirteenth character, which has only four bits. -/
def addThirteenth (value : BitVec 64) : List Char → Except Fault (BitVec 64)
  | [] => return value
  | c :: _ => do
      let v := (← charToValue c).setWidth 64
      check (v ≤ 0x0f#64) "thirteenth character in name cannot be a letter that comes after j"
      return value ||| v

/-- `constexpr explicit name(std::string_view str)`. -/
def ofString (str : List Char) : Except Fault (BitVec 64) := do
  check (str.length ≤ 13) "string is too long to be a valid name"
  addThirteenth (← packPrefix (str.take 12)) (str.drop 12)

/-- The five most significant bits. -/
def mask : BitVec 64 := 0xF800000000000000#64

/-- The loop of `length()`: the last index whose character is not a dot. -/
def lastIndex (turns : ℕ) (value : BitVec 64) : ℕ × BitVec 64 :=
  (List.range turns).foldl
    (fun (l, v) i => (if 0#64 < v &&& mask then i else l, v <<< 5)) (0, value)

/-- `constexpr uint8_t length() const`. -/
def length (value : BitVec 64) : ℕ := if value = 0 then 0 else (lastIndex 13 value).1 + 1

/-- `table::validate_table_name`. -/
def validateTableName (n : BitVec 64) : Bool := length n < 13

/-- A C++ identifier. -/
def IsIdentifier (str : List Char) : Prop :=
  str ≠ [] ∧ (∀ c ∈ str, c.isAlphanum ∨ c = '_') ∧ ∀ c ∈ str.head?, ¬ c.isDigit

instance (str : List Char) : Decidable (IsIdentifier str) :=
  decidable_of_iff (str ≠ [] ∧ str.all (fun c => c.isAlphanum || c == '_') = true ∧
    str.head?.all (fun c => !c.isDigit) = true) (by cases str <;> simp [IsIdentifier])

/-! ## Characters -/

/-- An accepted character other than the dot, with its value. -/
theorem charToValue_cases {c : Char} {d : BitVec 8} (h : charToValue c = .ok d) (hdot : c ≠ '.') :
    (49 ≤ c.toNat ∧ c.toNat ≤ 53 ∧ d.toNat = c.toNat - 48) ∨
      (97 ≤ c.toNat ∧ c.toNat ≤ 122 ∧ d.toNat = c.toNat - 91) := by
  rw [charToValue, if_neg hdot] at h
  split at h
  case isTrue hdigit =>
    cases h
    have hlow : 49 ≤ c.toNat := hdigit.1
    have hhigh : c.toNat ≤ 53 := hdigit.2
    left
    refine ⟨hlow, hhigh, ?_⟩
    show (c.toNat - 49 + 1) % 256 = _
    omega
  case isFalse =>
    split at h
    case isTrue hletter =>
      cases h
      have hlow : 97 ≤ c.toNat := hletter.1
      have hhigh : c.toNat ≤ 122 := hletter.2
      right
      refine ⟨hlow, hhigh, ?_⟩
      show (c.toNat - 97 + 6) % 256 = _
      omega
    case isFalse => cases h

theorem charToValue_bounds {c : Char} {d : BitVec 8} (h : charToValue c = .ok d) (hdot : c ≠ '.') :
    0 < d.toNat ∧ d.toNat < 32 := by
  rcases charToValue_cases h hdot with h | h <;> omega

theorem charToValue_lt {c : Char} {d : BitVec 8} (h : charToValue c = .ok d) : d.toNat < 32 := by
  by_cases hdot : c = '.'
  · subst hdot
    cases h
    decide
  · exact (charToValue_bounds h hdot).2

theorem charToValue_injective {c c' : Char} {d : BitVec 8} (h : charToValue c = .ok d)
    (h' : charToValue c' = .ok d) (hdot : c ≠ '.') (hdot' : c' ≠ '.') : c = c' := by
  have hcode : c.toNat = c'.toNat := by
    rcases charToValue_cases h hdot with h | h <;>
      rcases charToValue_cases h' hdot' with h' | h' <;> omega
  exact Char.toNat_inj.mp hcode

/-! ## The digits of a name -/

/-- Characters and their values, position by position. -/
def Spells (str : List Char) (digits : List ℕ) : Prop :=
  List.Forall₂ (fun c d => ∃ v : BitVec 8, charToValue c = .ok v ∧ v.toNat = d) str digits

/-- The number of a digit string, most significant digit first. -/
def ofDigits (acc : ℕ) (digits : List ℕ) : ℕ := digits.foldl (fun v d => v * 32 + d) acc

theorem pushChar_spec {value value' : BitVec 64} {c : Char} (h : pushChar value c = .ok value')
    (hroom : value.toNat * 32 + 31 < 2 ^ 64) :
    ∃ v : BitVec 8, charToValue c = .ok v ∧ value'.toNat = value.toNat * 32 + v.toNat := by
  cases hv : charToValue c with
  | error e =>
      rw [pushChar, hv] at h
      cases h
  | ok v =>
      have hv32 := charToValue_lt hv
      rw [pushChar, hv] at h
      cases h
      refine ⟨v, rfl, ?_⟩
      have hshift : (value <<< 5).toNat = 2 ^ 5 * value.toNat := by
        rw [BitVec.toNat_shiftLeft, Nat.shiftLeft_eq]
        omega
      have hwide : (v.setWidth 64).toNat = v.toNat := BitVec.toNat_setWidth_of_le (by decide)
      rw [BitVec.toNat_or, hshift, hwide, ← Nat.two_pow_add_eq_or_of_lt hv32]
      omega

theorem foldlM_pushChar {str : List Char} {value value' : BitVec 64} {k : ℕ}
    (h : str.foldlM pushChar value = .ok value')
    (hacc : value.toNat < 32 ^ k) (hroom : k + str.length ≤ 12) :
    ∃ digits, Spells str digits ∧ value'.toNat = ofDigits value.toNat digits := by
  induction str generalizing value k with
  | nil =>
      cases h
      exact ⟨[], .nil, rfl⟩
  | cons c str ih =>
      rw [List.foldlM_cons] at h
      cases hpush : pushChar value c with
      | error e =>
          rw [hpush] at h
          cases h
      | ok value₁ =>
          rw [hpush] at h
          rw [List.length_cons] at hroom
          have hpow : 32 ^ (k + 1) ≤ 2 ^ 60 := by
            have hmono := Nat.pow_le_pow_right (by decide : 0 < 32) (by omega : k + 1 ≤ 12)
            exact hmono.trans (by decide)
          rw [pow_succ] at hpow
          obtain ⟨v, hv, hvalue⟩ := pushChar_spec hpush (by omega)
          have hv32 := charToValue_lt hv
          have hacc₁ : value₁.toNat < 32 ^ (k + 1) := by
            rw [pow_succ]
            omega
          obtain ⟨digits, hspells, hdigits⟩ := ih h hacc₁ (by omega)
          refine ⟨v.toNat :: digits, .cons ⟨v, hv, rfl⟩ hspells, ?_⟩
          rw [hdigits, hvalue]
          rfl

theorem ofDigits_eq (digits : List ℕ) : ofDigits 0 digits = Nat.ofDigits 32 digits.reverse := by
  rw [ofDigits, List.foldl_eq_foldr_reverse, Nat.ofDigits_eq_foldr]
  congr 1
  funext d v
  simp only [Nat.cast_id]
  omega

theorem ofDigits_append_zeros (digits : List ℕ) (k : ℕ) :
    ofDigits 0 (digits ++ List.replicate k 0) = ofDigits 0 digits * 32 ^ k := by
  induction k with
  | zero => simp
  | succ k ih =>
      rw [List.replicate_succ', ← List.append_assoc, ofDigits, List.foldl_append]
      show ofDigits 0 (digits ++ List.replicate k 0) * 32 + 0 = _
      rw [ih, pow_succ, Nat.add_zero, Nat.mul_assoc]

theorem Spells.digit_bounds {str : List Char} {digits : List ℕ} (h : Spells str digits)
    (hdot : ∀ c ∈ str, c ≠ '.') : ∀ d ∈ digits, 0 < d ∧ d < 32 := by
  induction h with
  | nil => simp
  | cons hhead _ ih =>
      obtain ⟨v, hv, rfl⟩ := hhead
      intro d hd
      rcases List.mem_cons.mp hd with rfl | hd
      · exact charToValue_bounds hv (hdot _ List.mem_cons_self)
      · exact ih (fun c hc => hdot c (List.mem_cons_of_mem _ hc)) d hd

theorem Spells.lt {str : List Char} {digits : List ℕ} (h : Spells str digits) :
    ∀ d ∈ digits, d < 32 := by
  induction h with
  | nil => exact nofun
  | cons hhead _ ih =>
      obtain ⟨v, hv, rfl⟩ := hhead
      intro d hd
      rcases List.mem_cons.mp hd with rfl | hd
      · exact charToValue_lt hv
      · exact ih d hd

theorem Spells.injective {str str' : List Char} {digits : List ℕ} (h : Spells str digits)
    (h' : Spells str' digits) (hdot : ∀ c ∈ str, c ≠ '.') (hdot' : ∀ c ∈ str', c ≠ '.') :
    str = str' := by
  induction h generalizing str' with
  | nil =>
      cases h'
      rfl
  | cons hhead _ ih =>
      cases h' with
      | cons hhead' htail' =>
          obtain ⟨v, hv, hd⟩ := hhead
          obtain ⟨v', hv', hd'⟩ := hhead'
          obtain rfl : v = v' := BitVec.eq_of_toNat_eq (hd.trans hd'.symm)
          rw [charToValue_injective hv hv' (hdot _ List.mem_cons_self)
              (hdot' _ List.mem_cons_self),
            ih htail' (fun c hc => hdot c (List.mem_cons_of_mem _ hc))
              fun c hc => hdot' c (List.mem_cons_of_mem _ hc)]

/-- Padding with zeros to a common length keeps nonzero digit strings apart. -/
theorem digits_injective {digits digits' : List ℕ} (hlength : digits.length ≤ 12)
    (hlength' : digits'.length ≤ 12) (hbounds : ∀ d ∈ digits, 0 < d ∧ d < 32)
    (hbounds' : ∀ d ∈ digits', 0 < d ∧ d < 32)
    (h : ofDigits 0 digits * 32 ^ (12 - digits.length) =
      ofDigits 0 digits' * 32 ^ (12 - digits'.length)) : digits = digits' := by
  rw [← ofDigits_append_zeros, ← ofDigits_append_zeros, ofDigits_eq, ofDigits_eq] at h
  have hsmall : ∀ ds : List ℕ, (∀ d ∈ ds, 0 < d ∧ d < 32) →
      ∀ d ∈ (ds ++ List.replicate (12 - ds.length) 0).reverse, d < 32 := by
    intro ds hds d hd
    rcases List.mem_append.mp (List.mem_reverse.mp hd) with hd | hd
    · exact (hds d hd).2
    · rw [List.eq_of_mem_replicate hd]
      decide
  have hpadded := Nat.ofDigits_inj_of_len_eq (by decide) (by simp; omega) (hsmall digits hbounds)
    (hsmall digits' hbounds') h
  have hfilter : ∀ ds : List ℕ, (∀ d ∈ ds, 0 < d ∧ d < 32) →
      (ds ++ List.replicate (12 - ds.length) 0).filter (0 < ·) = ds := by
    intro ds hds
    rw [List.filter_append, List.filter_eq_self.mpr (by simpa using fun d hd => (hds d hd).1)]
    simp
  rw [← hfilter digits hbounds, ← hfilter digits' hbounds', List.reverse_injective hpadded]

/-! ## Table names -/

theorem lastIndex_snd (turns : ℕ) (value : BitVec 64) :
    (lastIndex turns value).2 = value <<< (5 * turns) := by
  induction turns with
  | zero => simp [lastIndex]
  | succ turns ih =>
      have hstep : (lastIndex (turns + 1) value).2 = (lastIndex turns value).2 <<< 5 := by
        simp [lastIndex, List.range_succ]
      rw [hstep, ih, ← BitVec.shiftLeft_add]
      rfl

/-- A thirteenth character that is not a dot makes the name thirteen long. -/
theorem length_of_low {value : BitVec 64} (h : value.toNat % 16 ≠ 0) : length value = 13 := by
  have hne : value ≠ 0 := by
    intro h0
    rw [h0] at h
    exact h rfl
  have hmask : value <<< 60 &&& mask = value <<< 60 := by
    apply BitVec.eq_of_getLsbD_eq
    intro i hi
    have htop : ∀ i < 64, ¬ i < 60 → mask.getLsbD i = true := by decide
    rw [BitVec.getLsbD_and, BitVec.getLsbD_shiftLeft]
    by_cases hlow : i < 60
    · simp [hlow]
    · rw [htop i hi hlow, Bool.and_true]
  have hpos : 0#64 < value <<< 60 := by
    rw [BitVec.lt_def, BitVec.toNat_shiftLeft, Nat.shiftLeft_eq, BitVec.toNat_ofNat]
    omega
  have hlast : (lastIndex 13 value).1 = if 0#64 < (lastIndex 12 value).2 &&& mask then 12
      else (lastIndex 12 value).1 := by
    simp [lastIndex, List.range_succ]
  rw [length, if_neg hne, hlast, lastIndex_snd, hmask, if_pos hpos]

/-- Padding the first twelve characters with dots. -/
theorem toNat_shiftLeft_pad {value : BitVec 64} {k : ℕ} (hk : k ≤ 12)
    (hvalue : value.toNat < 32 ^ k) :
    (value <<< (4 + 5 * (12 - k))).toNat = value.toNat * 32 ^ (12 - k) * 16 := by
  have hpow : 2 ^ (4 + 5 * (12 - k)) = 32 ^ (12 - k) * 16 := by
    rw [pow_add, pow_mul, Nat.mul_comm]
    norm_num
  have hfull : value.toNat * (32 ^ (12 - k) * 16) < 2 ^ 64 := by
    have hsplit : 32 ^ k * (32 ^ (12 - k) * 16) = 2 ^ 64 := by
      rw [← Nat.mul_assoc, ← pow_add, Nat.add_sub_cancel' hk]
      norm_num
    rw [← hsplit]
    exact Nat.mul_lt_mul_of_pos_right hvalue (by positivity)
  rw [BitVec.toNat_shiftLeft, Nat.shiftLeft_eq, hpow, Nat.mod_eq_of_lt hfull, Nat.mul_assoc]

theorem ofDigits_lt {digits : List ℕ} (h : ∀ d ∈ digits, d < 32) {acc k : ℕ}
    (hacc : acc < 32 ^ k) : ofDigits acc digits < 32 ^ (k + digits.length) := by
  induction digits generalizing acc k with
  | nil => exact hacc
  | cons d digits ih =>
      have hd := h d List.mem_cons_self
      have hacc' : acc * 32 + d < 32 ^ (k + 1) := by
        rw [pow_succ]
        omega
      have hrest := ih (fun d' hd' => h d' (List.mem_cons_of_mem d hd')) hacc'
      rw [List.length_cons, Nat.add_comm digits.length, ← Nat.add_assoc]
      exact hrest

theorem packPrefix_spec {str : List Char} {value : BitVec 64} (h : packPrefix str = .ok value)
    (hlength : str.length ≤ 12) :
    ∃ digits, Spells str digits ∧
      value.toNat = ofDigits 0 digits * 32 ^ (12 - digits.length) * 16 := by
  obtain ⟨packed, hfold, hvalue⟩ := exists_of_bind_eq_ok h
  cases hvalue
  obtain ⟨digits, hspells, hpacked⟩ := foldlM_pushChar (k := 0) hfold (by decide) (by omega)
  have hpacked : packed.toNat = ofDigits 0 digits := hpacked
  have hsmall : packed.toNat < 32 ^ digits.length := by
    have hlt := ofDigits_lt (k := 0) hspells.lt (by decide : 0 < 32 ^ 0)
    rwa [Nat.zero_add, ← hpacked] at hlt
  refine ⟨digits, hspells, ?_⟩
  rw [hspells.length_eq] at hlength ⊢
  rw [toNat_shiftLeft_pad hlength hsmall, hpacked]

/-- `addThirteenth` puts its character into the four free bits. -/
theorem addThirteenth_cons {value value' : BitVec 64} {c : Char} {str : List Char}
    (h : addThirteenth value (c :: str) = .ok value') (hfree : value.toNat % 16 = 0) :
    ∃ d : BitVec 8, charToValue c = .ok d ∧ d.toNat < 16 ∧
      value'.toNat = value.toNat + d.toNat := by
  obtain ⟨d, hd, h⟩ := exists_of_bind_eq_ok h
  obtain ⟨_, hcheck, h⟩ := exists_of_bind_eq_ok h
  cases h
  have hlt := charToValue_lt hd
  have hwide : (d.setWidth 64).toNat = d.toNat := BitVec.toNat_setWidth_of_le (by decide)
  have hsmall : d.toNat < 2 ^ 4 := by
    have hle : d.setWidth 64 ≤ 0x0f#64 := of_decide_eq_true (of_check_eq_ok hcheck)
    rw [BitVec.le_def, hwide] at hle
    exact Nat.lt_succ_of_le hle
  have hsplit : value.toNat = 2 ^ 4 * (value.toNat / 16) := by omega
  refine ⟨d, hd, hsmall, ?_⟩
  rw [BitVec.toNat_or, hwide, hsplit, ← Nat.two_pow_add_eq_or_of_lt hsmall]

/-- The word of a name without dots that a table may have. -/
theorem ofString_spec {str : List Char} {value : BitVec 64} (h : ofString str = .ok value)
    (hdot : ∀ c ∈ str, c ≠ '.') (hvalid : validateTableName value = true) :
    ∃ digits, Spells str digits ∧ digits.length ≤ 12 ∧
      value.toNat = ofDigits 0 digits * 32 ^ (12 - digits.length) * 16 := by
  obtain ⟨-, -, h⟩ := exists_of_bind_eq_ok h
  obtain ⟨packed, hpacked, h⟩ := exists_of_bind_eq_ok h
  obtain ⟨digits, hspells, hword⟩ := packPrefix_spec hpacked (by simp)
  cases hdrop : str.drop 12 with
  | nil =>
      rw [hdrop] at h
      cases h
      have hall : str.take 12 = str := by
        have hrejoin := List.take_append_drop 12 str
        rwa [hdrop, List.append_nil] at hrejoin
      have hcount : digits.length ≤ 12 := by
        rw [← hspells.length_eq, List.length_take]
        exact Nat.min_le_left 12 _
      rw [hall] at hspells
      exact ⟨digits, hspells, hcount, hword⟩
  | cons c rest =>
      -- A thirteenth character that is not a dot is rejected by `validate_table_name`.
      rw [hdrop] at h
      have hchar : c ≠ '.' := hdot c (List.mem_of_mem_drop (hdrop ▸ List.mem_cons_self))
      have hfree : packed.toNat % 16 = 0 := by
        rw [hword]
        exact Nat.mul_mod_left _ _
      obtain ⟨d, hd, hd16, hvalue⟩ := addThirteenth_cons h hfree
      have hpos := (charToValue_bounds hd hchar).1
      have hlow : value.toNat % 16 ≠ 0 := by omega
      rw [validateTableName, length_of_low hlow] at hvalid
      cases hvalid

theorem IsIdentifier.ne_dot {str : List Char} (h : IsIdentifier str) : ∀ c ∈ str, c ≠ '.' := by
  intro c hc hdot
  subst hdot
  rcases h.2.1 '.' hc with halpha | hline
  · revert halpha
    decide
  · revert hline
    decide

/-- Identifiers that are accepted as table names are kept apart by their words. -/
theorem ofString_injective {str str' : List Char} {value : BitVec 64}
    (h : ofString str = .ok value) (h' : ofString str' = .ok value) (hident : IsIdentifier str)
    (hident' : IsIdentifier str') (hvalid : validateTableName value = true) : str = str' := by
  obtain ⟨digits, hspells, hcount, hword⟩ := ofString_spec h hident.ne_dot hvalid
  obtain ⟨digits', hspells', hcount', hword'⟩ := ofString_spec h' hident'.ne_dot hvalid
  have hdigits : digits = digits' := by
    apply digits_injective hcount hcount' (hspells.digit_bounds hident.ne_dot)
      (hspells'.digit_bounds hident'.ne_dot)
    omega
  subst hdigits
  exact hspells.injective hspells' hident.ne_dot hident'.ne_dot

end FractalCdt.Name
