/-
# The name check of the generator

`validate_name` packs a string into a word, renders the word again and compares.
Whatever the word is, rendering it gives the text `to_string` writes, so only a
normalised name passes; and a normalised name is packed like at run time.
-/

import FractalCdt.Contract.NameText

namespace FractalCdt.AbiGen

open FractalCdt.Math FractalCdt.Name

/-- `char_to_symbol`. -/
def charToSymbol (c : Char) : BitVec 64 :=
  if 'a' ≤ c ∧ c ≤ 'z' then BitVec.ofNat 64 (c.toNat - 'a'.toNat + 6)
  else if '1' ≤ c ∧ c ≤ '5' then BitVec.ofNat 64 (c.toNat - '1'.toNat + 1)
  else 0

/-- The loop of `string_to_name`, from the index `i` on. -/
def packSymbols : ℕ → List Char → BitVec 64 → BitVec 64
  | _, [], name => name
  | i, c :: str, name =>
      packSymbols (i + 1) str (name ||| (charToSymbol c &&& 0x1f) <<< (64 - 5 * (i + 1)))

/-- `string_to_name`, which sees the string up to its first NUL. -/
def stringToName (str : List Char) : BitVec 64 :=
  let str := str.takeWhile (· ≠ '\x00')
  let name := packSymbols 0 (str.take 12) 0
  if (str.take 12).length = 12 then name ||| charToSymbol (str.getD 12 '\x00') &&& 0x0f
  else name

/-- The loop of `validate_name` that fills `str2` from its end. -/
def renderName : ℕ → ℕ → BitVec 64 → List Char → List Char
  | 0, _, _, str2 => str2
  | turns + 1, i, tmp, str2 =>
      renderName turns (i + 1) (tmp >>> (if i = 0 then 4 else 5))
        (symbol (tmp &&& if i = 0 then 0x0f else 0x1f).toNat :: str2)

/-- `validate_name`: whether the string passes without a call of `error_handler`. -/
def validateName (str : List Char) : Bool :=
  if str.length > 13 then false
  else (renderName 13 0 (stringToName str) []).rdropWhile (· = '.') = str

/-- `trim_right_dots`, which leaves a text of nothing but dots as it is. -/
def trimRightDots (str : List Char) : List Char :=
  if str.all (· = '.') then str else str.rdropWhile (· = '.')

/-- `name_to_string`. -/
def nameToString (nm : BitVec 64) : List Char := trimRightDots (renderName 13 0 nm [])

/-! ## Rendering -/

theorem toNat_and_low (v : BitVec 64) {k : ℕ} (hk : k < 64) :
    (v &&& BitVec.ofNat 64 (2 ^ k - 1)).toNat = v.toNat % 2 ^ k := by
  have hmask : (BitVec.ofNat 64 (2 ^ k - 1)).toNat = 2 ^ k - 1 := by
    rw [BitVec.toNat_ofNat]
    apply Nat.mod_eq_of_lt
    have hpow := Nat.pow_lt_pow_right (by decide : 1 < 2) hk
    omega
  rw [BitVec.toNat_and, hmask, Nat.and_two_pow_sub_one_eq_mod]

/-- After the first turn, the groups of five bits come off from the low end. -/
theorem renderName_high {high : List ℕ} (hlt : ∀ d ∈ high, d < 32) {tmp : BitVec 64}
    (htmp : tmp.toNat = ofDigits 0 high) (i : ℕ) (str2 : List Char) :
    renderName high.length (i + 1) tmp str2 = high.map symbol ++ str2 := by
  induction high using List.reverseRecOn generalizing tmp i str2 with
  | nil => rfl
  | append_singleton high d ih =>
      have hd := hlt d (List.mem_append_right high List.mem_cons_self)
      have hsplit : tmp.toNat = ofDigits 0 high * 32 + d := by
        rw [htmp, ofDigits, List.foldl_append]
        rfl
      have hlow : (tmp &&& 0x1f).toNat = d := by
        have hmod := @toNat_and_low tmp 5 (by decide)
        rw [hsplit] at hmod
        exact hmod.trans (by omega)
      have hshift : (tmp >>> 5).toNat = ofDigits 0 high := by
        rw [BitVec.toNat_ushiftRight, Nat.shiftRight_eq_div_pow, hsplit]
        omega
      have hnext := ih (fun e he => hlt e (List.mem_append_left _ he)) hshift (i + 1)
        (symbol d :: str2)
      rw [List.length_append, List.length_singleton, renderName, if_neg (Nat.succ_ne_zero i),
        if_neg (Nat.succ_ne_zero i), hlow, hnext, List.map_append, List.append_assoc]
      rfl

theorem renderName_eq {g : Groups} {v : BitVec 64} (h : g.word = v.toNat) :
    renderName 13 0 v [] = g.text := by
  have hlow := g.low_lt
  have hmod : (v &&& 0x0f).toNat = g.low := by
    have hand := @toNat_and_low v 4 (by decide)
    rw [← h, Groups.word] at hand
    exact hand.trans (by omega)
  have hshift : (v >>> 4).toNat = ofDigits 0 g.high := by
    rw [BitVec.toNat_ushiftRight, Nat.shiftRight_eq_div_pow, ← h, Groups.word]
    omega
  have hrest := renderName_high g.high_lt hshift 0 [symbol g.low]
  rw [g.high_length] at hrest
  show renderName 12 1 (v >>> 4) [symbol (v &&& 0x0f).toNat] = _
  rw [hmod, hrest, Groups.text, Groups.all, List.map_append]
  rfl

/-- What passes is what `to_string` writes for the packed word. -/
theorem validateName_iff_eq {str : List Char} :
    validateName str = true ↔ str.length ≤ 13 ∧ Name.toString (stringToName str) = str := by
  obtain ⟨g, hword⟩ := Groups.exists_word_eq (stringToName str)
  rw [validateName, renderName_eq hword, toString_eq hword]
  by_cases hlong : str.length > 13
  · rw [if_pos hlong]
    simp
    omega
  · rw [if_neg hlong, decide_eq_true_iff]
    exact ⟨fun h => ⟨by omega, h⟩, And.right⟩

/-! ## Packing -/

theorem charToSymbol_symbol : ∀ d < 32, charToSymbol (symbol d) = BitVec.ofNat 64 d := by
  decide

theorem symbol_ne_nul : ∀ d < 32, symbol d ≠ '\x00' := by
  decide

/-- The groups that are packed stand above the free bits. -/
theorem packSymbols_symbol {digits : List ℕ} (hlt : ∀ d ∈ digits, d < 32) {i n : ℕ}
    (hroom : i + digits.length ≤ 12) {name : BitVec 64}
    (hname : name.toNat = n * 2 ^ (64 - 5 * i)) :
    (packSymbols i (digits.map symbol) name).toNat =
      ofDigits n digits * 2 ^ (64 - 5 * (i + digits.length)) := by
  induction digits generalizing i n name with
  | nil => exact hname
  | cons d digits ih =>
      have hd := hlt d List.mem_cons_self
      rw [List.length_cons] at hroom
      have hpow : 2 ^ (64 - 5 * i) = 32 * 2 ^ (64 - 5 * (i + 1)) := by
        have hexp : 64 - 5 * i = 5 + (64 - 5 * (i + 1)) := by omega
        rw [hexp, pow_add]
        norm_num
      have hgroup : (charToSymbol (symbol d) &&& 0x1f).toNat = d := by
        rw [charToSymbol_symbol d hd]
        have hmod := @toNat_and_low (BitVec.ofNat 64 d) 5 (by decide)
        rw [BitVec.toNat_ofNat] at hmod
        exact hmod.trans (by omega)
      have hbelow : d * 2 ^ (64 - 5 * (i + 1)) < 2 ^ (64 - 5 * i) := by
        rw [hpow]
        exact Nat.mul_lt_mul_of_pos_right hd (Nat.two_pow_pos _)
      have htotal : 2 ^ (64 - 5 * i) ≤ 2 ^ 64 := Nat.pow_le_pow_right (by decide) (by omega)
      have hshifted : ((charToSymbol (symbol d) &&& 0x1f) <<< (64 - 5 * (i + 1))).toNat =
          d * 2 ^ (64 - 5 * (i + 1)) := by
        rw [BitVec.toNat_shiftLeft, Nat.shiftLeft_eq, hgroup]
        exact Nat.mod_eq_of_lt (hbelow.trans_le htotal)
      have hnext : (name ||| (charToSymbol (symbol d) &&& 0x1f) <<< (64 - 5 * (i + 1))).toNat =
          (n * 32 + d) * 2 ^ (64 - 5 * (i + 1)) := by
        rw [BitVec.toNat_or, hshifted, hname, Nat.mul_comm n, ← Nat.two_pow_add_eq_or_of_lt hbelow,
          hpow]
        ring
      have hrest := ih (fun e he => hlt e (List.mem_cons_of_mem d he)) (by omega) hnext
      rw [List.map_cons, packSymbols, hrest, List.length_cons, ofDigits, ofDigits, List.foldl_cons]
      congr 3
      omega

theorem charToSymbol_nul : charToSymbol '\x00' = 0 := by
  decide

theorem takeWhile_map_symbol {digits : List ℕ} (hlt : ∀ d ∈ digits, d < 32) :
    (digits.map symbol).takeWhile (· ≠ '\x00') = digits.map symbol := by
  apply List.takeWhile_eq_self_iff.mpr
  intro c hc
  obtain ⟨d, hd, rfl⟩ := List.mem_map.mp hc
  exact decide_eq_true (symbol_ne_nul d (hlt d hd))

theorem toNat_low_symbol {d : ℕ} (hd : d < 16) :
    (charToSymbol (symbol d) &&& 0x0f).toNat = d := by
  rw [charToSymbol_symbol d (hd.trans (by decide))]
  have hmod := @toNat_and_low (BitVec.ofNat 64 d) 4 (by decide)
  rw [BitVec.toNat_ofNat] at hmod
  exact hmod.trans (by omega)

section Word

variable {g : Groups} {digits : List ℕ} {k : ℕ}

/-- A text of thirteen characters has one for every group. -/
theorem toNat_stringToName_of_full (hall : g.all = digits) :
    (stringToName (digits.map symbol)).toNat = g.word := by
  subst hall
  have htake : g.all.take 12 = g.high := by
    rw [Groups.all, ← g.high_length, List.take_left]
  have hget : (g.all.map symbol).getD 12 '\x00' = symbol g.low := by
    have htext := g.text_getElem?_twelve
    rw [Groups.text] at htext
    rw [List.getD_eq_getElem?_getD, htext]
    rfl
  have hpacked := packSymbols_symbol g.high_lt (by rw [g.high_length])
    (show (0 : BitVec 64).toNat = 0 * 2 ^ (64 - 5 * 0) from rfl)
  rw [g.high_length] at hpacked
  rw [stringToName, takeWhile_map_symbol g.all_lt, ← List.map_take, htake, List.length_map,
    if_pos g.high_length, hget, BitVec.toNat_or, toNat_low_symbol g.low_lt, hpacked, Groups.word,
    Nat.mul_comm, ← Nat.two_pow_add_eq_or_of_lt g.low_lt, Nat.mul_comm]

/-- In a shorter text, the last group is zero. -/
theorem toNat_stringToName_of_short (hall : g.all = digits ++ List.replicate (k + 1) 0) :
    (stringToName (digits.map symbol)).toNat = g.word := by
  have hlt : ∀ d ∈ digits, d < 32 := fun d hd => g.all_lt d (hall ▸ List.mem_append_left _ hd)
  have hlength : digits.length + (k + 1) = 13 := by
    rw [← g.length_all, hall, List.length_append, List.length_replicate]
  rw [List.replicate_succ', ← List.append_assoc] at hall
  obtain ⟨hhigh, hlow⟩ := List.append_inj' hall rfl
  have hlow0 : g.low = 0 := List.singleton_injective hlow
  have htake : digits.take 12 = digits := List.take_of_length_le (by omega)
  have hget : (digits.map symbol).getD 12 '\x00' = '\x00' := by
    apply List.getD_eq_default
    rw [List.length_map]
    omega
  have hpacked := packSymbols_symbol hlt (by omega)
    (show (0 : BitVec 64).toNat = 0 * 2 ^ (64 - 5 * 0) from rfl)
  have hsplit : 2 ^ (64 - 5 * (0 + digits.length)) = 32 ^ k * 16 := by
    have hexp : 64 - 5 * (0 + digits.length) = 5 * k + 4 := by omega
    rw [hexp, pow_add, pow_mul]
    norm_num
  have hword : (packSymbols 0 (digits.map symbol) 0).toNat = g.word := by
    rw [hpacked, hsplit, Groups.word, hhigh, ofDigits_append_zeros, hlow0, Nat.mul_assoc]
    rfl
  rw [stringToName, takeWhile_map_symbol hlt, ← List.map_take, htake, hget, charToSymbol_nul]
  split
  · have hnone : (0 : BitVec 64) &&& 0x0f = 0 := by decide
    rw [hnone]
    exact (congrArg BitVec.toNat BitVec.or_zero).trans hword
  · exact hword

/-- Zeros that trail need not be written. -/
theorem toNat_stringToName (hall : g.all = digits ++ List.replicate k 0) :
    (stringToName (digits.map symbol)).toNat = g.word := by
  cases k with
  | zero =>
      rw [List.replicate_zero, List.append_nil] at hall
      exact toNat_stringToName_of_full hall
  | succ k => exact toNat_stringToName_of_short hall

end Word

/-- The word of a normalised name is the one the generator packs. -/
theorem stringToName_toString (v : BitVec 64) : stringToName (Name.toString v) = v := by
  obtain ⟨g, hword⟩ := Groups.exists_word_eq v
  have hpadded := @rdropWhile_append_padding _ (fun d => decide (d = 0)) 0
    (fun d hd => of_decide_eq_true hd) g.all
  apply BitVec.eq_of_toNat_eq
  rw [toString_eq hword, g.rdropWhile_text, toNat_stringToName hpadded.symm, hword]

/-- The generator accepts the names that the run-time type accepts and writes back
unchanged, and packs them into the same words. -/
theorem validateName_iff (str : List Char) :
    (validateName str = true ↔ ∃ v, ofString str = .ok v ∧ Name.toString v = str) ∧
      (validateName str = true → ofString str = .ok (stringToName str)) := by
  have hread : validateName str = true → ofString str = .ok (stringToName str) := by
    intro hvalid
    have hread := ofString_toString (stringToName str)
    rwa [(validateName_iff_eq.mp hvalid).2] at hread
  refine ⟨⟨?_, ?_⟩, hread⟩
  · intro hvalid
    exact ⟨_, hread hvalid, (validateName_iff_eq.mp hvalid).2⟩
  · rintro ⟨v, hv, hsame⟩
    rw [validateName_iff_eq]
    refine ⟨(accepted_of_ofString hv).1, ?_⟩
    rw [← hsame, stringToName_toString]

/-! ## Rendering at the host and at run time -/

/-- Only the word zero is all dots. -/
theorem all_dots_text_iff {g : Groups} {v : BitVec 64} (hword : g.word = v.toNat) :
    g.text.all (· = '.') = true ↔ v = 0 := by
  rw [List.all_eq_true, ← List.rdropWhile_eq_nil_iff, ← toString_eq hword]
  constructor
  · intro hempty
    have hpacked := stringToName_toString v
    rw [hempty] at hpacked
    exact hpacked.symm
  · rintro rfl
    rfl

/-- The host tool renders a word like the run-time library, and packs the text into
the same word, unless the word is zero. -/
theorem nameToString_iff (v : BitVec 64) :
    (nameToString v = Name.toString v ∧ stringToName (nameToString v) = v) ↔ v ≠ 0 := by
  obtain ⟨g, hword⟩ := Groups.exists_word_eq v
  rw [nameToString, renderName_eq hword, trimRightDots]
  constructor
  · rintro ⟨hsame, -⟩ rfl
    rw [if_pos ((all_dots_text_iff hword).mpr rfl)] at hsame
    have hlength := congrArg List.length hsame
    rw [g.length_text] at hlength
    cases hlength
  · intro hne
    rw [if_neg fun hall => hne ((all_dots_text_iff hword).mp hall), ← toString_eq hword]
    exact ⟨rfl, stringToName_toString v⟩

/-- The empty name is rendered as thirteen dots. -/
theorem not_forall_nameToString : ¬ ∀ v, nameToString v = Name.toString v ∧
    stringToName (nameToString v) = v := by
  intro hall
  exact absurd (hall 0).1 (by decide)

end FractalCdt.AbiGen
