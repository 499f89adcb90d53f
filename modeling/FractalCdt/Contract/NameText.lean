/-
# Names as text

A word is twelve groups of five bits and one of four.  `to_string` writes the
groups from the top until only zeros are left, `length` counts them, and the
constructor puts the groups of a text back in their places.
-/

import FractalCdt.Contract.Name
import FractalCdt.Math.Trailing
import Mathlib.Data.List.GetD

namespace FractalCdt.Name

open FractalCdt.Math

def charmap : List Char := ".12345abcdefghijklmnopqrstuvwxyz".toList

/-- `charmap[indx]`. -/
def symbol (indx : ℕ) : Char := charmap.getD indx '.'

/-- The loop of `write_as_string`, from the turn `i` on. -/
def writeSymbols : ℕ → ℕ → BitVec 64 → List Char
  | 0, _, _ => []
  | turns + 1, i, v =>
      if v = 0 then []
      else symbol ((v &&& mask) >>> (if i = 12 then 60 else 59)).toNat ::
        writeSymbols turns (i + 1) (v <<< 5)

/-- `write_as_string`, into a buffer of the given size. -/
def writeAsString (size : ℕ) (value : BitVec 64) : List Char :=
  if size < 13 then [] else writeSymbols 13 0 value

/-- `to_string`. -/
def toString (value : BitVec 64) : List Char := writeAsString 13 value

/-- The groups of a word, most significant first. -/
structure Groups where
  high : List ℕ
  low : ℕ
  high_length : high.length = 12
  high_lt : ∀ d ∈ high, d < 32
  low_lt : low < 16

namespace Groups

variable (g : Groups)

def all : List ℕ := g.high ++ [g.low]

def word : ℕ := ofDigits 0 g.high * 16 + g.low

/-- All thirteen characters, with the dots that trail. -/
def text : List Char := g.all.map symbol

end Groups

/-! ## Characters -/

theorem charToValue_symbol : ∀ d < 32, charToValue (symbol d) = .ok (BitVec.ofNat 8 d) := by
  decide

theorem symbol_mem : ∀ d < 32, symbol d ∈ charmap := by
  decide

/-- The character of a value is the one it was read from. -/
theorem eq_symbol_of_charToValue {c : Char} {d : BitVec 8} (h : charToValue c = .ok d) :
    c = symbol d.toNat := by
  by_cases hdot : c = '.'
  · subst hdot
    cases h
    rfl
  · have hlt := charToValue_lt h
    have hsymbol := charToValue_symbol d.toNat hlt
    rw [BitVec.ofNat_toNat, BitVec.setWidth_eq] at hsymbol
    apply charToValue_injective h hsymbol hdot
    intro hzero
    have hpos := (charToValue_bounds h hdot).1
    rw [hzero] at hsymbol
    cases hsymbol
    exact absurd hpos (by decide)

theorem exists_charToValue_iff {c : Char} : (∃ d, charToValue c = .ok d) ↔ c ∈ charmap := by
  constructor
  · rintro ⟨d, hd⟩
    rw [eq_symbol_of_charToValue hd]
    exact symbol_mem _ (charToValue_lt hd)
  · intro hc
    obtain ⟨i, hi, rfl⟩ := List.mem_iff_getElem.mp hc
    refine ⟨BitVec.ofNat 8 i, ?_⟩
    have hsymbol := charToValue_symbol i hi
    rwa [symbol, List.getD_eq_getElem charmap '.' hi] at hsymbol

theorem symbol_inj {d d' : ℕ} (hd : d < 32) (hd' : d' < 32)
    (h : symbol d = symbol d') : d = d' := by
  have hvalue := charToValue_symbol d hd
  rw [h, charToValue_symbol d' hd', Except.ok.injEq] at hvalue
  have hnat := congrArg BitVec.toNat hvalue
  rw [BitVec.toNat_ofNat, BitVec.toNat_ofNat] at hnat
  omega

theorem symbol_eq_dot_iff {d : ℕ} (hd : d < 32) : symbol d = '.' ↔ d = 0 :=
  ⟨fun h => symbol_inj hd (by decide) h, fun h => h ▸ rfl⟩

/-! ## Groups -/

theorem ofDigits_cons (d : ℕ) (digits : List ℕ) :
    ofDigits 0 (d :: digits) = d * 32 ^ digits.length + ofDigits 0 digits := by
  induction digits using List.reverseRecOn with
  | nil => simp [ofDigits]
  | append_singleton digits e ih =>
      have hlast : ∀ ds : List ℕ, ofDigits 0 (ds ++ [e]) = ofDigits 0 ds * 32 + e := by
        intro ds
        rw [ofDigits, List.foldl_append]
        rfl
      rw [← List.cons_append, hlast, ih, hlast, List.length_append, List.length_singleton, pow_succ]
      ring

theorem ofDigits_zero_lt {digits : List ℕ} (h : ∀ d ∈ digits, d < 32) :
    ofDigits 0 digits < 32 ^ digits.length := by
  have hlt := ofDigits_lt (k := 0) h (by decide : 0 < 32 ^ 0)
  rwa [Nat.zero_add] at hlt

/-- Every number below `32 ^ k` has `k` digits. -/
theorem exists_digits (k n : ℕ) (h : n < 32 ^ k) :
    ∃ digits : List ℕ, digits.length = k ∧ (∀ d ∈ digits, d < 32) ∧ ofDigits 0 digits = n := by
  induction k generalizing n with
  | zero =>
      rw [pow_zero, Nat.lt_one_iff] at h
      exact ⟨[], rfl, nofun, h.symm⟩
  | succ k ih =>
      rw [pow_succ] at h
      obtain ⟨digits, hlength, hlt, hvalue⟩ := ih (n / 32) (by omega)
      refine ⟨digits ++ [n % 32], ?_, ?_, ?_⟩
      · rw [List.length_append, hlength, List.length_singleton]
      · intro d hd
        rcases List.mem_append.mp hd with hd | hd
        · exact hlt d hd
        · rw [List.mem_singleton.mp hd]
          exact Nat.mod_lt n (by decide)
      · rw [ofDigits, List.foldl_append]
        show ofDigits 0 digits * 32 + n % 32 = n
        omega

namespace Groups

theorem exists_word_eq (value : BitVec 64) : ∃ g : Groups, g.word = value.toNat := by
  have hvalue := value.isLt
  have hpow : (32 : ℕ) ^ 12 = 2 ^ 60 := by norm_num
  obtain ⟨high, hlength, hlt, hhigh⟩ := exists_digits 12 (value.toNat / 16) (by omega)
  refine ⟨⟨high, value.toNat % 16, hlength, hlt, Nat.mod_lt _ (by decide)⟩, ?_⟩
  rw [word, hhigh]
  exact Nat.div_add_mod' value.toNat 16

variable (g : Groups)

theorem all_lt : ∀ d ∈ g.all, d < 32 := by
  intro d hd
  rcases List.mem_append.mp hd with hd | hd
  · exact g.high_lt d hd
  · rw [List.mem_singleton.mp hd]
    exact g.low_lt.trans (by decide)

theorem length_all : g.all.length = 13 := by
  rw [all, List.length_append, g.high_length, List.length_singleton]

theorem length_text : g.text.length = 13 := by
  rw [text, List.length_map, g.length_all]

/-- The text says which word it is. -/
theorem word_eq_of_text_eq {g g' : Groups} (h : g.text = g'.text) : g.word = g'.word := by
  have hall : g.all = g'.all := by
    apply List.ext_getElem
    · rw [g.length_all, g'.length_all]
    · intro i hi hi'
      have hget := congrArg (fun l => l[i]?) h
      simp only [text, List.getElem?_map, List.getElem?_eq_getElem hi,
        List.getElem?_eq_getElem hi', Option.map_some, Option.some.injEq] at hget
      exact symbol_inj (g.all_lt _ (List.getElem_mem hi)) (g'.all_lt _ (List.getElem_mem hi')) hget
  have hparts := List.append_inj hall (g.high_length.trans g'.high_length.symm)
  rw [word, word, hparts.1, List.singleton_injective hparts.2]

theorem text_getElem?_twelve : g.text[12]? = some (symbol g.low) := by
  have hlength : (g.high.map symbol).length = 12 := (List.length_map symbol).trans g.high_length
  rw [text, all, List.map_append, List.getElem?_append_right hlength.le, hlength]
  rfl

/-- The text without the dots that trail, in terms of the groups. -/
theorem rdropWhile_text :
    g.text.rdropWhile (· = '.') = (g.all.rdropWhile (· = 0)).map symbol := by
  rw [text]
  refine (map_rdropWhile ?_).symm
  intro d hd
  exact decide_eq_decide.mpr (symbol_eq_dot_iff (g.all_lt d hd))

end Groups

/-! ## The loops -/

theorem toNat_and_mask_shift (v : BitVec 64) {n : ℕ} (hn : 59 ≤ n) :
    ((v &&& mask) >>> n).toNat = v.toNat / 2 ^ n := by
  have hshift : (v &&& mask) >>> n = v >>> n := by
    have htop : ∀ i < 64, 59 ≤ i → mask.getLsbD i = true := by decide
    ext i hi
    rw [BitVec.getElem_ushiftRight, BitVec.getElem_ushiftRight, BitVec.getLsbD_and]
    by_cases hin : n + i < 64
    · rw [htop (n + i) hin (by omega), Bool.and_true]
    · rw [BitVec.getLsbD_of_ge v (n + i) (by omega), Bool.false_and]
  rw [hshift, BitVec.toNat_ushiftRight, Nat.shiftRight_eq_div_pow]

theorem zero_lt_and_mask_iff (v : BitVec 64) : 0#64 < v &&& mask ↔ v.toNat / 2 ^ 59 ≠ 0 := by
  have htop := toNat_and_mask_shift v (le_refl 59)
  have hlow : (v &&& mask).toNat % 2 ^ 59 = 0 := by
    have hclear : (v &&& mask) &&& 0x07FFFFFFFFFFFFFF#64 = 0 := by
      have hdisjoint : mask &&& 0x07FFFFFFFFFFFFFF#64 = 0 := by decide
      rw [BitVec.and_assoc, hdisjoint]
      exact BitVec.and_zero
    have hnat := congrArg BitVec.toNat hclear
    rw [BitVec.toNat_and] at hnat
    rw [← Nat.and_two_pow_sub_one_eq_mod]
    exact hnat
  rw [BitVec.toNat_ushiftRight, Nat.shiftRight_eq_div_pow] at htop
  rw [BitVec.lt_def, ← htop]
  show 0 < _ ↔ _
  omega

/-- The word of the groups from a turn on, shifted up to the top. -/
structure Shifted (v : BitVec 64) (i : ℕ) (high : List ℕ) (low : ℕ) : Prop where
  turns : i + high.length = 12
  high_lt : ∀ d ∈ high, d < 32
  low_lt : low < 16
  value_eq : v.toNat = (ofDigits 0 high * 16 + low) * 32 ^ i

namespace Shifted

variable {v : BitVec 64} {i d low : ℕ} {high : List ℕ}

theorem of_word {g : Groups} (h : g.word = v.toNat) : Shifted v 0 g.high g.low where
  turns := (Nat.zero_add _).trans g.high_length
  high_lt := g.high_lt
  low_lt := g.low_lt
  value_eq := by rw [pow_zero, Nat.mul_one, ← h, Groups.word]

/-- The group on top, and what is below it. -/
theorem split (h : Shifted v i (d :: high) low) :
    d < 32 ∧ (ofDigits 0 high * 16 + low) * 32 ^ i < 2 ^ 59 ∧
      v.toNat = d * 2 ^ 59 + (ofDigits 0 high * 16 + low) * 32 ^ i := by
  have hd := h.high_lt d List.mem_cons_self
  have hhigh := ofDigits_zero_lt fun e he => h.high_lt e (List.mem_cons_of_mem d he)
  have hlow := h.low_lt
  have hturns := h.turns
  rw [List.length_cons] at hturns
  have hpow : 32 ^ high.length * 16 * 32 ^ i = 2 ^ 59 := by
    rw [Nat.mul_right_comm, ← pow_add]
    have hcount : high.length + i = 11 := by omega
    rw [hcount]
    norm_num
  have hsmall : ofDigits 0 high * 16 + low < 32 ^ high.length * 16 := by omega
  refine ⟨hd, ?_, ?_⟩
  · rw [← hpow]
    exact Nat.mul_lt_mul_of_pos_right hsmall (Nat.pow_pos (by decide))
  · rw [h.value_eq, ofDigits_cons, ← hpow]
    ring

theorem top (h : Shifted v i (d :: high) low) : v.toNat / 2 ^ 59 = d := by
  obtain ⟨-, hsmall, hvalue⟩ := h.split
  omega

theorem next (h : Shifted v i (d :: high) low) : Shifted (v <<< 5) (i + 1) high low where
  turns := by
    rw [← h.turns, List.length_cons]
    omega
  high_lt := fun e he => h.high_lt e (List.mem_cons_of_mem d he)
  low_lt := h.low_lt
  value_eq := by
    obtain ⟨hd, hsmall, hvalue⟩ := h.split
    have hnext : (ofDigits 0 high * 16 + low) * 32 ^ (i + 1) =
        32 * ((ofDigits 0 high * 16 + low) * 32 ^ i) := by
      rw [pow_succ]
      ring
    rw [BitVec.toNat_shiftLeft, Nat.shiftLeft_eq, hvalue, hnext]
    omega

theorem last (h : Shifted v i [] low) : i = 12 ∧ v.toNat = low * 2 ^ 60 := by
  have hi : i = 12 := h.turns
  refine ⟨hi, ?_⟩
  rw [h.value_eq, hi]
  show (0 * 16 + low) * 32 ^ 12 = _
  norm_num

/-- The word is zero when all its groups are. -/
theorem eq_zero_iff (h : Shifted v i high low) :
    v = 0 ↔ (high ++ [low]).all (· = 0) = true := by
  have hzero : ∀ w : BitVec 64, w = 0 ↔ w.toNat = 0 :=
    fun w => ⟨fun hw => hw ▸ rfl, fun hw => BitVec.eq_of_toNat_eq hw⟩
  induction high generalizing v i with
  | nil =>
      rw [hzero, h.last.2]
      simp
  | cons d high ih =>
      obtain ⟨-, hsmall, hvalue⟩ := h.split
      have hrest := ih h.next
      have hnext : (ofDigits 0 high * 16 + low) * 32 ^ (i + 1) =
          32 * ((ofDigits 0 high * 16 + low) * 32 ^ i) := by
        rw [pow_succ]
        ring
      rw [hzero, h.next.value_eq, hnext] at hrest
      rw [hzero, List.cons_append, List.all_cons, Bool.and_eq_true, decide_eq_true_iff]
      constructor
      · intro hv
        exact ⟨by omega, hrest.mp (by omega)⟩
      · rintro ⟨hd, hall⟩
        have hlow := hrest.mpr hall
        omega

/-- `write_as_string` writes the groups up to the last that is not zero. -/
theorem writeSymbols_eq (h : Shifted v i high low) :
    writeSymbols (high.length + 1) i v = ((high ++ [low]).rdropWhile (· = 0)).map symbol := by
  induction high generalizing v i with
  | nil =>
      have hzero := h.eq_zero_iff
      obtain ⟨rfl, hvalue⟩ := h.last
      rw [List.nil_append] at hzero ⊢
      rw [List.rdropWhile_singleton]
      show (if v = 0 then [] else _) = _
      by_cases hv : v = 0
      · have hlow : low = 0 := by simpa using hzero.mp hv
        rw [if_pos hv, if_pos (decide_eq_true hlow)]
        rfl
      · have hlow : ¬ decide (low = 0) = true := fun hlow => hv (hzero.mpr (by simpa using hlow))
        rw [if_neg hv, if_neg hlow, if_pos rfl, toNat_and_mask_shift v (by decide), hvalue,
          Nat.mul_div_cancel _ (Nat.two_pow_pos 60)]
        rfl
  | cons d high ih =>
      have hne : i ≠ 12 := by
        have hturns := h.turns
        rw [List.length_cons] at hturns
        omega
      rw [List.length_cons, writeSymbols, List.cons_append, rdropWhile_cons, if_neg hne,
        toNat_and_mask_shift v (le_refl 59), h.top, ih h.next]
      have hzero := h.eq_zero_iff
      rw [List.cons_append] at hzero
      by_cases hv : v = 0
      · rw [if_pos hv, if_pos (hzero.mp hv)]
        rfl
      · rw [if_neg hv, if_neg fun hall => hv (hzero.mpr hall)]
        rfl

/-- The loop of `length` stops counting at the last group that is not zero. -/
theorem foldl_eq (h : Shifted v i high low) (l : ℕ) :
    ((List.range' i (high.length + 1)).foldl
      (fun (l, v) i => (if 0#64 < v &&& mask then i else l, v <<< 5)) (l, v)).1 =
      if (high ++ [low]).all (· = 0) then l
      else i + ((high ++ [low]).rdropWhile (· = 0)).length - 1 := by
  induction high generalizing v i l with
  | nil =>
      obtain ⟨-, hvalue⟩ := h.last
      have htop : v.toNat / 2 ^ 59 = 2 * low := by omega
      show (if 0#64 < v &&& mask then i else l) = _
      rw [List.nil_append, List.rdropWhile_singleton]
      by_cases hlow : low = 0
      · have hnot : ¬ 0#64 < v &&& mask := by
          rw [zero_lt_and_mask_iff, htop]
          omega
        rw [if_neg hnot, if_pos (by simpa using hlow)]
      · have hpos : 0#64 < v &&& mask := by
          rw [zero_lt_and_mask_iff, htop]
          omega
        rw [if_pos hpos, if_neg (by simpa using hlow), if_neg (by simpa using hlow)]
        rfl
  | cons d high ih =>
      rw [List.length_cons, List.range'_succ, List.foldl_cons, ih h.next, List.cons_append,
        rdropWhile_cons]
      have htop : 0#64 < v &&& mask ↔ d ≠ 0 := by rw [zero_lt_and_mask_iff, h.top]
      rw [List.all_cons]
      by_cases hrest : (high ++ [low]).all (· = 0) = true
      · have hempty := List.rdropWhile_eq_nil_iff.mpr (List.all_eq_true.mp hrest)
        rw [if_pos hrest, hrest, Bool.and_true, hempty]
        by_cases hd : d = 0
        · rw [if_neg (mt htop.mp (not_not.mpr hd)), if_pos (decide_eq_true hd)]
        · have hdecide : ¬ decide (d = 0) = true := fun h0 => hd (of_decide_eq_true h0)
          rw [if_pos (htop.mpr hd), if_neg hdecide, if_neg hdecide]
          rfl
      · have hnot : ¬ (decide (d = 0) && (high ++ [low]).all fun x => decide (x = 0)) = true :=
          fun hall => hrest (Bool.and_eq_true_iff.mp hall).2
        rw [if_neg hrest, if_neg hnot, if_neg hnot, List.length_cons]
        omega

end Shifted

section Text

variable {g : Groups} {v : BitVec 64}

theorem toString_eq (h : g.word = v.toNat) : toString v = g.text.rdropWhile (· = '.') := by
  have hwrite := (Shifted.of_word h).writeSymbols_eq
  rw [g.high_length] at hwrite
  rw [g.rdropWhile_text]
  exact hwrite

theorem length_eq (h : g.word = v.toNat) : length v = (toString v).length := by
  have hzero := (Shifted.of_word h).eq_zero_iff
  have hloop := (Shifted.of_word h).foldl_eq 0
  rw [g.high_length, ← List.range_eq_range', ← Groups.all] at hloop
  rw [toString_eq h, g.rdropWhile_text, List.length_map, length, lastIndex]
  by_cases hv : v = 0
  · have hempty := List.rdropWhile_eq_nil_iff.mpr (List.all_eq_true.mp (hzero.mp hv))
    rw [if_pos hv, Groups.all, hempty]
    rfl
  · have hall : ¬ g.all.all (· = 0) = true := fun hall => hv (hzero.mpr hall)
    have hne : 0 < (g.all.rdropWhile (· = 0)).length := by
      apply List.length_pos_of_ne_nil
      intro hempty
      exact hall (List.all_eq_true.mpr (List.rdropWhile_eq_nil_iff.mp hempty))
    rw [if_neg hv, hloop, if_neg hall]
    show 0 + (g.all.rdropWhile (· = 0)).length - 1 + 1 = _
    omega

end Text

/-! ## The constructor -/

theorem Spells.eq_map {str : List Char} {digits : List ℕ} (h : Spells str digits) :
    str = digits.map symbol := by
  induction h with
  | nil => rfl
  | cons hhead _ ih =>
      obtain ⟨v, hv, rfl⟩ := hhead
      rw [List.map_cons, ← ih, eq_symbol_of_charToValue hv]

theorem map_symbol_replicate (k : ℕ) :
    (List.replicate k 0).map symbol = List.replicate k '.' := List.map_replicate

theorem Spells.padded_lt {str : List Char} {digits : List ℕ} (h : Spells str digits) (k : ℕ) :
    ∀ d ∈ digits ++ List.replicate k 0, d < 32 := by
  intro d hd
  rcases List.mem_append.mp hd with hd | hd
  · exact h.lt d hd
  · rw [List.eq_of_mem_replicate hd]
    decide

theorem Spells.map_padded {str : List Char} {digits : List ℕ} (h : Spells str digits) (k : ℕ) :
    (digits ++ List.replicate k 0).map symbol = str ++ List.replicate k '.' := by
  rw [List.map_append, map_symbol_replicate, ← h.eq_map]

/-- The constructor puts the characters of the text into their groups. -/
theorem exists_text_of_ofString {str : List Char} {value : BitVec 64}
    (h : ofString str = .ok value) :
    ∃ g : Groups, g.word = value.toNat ∧ str.length ≤ 13 ∧
      g.text = str ++ List.replicate (13 - str.length) '.' := by
  obtain ⟨_, hcheck, h⟩ := exists_of_bind_eq_ok h
  have hlength : str.length ≤ 13 := of_decide_eq_true (of_check_eq_ok hcheck)
  obtain ⟨packed, hpacked, h⟩ := exists_of_bind_eq_ok h
  obtain ⟨digits, hspells, hword⟩ := packPrefix_spec hpacked (by simp)
  have hcount := hspells.length_eq
  rw [List.length_take] at hcount
  have hfull : (digits ++ List.replicate (12 - digits.length) 0).length = 12 := by
    rw [List.length_append, List.length_replicate]
    omega
  have hlt := hspells.padded_lt (12 - digits.length)
  have hfront := hspells.map_padded (12 - digits.length)
  cases hdrop : str.drop 12 with
  | nil =>
      rw [hdrop] at h
      cases h
      have hshort : str.length ≤ 12 := List.drop_eq_nil_iff.mp hdrop
      refine ⟨⟨_, 0, hfull, hlt, by decide⟩, ?_, hlength, ?_⟩
      · rw [Groups.word, ofDigits_append_zeros, hword]
        rfl
      · have hpad : 13 - str.length = 12 - digits.length + 1 := by omega
        rw [Groups.text, Groups.all, List.map_append, hfront, List.take_of_length_le hshort, hpad,
          List.replicate_succ', ← List.append_assoc]
        rfl
  | cons c rest =>
      rw [hdrop] at h
      have hfree : packed.toNat % 16 = 0 := by
        rw [hword]
        exact Nat.mul_mod_left _ _
      obtain ⟨d, hd, hd16, hvalue⟩ := addThirteenth_cons h hfree
      have hcut := congrArg List.length hdrop
      rw [List.length_drop, List.length_cons] at hcut
      have hrest : rest = [] := List.eq_nil_of_length_eq_zero (by omega)
      have hsplit : str = str.take 12 ++ [c] := by
        rw [← hrest, ← hdrop, List.take_append_drop]
      refine ⟨⟨_, d.toNat, hfull, hlt, hd16⟩, ?_, hlength, ?_⟩
      · rw [Groups.word, ofDigits_append_zeros, hvalue, hword]
      · -- With a thirteenth character, the first twelve need no padding.
        have hpad : 12 - digits.length = 0 := by omega
        have hpad' : 13 - str.length = 0 := by omega
        have hfirst :
            (digits ++ List.replicate (12 - digits.length) 0).map symbol = str.take 12 := by
          rw [hfront, hpad, List.replicate_zero, List.append_nil]
        rw [Groups.text, Groups.all, List.map_append, hfirst, hpad', List.replicate_zero,
          List.append_nil, List.map_singleton, ← eq_symbol_of_charToValue hd, ← hsplit]

theorem exists_foldlM_pushChar {str : List Char} (h : ∀ c ∈ str, c ∈ charmap)
    (value : BitVec 64) : ∃ value', str.foldlM pushChar value = .ok value' := by
  induction str generalizing value with
  | nil => exact ⟨value, rfl⟩
  | cons c str ih =>
      obtain ⟨d, hd⟩ := exists_charToValue_iff.mpr (h c List.mem_cons_self)
      obtain ⟨value', hvalue'⟩ := ih (fun e he => h e (List.mem_cons_of_mem c he))
        (value <<< 5 ||| d.setWidth 64)
      refine ⟨value', ?_⟩
      rw [List.foldlM_cons, pushChar, hd]
      exact hvalue'

/-- The characters the thirteenth may be. -/
def lastCharmap : List Char := ".12345abcdefghij".toList

theorem lastCharmap_eq : lastCharmap = (List.range 16).map symbol := by
  decide

theorem mem_lastCharmap_symbol {d : ℕ} (hd : d < 16) : symbol d ∈ lastCharmap := by
  rw [lastCharmap_eq]
  exact List.mem_map_of_mem (List.mem_range.mpr hd)

theorem exists_charToValue_of_mem_lastCharmap :
    ∀ c ∈ lastCharmap, ∃ d : BitVec 8, charToValue c = .ok d ∧ d.setWidth 64 ≤ 0x0f#64 := by
  rw [lastCharmap_eq]
  intro c hc
  obtain ⟨d, hd, rfl⟩ := List.mem_map.mp hc
  have hlt := List.mem_range.mp hd
  refine ⟨BitVec.ofNat 8 d, charToValue_symbol d (hlt.trans (by decide)), ?_⟩
  rw [BitVec.le_def, BitVec.toNat_setWidth, BitVec.toNat_ofNat, BitVec.toNat_ofNat]
  omega

/-- The texts the constructor accepts. -/
def Accepted (str : List Char) : Prop :=
  str.length ≤ 13 ∧ (∀ c ∈ str, c ∈ charmap) ∧ ∀ c ∈ str[12]?, c ∈ lastCharmap

theorem exists_ofString {str : List Char} (h : Accepted str) : ∃ v, ofString str = .ok v := by
  obtain ⟨hlength, hall, hlast⟩ := h
  have hfirst : ∀ c ∈ str.take 12, c ∈ charmap := fun c hc => hall c (List.mem_of_mem_take hc)
  obtain ⟨packed, hpacked⟩ := exists_foldlM_pushChar hfirst 0
  have hcheck : decide (str.length ≤ 13) = true := decide_eq_true hlength
  have hfront : packPrefix (str.take 12) =
      .ok (packed <<< (4 + 5 * (12 - (str.take 12).length))) := by
    rw [packPrefix, hpacked]
    rfl
  rw [ofString, hcheck, hfront]
  cases hdrop : str.drop 12 with
  | nil => exact ⟨_, rfl⟩
  | cons c rest =>
      have hget : str[12]? = some c := by
        rw [← List.head?_drop, hdrop]
        rfl
      obtain ⟨d, hd, hsmall⟩ := exists_charToValue_of_mem_lastCharmap c (hlast c hget)
      refine ⟨packed <<< (4 + 5 * (12 - (str.take 12).length)) ||| d.setWidth 64, ?_⟩
      show addThirteenth _ (c :: rest) = _
      rw [addThirteenth, hd]
      show ((check (decide (d.setWidth 64 ≤ 0x0f#64)) _ : Except Fault Unit) >>= _) = _
      rw [decide_eq_true hsmall]
      rfl

theorem Groups.accepted_of_prefix (g : Groups) {str : List Char} (h : str <+: g.text) :
    Accepted str := by
  refine ⟨h.length_le.trans g.length_text.le, ?_, ?_⟩
  · intro c hc
    obtain ⟨d, hd, rfl⟩ := List.mem_map.mp (h.subset hc)
    exact symbol_mem d (g.all_lt d hd)
  · intro c hc
    obtain ⟨rest, hrest⟩ := h
    have hget : g.text[12]? = some c := by
      rw [← hrest, List.getElem?_append_left (List.getElem?_eq_some_iff.mp hc).1]
      exact hc
    rw [g.text_getElem?_twelve, Option.some.injEq] at hget
    rw [← hget]
    exact mem_lastCharmap_symbol g.low_lt

theorem accepted_of_ofString {str : List Char} {v : BitVec 64} (h : ofString str = .ok v) :
    Accepted str := by
  obtain ⟨g, -, -, htext⟩ := exists_text_of_ofString h
  exact g.accepted_of_prefix ⟨_, htext.symm⟩

theorem toString_ofString {str : List Char} {v : BitVec 64} (h : ofString str = .ok v) :
    toString v = str.rdropWhile (· = '.') := by
  obtain ⟨g, hword, -, htext⟩ := exists_text_of_ofString h
  rw [toString_eq hword, htext, rdropWhile_append_replicate (by decide)]

theorem ofString_toString (v : BitVec 64) : ofString (toString v) = .ok v := by
  obtain ⟨g, hword⟩ := Groups.exists_word_eq v
  have hstring := toString_eq hword
  have hpadded := rdropWhile_append_padding (p := fun c => decide (c = '.')) (a := '.')
    (fun c hc => of_decide_eq_true hc) g.text
  rw [← hstring, g.length_text] at hpadded
  have haccepted : Accepted (toString v) := g.accepted_of_prefix ⟨_, hpadded⟩
  obtain ⟨v', hv'⟩ := exists_ofString haccepted
  obtain ⟨g', hword', -, htext'⟩ := exists_text_of_ofString hv'
  have htexts : g'.text = g.text := htext'.trans hpadded
  have hv : v' = v := by
    apply BitVec.eq_of_toNat_eq
    rw [← hword', ← hword, Groups.word_eq_of_text_eq htexts]
  rw [hv', hv]

/-- Words are the normalised names: every word is written as a text that is read
back, the constructor accepts what it says, and what it accepts is written without
the dots that trail. -/
theorem name_bijection :
    (∀ v, (toString v).length = length v ∧ (∀ c ∈ toString v, c ∈ charmap) ∧
      (∀ c ∈ (toString v).getLast?, c ≠ '.') ∧ ofString (toString v) = .ok v) ∧
    (∀ s, ((∃ v, ofString s = .ok v) ↔ Accepted s) ∧
      ∀ v, ofString s = .ok v → toString v = s.rdropWhile (· = '.')) ∧
    ∀ s s' v v', ofString s = .ok v → ofString s' = .ok v' →
      (v = v' ↔ s.rdropWhile (· = '.') = s'.rdropWhile (· = '.')) := by
  refine ⟨?_, ?_, ?_⟩
  · intro v
    obtain ⟨g, hword⟩ := Groups.exists_word_eq v
    have haccepted := accepted_of_ofString (ofString_toString v)
    refine ⟨(length_eq hword).symm, haccepted.2.1, ?_, ofString_toString v⟩
    intro c hc hdot
    rw [toString_eq hword] at hc
    obtain ⟨hne, hlast⟩ := List.mem_getLast?_eq_getLast hc
    exact List.rdropWhile_last_not _ _ hne (decide_eq_true (hlast ▸ hdot))
  · intro s
    refine ⟨⟨?_, exists_ofString⟩, fun v hv => toString_ofString hv⟩
    rintro ⟨v, hv⟩
    exact accepted_of_ofString hv
  · intro s s' v v' hv hv'
    rw [← toString_ofString hv, ← toString_ofString hv']
    constructor
    · rintro rfl
      rfl
    · intro hsame
      have hread := ofString_toString v
      rw [hsame, ofString_toString v'] at hread
      cases hread
      rfl

end FractalCdt.Name
