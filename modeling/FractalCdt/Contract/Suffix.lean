/-
# The suffix of a name

`suffix` looks for the last dot that a character follows, by the bits that remain below
it, and shifts what follows to the top.  The thirteenth character has four bits where it
comes from and five where it goes, so that it is shifted by itself.
-/

import FractalCdt.Contract.NameText

namespace FractalCdt.Name

open FractalCdt.Math

/-- A turn of the loop: the bits below the last dot that a character follows, and `tmp`, the
bits below the last dot. -/
def dotTurn (value : BitVec 64) (state : ℕ × ℕ) (remainingBits : ℕ) : ℕ × ℕ :=
  let c := (value >>> remainingBits) &&& 0x1f#64
  if c = 0 then (state.1, remainingBits) else (state.2, state.2)

/-- The loop over the first characters; `remaining_bits` is 59, and 5 less at each turn. -/
def dotBits (turns : ℕ) (value : BitVec 64) : ℕ × ℕ :=
  (List.range turns).foldl (fun state i => dotTurn value state (59 - 5 * i)) (0, 0)

/-- `constexpr name suffix() const`. -/
def suffix (value : BitVec 64) : BitVec 64 :=
  let (remainingBits, tmp) := dotBits 12 value
  let thirteenth := value &&& 0x0f#64
  let remainingBits := if thirteenth ≠ 0 then tmp else remainingBits
  if remainingBits = 0 then value
  else
    let mask := (1#64 <<< remainingBits) - 16#64
    let shift := 64 - remainingBits
    ((value &&& mask) <<< shift) + (thirteenth <<< (shift - 1))

/-! ## The groups around a dot -/

/-- The bits below the last zero of these groups; none if there is no zero. -/
def BitsBelowZero (groups : List ℕ) (bits : ℕ) : Prop :=
  (0 ∉ groups ∧ bits = 0) ∨
    ∃ front back, groups = front ++ 0 :: back ∧ 0 ∉ back ∧ bits = 59 - 5 * front.length

theorem rdropWhile_zeros (digits : List ℕ) (k : ℕ) :
    (digits ++ List.replicate k 0).rdropWhile (· = 0) = digits.rdropWhile (· = 0) :=
  rdropWhile_append_replicate (a := 0) (p := fun d => decide (d = 0)) rfl digits k

section BitsBelowZero

variable {groups : List ℕ} {bits tmp d : ℕ}

theorem BitsBelowZero.concat (h : BitsBelowZero groups bits) (hd : d ≠ 0) :
    BitsBelowZero (groups ++ [d]) bits := by
  have hlast : 0 ∉ [d] := fun hmem => hd (List.mem_singleton.mp hmem).symm
  rcases h with ⟨hnone, hbits⟩ | ⟨front, back, rfl, hback, hbits⟩
  · exact .inl ⟨fun hmem => (List.mem_append.mp hmem).elim hnone hlast, hbits⟩
  · refine .inr ⟨front, back ++ [d], by simp, ?_, hbits⟩
    exact fun hmem => (List.mem_append.mp hmem).elim hback hlast

theorem bitsBelowZero_concat_zero (groups : List ℕ) :
    BitsBelowZero (groups ++ [0]) (59 - 5 * groups.length) :=
  .inr ⟨groups, [], rfl, List.not_mem_nil, rfl⟩

/-- What one more group does to the two positions: the zeros that trail do not count for the
first one. -/
theorem BitsBelowZero.next (htmp : BitsBelowZero groups tmp)
    (hbits : BitsBelowZero (groups.rdropWhile (· = 0)) bits) (d : ℕ) :
    BitsBelowZero (groups ++ [d]) (if d = 0 then 59 - 5 * groups.length else tmp) ∧
      BitsBelowZero ((groups ++ [d]).rdropWhile (· = 0)) (if d = 0 then bits else tmp) := by
  by_cases hd : d = 0
  · subst hd
    rw [if_pos rfl, if_pos rfl, List.rdropWhile_concat, if_pos (decide_eq_true rfl)]
    exact ⟨bitsBelowZero_concat_zero groups, hbits⟩
  · have hlast : ¬ decide (d = 0) = true := fun h => hd (of_decide_eq_true h)
    rw [if_neg hd, if_neg hd, List.rdropWhile_concat, if_neg hlast]
    exact ⟨htmp.concat hd, htmp.concat hd⟩

end BitsBelowZero

/-! ## The loop -/

theorem ofDigits_append (front back : List ℕ) :
    ofDigits 0 (front ++ back) = ofDigits 0 front * 32 ^ back.length + ofDigits 0 back := by
  induction front with
  | nil => simp [ofDigits]
  | cons d front ih =>
      rw [List.cons_append, ofDigits_cons, ofDigits_cons, ih, List.length_append, pow_add]
      ring

theorem pow_groups (k : ℕ) : 2 ^ (4 + 5 * k) = 32 ^ k * 16 := by
  rw [pow_add, pow_mul, Nat.mul_comm]
  norm_num

section Loop

variable {g : Groups} {v : BitVec 64} {front back : List ℕ} {d : ℕ}

/-- The word is cut between two of its groups. -/
theorem Groups.word_split (h : g.word = v.toNat) (hsplit : g.high = front ++ back) :
    v.toNat = ofDigits 0 front * 2 ^ (4 + 5 * back.length) + (ofDigits 0 back * 16 + g.low) ∧
      ofDigits 0 back * 16 + g.low < 2 ^ (4 + 5 * back.length) := by
  have hback : ofDigits 0 back < 32 ^ back.length :=
    ofDigits_zero_lt fun d hd => g.high_lt d (hsplit ▸ List.mem_append_right front hd)
  have hlow := g.low_lt
  rw [pow_groups]
  refine ⟨?_, by omega⟩
  rw [← h, word, hsplit, ofDigits_append]
  ring

/-- The character that a turn looks at. -/
theorem Groups.character (h : g.word = v.toNat) (hsplit : g.high = front ++ d :: back) :
    (v >>> (59 - 5 * front.length)) &&& 0x1f#64 = BitVec.ofNat 64 d := by
  have hd : d < 32 := g.high_lt d (hsplit ▸ List.mem_append_right front List.mem_cons_self)
  have hlength := g.high_length
  rw [hsplit, List.length_append, List.length_cons] at hlength
  have hbits : 59 - 5 * front.length = 4 + 5 * back.length := by omega
  rw [List.append_cons] at hsplit
  obtain ⟨hvalue, hrest⟩ := Groups.word_split h hsplit
  have htop : v.toNat / 2 ^ (4 + 5 * back.length) = ofDigits 0 front * 32 + d := by
    rw [hvalue, Nat.add_comm, Nat.add_mul_div_right _ _ (Nat.two_pow_pos _),
      Nat.div_eq_of_lt hrest, Nat.zero_add, ofDigits, List.foldl_append]
    rfl
  apply BitVec.eq_of_toNat_eq
  rw [hbits, BitVec.toNat_and, BitVec.toNat_ushiftRight, Nat.shiftRight_eq_div_pow, htop]
  show (ofDigits 0 front * 32 + d) &&& (2 ^ 5 - 1) = _
  rw [Nat.and_two_pow_sub_one_eq_mod, BitVec.toNat_ofNat]
  omega

/-- A turn is a step along the groups. -/
theorem Groups.dotTurn_eq (h : g.word = v.toNat) (hsplit : g.high = front ++ d :: back)
    (state : ℕ × ℕ) : dotTurn v state (59 - 5 * front.length) =
      (if d = 0 then state.1 else state.2, if d = 0 then 59 - 5 * front.length else state.2) := by
  have hd : d < 32 := g.high_lt d (hsplit ▸ List.mem_append_right front List.mem_cons_self)
  have hzero : BitVec.ofNat 64 d = 0 ↔ d = 0 := by
    rw [← BitVec.toNat_inj, BitVec.toNat_ofNat]
    show d % 2 ^ 64 = 0 ↔ _
    omega
  rw [dotTurn]
  simp only [Groups.character h hsplit, hzero]
  split <;> rfl

theorem Groups.dotBits_spec (h : g.word = v.toNat) (hsplit : g.high = front ++ back) :
    BitsBelowZero front (dotBits front.length v).2 ∧
      BitsBelowZero (front.rdropWhile (· = 0)) (dotBits front.length v).1 := by
  induction front using List.reverseRecOn generalizing back with
  | nil => exact ⟨.inl ⟨List.not_mem_nil, rfl⟩, .inl ⟨List.not_mem_nil, rfl⟩⟩
  | append_singleton front d ih =>
      rw [← List.append_cons] at hsplit
      obtain ⟨htmp, hbits⟩ := ih hsplit
      have hturn : dotBits (front ++ [d]).length v =
          dotTurn v (dotBits front.length v) (59 - 5 * front.length) := by
        rw [List.length_append, List.length_singleton, dotBits, List.range_succ, List.foldl_append]
        rfl
      rw [hturn, Groups.dotTurn_eq h hsplit]
      exact htmp.next hbits d

theorem Groups.thirteenth (h : g.word = v.toNat) : (v &&& 0x0f#64).toNat = g.low := by
  have hlow := g.low_lt
  rw [BitVec.toNat_and, ← h, word]
  show (_ * 16 + g.low) &&& (2 ^ 4 - 1) = _
  rw [Nat.and_two_pow_sub_one_eq_mod]
  omega

/-- What `suffix` goes by: the last dot that a character follows. -/
theorem Groups.remainingBits_spec (h : g.word = v.toNat) :
    BitsBelowZero (g.all.rdropWhile (· = 0))
      (if v &&& 0x0f#64 ≠ 0 then (dotBits 12 v).2 else (dotBits 12 v).1) := by
  have hspec := Groups.dotBits_spec h (List.append_nil g.high).symm
  rw [g.high_length] at hspec
  have hzero : v &&& 0x0f#64 = 0 ↔ g.low = 0 := by
    rw [← BitVec.toNat_inj, Groups.thirteenth h]
    rfl
  have hlast := (hspec.1.next hspec.2 g.low).2
  simp only [ne_eq, hzero, ite_not]
  exact hlast

end Loop

/-! ## The new word -/

theorem and_shiftLeft (x y k : ℕ) : x &&& y <<< k = (x >>> k &&& y) <<< k := by
  apply Nat.eq_of_testBit_eq
  intro i
  rw [Nat.testBit_and, Nat.testBit_shiftLeft, Nat.testBit_shiftLeft, Nat.testBit_and,
    Nat.testBit_shiftRight]
  by_cases hi : k ≤ i
  · rw [Nat.add_sub_of_le hi, decide_eq_true hi, Bool.true_and, Bool.true_and]
  · simp [hi]

section Word

variable {g : Groups} {v : BitVec 64} {front mid : List ℕ}

/-- The first mask keeps the groups below the dot but the thirteenth. -/
theorem Groups.and_mask (h : g.word = v.toNat) (hsplit : g.high = front ++ mid)
    (hroom : mid.length < 12) :
    (v &&& (1#64 <<< (4 + 5 * mid.length) - 16#64)).toNat = ofDigits 0 mid * 16 := by
  have hpow := pow_groups mid.length
  have hlt : (32 : ℕ) ^ mid.length ≤ 32 ^ 11 := Nat.pow_le_pow_right (by decide) (by omega)
  have hpos : 0 < 32 ^ mid.length := Nat.pow_pos (by decide)
  have hmask : (1#64 <<< (4 + 5 * mid.length) - 16#64).toNat = (32 ^ mid.length - 1) <<< 4 := by
    have hone : (1#64 <<< (4 + 5 * mid.length)).toNat = 32 ^ mid.length * 16 := by
      rw [BitVec.toNat_shiftLeft, Nat.shiftLeft_eq, hpow]
      show 1 * _ % _ = _
      omega
    rw [BitVec.toNat_sub, hone, Nat.shiftLeft_eq]
    show (2 ^ 64 - 16 + _) % _ = _
    omega
  have hmid : ofDigits 0 mid < 32 ^ mid.length :=
    ofDigits_zero_lt fun d hd => g.high_lt d (hsplit ▸ List.mem_append_right front hd)
  have htop : v.toNat / 16 % 32 ^ mid.length = ofDigits 0 mid := by
    have hlow := g.low_lt
    have hword : v.toNat = (ofDigits 0 front * 32 ^ mid.length + ofDigits 0 mid) * 16 + g.low := by
      rw [← h, word, hsplit, ofDigits_append]
    have hdiv : v.toNat / 16 = ofDigits 0 mid + ofDigits 0 front * 32 ^ mid.length := by omega
    rw [hdiv, Nat.add_mul_mod_self_right, Nat.mod_eq_of_lt hmid]
  have hbits : (32 : ℕ) ^ mid.length = 2 ^ (5 * mid.length) := (pow_mul 2 5 mid.length).symm
  rw [BitVec.toNat_and, hmask, and_shiftLeft, Nat.shiftRight_eq_div_pow, hbits,
    Nat.and_two_pow_sub_one_eq_mod, ← hbits, Nat.shiftLeft_eq]
  show v.toNat / 16 % _ * 16 = _
  rw [htop]

/-- The characters below a dot, shifted to the top and filled up with zeros. -/
def Groups.below (g : Groups) (front mid : List ℕ) (hsplit : g.high = front ++ 0 :: mid) :
    Groups where
  high := mid ++ [g.low] ++ List.replicate (11 - mid.length) 0
  low := 0
  high_length := by
    have hlength := g.high_length
    rw [hsplit, List.length_append, List.length_cons] at hlength
    simp
    omega
  high_lt := by
    intro d hd
    rcases List.mem_append.mp hd with hd | hd
    · rcases List.mem_append.mp hd with hd | hd
      · exact g.high_lt d (hsplit ▸ List.mem_append_right front (List.mem_cons_of_mem 0 hd))
      · rw [List.mem_singleton.mp hd]
        exact g.low_lt.trans (by decide)
    · rw [List.eq_of_mem_replicate hd]
      decide
  low_lt := by decide

theorem Groups.word_lt (g : Groups) : g.word < 2 ^ 64 := by
  have hhigh := ofDigits_zero_lt g.high_lt
  have hlow := g.low_lt
  rw [g.high_length] at hhigh
  rw [word]
  omega

theorem Groups.word_below (h : g.word = v.toNat) (hsplit : g.high = front ++ 0 :: mid) :
    (g.below front mid hsplit).word =
      (((v &&& (1#64 <<< (4 + 5 * mid.length) - 16#64)) <<< (64 - (4 + 5 * mid.length))) +
        ((v &&& 0x0f#64) <<< (64 - (4 + 5 * mid.length) - 1))).toNat := by
  have hlength := g.high_length
  rw [hsplit, List.length_append, List.length_cons] at hlength
  have hshift : 64 - (4 + 5 * mid.length) = 4 + 5 * (11 - mid.length) + 1 := by omega
  have hlt := (g.below front mid hsplit).word_lt
  have hword : (g.below front mid hsplit).word =
      ofDigits 0 mid * 16 * 2 ^ (4 + 5 * (11 - mid.length) + 1) +
        g.low * 2 ^ (4 + 5 * (11 - mid.length)) := by
    show ofDigits 0 (mid ++ [g.low] ++ List.replicate _ 0) * 16 + 0 = _
    rw [ofDigits_append_zeros, ofDigits_append, pow_succ, pow_groups]
    show (ofDigits 0 mid * 32 + (0 * 32 + g.low)) * _ * 16 + 0 = _
    ring
  rw [hword] at hlt ⊢
  rw [hshift, Nat.add_sub_cancel, BitVec.toNat_add, BitVec.toNat_shiftLeft, BitVec.toNat_shiftLeft,
    Groups.thirteenth h, Groups.and_mask h (List.append_cons front 0 mid ▸ hsplit) (by omega),
    Nat.shiftLeft_eq, Nat.shiftLeft_eq, ← Nat.add_mod, Nat.mod_eq_of_lt hlt]

end Word

/-! ## The text -/

/-- The substring after the last dot, or all of the text. -/
def afterLastDot (t : List Char) : List Char := t.rtakeWhile (· ≠ '.')

theorem afterLastDot_append {front back : List Char} (h : '.' ∉ back) :
    afterLastDot (front ++ '.' :: back) = back := by
  apply rtakeWhile_append_cons (by decide)
  intro c hc
  exact decide_eq_true fun hdot => h (hdot ▸ hc)

theorem afterLastDot_of_not_mem {t : List Char} (h : '.' ∉ t) : afterLastDot t = t := by
  rw [afterLastDot, List.rtakeWhile_eq_self_iff]
  intro c hc
  exact decide_eq_true fun hdot => h (hdot ▸ hc)

theorem dot_not_mem_map_symbol {digits : List ℕ} (hlt : ∀ d ∈ digits, d < 32) (h : 0 ∉ digits) :
    '.' ∉ digits.map symbol := by
  intro hmem
  obtain ⟨d, hd, hdot⟩ := List.mem_map.mp hmem
  exact h ((symbol_eq_dot_iff (hlt d hd)).mp hdot ▸ hd)

section Text

variable {g : Groups} {v : BitVec 64} {front back : List ℕ}

theorem toString_eq_map (h : g.word = v.toNat) :
    toString v = (g.all.rdropWhile (· = 0)).map symbol := by
  rw [toString_eq h, g.rdropWhile_text]

/-- Below the last dot that counts there is a character. -/
theorem Groups.exists_mid (hsplit : g.all.rdropWhile (· = 0) = front ++ 0 :: back)
    (hback : 0 ∉ back) :
    ∃ mid, g.high = front ++ 0 :: mid ∧ (mid ++ [g.low]).rdropWhile (· = 0) = back := by
  have hne : back ≠ [] := by
    rintro rfl
    have hagain := List.rdropWhile_idempotent (fun d => decide (d = 0)) g.all
    rw [hsplit, List.rdropWhile_concat, if_pos (decide_eq_true rfl)] at hagain
    have hlength := (List.rdropWhile_prefix (fun d => decide (d = 0)) front).length_le
    rw [hagain, List.length_append, List.length_singleton] at hlength
    omega
  have hself : back.rdropWhile (· = 0) = back := by
    rw [List.rdropWhile_eq_self_iff]
    intro hl hzero
    exact hback (of_decide_eq_true hzero ▸ List.getLast_mem hl)
  have hall := rdropWhile_append_padding (p := fun d => decide (d = 0)) (a := 0)
    (fun _ => of_decide_eq_true) g.all
  rw [hsplit] at hall
  generalize g.all.length - (front ++ 0 :: back).length = k at hall
  obtain ⟨mid, last, hlast⟩ : ∃ mid last, back ++ List.replicate k 0 = mid ++ [last] :=
    (List.eq_nil_or_concat' _).resolve_left (List.append_ne_nil_of_left_ne_nil hne _)
  rw [List.append_assoc, List.cons_append, hlast, ← List.cons_append, ← List.append_assoc] at hall
  obtain ⟨hhigh, hlow⟩ := List.append_inj' hall rfl
  refine ⟨mid, hhigh.symm, ?_⟩
  rw [← hlow, ← hlast, rdropWhile_zeros, hself]

theorem toString_suffix (v : BitVec 64) : toString (suffix v) = afterLastDot (toString v) := by
  obtain ⟨g, h⟩ := Groups.exists_word_eq v
  have hbits := Groups.remainingBits_spec h
  have hlt : ∀ d ∈ g.all.rdropWhile (· = 0), d < 32 := fun d hd =>
    g.all_lt d ((List.rdropWhile_prefix _ _).subset hd)
  rw [toString_eq_map h]
  rcases hbits with ⟨hnone, hzero⟩ | ⟨front, back, hsplit, hback, hbits⟩
  · have hsame : suffix v = v := by
      rw [suffix]
      simp only [hzero, if_true]
    rw [hsame, toString_eq_map h, afterLastDot_of_not_mem (dot_not_mem_map_symbol hlt hnone)]
  · obtain ⟨mid, hhigh, hmid⟩ := Groups.exists_mid hsplit hback
    have hlength := g.high_length
    rw [hhigh, List.length_append, List.length_cons] at hlength
    have hremaining : 59 - 5 * front.length = 4 + 5 * mid.length := by omega
    have hword : (g.below front mid hhigh).word = (suffix v).toNat := by
      rw [Groups.word_below h hhigh, suffix]
      simp only [hbits, hremaining]
      rw [if_neg (by omega)]
    have hbelow : (g.below front mid hhigh).all.rdropWhile (· = 0) = back := by
      show (mid ++ [g.low] ++ List.replicate _ 0 ++ [0]).rdropWhile _ = back
      rw [List.rdropWhile_concat, if_pos (decide_eq_true rfl), rdropWhile_zeros, hmid]
    have hdots : '.' ∉ back.map symbol := dot_not_mem_map_symbol
      (fun d hd => hlt d (hsplit ▸ List.mem_append_right front (List.mem_cons_of_mem 0 hd))) hback
    rw [toString_eq_map hword, hbelow, hsplit, List.map_append, List.map_cons]
    exact (afterLastDot_append hdots).symm

end Text

end FractalCdt.Name
