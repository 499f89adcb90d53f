/-
# The shortest numeral

A number has many LEB128 numerals, since groups of zeros may be put on top.
The one that `uleb` writes is the shortest of them, and its last byte says so: it is not
zero unless it is alone.  No numeral goes on where another one ends.
-/

import FractalCdt.Math.Leb128
import FractalCdt.Math.Sleb128

namespace FractalCdt.Math

section Unsigned

variable {x : ℕ}

theorem toNat_last_group (h : x < 128) : (BitVec.ofNat 8 x).toNat = x := by
  rw [BitVec.toNat_ofNat]
  omega

theorem toNat_more_group (x : ℕ) : (BitVec.ofNat 8 (x % 128 + 128)).toNat = x % 128 + 128 := by
  rw [BitVec.toNat_ofNat]
  omega

theorem terminated_uleb (x : ℕ) : Terminated (uleb x) := by
  fun_induction uleb x with
  | case1 x h =>
      rw [Terminated, toNat_last_group h]
      exact h
  | case2 x h ih =>
      rw [terminated_cons ih.ne_nil, toNat_more_group]
      exact ⟨Nat.le_add_left 128 _, ih⟩

theorem groupsValue_uleb (x : ℕ) : groupsValue (uleb x) = x := by
  fun_induction uleb x with
  | case1 x h =>
      rw [groupsValue, groupsValue, toNat_last_group h]
      omega
  | case2 x h ih =>
      rw [groupsValue, ih, toNat_more_group]
      omega

/-- Only zero has a last group of zero. -/
theorem getLast?_uleb (hx : x ≠ 0) : (uleb x).getLast? ≠ some 0 := by
  fun_induction uleb x with
  | case1 x h =>
      rw [List.getLast?_singleton, ne_eq, Option.some.injEq, ← BitVec.toNat_inj, toNat_last_group h]
      exact hx
  | case2 x h ih =>
      rw [List.getLast?_cons_of_ne_nil (terminated_uleb _).ne_nil]
      exact ih (by omega)

/-- A number of `7 n` bits has at most `n` groups. -/
theorem length_uleb_le {n : ℕ} (hx : x < 128 ^ (n + 1)) : (uleb x).length ≤ n + 1 := by
  induction n generalizing x with
  | zero =>
      rw [uleb_of_lt (by omega)]
      exact le_rfl
  | succ n ih =>
      by_cases h : x < 128
      · rw [uleb_of_lt h]
        exact Nat.succ_pos _
      · rw [pow_succ] at hx
        rw [uleb_of_le (by omega), List.length_cons]
        exact Nat.succ_le_succ (ih (by omega))

/-- No byte sequence of the same value is shorter. -/
theorem length_uleb_groupsValue_le {bs : List Byte} (h : bs ≠ []) :
    (uleb (groupsValue bs)).length ≤ bs.length := by
  obtain ⟨n, hn⟩ := Nat.exists_eq_succ_of_ne_zero (List.length_pos_iff.mpr h).ne'
  have hvalue := groupsValue_lt bs
  rw [hn] at hvalue ⊢
  exact length_uleb_le hvalue

/-- A numeral that is long enough for a number is long enough for a smaller one. -/
theorem length_uleb_mono {y : ℕ} (h : x ≤ y) : (uleb x).length ≤ (uleb y).length := by
  obtain ⟨n, hn⟩ := Nat.exists_eq_succ_of_ne_zero
    (List.length_pos_iff.mpr (terminated_uleb y).ne_nil).ne'
  have hy := groupsValue_lt (uleb y)
  rw [groupsValue_uleb, hn] at hy
  rw [hn]
  exact length_uleb_le (h.trans_lt hy)

end Unsigned

/-- A numeral ends where its last byte says, whatever follows. -/
theorem Terminated.eq_of_isPrefix {bs bs' : List Byte} (h : Terminated bs) (h' : Terminated bs')
    (hstarts : bs <+: bs') : bs = bs' := by
  obtain ⟨rest, rfl⟩ := hstarts
  induction bs with
  | nil => exact absurd rfl h.ne_nil
  | cons b bs ih =>
      by_cases hlast : bs = []
      · subst hlast
        have hb : b.toNat < 128 := h
        by_cases hrest : rest = []
        · rw [hrest, List.append_nil]
        · have hmore := ((terminated_cons hrest).mp h').1
          omega
      · have hne : bs ++ rest ≠ [] := List.append_ne_nil_of_left_ne_nil hlast rest
        rw [List.cons_append, terminated_cons hne] at h'
        rw [List.cons_append, ← ih ((terminated_cons hlast).mp h).2 h'.2]

end FractalCdt.Math
