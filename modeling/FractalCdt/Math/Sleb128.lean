/-
# Signed LEB128 numerals

The groups are those of the unsigned numeral, taken of a two's complement; the
numeral stops as soon as the last group's sixth bit is the sign of what has been
written.  A numeral of `n` bytes stands for a number of `7 n` signed bits, and
its groups for that number modulo `128 ^ n`.
-/

import FractalCdt.Math.Bytes
import Mathlib.Algebra.Order.Ring.Int
import Mathlib.Tactic.Linarith
import Mathlib.Tactic.Positivity
import Mathlib.Tactic.Ring

namespace FractalCdt.Math

/-- What is left of a number and its sign are told by the group before. -/
def SlebStops (x : ℤ) : Prop := (x / 128 = 0 ∧ x % 128 < 64) ∨ (x / 128 = -1 ∧ 64 ≤ x % 128)

instance (x : ℤ) : Decidable (SlebStops x) := inferInstanceAs (Decidable (_ ∨ _))

/-- The signed LEB128 numeral of a number. -/
def sleb (x : ℤ) : List Byte :=
  if h : SlebStops x then [BitVec.ofInt 8 (x % 128)]
  else BitVec.ofInt 8 (x % 128 + 128) :: sleb (x / 128)
termination_by x.natAbs
decreasing_by
  unfold SlebStops at h
  omega

theorem sleb_of_stops {x : ℤ} (h : SlebStops x) : sleb x = [BitVec.ofInt 8 (x % 128)] := by
  rw [sleb, dif_pos h]

theorem sleb_of_not_stops {x : ℤ} (h : ¬ SlebStops x) :
    sleb x = BitVec.ofInt 8 (x % 128 + 128) :: sleb (x / 128) := by
  rw [sleb, dif_neg h]

/-- The number of the groups, least significant first. -/
def groupsValue : List Byte → ℕ
  | [] => 0
  | b :: bs => b.toNat % 128 + 128 * groupsValue bs

theorem groupsValue_lt (bs : List Byte) : groupsValue bs < 128 ^ bs.length := by
  induction bs with
  | nil => exact Nat.one_pos
  | cons b bs ih =>
      have hpow : 128 ^ (b :: bs).length = 128 * 128 ^ bs.length := by
        rw [List.length_cons, pow_succ, Nat.mul_comm]
      rw [groupsValue, hpow]
      omega

theorem groupsValue_append (as bs : List Byte) :
    groupsValue (as ++ bs) = groupsValue as + 128 ^ as.length * groupsValue bs := by
  induction as with
  | nil => simp [groupsValue]
  | cons a as ih =>
      rw [List.cons_append, groupsValue, groupsValue, ih, List.length_cons, pow_succ]
      ring

section Groups

variable {x : ℤ}

theorem toNat_group (x : ℤ) : ((BitVec.ofInt 8 (x % 128)).toNat : ℤ) = x % 128 := by
  rw [BitVec.toNat_ofInt]
  omega

theorem toNat_group_more (x : ℤ) : ((BitVec.ofInt 8 (x % 128 + 128)).toNat : ℤ) =
    x % 128 + 128 := by
  rw [BitVec.toNat_ofInt]
  omega

end Groups

/-! ## Numerals of any length -/

/-- The number a numeral stands for: the sixth bit of the last group is its sign. -/
def slebValue : List Byte → ℤ
  | [] => 0
  | [b] => if b.toNat % 128 < 64 then b.toNat % 128 else b.toNat % 128 - 128
  | b :: bs => b.toNat % 128 + 128 * slebValue bs

/-- The last byte, and no other, has its top bit clear. -/
def Terminated : List Byte → Prop
  | [] => False
  | [b] => b.toNat < 128
  | b :: bs => 128 ≤ b.toNat ∧ Terminated bs

theorem Terminated.ne_nil {bs : List Byte} (h : Terminated bs) : bs ≠ [] := by
  rintro rfl
  exact h

theorem slebValue_cons {b : Byte} {bs : List Byte} (h : bs ≠ []) :
    slebValue (b :: bs) = b.toNat % 128 + 128 * slebValue bs := by
  cases bs with
  | nil => exact absurd rfl h
  | cons c bs => rfl

theorem terminated_cons {b : Byte} {bs : List Byte} (h : bs ≠ []) :
    Terminated (b :: bs) ↔ 128 ≤ b.toNat ∧ Terminated bs := by
  cases bs with
  | nil => exact absurd rfl h
  | cons c bs => exact Iff.rfl

/-- Either every byte asks for another one, or a numeral ends somewhere. -/
theorem exists_terminated (bytes : List Byte) :
    (∀ b ∈ bytes, 128 ≤ b.toNat) ∨ ∃ bs rest, bytes = bs ++ rest ∧ Terminated bs := by
  induction bytes with
  | nil => exact .inl fun _ hb => nomatch hb
  | cons b bytes ih =>
      by_cases hb : b.toNat < 128
      · exact .inr ⟨[b], bytes, rfl, hb⟩
      · rcases ih with hall | ⟨bs, rest, rfl, hbs⟩
        · refine .inl fun c hc => ?_
          rcases List.mem_cons.mp hc with rfl | hc
          · omega
          · exact hall c hc
        · exact .inr ⟨b :: bs, rest, rfl, (terminated_cons hbs.ne_nil).mpr ⟨by omega, hbs⟩⟩

/-- The bytes of a numeral but the last ask for another one. -/
theorem Terminated.more {bs : List Byte} (h : Terminated bs) {n : ℕ} (hn : n < bs.length) :
    ∀ b ∈ bs.take n, 128 ≤ b.toNat := by
  induction bs generalizing n with
  | nil => cases hn
  | cons b bs ih =>
      cases n with
      | zero => exact fun _ hb => nomatch hb
      | succ n =>
          have hlength : n < bs.length := Nat.lt_of_succ_lt_succ hn
          have hne : bs ≠ [] := List.length_pos_iff.mp (Nat.zero_lt_of_lt hlength)
          obtain ⟨hb, hbs⟩ := (terminated_cons hne).mp h
          intro c hc
          rw [List.take_succ_cons] at hc
          rcases List.mem_cons.mp hc with rfl | hc
          · exact hb
          · exact ih hbs hlength c hc

theorem Terminated.last {bs : List Byte} {b : Byte} (h : Terminated (bs ++ [b])) :
    Terminated [b] := by
  induction bs with
  | nil => exact h
  | cons c bs ih =>
      rw [List.cons_append,
        terminated_cons (List.append_ne_nil_of_right_ne_nil _ (List.cons_ne_nil b []))] at h
      exact ih h.2

/-- The last group carries the sign, the others count as they are. -/
theorem slebValue_append_singleton (bs : List Byte) (b : Byte) :
    slebValue (bs ++ [b]) = groupsValue bs + 128 ^ bs.length * slebValue [b] := by
  induction bs with
  | nil => simp [groupsValue]
  | cons c bs ih =>
      rw [List.cons_append,
        slebValue_cons (List.append_ne_nil_of_right_ne_nil _ (List.cons_ne_nil b [])), ih,
        groupsValue, List.length_cons, pow_succ]
      push_cast
      ring

/-- A numeral of `n + 1` bytes stands for a number of `7 (n + 1)` signed bits. -/
theorem slebValue_range (bs : List Byte) (b : Byte) :
    -(64 * 128 ^ bs.length) ≤ slebValue (bs ++ [b]) ∧
      slebValue (bs ++ [b]) < 64 * 128 ^ bs.length := by
  have hlow : (groupsValue bs : ℤ) < 128 ^ bs.length := by exact_mod_cast groupsValue_lt bs
  have hsign : -64 ≤ slebValue [b] ∧ slebValue [b] ≤ 63 := by
    rw [slebValue]
    split <;> omega
  have hpow : (0 : ℤ) < 128 ^ bs.length := by positivity
  rw [slebValue_append_singleton]
  constructor <;> nlinarith

/-- The groups stand for the number modulo `128 ^ n`. -/
theorem groupsValue_eq_emod (bs : List Byte) (b : Byte) :
    (groupsValue (bs ++ [b]) : ℤ) = slebValue (bs ++ [b]) % 128 ^ (bs.length + 1) := by
  have hlt : (groupsValue (bs ++ [b]) : ℤ) < 128 ^ (bs.length + 1) := by
    have hgroups := groupsValue_lt (bs ++ [b])
    rw [List.length_append, List.length_singleton] at hgroups
    exact_mod_cast hgroups
  -- The top group counts 128 too much when its sign is set.
  obtain ⟨k, hk⟩ : ∃ k : ℤ, (groupsValue [b] : ℤ) = slebValue [b] + 128 * k := by
    rw [groupsValue, groupsValue, slebValue]
    split
    · exact ⟨0, by push_cast; omega⟩
    · exact ⟨1, by push_cast; omega⟩
  have hsum : (groupsValue (bs ++ [b]) : ℤ) =
      slebValue (bs ++ [b]) + 128 ^ (bs.length + 1) * k := by
    rw [slebValue_append_singleton, groupsValue_append, pow_succ]
    push_cast
    rw [hk]
    ring
  rw [← Int.emod_eq_of_lt (Int.natCast_nonneg _) hlt, hsum, Int.add_mul_emod_self_left]

theorem terminated_sleb (x : ℤ) : Terminated (sleb x) := by
  fun_induction sleb x with
  | case1 x h =>
      have hgroup := toNat_group x
      rw [Terminated]
      omega
  | case2 x h ih =>
      have hgroup := toNat_group_more x
      rw [terminated_cons ih.ne_nil]
      exact ⟨by omega, ih⟩

theorem slebValue_sleb (x : ℤ) : slebValue (sleb x) = x := by
  fun_induction sleb x with
  | case1 x h =>
      have hgroup := toNat_group x
      unfold SlebStops at h
      rw [slebValue]
      split <;> omega
  | case2 x h ih =>
      have hgroup := toNat_group_more x
      rw [slebValue_cons (terminated_sleb (x / 128)).ne_nil, ih]
      omega

/-- A number of `7 n` signed bits has at most `n` groups. -/
theorem sleb_length_le {n : ℕ} {x : ℤ} (hlow : -(64 * 128 ^ n) ≤ x) (hhigh : x < 64 * 128 ^ n) :
    (sleb x).length ≤ n + 1 := by
  induction n generalizing x with
  | zero =>
      have hstops : SlebStops x := by
        unfold SlebStops
        omega
      rw [sleb_of_stops hstops]
      rfl
  | succ n ih =>
      by_cases h : SlebStops x
      · rw [sleb_of_stops h]
        simp
      · rw [sleb_of_not_stops h, List.length_cons]
        rw [pow_succ] at hlow hhigh
        exact Nat.succ_le_succ (ih (by omega) (by omega))

end FractalCdt.Math
