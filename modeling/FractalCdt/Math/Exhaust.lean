/-
# Stepping until nothing is left

A worklist algorithm takes one step after another until its list is empty.
Written with a bound on the number of steps it is a recursion on the bound, and
the bound is enough if some measure of the state falls with every step.  Often
part of the measure is what has not been seen yet.
-/

import Mathlib.Algebra.Order.BigOperators.Group.List
import Mathlib.Algebra.Order.Group.Nat
import Mathlib.Algebra.Ring.Nat

namespace FractalCdt.Math

variable {σ : Type}

/-- Step until no step is left, but at most so many times. -/
def exhaust (step : σ → Option σ) : ℕ → σ → σ
  | 0, s => s
  | n + 1, s =>
      match step s with
      | none => s
      | some s' => exhaust step n s'

section Rules

variable {step : σ → Option σ} {n : ℕ} {s s' : σ}

theorem exhaust_of_none (h : step s = none) : exhaust step n s = s := by
  cases n with
  | zero => rfl
  | succ n => rw [exhaust, h]

theorem exhaust_of_some (h : step s = some s') :
    exhaust step (n + 1) s = exhaust step n s' := by
  rw [exhaust, h]

/-- What every step keeps holds in the end. -/
theorem exhaust_induction (P : σ → Prop) (preserved : ∀ s s', P s → step s = some s' → P s')
    (hs : P s) : P (exhaust step n s) := by
  induction n generalizing s with
  | zero => exact hs
  | succ n ih =>
      cases hstep : step s with
      | none =>
          rw [exhaust_of_none hstep]
          exact hs
      | some s' =>
          rw [exhaust_of_some hstep]
          exact ih (preserved s s' hs hstep)

/-- A bound that a falling measure starts within is enough. -/
theorem exhaust_stops (μ : σ → ℕ) (falls : ∀ s s', step s = some s' → μ s' < μ s)
    (hn : μ s ≤ n) : step (exhaust step n s) = none := by
  induction n generalizing s with
  | zero =>
      cases hstep : step s with
      | none => exact hstep
      | some s' => exact absurd (falls s s' hstep) (by omega)
  | succ n ih =>
      cases hstep : step s with
      | none =>
          rw [exhaust_of_none hstep]
          exact hstep
      | some s' =>
          rw [exhaust_of_some hstep]
          have := falls s s' hstep
          exact ih (by omega)

end Rules

section Unseen

variable {α : Type} [DecidableEq α] (w : α → ℕ)

/-- The weight of what has not been seen. -/
def unseen (all seen : List α) : ℕ := ((all.filter (· ∉ seen)).map w).sum

theorem unseen_le (all seen : List α) : unseen w all seen ≤ (all.map w).sum :=
  (List.filter_sublist.map w).sum_le_sum fun _ _ => Nat.zero_le _

theorem unseen_cons_le (all seen : List α) (a : α) :
    unseen w all (a :: seen) ≤ unseen w all seen := by
  unfold unseen
  have hsub : (all.filter (· ∉ a :: seen)).Sublist (all.filter (· ∉ seen)) :=
    List.monotone_filter_right all fun b hb => by
      simp only [decide_eq_true_eq, List.mem_cons, not_or] at hb ⊢
      exact hb.2
  exact (hsub.map w).sum_le_sum fun _ _ => Nat.zero_le _

/-- Seeing something for the first time takes its weight away. -/
theorem unseen_cons {all seen : List α} {a : α} (hall : a ∈ all) (hnew : a ∉ seen) :
    unseen w all (a :: seen) + w a ≤ unseen w all seen := by
  induction all with
  | nil => exact absurd hall List.not_mem_nil
  | cons b all ih =>
      have hle := unseen_cons_le w all seen a
      unfold unseen at ih hle ⊢
      by_cases hb : b = a
      · subst hb
        rw [List.filter_cons_of_neg (by simp), List.filter_cons_of_pos (by simpa using hnew),
          List.map_cons, List.sum_cons]
        omega
      · have hmem : a ∈ all := (List.mem_cons.mp hall).resolve_left (Ne.symm hb)
        by_cases hseen : b ∈ seen
        · rw [List.filter_cons_of_neg (by simp [hseen]),
            List.filter_cons_of_neg (by simpa using hseen)]
          exact ih hmem
        · rw [List.filter_cons_of_pos (by simp [hseen, hb]),
            List.filter_cons_of_pos (by simpa using hseen), List.map_cons, List.map_cons,
            List.sum_cons, List.sum_cons]
          have := ih hmem
          omega

end Unseen

end FractalCdt.Math
