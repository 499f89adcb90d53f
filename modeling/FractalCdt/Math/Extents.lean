/-
# Extents laid out one after another

An allocator that only moves a frontier, and a linker that places one section
after another, both keep the same picture: everything placed so far lies between
a lower end and the frontier, and no two pieces overlap.
-/

import Mathlib.Data.Nat.Notation
import Mathlib.Order.Nat

namespace FractalCdt.Math

/-- The next multiple of `a`. -/
def alignUp (a n : ℕ) : ℕ := (n + (a - 1)) / a * a

section Align

variable {a n : ℕ}

theorem dvd_alignUp : a ∣ alignUp a n := Nat.dvd_mul_left a _

theorem le_alignUp (ha : 0 < a) : n ≤ alignUp a n := by
  have hdiv := Nat.div_add_mod (n + (a - 1)) a
  have hmod := Nat.mod_lt (n + (a - 1)) ha
  rw [Nat.mul_comm] at hdiv
  rw [alignUp]
  omega

theorem alignUp_lt (ha : 0 < a) : alignUp a n < n + a := by
  have hle := Nat.div_mul_le_self (n + (a - 1)) a
  rw [alignUp]
  omega

/-- Rounding up does not pass a multiple. -/
theorem alignUp_le {m : ℕ} (ha : 0 < a) (hm : a ∣ m) (h : n ≤ m) : alignUp a n ≤ m := by
  obtain ⟨k, rfl⟩ := hm
  obtain ⟨j, hj⟩ := @dvd_alignUp a n
  have hlt := @alignUp_lt a n ha
  rw [hj] at hlt ⊢
  have hle : j < k + 1 := by
    apply Nat.lt_of_mul_lt_mul_left (a := a)
    rw [Nat.mul_succ]
    omega
  exact Nat.mul_le_mul_left a (Nat.le_of_lt_succ hle)

theorem alignUp_of_dvd (ha : 0 < a) (h : a ∣ n) : alignUp a n = n := by
  obtain ⟨k, rfl⟩ := h
  rw [alignUp, Nat.mul_comm a k, Nat.add_comm, Nat.add_mul_div_right _ _ ha,
    Nat.div_eq_of_lt (by omega), Nat.zero_add]

end Align

/-- The cells `[start, start + len)`. -/
structure Extent where
  start : ℕ
  len : ℕ
  deriving DecidableEq, Repr

namespace Extent

def stop (x : Extent) : ℕ := x.start + x.len

/-- One ends before the other starts. -/
def Apart (x y : Extent) : Prop := x.stop ≤ y.start ∨ y.stop ≤ x.start

instance (x y : Extent) : Decidable (x.Apart y) := inferInstanceAs (Decidable (_ ∨ _))

end Extent

/-- Everything lies between `lo` and the frontier `hi`, and no two overlap. -/
structure Stacked (lo hi : ℕ) (xs : List Extent) : Prop where
  inside : ∀ x ∈ xs, lo ≤ x.start ∧ x.stop ≤ hi
  apart : xs.Pairwise Extent.Apart

namespace Stacked

variable {lo hi hi' : ℕ} {xs : List Extent}

theorem nil : Stacked lo hi [] := ⟨nofun, .nil⟩

/-- What starts at the frontier is apart from everything placed. -/
theorem apart_of_le (h : Stacked lo hi xs) {x : Extent} (hx : hi ≤ x.start) :
    ∀ y ∈ xs, x.Apart y := by
  intro y hy
  exact .inr ((h.inside y hy).2.trans hx)

/-- Place one more and move the frontier behind it. -/
theorem push (h : Stacked lo hi xs) (hlo : lo ≤ hi) {x : Extent} (hx : hi ≤ x.start)
    (hstop : x.stop ≤ hi') : Stacked lo hi' (x :: xs) where
  inside := by
    intro y hy
    rcases List.mem_cons.mp hy with rfl | hy
    · exact ⟨hlo.trans hx, hstop⟩
    · obtain ⟨hylo, hyhi⟩ := h.inside y hy
      exact ⟨hylo, hyhi.trans (hx.trans ((Nat.le_add_right _ _).trans hstop))⟩
  apart := List.pairwise_cons.mpr ⟨h.apart_of_le hx, h.apart⟩

end Stacked

end FractalCdt.Math
