/-
# Reading what was written

A reader takes what it needs from a position of its input and moves on.  A step reads
some items as a value when, wherever they stand, it gives that value and stops behind
them.  Steps that do are put together into larger ones.
-/

import Mathlib.Control.Monad.Basic
import Mathlib.Data.List.TakeDrop

namespace FractalCdt.Math

/-- What is left of an input at each position. -/
structure View (σ : Type) where
  left : ℕ → List σ
  left_add : ∀ offset n, left (offset + n) = (left offset).drop n

/-- Wherever the items stand, the step gives the value and stops behind them. -/
def Reads {σ α : Type} (v : View σ) (m : StateT ℕ Option α) (items : List σ) (a : α) : Prop :=
  ∀ offset rest, v.left offset = items ++ rest → m.run offset = some (a, offset + items.length)

/-- A step repeated. -/
def repeated {α : Type} (m : StateT ℕ Option α) : ℕ → StateT ℕ Option (List α)
  | 0 => pure []
  | n + 1 => do
      let a ← m
      let as ← repeated m n
      return a :: as

namespace Reads

variable {σ α β : Type} {v : View σ}

theorem left_eq {items rest : List σ} {offset : ℕ} (h : v.left offset = items ++ rest) :
    v.left (offset + items.length) = rest := by
  rw [v.left_add, h, List.drop_left]

theorem pure (a : α) : Reads v (pure a) [] a := fun _ _ _ => rfl

theorem bind {m : StateT ℕ Option α} {f : α → StateT ℕ Option β} {first second : List σ} {a : α}
    {b : β} (hm : Reads v m first a) (hf : Reads v (f a) second b) :
    Reads v (m >>= f) (first ++ second) b := by
  intro offset rest h
  rw [List.append_assoc] at h
  rw [StateT.run_bind, hm offset _ h]
  show (f a).run (offset + first.length) = _
  rw [hf _ rest (left_eq h), List.length_append, Nat.add_assoc]

/-- Behind the last of the items no more is read. -/
theorem ending {m : StateT ℕ Option α} {f : α → StateT ℕ Option β} {items : List σ} {a : α} {b : β}
    (hm : Reads v m items a) (hf : Reads v (f a) [] b) : Reads v (m >>= f) items b := by
  have hbind := hm.bind hf
  rwa [List.append_nil] at hbind

/-- A step that only looks at what has been read. -/
theorem check {m : StateT ℕ Option α} {f : α → StateT ℕ Option β} {items : List σ} {a : α} {b : β}
    (hm : Reads v m [] a) (hf : Reads v (f a) items b) : Reads v (m >>= f) items b := hm.bind hf

theorem map {m : StateT ℕ Option α} {items : List σ} {a : α} (hm : Reads v m items a) (f : α → β) :
    Reads v (f <$> m) items (f a) := by
  rw [map_eq_pure_bind]
  exact hm.ending (pure (f a))

/-- Items of one kind, one after another. -/
theorem repeated {m : StateT ℕ Option β} {write : α → List σ} {f : α → β} {xs : List α}
    (h : ∀ x ∈ xs, Reads v m (write x) (f x)) :
    Reads v (Math.repeated m xs.length) (xs.flatMap write) (xs.map f) := by
  induction xs with
  | nil => exact pure []
  | cons x xs ih =>
      have hrest := ih fun y hy => h y (List.mem_cons_of_mem x hy)
      exact (h x List.mem_cons_self).bind (hrest.ending (pure (f x :: xs.map f)))

/-- One item too few. -/
theorem repeated_ending {m : StateT ℕ Option β} {write : α → List σ} {f : α → β} {xs : List α}
    (h : ∀ x ∈ xs, Reads v m (write x) (f x))
    (hend : ∀ offset, v.left offset = [] → m.run offset = none)
    {offset : ℕ} (hleft : v.left offset = xs.flatMap write) :
    (Math.repeated m (xs.length + 1)).run offset = none := by
  induction xs generalizing offset with
  | nil =>
      rw [List.length_nil, Nat.zero_add, Math.repeated, StateT.run_bind, hend offset hleft]
      rfl
  | cons x xs ih =>
      rw [List.flatMap_cons] at hleft
      have hfirst := h x List.mem_cons_self offset _ hleft
      have hrest := ih (fun y hy => h y (List.mem_cons_of_mem x hy)) (left_eq hleft)
      rw [List.length_cons, Math.repeated, StateT.run_bind, hfirst]
      dsimp only [Option.bind_eq_bind, Option.bind_some]
      rw [StateT.run_bind, hrest]
      rfl

end Reads

end FractalCdt.Math
