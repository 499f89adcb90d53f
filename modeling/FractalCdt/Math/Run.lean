/-
# Runs of a failing step function

A component takes one operation after another; an operation answers and moves
the state, or fails, and a failure ends the run.  `Along` says that a property
holds of every operation of a run that does not fail.  The two rules below turn
a fact about one step from any state satisfying an invariant into a fact about
every run from such a state.
-/

import Mathlib.Data.Nat.Notation
import Mathlib.Control.Basic

namespace FractalCdt.Math

variable {σ ε ω β : Type}

/-- `P` holds of every operation of the run that does not fail.  `P` sees the
state before the operation, the operation, its answer and the state after. -/
def Along (step : ω → StateT σ (Except ε) β) (P : σ → ω → β → σ → Prop) : List ω → σ → Prop
  | [], _ => True
  | op :: ops, s =>
      match (step op).run s with
      | .error _ => True
      | .ok (b, s') => P s op b s' ∧ Along step P ops s'

variable {step : ω → StateT σ (Except ε) β} {P Q : σ → ω → β → σ → Prop}

theorem along_cons_of_ok {op : ω} {ops : List ω} {s s' : σ} {b : β}
    (hstep : (step op).run s = .ok (b, s')) :
    Along step P (op :: ops) s ↔ P s op b s' ∧ Along step P ops s' := by
  rw [Along, hstep]

theorem along_cons_of_error {op : ω} {ops : List ω} {s : σ} {e : ε}
    (hstep : (step op).run s = .error e) : Along step P (op :: ops) s := by
  rw [Along, hstep]
  trivial

/-- Along any run that starts in the invariant, two properties that agree on
every single step from the invariant agree.  The invariant need only survive the
steps that have the property. -/
theorem along_congr (Inv : σ → Prop)
    (preserved : ∀ s op b s', Inv s → (step op).run s = .ok (b, s') → Q s op b s' → Inv s')
    (agree : ∀ s op b s', Inv s → (step op).run s = .ok (b, s') → (P s op b s' ↔ Q s op b s'))
    {ops : List ω} {s : σ} (hinv : Inv s) : Along step P ops s ↔ Along step Q ops s := by
  induction ops generalizing s with
  | nil => exact Iff.rfl
  | cons op ops ih =>
      cases hrun : (step op).run s with
      | error e => exact iff_of_true (along_cons_of_error hrun) (along_cons_of_error hrun)
      | ok out =>
          obtain ⟨b, s'⟩ := out
          rw [along_cons_of_ok hrun, along_cons_of_ok hrun, agree s op b s' hinv hrun]
          exact and_congr_right fun hq => ih (preserved s op b s' hinv hrun hq)

/-- A property of every single step from the invariant holds along every run
that starts in it. -/
theorem along_of_invariant (Inv : σ → Prop)
    (preserved : ∀ s op b s', Inv s → (step op).run s = .ok (b, s') → Inv s')
    (holds : ∀ s op b s', Inv s → (step op).run s = .ok (b, s') → P s op b s')
    {ops : List ω} {s : σ} (hinv : Inv s) : Along step P ops s := by
  induction ops generalizing s with
  | nil => trivial
  | cons op ops ih =>
      cases hrun : (step op).run s with
      | error e => exact along_cons_of_error hrun
      | ok out =>
          obtain ⟨b, s'⟩ := out
          rw [along_cons_of_ok hrun]
          exact ⟨holds s op b s' hinv hrun, ih (preserved s op b s' hinv hrun)⟩

/-- A run of operations of one kind is a run of that kind. -/
theorem along_map {κ : Type} (f : κ → ω) (ops : List κ) (s : σ) :
    Along step P (ops.map f) s ↔ Along (fun op => step (f op)) (fun s op => P s (f op)) ops s := by
  induction ops generalizing s with
  | nil => exact Iff.rfl
  | cons op ops ih =>
      rw [List.map_cons]
      cases hrun : (step (f op)).run s with
      | error e =>
          exact iff_of_true (along_cons_of_error hrun)
            (@along_cons_of_error _ _ _ _ (fun op => step (f op)) _ op ops s e hrun)
      | ok out =>
          obtain ⟨b, s'⟩ := out
          rw [along_cons_of_ok hrun,
            @along_cons_of_ok _ _ _ _ (fun op => step (f op)) _ op ops s s' b hrun, ih]

end FractalCdt.Math
