/-
# Runs of a labelled step relation

A program performs one labelled step after another.  A run of it is finite, with
the labels in order as its trace, or goes on forever.  The rules below carry runs
between a system and one that contains it, follows it step for step and has in
addition steps by which a run leaves the contained part for good.
-/

import Mathlib.Data.Nat.Notation
import Mathlib.Tactic.Choose

namespace FractalCdt.Math

variable {σ τ ε : Type}

/-- The steps lead from one state to another and have the trace as their labels. -/
inductive Steps (step : σ → ε → σ → Prop) : σ → List ε → σ → Prop
  | refl (s : σ) : Steps step s [] s
  | head {s s' s'' : σ} {e : ε} {tr : List ε} :
      step s e s' → Steps step s' tr s'' → Steps step s (e :: tr) s''

/-- A run without an end, with the label of each step. -/
def Forever (step : σ → ε → σ → Prop) (s : σ) (e : ℕ → ε) : Prop :=
  ∃ f : ℕ → σ, f 0 = s ∧ ∀ n, step (f n) (e n) (f (n + 1))

/-- No step leads on. -/
def Blocked (step : σ → ε → σ → Prop) (s : σ) : Prop := ∀ e s', ¬ step s e s'

/-- A label in front of an endless sequence. -/
def consSeq (e : ε) (es : ℕ → ε) : ℕ → ε
  | 0 => e
  | n + 1 => es n

section Rules

variable {step : σ → ε → σ → Prop} {s s' t : σ} {e : ε} {tr : List ε}

theorem steps_nil_iff : Steps step s [] t ↔ s = t := by
  constructor
  · intro h
    cases h
    rfl
  · intro h
    subst h
    exact .refl s

theorem steps_cons_iff : Steps step s (e :: tr) t ↔ ∃ s', step s e s' ∧ Steps step s' tr t := by
  constructor
  · intro h
    cases h with
    | head hstep hsteps => exact ⟨_, hstep, hsteps⟩
  · rintro ⟨s', hstep, hsteps⟩
    exact .head hstep hsteps

theorem Steps.snoc (h : Steps step s tr t) {t' : σ} (hstep : step t e t') :
    Steps step s (tr ++ [e]) t' := by
  induction h with
  | refl s => exact .head hstep (.refl t')
  | head hfirst _ ih => exact .head hfirst (ih hstep)

theorem Blocked.steps_eq (hblocked : Blocked step s) (h : Steps step s tr t) : tr = [] ∧ t = s := by
  cases h with
  | refl => exact ⟨rfl, rfl⟩
  | head hstep _ => exact absurd hstep (hblocked _ _)

/-- A property of the state and of the number of steps taken that always lets the
next step be taken keeps a run going. -/
theorem forever_of_invariant {es : ℕ → ε} (Inv : ℕ → σ → Prop)
    (next : ∀ n s, Inv n s → ∃ s', step s (es n) s' ∧ Inv (n + 1) s') (hs : Inv 0 s) :
    Forever step s es := by
  choose succ hsucc hinv using next
  let walk : (n : ℕ) → {s // Inv n s} := fun n =>
    n.rec ⟨s, hs⟩ fun n at_n => ⟨succ n at_n.1 at_n.2, hinv n at_n.1 at_n.2⟩
  exact ⟨fun n => (walk n).1, rfl, fun n => hsucc n (walk n).1 (walk n).2⟩

/-- A run forever is a first step and a run forever. -/
theorem forever_iff {es : ℕ → ε} :
    Forever step s es ↔ ∃ s', step s (es 0) s' ∧ Forever step s' fun n => es (n + 1) := by
  constructor
  · rintro ⟨f, rfl, hf⟩
    exact ⟨f 1, hf 0, fun n => f (n + 1), rfl, fun n => hf (n + 1)⟩
  · rintro ⟨s', hstep, f, rfl, hf⟩
    refine ⟨fun n => n.casesOn s f, rfl, ?_⟩
    intro n
    cases n with
    | zero => exact hstep
    | succ n => exact hf n

theorem Blocked.not_forever (hblocked : Blocked step s) {es : ℕ → ε} : ¬ Forever step s es := by
  intro h
  obtain ⟨s', hstep, _⟩ := forever_iff.mp h
  exact hblocked _ _ hstep

end Rules

/-! ## A system inside another -/

/-- `emb` places the states of a system that satisfy an invariant inside those of
another.  There the other system takes the same steps, and it may leave, to where
nothing leads on. -/
structure Embeds (step : σ → ε → σ → Prop) (step' : τ → ε → τ → Prop) (Inv : σ → Prop)
    (emb : σ → τ) (leave : σ → ε → τ → Prop) : Prop where
  step_iff : ∀ s e t, Inv s → (step' (emb s) e t ↔ (∃ s', step s e s' ∧ emb s' = t) ∨ leave s e t)
  preserved : ∀ s e s', Inv s → step s e s' → Inv s'
  blocked : ∀ s e t, leave s e t → Blocked step' t

namespace Embeds

variable {step : σ → ε → σ → Prop} {step' : τ → ε → τ → Prop} {Inv : σ → Prop} {emb : σ → τ}
  {leave : σ → ε → τ → Prop}

theorem inv_of_steps (h : Embeds step step' Inv emb leave) {s s' : σ} {tr : List ε} (hs : Inv s)
    (hrun : Steps step s tr s') : Inv s' := by
  induction hrun with
  | refl s => exact hs
  | head hstep _ ih => exact ih (h.preserved _ _ _ hs hstep)

theorem steps_emb (h : Embeds step step' Inv emb leave) {s s' : σ} {tr : List ε} (hs : Inv s)
    (hrun : Steps step s tr s') : Steps step' (emb s) tr (emb s') := by
  induction hrun with
  | refl s => exact .refl (emb s)
  | head hstep _ ih =>
      exact .head ((h.step_iff _ _ _ hs).mpr (.inl ⟨_, hstep, rfl⟩))
        (ih (h.preserved _ _ _ hs hstep))

/-- A run from an embedded state is a run of the embedded system, or such a run
followed by the step that leaves it. -/
theorem steps_iff (h : Embeds step step' Inv emb leave) {s : σ} {tr : List ε} {t : τ}
    (hs : Inv s) :
    Steps step' (emb s) tr t ↔ (∃ s', Steps step s tr s' ∧ emb s' = t) ∨
      ∃ inner s' e, Steps step s inner s' ∧ leave s' e t ∧ tr = inner ++ [e] := by
  constructor
  · intro hsteps
    induction tr generalizing s with
    | nil =>
        rw [steps_nil_iff] at hsteps
        exact .inl ⟨s, .refl s, hsteps⟩
    | cons e tr ih =>
        obtain ⟨u, hstep, hsteps⟩ := steps_cons_iff.mp hsteps
        rcases (h.step_iff s e u hs).mp hstep with ⟨s', hinner, rfl⟩ | hleave
        · rcases ih (h.preserved s e s' hs hinner) hsteps with
            ⟨s'', hrun, rfl⟩ | ⟨inner, s'', e', hrun, hleave, rfl⟩
          · exact .inl ⟨s'', .head hinner hrun, rfl⟩
          · exact .inr ⟨e :: inner, s'', e', .head hinner hrun, hleave, rfl⟩
        · obtain ⟨rfl, rfl⟩ := (h.blocked s e u hleave).steps_eq hsteps
          exact .inr ⟨[], s, e, .refl s, hleave, rfl⟩
  · rintro (⟨s', hrun, rfl⟩ | ⟨inner, s', e, hrun, hleave, rfl⟩)
    · exact h.steps_emb hs hrun
    · have hs' : Inv s' := h.inv_of_steps hs hrun
      exact (h.steps_emb hs hrun).snoc ((h.step_iff s' e t hs').mpr (.inr hleave))

/-- The runs forever from an embedded state are those of the embedded system. -/
theorem forever_iff (h : Embeds step step' Inv emb leave) {s : σ} {es : ℕ → ε} (hs : Inv s) :
    Forever step' (emb s) es ↔ Forever step s es := by
  constructor
  · intro hforever
    apply forever_of_invariant fun n s => Inv s ∧ Forever step' (emb s) fun k => es (n + k)
    · rintro n s ⟨hs, hrest⟩
      obtain ⟨t, hstep, hrest⟩ := Math.forever_iff.mp hrest
      rcases (h.step_iff s _ t hs).mp hstep with ⟨s', hinner, rfl⟩ | hleave
      · refine ⟨s', hinner, h.preserved _ _ _ hs hinner, ?_⟩
        simpa only [Nat.add_assoc, Nat.add_comm 1] using hrest
      · exact absurd hrest (h.blocked s _ t hleave).not_forever
    · exact ⟨hs, by simpa only [Nat.zero_add] using hforever⟩
  · rintro ⟨f, rfl, hf⟩
    have hinv : ∀ n, Inv (f n) := by
      intro n
      induction n with
      | zero => exact hs
      | succ n ih => exact h.preserved _ _ _ ih (hf n)
    exact ⟨fun n => emb (f n), rfl, fun n =>
      (h.step_iff _ _ _ (hinv n)).mpr (.inl ⟨_, hf n, rfl⟩)⟩

theorem blocked_iff (h : Embeds step step' Inv emb leave) {s : σ} (hs : Inv s) :
    Blocked step' (emb s) ↔ Blocked step s ∧ ∀ e t, ¬ leave s e t := by
  constructor
  · intro hblocked
    constructor
    · intro e s' hstep
      exact hblocked e (emb s') ((h.step_iff _ _ _ hs).mpr (.inl ⟨s', hstep, rfl⟩))
    · intro e t hleave
      exact hblocked e t ((h.step_iff _ _ _ hs).mpr (.inr hleave))
  · rintro ⟨hblocked, hstays⟩ e t hstep
    rcases (h.step_iff _ _ _ hs).mp hstep with ⟨s', hinner, -⟩ | hleave
    · exact hblocked e s' hinner
    · exact hstays e t hleave

end Embeds

end FractalCdt.Math
