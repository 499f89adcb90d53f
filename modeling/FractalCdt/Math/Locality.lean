/-
# Programs that depend only on what they take

A program that reads a list of bytes from the front is local when its answer is
decided by the bytes it takes, and when it fails only for want of bytes or
because of those it has seen.  Such a program notices every truncation: on too
few bytes it starves.
-/

import FractalCdt.Math.ByteSource

namespace FractalCdt.Math

variable {ε α β : Type} {starved : ε → Prop}

/-- What the program takes decides its answer, and so it does a failure other
than starving. -/
structure Local (starved : ε → Prop) (f : StateT (List Byte) (Except ε) α) : Prop where
  takes : ∀ {bytes a rest}, f.run bytes = .ok (a, rest) →
    ∃ taken, bytes = taken ++ rest ∧ Decodes f taken a
  fails : ∀ {bytes e}, f.run bytes = .error e →
    starved e ∨ ∀ more, f.run (bytes ++ more) = .error e

theorem local_pure (a : α) : Local starved (pure a) where
  takes := by
    intro bytes b rest hrun
    cases hrun
    exact ⟨[], rfl, decodes_pure a⟩
  fails := nofun

theorem local_throw (e : ε) : Local (α := α) starved (throw e) where
  takes := nofun
  fails := by
    intro bytes e' hrun
    cases hrun
    exact .inr fun _ => rfl

theorem Local.bind {f : StateT (List Byte) (Except ε) α}
    {g : α → StateT (List Byte) (Except ε) β} (hf : Local starved f)
    (hg : ∀ a, Local starved (g a)) : Local starved (f >>= g) where
  takes := by
    intro bytes b rest hrun
    rw [StateT.run_bind] at hrun
    cases hfirst : f.run bytes with
    | error e =>
        rw [hfirst] at hrun
        cases hrun
    | ok x =>
        obtain ⟨a, mid⟩ := x
        rw [hfirst] at hrun
        obtain ⟨taken₁, rfl, hdec₁⟩ := hf.takes hfirst
        obtain ⟨taken₂, rfl, hdec₂⟩ := (hg a).takes hrun
        exact ⟨taken₁ ++ taken₂, (List.append_assoc ..).symm, hdec₁.bind hdec₂⟩
  fails := by
    intro bytes e hrun
    rw [StateT.run_bind] at hrun
    cases hfirst : f.run bytes with
    | error e' =>
        rw [hfirst] at hrun
        cases hrun
        rcases hf.fails hfirst with hstarved | hfails
        · exact .inl hstarved
        · right
          intro more
          rw [StateT.run_bind, hfails]
          rfl
    | ok x =>
        obtain ⟨a, mid⟩ := x
        rw [hfirst] at hrun
        obtain ⟨taken, rfl, hdec⟩ := hf.takes hfirst
        rcases (hg a).fails hrun with hstarved | hfails
        · exact .inl hstarved
        · right
          intro more
          rw [StateT.run_bind, List.append_assoc, hdec]
          exact hfails more

/-- Locality is a matter of the steps of a program. -/
theorem composes_local (starved : ε → Prop) :
    Composes (σ := List Byte) (τ := List Byte) fun α f _ => Local (α := α) starved f where
  pure := local_pure
  throw := local_throw
  bind := Local.bind

/-- A program that takes these bytes starves when they are cut short. -/
theorem Local.starves {f : StateT (List Byte) (Except ε) α} (hf : Local starved f)
    {kept cut : List Byte} {a : α} (hdec : Decodes f (kept ++ cut) a) (hcut : cut ≠ []) :
    ∃ e, f.run kept = .error e ∧ starved e := by
  have hall := hdec []
  rw [List.append_nil] at hall
  cases hrun : f.run kept with
  | error e =>
      rcases hf.fails hrun with hstarved | hfails
      · exact ⟨e, rfl, hstarved⟩
      · rw [hfails] at hall
        cases hall
  | ok x =>
      obtain ⟨b, rest⟩ := x
      -- Having got through on the first part, it would leave the second alone.
      obtain ⟨taken, rfl, hdec'⟩ := hf.takes hrun
      rw [List.append_assoc, hdec'] at hall
      have hrest : rest ++ cut = [] := congrArg Prod.snd (Except.ok.inj hall)
      exact absurd (List.append_eq_nil_iff.mp hrest).2 hcut

end FractalCdt.Math
