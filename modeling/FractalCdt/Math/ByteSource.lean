/-
# Programs that only read bytes

A deserializer is generic in the stream it reads from: it asks for blocks and
for single bytes, and may fail.  Two streams that answer alike as long as a
relation holds between them drive such a program alike.  `Simulates` is that
statement; it transports every result proved on the simplest stream, a list of
the bytes still to come, to any stream that presents one.  `Composes` says what
makes such a statement about programs follow from the one about their steps, so
that one induction over a deserializer serves them all.
-/

import FractalCdt.Math.Bytes
import Mathlib.Control.Basic
import Mathlib.Data.Vector.Basic

namespace FractalCdt.Math

/-- A stream that hands out blocks and single bytes and may fail with an `ε`.
A block length is a machine word. -/
class ByteSource (σ : Type) (ε : outParam Type) where
  /-- Take a block of the given length. -/
  read : BitVec 32 → StateT σ (Except ε) (List Byte)
  /-- Take one byte. -/
  get : StateT σ (Except ε) Byte

/-- Repeat a step a given number of times. -/
def iterateM {m : Type → Type} [Monad m] {β : Type} (step : β → m β) : ℕ → β → m β
  | 0, b => pure b
  | n + 1, b => do iterateM step n (← step b)

section Simulation

variable {σ τ ε α β : Type}

/-- Two outcomes agree: the same failure, or the same answer in related states. -/
inductive Agrees (R : σ → τ → Prop) : Except ε (α × σ) → Except ε (α × τ) → Prop
  | ok {a : α} {s : σ} {t : τ} (related : R s t) : Agrees R (.ok (a, s)) (.ok (a, t))
  | error (e : ε) : Agrees R (.error e) (.error e)

/-- From related states the two programs have agreeing outcomes. -/
def Simulates (R : σ → τ → Prop) (f : StateT σ (Except ε) α) (g : StateT τ (Except ε) α) : Prop :=
  ∀ s t, R s t → Agrees R (f.run s) (g.run t)

variable {R : σ → τ → Prop}

theorem simulates_pure (a : α) :
    Simulates (ε := ε) R (pure a) (pure a) := fun _ _ h => .ok h

theorem simulates_throw (e : ε) :
    Simulates R (throw e : StateT σ (Except ε) α) (throw e) := fun _ _ _ => .error e

theorem Simulates.bind {f : StateT σ (Except ε) α} {g : StateT τ (Except ε) α}
    {f' : α → StateT σ (Except ε) β} {g' : α → StateT τ (Except ε) β}
    (h : Simulates R f g) (h' : ∀ a, Simulates R (f' a) (g' a)) :
    Simulates R (f >>= f') (g >>= g') := by
  intro s t hst
  rw [StateT.run_bind, StateT.run_bind]
  generalize hf : f.run s = x
  generalize hg : g.run t = y
  have hxy := h s t hst
  rw [hf, hg] at hxy
  cases hxy with
  | ok hst' => exact h' _ _ _ hst'
  | error e => exact .error e

/-- A relation between programs passes from the steps of a program to the
program. -/
structure Composes (P : (α : Type) → StateT σ (Except ε) α → StateT τ (Except ε) α → Prop) :
    Prop where
  pure : ∀ {α : Type} (a : α), P α (pure a) (pure a)
  throw : ∀ {α : Type} (e : ε), P α (throw e) (throw e)
  bind : ∀ {α β : Type} {f : StateT σ (Except ε) α} {g : StateT τ (Except ε) α}
    {f' : α → StateT σ (Except ε) β} {g' : α → StateT τ (Except ε) β},
    P α f g → (∀ a, P β (f' a) (g' a)) → P β (f >>= f') (g >>= g')

theorem composes_simulates (R : σ → τ → Prop) :
    Composes fun α => Simulates (ε := ε) (α := α) R where
  pure := simulates_pure
  throw := simulates_throw
  bind := Simulates.bind

namespace Composes

variable {P : (α : Type) → StateT σ (Except ε) α → StateT τ (Except ε) α → Prop}

theorem map (hP : Composes P) {f : StateT σ (Except ε) α} {g : StateT τ (Except ε) α}
    (h : P α f g) (k : α → β) : P β (k <$> f) (k <$> g) := by
  rw [map_eq_pure_bind, map_eq_pure_bind]
  exact hP.bind h fun a => hP.pure (k a)

theorem mapM (hP : Composes P) {f : α → StateT σ (Except ε) β} {g : α → StateT τ (Except ε) β}
    (h : ∀ a, P β (f a) (g a)) (xs : List α) : P _ (xs.mapM f) (xs.mapM g) := by
  induction xs with
  | nil => exact hP.pure []
  | cons x xs ih =>
      rw [List.mapM_cons, List.mapM_cons]
      exact hP.bind (h x) fun _ => hP.bind ih fun _ => hP.pure _

theorem mmap (hP : Composes P) {n : ℕ} {f : α → StateT σ (Except ε) β}
    {g : α → StateT τ (Except ε) β} (h : ∀ a, P β (f a) (g a)) (v : List.Vector α n) :
    P _ (v.mmap f) (v.mmap g) := by
  induction v using List.Vector.inductionOn with
  | nil => exact hP.pure _
  | cons ih =>
      rw [List.Vector.mmap_cons, List.Vector.mmap_cons]
      exact hP.bind (h _) fun _ => hP.bind ih fun _ => hP.pure _

theorem iterateM (hP : Composes P) {f : β → StateT σ (Except ε) β} {g : β → StateT τ (Except ε) β}
    (h : ∀ b, P β (f b) (g b)) (n : ℕ) (b : β) : P β (iterateM f n b) (iterateM g n b) := by
  induction n generalizing b with
  | zero => exact hP.pure b
  | succ n ih => exact hP.bind (h b) ih

end Composes

/-- A successful run on one side is matched by a successful run on the other. -/
theorem Simulates.run_ok {f : StateT σ (Except ε) α} {g : StateT τ (Except ε) α}
    (h : Simulates R f g) {s : σ} {t t' : τ} {a : α} (hst : R s t)
    (hrun : g.run t = .ok (a, t')) : ∃ s', f.run s = .ok (a, s') ∧ R s' t' := by
  have hagree := h s t hst
  rw [hrun] at hagree
  generalize f.run s = x at hagree ⊢
  cases hagree with
  | ok hst' => exact ⟨_, rfl, hst'⟩

/-- A successful run on the first side has its match on the second. -/
theorem Simulates.of_run_ok {f : StateT σ (Except ε) α} {g : StateT τ (Except ε) α}
    (h : Simulates R f g) {s s' : σ} {t : τ} {a : α} (hst : R s t)
    (hrun : f.run s = .ok (a, s')) : ∃ t', g.run t = .ok (a, t') ∧ R s' t' := by
  have hagree := h s t hst
  rw [hrun] at hagree
  generalize g.run t = y at hagree ⊢
  cases hagree with
  | ok hst' => exact ⟨_, rfl, hst'⟩

/-- A failure on one side is the failure on the other. -/
theorem Simulates.run_error {f : StateT σ (Except ε) α} {g : StateT τ (Except ε) α}
    (h : Simulates R f g) {s : σ} {t : τ} {e : ε} (hst : R s t) (hrun : g.run t = .error e) :
    f.run s = .error e := by
  have hagree := h s t hst
  rw [hrun] at hagree
  generalize f.run s = x at hagree ⊢
  cases hagree with
  | error => rfl

end Simulation

/-! ## Decoding a list of bytes -/

section Decoding

variable {ε α β : Type}

/-- On a list that starts with these bytes the program takes exactly them and
answers `a`, whatever follows. -/
def Decodes (program : StateT (List Byte) (Except ε) α) (bytes : List Byte) (a : α) : Prop :=
  ∀ rest, program.run (bytes ++ rest) = .ok (a, rest)

theorem decodes_pure (a : α) : Decodes (ε := ε) (pure a) [] a := fun _ => rfl

theorem Decodes.bind {f : StateT (List Byte) (Except ε) α}
    {g : α → StateT (List Byte) (Except ε) β} {b₁ b₂ : List Byte} {a : α} {b : β}
    (h₁ : Decodes f b₁ a) (h₂ : Decodes (g a) b₂ b) : Decodes (f >>= g) (b₁ ++ b₂) b := by
  intro rest
  rw [StateT.run_bind, List.append_assoc, h₁]
  exact h₂ rest

/-- A last step that reads nothing. -/
theorem Decodes.bind_pure {f : StateT (List Byte) (Except ε) α} {bytes : List Byte} {a : α}
    (h : Decodes f bytes a) (k : α → β) : Decodes (f >>= fun a => pure (k a)) bytes (k a) := by
  have hbind : Decodes (f >>= fun a => pure (k a)) (bytes ++ []) (k a) := by
    apply h.bind
    exact decodes_pure (k a)
  rwa [List.append_nil] at hbind

/-- Reading one element into each slot of a list. -/
theorem Decodes.mapM {δ : Type} {each : δ → StateT (List Byte) (Except ε) α} {bytes : β → List Byte}
    {f : δ → β → α} {slots : List δ} {vs : List β} (hlength : slots.length = vs.length)
    (h : ∀ d, ∀ v ∈ vs, Decodes (each d) (bytes v) (f d v)) :
    Decodes (slots.mapM each) (vs.flatMap bytes) (List.zipWith f slots vs) := by
  induction slots generalizing vs with
  | nil =>
      cases vs with
      | nil => exact decodes_pure []
      | cons v vs => cases hlength
  | cons d slots ih =>
      cases vs with
      | nil => cases hlength
      | cons v vs =>
          have hhead := h d v List.mem_cons_self
          have htail := ih (Nat.succ.inj hlength) fun d' v' hv' =>
            h d' v' (List.mem_cons_of_mem v hv')
          rw [List.mapM_cons, List.flatMap_cons, List.zipWith_cons_cons]
          exact hhead.bind (htail.bind_pure _)

/-- Reading one element into each slot of a fixed-length block. -/
theorem Decodes.mmap {δ : Type} {n : ℕ} {each : δ → StateT (List Byte) (Except ε) α}
    {bytes : β → List Byte} {f : δ → β → α} (slots : List.Vector δ n) (vs : List.Vector β n)
    (h : ∀ d, ∀ v ∈ vs.toList, Decodes (each d) (bytes v) (f d v)) :
    Decodes (slots.mmap each) (vs.toList.flatMap bytes) (.map₂ f slots vs) := by
  induction slots, vs using List.Vector.inductionOn₂ with
  | nil => exact decodes_pure _
  | cons ih =>
      rename_i n d v slots vs
      have hhead := h d v (by simp)
      have htail := ih fun d' v' hv' => h d' v' (by simp [hv'])
      rw [List.Vector.mmap_cons, List.Vector.toList_cons, List.flatMap_cons]
      exact hhead.bind (htail.bind_pure _)

/-- Reading one element after another into an accumulator. -/
theorem Decodes.iterateM {each : StateT (List Byte) (Except ε) α} {bytes : α → List Byte}
    {add : α → β → β} {vs : List α} (h : ∀ v ∈ vs, Decodes each (bytes v) v) (b : β) :
    Decodes (iterateM (fun b => do return add (← each) b) vs.length b) (vs.flatMap bytes)
      (vs.foldl (fun b v => add v b) b) := by
  induction vs generalizing b with
  | nil => exact decodes_pure b
  | cons v vs ih =>
      have hhead := (h v List.mem_cons_self).bind_pure (add · b)
      have htail := ih (fun v' hv' => h v' (List.mem_cons_of_mem v hv')) (add v b)
      exact hhead.bind htail

end Decoding

end FractalCdt.Math
