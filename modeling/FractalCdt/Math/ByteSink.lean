/-
# Programs that only write bytes

A serializer is generic in the stream it writes to: it issues block writes and
learns nothing from them except that they succeeded.  Such a program is fixed by
the list of blocks it writes, whatever the stream does with them.  `Writes`
states this, `Emits` forgets where one block ends and the next begins, and the
lemmas below compute both for a compound program from its parts.  `Absorbs.run`
then gives the effect of any such program on any stream that appends.
-/

import FractalCdt.Math.Bytes
import Mathlib.Control.Basic

namespace FractalCdt.Math

/-- A stream that accepts blocks of bytes and may fail with an `ε`. -/
class ByteSink (σ : Type) (ε : outParam Type) where
  /-- Append one block. -/
  write : List Byte → StateT σ (Except ε) Unit

/-- A program over every stream. -/
abbrev WriteProgram (ε : Type) := ∀ (σ : Type) [ByteSink σ ε], StateT σ (Except ε) Unit

/-- Write a list of blocks one after the other. -/
def writeBlocks {σ ε : Type} [ByteSink σ ε] : List (List Byte) → StateT σ (Except ε) Unit
  | [] => pure ()
  | block :: blocks => do
      ByteSink.write block
      writeBlocks blocks

/-- The program writes exactly these blocks, on every stream. -/
def Writes {ε : Type} (program : WriteProgram ε) (blocks : List (List Byte)) : Prop :=
  ∀ (σ : Type) [ByteSink σ ε], program σ = writeBlocks blocks

section Composition

variable {ε : Type}

theorem writeBlocks_append {σ : Type} [ByteSink σ ε] (first second : List (List Byte)) :
    (writeBlocks (first ++ second) : StateT σ (Except ε) Unit) =
      (do writeBlocks first; writeBlocks second) := by
  induction first with
  | nil => simp [writeBlocks]
  | cons block blocks ih => simp [writeBlocks, ih]

theorem writes_pure : Writes (ε := ε) (fun _ _ => pure ()) [] := fun _ _ => rfl

theorem writes_write (block : List Byte) :
    Writes (ε := ε) (fun _ _ => ByteSink.write block) [block] := fun _ _ => by
  simp [writeBlocks]

/-- Running one program after another concatenates their blocks. -/
theorem Writes.bind {first second : WriteProgram ε} {b₁ b₂ : List (List Byte)}
    (h₁ : Writes first b₁) (h₂ : Writes second b₂) :
    Writes (fun σ _ => do first σ; second σ) (b₁ ++ b₂) := by
  intro σ _
  simp only [writeBlocks_append, h₁ σ, h₂ σ]

/-- A stream that keeps the blocks it is given. -/
structure Recorder (ε : Type) where
  blocks : List (List Byte)

instance : ByteSink (Recorder ε) ε where
  write block := modify fun r => ⟨r.blocks ++ [block]⟩

/-- The blocks the program writes. -/
def blocksOf (program : WriteProgram ε) : List (List Byte) :=
  match (program (Recorder ε)).run ⟨[]⟩ with
  | .ok (_, r) => r.blocks
  | .error _ => []

theorem run_writeBlocks_recorder (blocks : List (List Byte)) (r : Recorder ε) :
    (writeBlocks blocks).run r = .ok ((), ⟨r.blocks ++ blocks⟩) := by
  induction blocks generalizing r with
  | nil =>
      rw [List.append_nil]
      rfl
  | cons block blocks ih =>
      have hblock : (ByteSink.write block : StateT (Recorder ε) (Except ε) Unit).run r =
          .ok ((), ⟨r.blocks ++ [block]⟩) := rfl
      rw [writeBlocks, StateT.run_bind, hblock]
      show (writeBlocks blocks).run _ = _
      rw [ih, List.append_assoc, List.singleton_append]

theorem Writes.blocksOf_eq {program : WriteProgram ε} {blocks : List (List Byte)}
    (h : Writes program blocks) : blocksOf program = blocks := by
  rw [blocksOf, h (Recorder ε), run_writeBlocks_recorder]
  exact List.nil_append blocks

/-- The program writes these bytes, cut into blocks in some fixed way. -/
def Emits (program : WriteProgram ε) (bytes : List Byte) : Prop :=
  ∃ blocks, Writes program blocks ∧ blocks.flatten = bytes

theorem Emits.flatten_blocksOf {program : WriteProgram ε} {bytes : List Byte}
    (h : Emits program bytes) : (blocksOf program).flatten = bytes := by
  obtain ⟨blocks, hwrites, hbytes⟩ := h
  rw [hwrites.blocksOf_eq, hbytes]

theorem emits_pure : Emits (ε := ε) (fun _ _ => pure ()) [] := ⟨[], writes_pure, rfl⟩

theorem emits_write (block : List Byte) :
    Emits (ε := ε) (fun _ _ => ByteSink.write block) block :=
  ⟨[block], writes_write block, by simp⟩

theorem Emits.bind {first second : WriteProgram ε} {b₁ b₂ : List Byte}
    (h₁ : Emits first b₁) (h₂ : Emits second b₂) :
    Emits (fun σ _ => do first σ; second σ) (b₁ ++ b₂) := by
  obtain ⟨blocks₁, hwrites₁, rfl⟩ := h₁
  obtain ⟨blocks₂, hwrites₂, rfl⟩ := h₂
  exact ⟨blocks₁ ++ blocks₂, hwrites₁.bind hwrites₂, List.flatten_append⟩

theorem Emits.forM {α : Type} {body : α → WriteProgram ε} {bytes : α → List Byte} {xs : List α}
    (h : ∀ x ∈ xs, Emits (body x) (bytes x)) :
    Emits (fun σ _ => xs.forM fun x => body x σ) (xs.flatMap bytes) := by
  induction xs with
  | nil => exact emits_pure
  | cons x xs ih =>
      have hhead := h x List.mem_cons_self
      have htail := ih fun y hy => h y (List.mem_cons_of_mem x hy)
      exact hhead.bind htail

end Composition

/-- A stream that appends every block it has room for.  `room s n` says that `n`
more bytes fit, `after s bytes` is the state once they are written. -/
structure Absorbs {σ ε : Type} [ByteSink σ ε] (room : σ → ℕ → Prop) (after : σ → List Byte → σ) :
    Prop where
  write : ∀ s block, room s block.length → (ByteSink.write block).run s = .ok ((), after s block)
  write_ok : ∀ s block s', (ByteSink.write block).run s = .ok ((), s') → s' = after s block
  room_append : ∀ s a n, room s (a.length + n) → room s a.length ∧ room (after s a) n
  after_nil : ∀ s, after s [] = s
  after_append : ∀ s a b, after (after s a) b = after s (a ++ b)

/-- On such a stream a program's blocks do not matter, only their bytes. -/
theorem Absorbs.run {σ ε : Type} [ByteSink σ ε] {room : σ → ℕ → Prop} {after : σ → List Byte → σ}
    (habsorbs : Absorbs room after) {program : WriteProgram ε} {bytes : List Byte}
    (h : Emits program bytes) {s : σ} (hroom : room s bytes.length) :
    (program σ).run s = .ok ((), after s bytes) := by
  obtain ⟨blocks, hwrites, rfl⟩ := h
  rw [hwrites σ]
  clear hwrites
  induction blocks generalizing s with
  | nil =>
      rw [List.flatten_nil, habsorbs.after_nil]
      rfl
  | cons block blocks ih =>
      rw [List.flatten_cons, List.length_append] at hroom
      obtain ⟨hfirst, hrest⟩ := habsorbs.room_append s block _ hroom
      rw [writeBlocks, StateT.run_bind, habsorbs.write s block hfirst]
      show (writeBlocks blocks).run (after s block) = _
      rw [ih hrest, habsorbs.after_append, List.flatten_cons]

/-- A program that got through has appended its bytes, however much room there was. -/
theorem Absorbs.eq_of_run {σ ε : Type} [ByteSink σ ε] {room : σ → ℕ → Prop}
    {after : σ → List Byte → σ} (habsorbs : Absorbs room after) {program : WriteProgram ε}
    {bytes : List Byte} (h : Emits program bytes) {s s' : σ}
    (hrun : (program σ).run s = .ok ((), s')) : s' = after s bytes := by
  obtain ⟨blocks, hwrites, rfl⟩ := h
  rw [hwrites σ] at hrun
  clear hwrites
  induction blocks generalizing s with
  | nil =>
      cases hrun
      rw [List.flatten_nil, habsorbs.after_nil]
  | cons block blocks ih =>
      rw [writeBlocks, StateT.run_bind] at hrun
      cases hblock : (ByteSink.write block : StateT σ (Except ε) Unit).run s with
      | error e =>
          rw [hblock] at hrun
          cases hrun
      | ok out =>
          obtain ⟨⟨⟩, s₁⟩ := out
          rw [hblock] at hrun
          rw [ih hrun, habsorbs.write_ok s block s₁ hblock, habsorbs.after_append,
            List.flatten_cons]

end FractalCdt.Math
