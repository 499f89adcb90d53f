/-
# The blocks of a serializer

`operator<<` hands its bytes to `write` in blocks, each with a `size_t` size.
For a value its C++ type can hold no block is too long for that size, so a
serializer is a run of `write` operations whatever the stream.
-/

import FractalCdt.Codec.Serialize

namespace FractalCdt.Codec

open FractalCdt.Math

/-- The sizes of the blocks fit a `size_t`. -/
def BlocksFit (program : WriteProgram Fault) : Prop :=
  ∃ blocks, Writes program blocks ∧ ∀ block ∈ blocks, block.length < 2 ^ 32

theorem blocksFit_pure : BlocksFit fun _ _ => pure () := ⟨[], writes_pure, nofun⟩

theorem blocksFit_write {block : List Byte} (h : block.length < 2 ^ 32) :
    BlocksFit fun _ _ => ByteSink.write block := by
  refine ⟨[block], writes_write block, ?_⟩
  intro b hb
  rwa [List.mem_singleton.mp hb]

theorem BlocksFit.bind {first second : WriteProgram Fault} (h₁ : BlocksFit first)
    (h₂ : BlocksFit second) : BlocksFit (fun σ _ => do first σ; second σ) := by
  obtain ⟨blocks₁, hwrites₁, hfit₁⟩ := h₁
  obtain ⟨blocks₂, hwrites₂, hfit₂⟩ := h₂
  refine ⟨blocks₁ ++ blocks₂, hwrites₁.bind hwrites₂, ?_⟩
  intro block hblock
  rcases List.mem_append.mp hblock with hblock | hblock
  · exact hfit₁ block hblock
  · exact hfit₂ block hblock

theorem BlocksFit.lt {program : WriteProgram Fault} (h : BlocksFit program) :
    ∀ block ∈ blocksOf program, block.length < 2 ^ 32 := by
  obtain ⟨blocks, hwrites, hfit⟩ := h
  rwa [hwrites.blocksOf_eq]

theorem blocksFit_writeGroups {w : ℕ} (turns : ℕ) (val : BitVec w) :
    BlocksFit (writeGroups turns val) := by
  induction turns generalizing val with
  | zero => exact blocksFit_pure
  | succ turns ih =>
      have hbyte : BlocksFit fun _ _ => ByteSink.write [groupByte val] :=
        blocksFit_write (by simp)
      by_cases hmore : val >>> 7 ≠ 0#w
      · simp only [writeGroups, if_pos hmore]
        exact hbyte.bind (ih _)
      · simp only [writeGroups, if_neg hmore]
        exact hbyte.bind blocksFit_pure

theorem blocksFit_writeSize (n : ℕ) : BlocksFit (writeSize n) := blocksFit_writeGroups 10 _

section Containers

variable {α : Type} {each : α → WriteProgram Fault} {v : List α}

theorem blocksFit_writeEach (h : ∀ x ∈ v, BlocksFit (each x)) : BlocksFit (writeEach each v) := by
  induction v with
  | nil => exact blocksFit_pure
  | cons x v ih =>
      have hhead := h x List.mem_cons_self
      have htail := ih fun y hy => h y (List.mem_cons_of_mem x hy)
      exact hhead.bind htail

theorem blocksFit_writeSequence (h : ∀ x ∈ v, BlocksFit (each x)) :
    BlocksFit (writeSequence each v) := (blocksFit_writeSize v.length).bind (blocksFit_writeEach h)

end Containers

theorem blocksFit_writeString {v : List Byte} (hfits : SizeFits v) : BlocksFit (writeString v) := by
  refine (blocksFit_writeSize v.length).bind ?_
  by_cases hlength : v.length ≠ 0
  · simp only [if_pos hlength]
    exact blocksFit_write hfits
  · simp only [if_neg hlength]
    exact blocksFit_pure

theorem blocksFit_writeVector {t : Ty} {each : Val t → WriteProgram Fault} {v : List (Val t)}
    (hfits : SizeFits v) (h : ∀ x ∈ v, BlocksFit (each x)) : BlocksFit (writeVector t each v) := by
  unfold writeVector
  split
  · exact (blocksFit_writeSize _).bind (blocksFit_write hfits)
  · exact blocksFit_writeSequence h

theorem blocksFit_writeCArray {t : Ty} {n : ℕ} (ht : (Ty.carray t n).Serialisable)
    {each : Val t → WriteProgram Fault} (v : List.Vector (Val t) n)
    (h : ∀ x ∈ v.toList, BlocksFit (each x)) : BlocksFit (writeCArray t each v.toList) := by
  cases t with
  | prim p =>
      refine (blocksFit_writeSize _).bind (blocksFit_write ?_)
      have hlength : (v.toList.flatMap p.bytes).length = n * p.size :=
        (p.length_flatMap_bytes v.toList).trans (congrArg (· * p.size) v.toList_length)
      rw [hlength]
      exact ht.2.1 p rfl
  | _ => exact blocksFit_writeSequence h

variable {less : Comparators}

mutual

/-- No block of a value its type can hold is too long for its size. -/
theorem blocksFit_serialize : (t : Ty) → t.Serialisable → (v : Val t) → WellFormed less t v →
    BlocksFit (serialize t v)
  | .prim p, _, v, _ => blocksFit_write (Nat.lt_of_le_of_lt (p.length_bytes_le v) (by decide))
  | .unsignedInt, _, _, _ => blocksFit_writeGroups 10 _
  | .signedInt, _, _, _ => blocksFit_writeGroups 5 _
  | .name, _, (v : BitVec 64), _ => blocksFit_write (by rw [length_leBytes]; decide)
  | .address, _, _, _ => blocksFit_writeEach fun _ _ => blocksFit_write (by simp)
  | .checksum256, _, _, _ => blocksFit_writeEach fun _ _ => blocksFit_write (by simp)
  | .string, _, _, hv => blocksFit_writeString hv
  | .vector t, ht, _, hv =>
      blocksFit_writeVector hv.1 fun x hx => blocksFit_serialize t ht.2 x (hv.2 x hx)
  | .list t, ht, _, hv =>
      blocksFit_writeSequence fun x hx => blocksFit_serialize t ht x (hv.2 x hx)
  | .deque t, ht, _, hv =>
      blocksFit_writeSequence fun x hx => blocksFit_serialize t ht x (hv.2 x hx)
  | .set t, ht, _, hv =>
      blocksFit_writeSequence fun x hx => blocksFit_serialize t ht x (hv.2.2 x hx)
  | .map k t, ht, _, hv => blocksFit_writeSequence fun i hi =>
      (blocksFit_serialize k ht.1 i.1 (hv.2.2 i hi).1).bind
        (blocksFit_serialize t ht.2 i.2 (hv.2.2 i hi).2)
  | .pair a b, ht, v, hv =>
      (blocksFit_serialize a ht.1 v.1 hv.1).bind (blocksFit_serialize b ht.2 v.2 hv.2)
  | .tuple ts, ht, v, hv => blocksFit_serializeFields ts ht v hv
  | .optional t, ht, (v : Option (Val t)), hv => by
      cases v with
      | none => exact (blocksFit_write (by decide : [0].length < _)).bind blocksFit_pure
      | some x =>
          exact (blocksFit_write (by decide : [1].length < _)).bind
            (blocksFit_serialize t ht x (hv x rfl))
  | .variant t ts, ht, (v : Val t ⊕ Alts ts), hv => by
      cases v with
      | inl x => exact (blocksFit_writeSize 0).bind (blocksFit_serialize t ht.2.2.1 x hv)
      | inr alt =>
          exact (blocksFit_writeSize (altIndex ts alt + 1)).bind
            (blocksFit_serializeAlt ts ht.2.2.2 alt hv)
  | .array t _, ht, _, hv =>
      blocksFit_writeEach fun x hx => blocksFit_serialize t ht x (hv x hx)
  | .carray t _, ht, v, hv =>
      blocksFit_writeCArray ht v fun x hx => blocksFit_serialize t ht.2.2 x (hv x hx)
  | .struct _ ts, ht, v, hv => blocksFit_serializeFields ts ht v hv

theorem blocksFit_serializeFields : (ts : List Ty) → AllSerialisable ts → (v : Vals ts) →
    AllWellFormed less ts v → BlocksFit (serializeFields ts v)
  | [], _, _, _ => blocksFit_pure
  | t :: ts, ht, v, hv =>
      (blocksFit_serialize t ht.1 v.1 hv.1).bind (blocksFit_serializeFields ts ht.2 v.2 hv.2)

theorem blocksFit_serializeAlt : (ts : List Ty) → AllSerialisable ts → (v : Alts ts) →
    AltWellFormed less ts v → BlocksFit (serializeAlt ts v)
  | [], _, v, _ => nomatch v
  | t :: ts, ht, (v : Val t ⊕ Alts ts), hv => by
      cases v with
      | inl x => exact blocksFit_serialize t ht.1 x hv
      | inr alt => exact blocksFit_serializeAlt ts ht.2 alt hv

end

end FractalCdt.Codec
