/-
# Buffers of `2^31` bytes and more

`write` compares the room left with the block as signed words.  A buffer of
`2^31` bytes or more has negative room from the start, so the first block of any
serializer fails: every overload writes a short block first, or nothing at all.
-/

import FractalCdt.Codec.Serialize
import FractalCdt.Stream.Writing

namespace FractalCdt.Codec

open FractalCdt.Math

/-- With negative room the program fails or does nothing. -/
def RefusesNegative (program : WriteProgram Fault) : Prop :=
  ∀ ds : Datastream, 2 ^ 31 ≤ ds.remaining.toNat →
    (∃ e, (program Datastream).run ds = .error e) ∨ (program Datastream).run ds = .ok ((), ds)

theorem refusesNegative_pure : RefusesNegative fun _ _ => pure () := fun _ _ => .inr rfl

theorem run_write_of_negative {ds : Datastream} {block : List Byte} (h : block.length < 2 ^ 31)
    (hneg : 2 ^ 31 ≤ ds.remaining.toNat) :
    (Datastream.write block).run ds = .error (.check "write") := by
  have hword : (BitVec.ofNat 32 block.length).toNat = block.length := by
    rw [BitVec.toNat_ofNat]
    omega
  have hsle : (BitVec.ofNat 32 block.length).sle ds.remaining = false := by
    have hlt := ds.remaining.isLt
    rw [BitVec.sle_eq_decide, decide_eq_false_iff_not, BitVec.toInt_eq_toNat_of_lt (by omega),
      BitVec.toInt_eq_toNat_cond, if_neg (by omega)]
    omega
  rw [Datastream.run_write, hsle, if_neg Bool.false_ne_true]

theorem refusesNegative_write {block : List Byte} (h : block.length < 2 ^ 31) :
    RefusesNegative fun _ _ => ByteSink.write block :=
  fun _ hneg => .inl ⟨_, run_write_of_negative h hneg⟩

theorem RefusesNegative.bind {first second : WriteProgram Fault} (h₁ : RefusesNegative first)
    (h₂ : RefusesNegative second) : RefusesNegative (fun σ _ => do first σ; second σ) := by
  intro ds hneg
  rcases h₁ ds hneg with hfail | hskip
  · obtain ⟨e, hfail⟩ := hfail
    left
    refine ⟨e, ?_⟩
    rw [StateT.run_bind, hfail]
    rfl
  · rw [StateT.run_bind, hskip]
    exact h₂ ds hneg

/-- After a program that writes something, nothing is reached. -/
theorem RefusesNegative.bind_of_fails {first : WriteProgram Fault} (second : WriteProgram Fault)
    (h : ∀ ds : Datastream, 2 ^ 31 ≤ ds.remaining.toNat →
      ∃ e, (first Datastream).run ds = .error e) :
    RefusesNegative (fun σ _ => do first σ; second σ) := by
  intro ds hneg
  obtain ⟨e, hfail⟩ := h ds hneg
  left
  refine ⟨e, ?_⟩
  rw [StateT.run_bind, hfail]
  rfl

theorem refusesNegative_writeEach {α : Type} {each : α → WriteProgram Fault}
    (h : ∀ x, RefusesNegative (each x)) (v : List α) : RefusesNegative (writeEach each v) := by
  induction v with
  | nil => exact refusesNegative_pure
  | cons x v ih => exact (h x).bind ih

/-- A varint begins with a block of one byte. -/
theorem writeGroups_fails {w turns : ℕ} (hturns : 0 < turns) (val : BitVec w) (ds : Datastream)
    (hneg : 2 ^ 31 ≤ ds.remaining.toNat) :
    ∃ e, (writeGroups turns val Datastream).run ds = .error e := by
  cases turns with
  | zero => cases hturns
  | succ turns =>
      have hfail : (ByteSink.write [groupByte val] : StateT Datastream (Except Fault) Unit).run ds =
          .error (.check "write") := run_write_of_negative (by simp) hneg
      refine ⟨.check "write", ?_⟩
      rw [writeGroups, StateT.run_bind, hfail]
      rfl

theorem writeSize_fails (n : ℕ) (ds : Datastream) (hneg : 2 ^ 31 ≤ ds.remaining.toNat) :
    ∃ e, (writeSize n Datastream).run ds = .error e :=
  writeGroups_fails (by decide) _ ds hneg

theorem refusesNegative_writeSequence {α : Type} (each : α → WriteProgram Fault) (v : List α) :
    RefusesNegative (writeSequence each v) :=
  RefusesNegative.bind_of_fails (writeEach each v) (writeSize_fails v.length)

theorem refusesNegative_writeVector {t : Ty} (each : Val t → WriteProgram Fault)
    (v : List (Val t)) : RefusesNegative (writeVector t each v) := by
  unfold writeVector
  split
  · exact RefusesNegative.bind_of_fails _ (writeSize_fails _)
  · exact refusesNegative_writeSequence _ _

theorem refusesNegative_writeCArray {t : Ty} (each : Val t → WriteProgram Fault)
    (v : List (Val t)) : RefusesNegative (writeCArray t each v) := by
  unfold writeCArray
  split
  · exact RefusesNegative.bind_of_fails _ (writeSize_fails _)
  · exact refusesNegative_writeSequence _ _

mutual

/-- No type is serialized into a buffer of negative room, except by writing
nothing. -/
theorem refusesNegative_serialize : (t : Ty) → (v : Val t) → RefusesNegative (serialize t v)
  | .prim p, v => refusesNegative_write (Nat.lt_of_le_of_lt (p.length_bytes_le v) (by decide))
  | .unsignedInt, _ => fun ds hneg => .inl (writeGroups_fails (by decide) _ ds hneg)
  | .signedInt, _ => fun ds hneg => .inl (writeGroups_fails (by decide) _ ds hneg)
  | .name, (v : BitVec 64) => refusesNegative_write (by rw [length_leBytes]; decide)
  | .address, (v : List.Vector Byte 20) =>
      refusesNegative_writeEach (fun b => refusesNegative_write (by simp)) v.toList
  | .checksum256, (v : List.Vector Byte 32) =>
      refusesNegative_writeEach (fun b => refusesNegative_write (by simp)) v.toList
  | .string, (v : List Byte) => RefusesNegative.bind_of_fails _ (writeSize_fails v.length)
  | .vector t, v => refusesNegative_writeVector (serialize t) v
  | .list t, v => refusesNegative_writeSequence (serialize t) v
  | .deque t, v => refusesNegative_writeSequence (serialize t) v
  | .set t, v => refusesNegative_writeSequence (serialize t) v
  | .map k t, (v : List (Val k × Val t)) => refusesNegative_writeSequence _ v
  | .pair a b, (v : Val a × Val b) =>
      (refusesNegative_serialize a v.1).bind (refusesNegative_serialize b v.2)
  | .tuple ts, v => refusesNegative_serializeFields ts v
  | .optional t, (v : Option (Val t)) => by
      cases v with
      | none => exact (refusesNegative_write (by decide : [0].length < _)).bind refusesNegative_pure
      | some x =>
          exact (refusesNegative_write (by decide : [1].length < _)).bind
            (refusesNegative_serialize t x)
  | .variant t ts, (v : Val t ⊕ Alts ts) =>
      RefusesNegative.bind_of_fails _ (writeSize_fails _)
  | .array t _, (v : List.Vector (Val t) _) =>
      refusesNegative_writeEach (refusesNegative_serialize t) v.toList
  | .carray t _, (v : List.Vector (Val t) _) => refusesNegative_writeCArray (serialize t) v.toList
  | .struct _ ts, v => refusesNegative_serializeFields ts v

theorem refusesNegative_serializeFields :
    (ts : List Ty) → (v : Vals ts) → RefusesNegative (serializeFields ts v)
  | [], _ => refusesNegative_pure
  | t :: ts, (v : Val t × Vals ts) =>
      (refusesNegative_serialize t v.1).bind (refusesNegative_serializeFields ts v.2)

end

end FractalCdt.Codec
