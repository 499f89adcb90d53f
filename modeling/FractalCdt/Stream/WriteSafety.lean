/-
# Writing a datastream stays inside its buffer, and when it does not

`put` compares the two pointers; `write` compares the room that is left with the
size of the block, both as signed words.  A block of `2^31` bytes or more has a
negative size there, and fits whatever room is not negative too.
-/

import FractalCdt.Stream.ReadSafety
import FractalCdt.Stream.Writing

namespace FractalCdt.Datastream

open FractalCdt.Math

/-- The operations of a stream that is being written. -/
inductive WriteOp
  | write (d : List Byte) (fits : d.length < 2 ^ 32)
  | put (c : Byte)

namespace WriteOp

def exec : WriteOp → M Unit
  | .write d _ => Datastream.write d
  | .put c => Datastream.put c

/-- The bytes the operation is to write. -/
def bytes : WriteOp → List Byte
  | .write d _ => d
  | .put c => [c]

theorem length_bytes_lt (op : WriteOp) : op.bytes.length < 2 ^ 32 := by
  cases op with
  | write d fits => exact fits
  | put c => exact show 1 < 2 ^ 32 by decide

/-- An operation that gets past its check writes its bytes and moves on behind them. -/
theorem exec_cases {op : WriteOp} {ds ds' : Datastream} {u : Unit}
    (hrun : op.exec.run ds = .ok (u, ds')) : ds' = ds.after op.bytes := by
  cases op with
  | write d fits =>
      rw [exec, run_write] at hrun
      split at hrun
      · cases hrun
        rfl
      · cases hrun
  | put c =>
      rw [exec, run_put] at hrun
      split at hrun
      · cases hrun
        rfl
      · cases hrun

end WriteOp

/-- The stream is over this buffer and its position is in it or at its end. -/
def Within (b : Buffer) (ds : Datastream) : Prop := Over b ds ∧ ds.tellp ≤ b.len

/-- The operation writes its bytes from the current position on, all of them in
the buffer, and the position moves on by as many and is not past the end. -/
structure WroteInside (b : Buffer) (ds : Datastream) (op : WriteOp) (ds' : Datastream) : Prop where
  mem_eq : ds'.mem = ds.mem.store ds.pos op.bytes
  inside : ∀ x ∈ footprint ds.pos op.bytes.length, b.Contains x
  pos_eq : ds'.pos = ds.pos + BitVec.ofNat 32 op.bytes.length
  within : Within b ds'

/-- The size is not negative as a signed word, or the room that is left is. -/
def SizeFits (ds : Datastream) (op : WriteOp) : Prop :=
  op.bytes.length < 2 ^ 31 ∨ 2 ^ 31 ≤ ds.remaining.toNat

section Step

variable {b : Buffer} {ds ds' : Datastream} {op : WriteOp} {u : Unit}

theorem Within.toNat_remaining (h : Within b ds) :
    ds.remaining.toNat + ds.tellp.toNat = b.len.toNat := by
  obtain ⟨⟨hstart, hstop⟩, hwithin⟩ := h
  simp only [remaining, tellp, hstart, hstop] at hwithin ⊢
  bv_omega

/-- A block that fits the room that is left lies in the buffer. -/
theorem Within.wroteInside (h : Within b ds) (hfits : op.bytes.length ≤ ds.remaining.toNat) :
    WroteInside b ds op (ds.after op.bytes) := by
  have hroom := h.toNat_remaining
  have hlength := op.length_bytes_lt
  obtain ⟨⟨hstart, hstop⟩, hwithin⟩ := h
  refine ⟨rfl, ?_, rfl, ⟨hstart, hstop⟩, ?_⟩
  · intro x hx
    rw [mem_footprint hlength.le, InRange] at hx
    rw [b.contains_iff_inRange, InRange]
    simp only [tellp, hstart] at hwithin hroom
    bv_omega
  · simp only [tellp, after, hstart] at hwithin hroom ⊢
    bv_omega

/-- A block that does not fit leaves the buffer. -/
theorem Within.not_wroteInside (h : Within b ds) (hfits : ds.remaining.toNat < op.bytes.length) :
    ¬ WroteInside b ds op ds' := by
  have hroom := h.toNat_remaining
  have hlength := op.length_bytes_lt
  intro hwrote
  -- The byte behind the end of the buffer is one of those written.
  have hend := hwrote.inside (ds.pos + ds.remaining) (by
    rw [mem_footprint hlength.le, InRange]
    bv_omega)
  obtain ⟨⟨hstart, hstop⟩, -⟩ := h
  rw [b.contains_iff_inRange, InRange] at hend
  simp only [tellp, hstart] at hroom
  bv_omega

/-- What the check of an operation lets through stays in the buffer exactly when
its size fits the signed comparison. -/
theorem Within.wroteInside_iff (h : Within b ds) (hrun : op.exec.run ds = .ok (u, ds')) :
    WroteInside b ds op ds' ↔ SizeFits ds op := by
  rw [WriteOp.exec_cases hrun]
  by_cases hfits : op.bytes.length ≤ ds.remaining.toNat
  · refine iff_of_true (h.wroteInside hfits) ?_
    rw [SizeFits]
    omega
  · refine iff_of_false (h.not_wroteInside (not_le.mp hfits)) ?_
    cases op with
    | write d fits =>
        rw [WriteOp.exec, run_write] at hrun
        split at hrun
        case isTrue hcheck =>
          have hsize : (BitVec.ofNat 32 d.length).toNat = d.length := by
            rw [BitVec.toNat_ofNat, Nat.mod_eq_of_lt fits]
          change ¬ d.length ≤ ds.remaining.toNat at hfits
          show ¬ (d.length < 2 ^ 31 ∨ 2 ^ 31 ≤ ds.remaining.toNat)
          rw [BitVec.sle_eq_decide, decide_eq_true_iff, BitVec.toInt_eq_toNat_cond,
            BitVec.toInt_eq_toNat_cond, hsize] at hcheck
          have hremaining := ds.remaining.isLt
          split at hcheck <;> split at hcheck <;> omega
        case isFalse => cases hrun
    | put c =>
        rw [WriteOp.exec, run_put] at hrun
        split at hrun
        case isTrue hcheck =>
          have hnone : ¬ 1 ≤ ds.remaining.toNat := hfits
          simp only [remaining] at hnone
          bv_omega
        case isFalse => cases hrun

end Step

/-- Every operation of the run that does not abort writes its bytes inside the buffer. -/
def WritesInside (b : Buffer) (ops : List WriteOp) (ds : Datastream) : Prop :=
  Along WriteOp.exec (fun ds op _ ds' => WroteInside b ds op ds') ops ds

/-- Every operation of the run that does not abort has a size that fits the signed
comparison. -/
def SizesFit (ops : List WriteOp) (ds : Datastream) : Prop :=
  Along WriteOp.exec (fun ds op _ _ => SizeFits ds op) ops ds

/-- From a position in the buffer or at its end, a run of writes stays in the
buffer exactly when no block of `2^31` bytes or more is let through into a smaller
room. -/
theorem writesInside_iff (b : Buffer) (ds : Datastream) (h : Within b ds) (ops : List WriteOp) :
    WritesInside b ops ds ↔ SizesFit ops ds := by
  apply along_congr (Within b)
  · intro ds op u ds' hwithin hrun hsize
    exact ((hwithin.wroteInside_iff hrun).mpr hsize).within
  · intro ds op u ds' hwithin hrun
    exact hwithin.wroteInside_iff hrun
  · exact h

theorem within_init (mem : Mem) (b : Buffer) : Within b (init mem b.start b.len) := by
  refine ⟨over_init mem b, ?_⟩
  rw [tellp, init, BitVec.sub_self]
  exact BitVec.not_lt.mp BitVec.not_lt_zero

/-- A block and a byte fill a buffer of four bytes. -/
theorem writesInside_iff_write :
    WritesInside ⟨16, 4, by decide⟩ [.write [1, 2, 3] (by decide), .put 7]
      (init (fun _ => 0) 16 4) := by
  refine (writesInside_iff _ _ (within_init _ ⟨16, 4, by decide⟩) _).mpr ?_
  have hwrite : (WriteOp.write [1, 2, 3] (by decide)).exec.run (init (fun _ => 0) 16 4) =
      .ok ((), (init (fun _ => 0) 16 4).after [1, 2, 3]) := by
    rw [WriteOp.exec, run_write]
    exact if_pos (by decide)
  have hput : (WriteOp.put 7).exec.run ((init (fun _ => 0) 16 4).after [1, 2, 3]) =
      .ok ((), ((init (fun _ => 0) 16 4).after [1, 2, 3]).after [7]) := by
    rw [WriteOp.exec, run_put]
    exact if_pos (by decide)
  rw [SizesFit, along_cons_of_ok hwrite, along_cons_of_ok hput]
  exact ⟨.inl (by decide), .inl (by decide), trivial⟩

/-- Half the address space is let through into a buffer of four bytes. -/
theorem not_forall_writesInside :
    ¬ ∀ (b : Buffer) (ds : Datastream) (ops : List WriteOp), Within b ds →
      WritesInside b ops ds := by
  intro hall
  obtain ⟨d, hd⟩ : ∃ d : List Byte, d.length = 2 ^ 31 :=
    ⟨List.replicate (2 ^ 31) 0, List.length_replicate⟩
  have hwithin := within_init (fun _ => 0) ⟨16, 4, by decide⟩
  have hcheck : (BitVec.ofNat 32 d.length).sle (4 : BitVec 32) = true := by
    rw [hd]
    decide
  have hrun : (WriteOp.write d (by omega)).exec.run (init (fun _ => 0) 16 4) =
      .ok ((), (init (fun _ => 0) 16 4).after d) := by
    rw [WriteOp.exec, run_write]
    exact if_pos hcheck
  have hwrites := hall _ _ [.write d (by omega)] hwithin
  rw [WritesInside, along_cons_of_ok hrun] at hwrites
  refine hwithin.not_wroteInside ?_ hwrites.1
  show (4 : BitVec 32).toNat < d.length
  rw [hd]
  decide

end FractalCdt.Datastream
