/-
# Reading a datastream stays inside its buffer, and when it does not

`read` bounds its block by the wrapping difference `_end - _pos`, `get` compares
the two pointers, and `skip` and `seekp` move the position unchecked.  The
checks compose as long as the position is between the two ends of the buffer.
Once it is beyond the end, the difference wraps to almost the whole address
space and `read` lets every block through.
-/

import FractalCdt.Math.Run
import FractalCdt.Stream.Datastream

namespace FractalCdt.Datastream

open FractalCdt.Math

/-- A buffer that lies inside the address space. -/
structure Buffer where
  start : Addr
  len : BitVec 32
  fits : start.toNat + len.toNat ≤ 2 ^ 32

/-- Address `x` is one of the buffer's bytes. -/
def Buffer.Contains (b : Buffer) (x : Addr) : Prop :=
  b.start.toNat ≤ x.toNat ∧ x.toNat < b.start.toNat + b.len.toNat

/-- The operations of a stream that is being read. -/
inductive ReadOp
  | skip (s : BitVec 32)
  | seekp (p : BitVec 32)
  | read (s : BitVec 32)
  | get

namespace ReadOp

def exec : ReadOp → M Unit
  | .skip s => Datastream.skip s
  | .seekp p => do let _ ← Datastream.seekp p
  | .read s => do let _ ← Datastream.read s
  | .get => do let _ ← getByte

/-- The addresses the operation loads from when it does not abort. -/
def accesses : ReadOp → Datastream → List Addr
  | .read s, ds => footprint ds.pos s.toNat
  | .get, ds => footprint ds.pos 1
  | _, _ => []

/-- The operation asks for at least one byte. -/
def Loads : ReadOp → Prop
  | .read s => s ≠ 0
  | .get => True
  | _ => False

/-- No operation moves either end of the buffer. -/
theorem exec_ends {op : ReadOp} {ds ds' : Datastream} {u : Unit}
    (hrun : op.exec.run ds = .ok (u, ds')) : ds'.start = ds.start ∧ ds'.stop = ds.stop := by
  cases op with
  | skip s =>
      rw [exec, run_skip] at hrun
      cases hrun
      exact ⟨rfl, rfl⟩
  | seekp p =>
      rw [exec, StateT.run_bind, run_seekp] at hrun
      cases hrun
      exact ⟨rfl, rfl⟩
  | read s =>
      rw [exec, StateT.run_bind, run_read] at hrun
      split at hrun
      · cases hrun
        exact ⟨rfl, rfl⟩
      · cases hrun
  | get =>
      rw [exec, StateT.run_bind, run_getByte] at hrun
      split at hrun
      · cases hrun
        exact ⟨rfl, rfl⟩
      · cases hrun

end ReadOp

/-- The stream reads from this buffer, wherever its position is. -/
def Over (b : Buffer) (ds : Datastream) : Prop := ds.start = b.start ∧ ds.stop = b.start + b.len

theorem over_init (mem : Mem) (b : Buffer) : Over b (init mem b.start b.len) := ⟨rfl, rfl⟩

theorem Over.exec {b : Buffer} {ds ds' : Datastream} {op : ReadOp} {u : Unit} (h : Over b ds)
    (hrun : op.exec.run ds = .ok (u, ds')) : Over b ds' := by
  obtain ⟨hstart, hstop⟩ := ReadOp.exec_ends hrun
  exact ⟨hstart.trans h.1, hstop.trans h.2⟩

theorem Buffer.contains_iff_inRange (b : Buffer) (x : Addr) :
    b.Contains x ↔ InRange b.start b.len.toNat x := by
  have hfits := b.fits
  simp only [Buffer.Contains, InRange]
  constructor
  · rintro ⟨hlow, hhigh⟩
    bv_omega
  · intro h
    constructor <;> bv_omega

/-- A byte that `get` lets through is in the buffer exactly when the position is
not past the end. -/
theorem accesses_get_iff {b : Buffer} {ds : Datastream} (hover : Over b ds)
    (hcheck : ds.pos < ds.stop) :
    (∀ x ∈ ReadOp.get.accesses ds, b.Contains x) ↔ ds.tellp ≤ b.len := by
  obtain ⟨hstart, hstop⟩ := hover
  have hfits := b.fits
  rw [ReadOp.accesses, footprint, footprint]
  simp only [List.mem_singleton, forall_eq, b.contains_iff_inRange, InRange, tellp, hstart]
  rw [hstop] at hcheck
  constructor
  · intro h
    bv_omega
  · intro h
    bv_omega

/-- A nonempty block that `read` lets through is in the buffer exactly when the
position is not past the end. -/
theorem accesses_read_iff {b : Buffer} {ds : Datastream} {s : BitVec 32} (hover : Over b ds)
    (hcheck : s ≤ ds.remaining) (hs : s ≠ 0) :
    (∀ x ∈ (ReadOp.read s).accesses ds, b.Contains x) ↔ ds.tellp ≤ b.len := by
  obtain ⟨hstart, hstop⟩ := hover
  have hfits := b.fits
  have hpos : 0 < s.toNat := by
    have : s.toNat ≠ 0 := fun h0 => hs (BitVec.eq_of_toNat_eq h0)
    omega
  rw [remaining, hstop] at hcheck
  simp only [ReadOp.accesses, mem_footprint s.isLt.le, b.contains_iff_inRange, InRange, tellp,
    hstart]
  constructor
  · intro h
    -- The block is not empty, so its first byte already decides.
    have hfirst := h ds.pos (by simpa using hpos)
    bv_omega
  · intro h x hx
    bv_omega

/-- What one operation loads is inside the buffer exactly when it loads nothing
or starts from a position that is not past the end. -/
theorem accesses_iff {b : Buffer} {ds ds' : Datastream} {op : ReadOp} {u : Unit}
    (hover : Over b ds) (hrun : op.exec.run ds = .ok (u, ds')) :
    (∀ x ∈ op.accesses ds, b.Contains x) ↔ (op.Loads → ds.tellp ≤ b.len) := by
  cases op with
  | skip s => simp [ReadOp.accesses, ReadOp.Loads]
  | seekp p => simp [ReadOp.accesses, ReadOp.Loads]
  | get =>
      rw [ReadOp.exec, StateT.run_bind, run_getByte] at hrun
      split at hrun
      case isTrue hcheck => simpa [ReadOp.Loads] using accesses_get_iff hover hcheck
      case isFalse => cases hrun
  | read s =>
      rw [ReadOp.exec, StateT.run_bind, run_read] at hrun
      split at hrun
      case isTrue hcheck =>
        by_cases hs : s = 0
        · subst hs
          simp [ReadOp.accesses, ReadOp.Loads, footprint]
        · rw [accesses_read_iff hover hcheck hs]
          exact ⟨fun h _ => h, fun h => h hs⟩
      case isFalse => cases hrun

/-- Every operation of the run that does not abort loads from the buffer only. -/
def ReadsInside (b : Buffer) (ops : List ReadOp) (ds : Datastream) : Prop :=
  Along ReadOp.exec (fun ds op _ _ => ∀ x ∈ op.accesses ds, b.Contains x) ops ds

/-- Every operation of the run that gets past its check and asks for a byte finds
the position at most `len` bytes from the start. -/
def LoadsFromWithin (b : Buffer) (ops : List ReadOp) (ds : Datastream) : Prop :=
  Along ReadOp.exec (fun ds op _ _ => op.Loads → ds.tellp ≤ b.len) ops ds

/-- Whatever the order of operations and their arguments, a run reads inside the
buffer exactly when no `read` or `get` is let through at a position that `skip`
or `seekp` has moved out of it. -/
theorem readsInside_iff (mem : Mem) (b : Buffer) (ops : List ReadOp) :
    ReadsInside b ops (init mem b.start b.len) ↔
      LoadsFromWithin b ops (init mem b.start b.len) := by
  apply along_congr (Over b)
  · intro ds op u ds' hover hrun _
    exact hover.exec hrun
  · intro ds op u ds' hover hrun
    exact accesses_iff hover hrun
  · exact over_init mem b

/-- Skipping one byte beyond a four-byte buffer makes the next read leave it. -/
theorem not_forall_readsInside :
    ¬ ∀ (mem : Mem) (b : Buffer) (ops : List ReadOp),
      ReadsInside b ops (init mem b.start b.len) := by
  intro hall
  have hrun := hall (fun _ => 0) ⟨16, 4, by decide⟩ [.skip 5, .read 1]
  have hread : ∀ x ∈ [(21 : Addr)], (16 : Addr).toNat ≤ x.toNat ∧ x.toNat < 16 + 4 := hrun.2.1
  have hbyte := hread 21 List.mem_cons_self
  exact absurd hbyte.2 (by decide)

end FractalCdt.Datastream
