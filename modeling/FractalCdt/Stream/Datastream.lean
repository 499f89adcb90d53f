/-
# The pointer-level data stream

`datastream<T>` is three pointers into the linear memory of a 32-bit machine.
Its operations are modelled on the machine words the code computes with:
pointer differences wrap, the read check compares them unsigned and the write
check compares them signed, and `skip` and `seekp` move the position without a
check.  A failed `ftl::check` ends the program.
-/

import FractalCdt.Math.Memory
import FractalCdt.Math.ByteSink
import FractalCdt.Math.ByteSource

namespace FractalCdt

open FractalCdt.Math

/-- Why an operation does not return. -/
inductive Fault
  /-- `ftl::check` failed with this message. -/
  | check (msg : String)
  /-- A 32-bit shift by 32 or more, which the language leaves undefined. -/
  | undefinedShift
  /-- An access outside the linear memory traps. -/
  | trap
  deriving DecidableEq, Repr

/-- `ftl::check(pred, msg)`. -/
def check {m : Type → Type} [Monad m] [MonadExcept Fault m] (pred : Bool) (msg : String) : m Unit :=
  if pred then pure () else throw (.check msg)

/-- A sequence that gets through got through its first part. -/
theorem exists_of_bind_eq_ok {ε α β : Type} {x : Except ε α} {f : α → Except ε β} {b : β}
    (h : x >>= f = .ok b) : ∃ a, x = .ok a ∧ f a = .ok b := by
  cases x with
  | error e => cases h
  | ok a => exact ⟨a, rfl, h⟩

theorem of_check_eq_ok {pred : Bool} {msg : String} {u : Unit}
    (h : (check pred msg : Except Fault Unit) = .ok u) : pred = true := by
  cases pred with
  | false => cases h
  | true => rfl

/-- `datastream<T>` over a buffer of the linear memory. -/
structure Datastream where
  /-- The memory the pointers point into. -/
  mem : Mem
  /-- The start position of the buffer. -/
  start : Addr
  /-- The current position of the buffer. -/
  pos : Addr
  /-- The end position of the buffer. -/
  stop : Addr

namespace Datastream

/-- Operations of a stream. -/
abbrev M := StateT Datastream (Except Fault)

/-- `datastream(T start, size_t s)`. -/
def init (mem : Mem) (start : Addr) (s : BitVec 32) : Datastream :=
  ⟨mem, start, start, start + s⟩

/-- `void skip(size_t s)`. -/
def skip (s : BitVec 32) : M Unit := modify fun ds => { ds with pos := ds.pos + s }

/-- `bool read(char *d, size_t s)`; the answer is what is copied to `d`. -/
def read (s : BitVec 32) : M (List Byte) := do
  let ds ← get
  check (s ≤ ds.stop - ds.pos) "read"
  set { ds with pos := ds.pos + s }
  return ds.mem.load ds.pos s.toNat

/-- `bool write(const char *d, size_t s)`, for the `s` bytes `d` points to.
Both sides of the comparison are signed. -/
def write (d : List Byte) : M Unit := do
  let ds ← get
  let s := BitVec.ofNat 32 d.length
  check (s.sle (ds.stop - ds.pos)) "write"
  set { ds with mem := ds.mem.store ds.pos d, pos := ds.pos + s }

/-- `bool put(char c)`. -/
def put (c : Byte) : M Unit := do
  let ds ← get
  check (ds.pos < ds.stop) "put"
  set { ds with mem := ds.mem.store ds.pos [c], pos := ds.pos + 1 }

/-- `bool get(char &c)`; the answer is what is assigned to `c`. -/
def getByte : M Byte := do
  let ds ← get
  check (ds.pos < ds.stop) "get"
  set { ds with pos := ds.pos + 1 }
  return ds.mem ds.pos

/-- `bool valid() const`. -/
def valid (ds : Datastream) : Bool := ds.pos ≤ ds.stop && ds.start ≤ ds.pos

/-- `bool seekp(size_t p)`. -/
def seekp (p : BitVec 32) : M Bool := do
  let ds ← get
  set { ds with pos := ds.start + p }
  return ds.start + p ≤ ds.stop

/-- `size_t tellp() const`. -/
def tellp (ds : Datastream) : BitVec 32 := ds.pos - ds.start

/-- `size_t remaining() const`. -/
def remaining (ds : Datastream) : BitVec 32 := ds.stop - ds.pos

instance : ByteSink Datastream Fault where
  write := write

instance : ByteSource Datastream Fault where
  read := read
  get := getByte

/-! ## What one operation does -/

variable {ds ds' : Datastream}

theorem run_skip (s : BitVec 32) : (skip s).run ds = .ok ((), { ds with pos := ds.pos + s }) := rfl

theorem run_seekp (p : BitVec 32) :
    (seekp p).run ds = .ok (ds.start + p ≤ ds.stop, { ds with pos := ds.start + p }) := rfl

theorem run_read (s : BitVec 32) :
    (read s).run ds =
      if s ≤ ds.remaining then .ok (ds.mem.load ds.pos s.toNat, { ds with pos := ds.pos + s })
      else .error (.check "read") := by
  by_cases h : s ≤ ds.stop - ds.pos <;> simp [read, check, remaining, h] <;> rfl

theorem run_write (d : List Byte) :
    (write d).run ds =
      if (BitVec.ofNat 32 d.length).sle ds.remaining then
        .ok ((), { ds with mem := ds.mem.store ds.pos d, pos := ds.pos + BitVec.ofNat 32 d.length })
      else .error (.check "write") := by
  cases h : (BitVec.ofNat 32 d.length).sle (ds.stop - ds.pos) <;>
    simp [write, check, remaining, h] <;> rfl

theorem run_put (c : Byte) :
    (put c).run ds =
      if ds.pos < ds.stop then
        .ok ((), { ds with mem := ds.mem.store ds.pos [c], pos := ds.pos + 1 })
      else .error (.check "put") := by
  by_cases h : ds.pos < ds.stop <;> simp [put, check, h] <;> rfl

theorem run_getByte :
    getByte.run ds =
      if ds.pos < ds.stop then .ok (ds.mem ds.pos, { ds with pos := ds.pos + 1 })
      else .error (.check "get") := by
  by_cases h : ds.pos < ds.stop <;> simp [getByte, check, h] <;> rfl

end Datastream

end FractalCdt
