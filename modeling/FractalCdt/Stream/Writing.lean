/-
# Measuring and filling a buffer

Every caller of the library sizes a value with `datastream<size_t>`, allocates
that many bytes and serializes the value into them with `datastream<char *>`.
Both streams append, so a program that emits `n < 2^31` bytes measures `n` and
fills a buffer of `n` bytes exactly.  From `2^31` on the signed comparison of
`write` takes the room for negative.
-/

import FractalCdt.Stream.Datastream

namespace FractalCdt

open FractalCdt.Math

/-- `datastream<size_t>`. -/
structure SizeStream where
  /-- The size used to determine the final size of a serialized value. -/
  size : BitVec 32

namespace SizeStream

/-- `bool write(const char *, size_t s)`. -/
def write (d : List Byte) : StateT SizeStream (Except Fault) Unit :=
  modify fun ps => ⟨ps.size + BitVec.ofNat 32 d.length⟩

/-- `size_t tellp() const`. -/
def tellp (ps : SizeStream) : BitVec 32 := ps.size

instance : ByteSink SizeStream Fault where
  write := write

/-- The state after appending. -/
def after (ps : SizeStream) (bytes : List Byte) : SizeStream :=
  ⟨ps.size + BitVec.ofNat 32 bytes.length⟩

theorem absorbs : Absorbs (fun (_ : SizeStream) _ => True) after where
  write _ _ _ := rfl
  write_ok ps block ps' h := by
    cases h
    rfl
  room_append _ _ _ _ := ⟨trivial, trivial⟩
  after_nil ps := by
    rw [after, List.length_nil]
    show SizeStream.mk (ps.size + 0#32) = ps
    rw [BitVec.add_zero]
  after_append ps a b := by
    rw [after, after, after, List.length_append, BitVec.ofNat_add, BitVec.add_assoc]

end SizeStream

/-- `pack_size`, for the program that serializes the value. -/
def packSize (program : WriteProgram Fault) : BitVec 32 :=
  match (program SizeStream).run ⟨0⟩ with
  | .ok (_, ps) => ps.tellp
  | .error _ => 0

/-- The sizing pass counts the bytes the writing pass writes, modulo `2^32`. -/
theorem packSize_eq {program : WriteProgram Fault} {bytes : List Byte} (h : Emits program bytes) :
    packSize program = BitVec.ofNat 32 bytes.length := by
  rw [packSize, SizeStream.absorbs.run h trivial]
  exact BitVec.zero_add _

namespace Datastream

/-- So many more bytes fit, and the room is not negative as a signed word. -/
def Room (ds : Datastream) (n : ℕ) : Prop := n ≤ ds.remaining.toNat ∧ ds.remaining.toNat < 2 ^ 31

/-- The state after appending. -/
def after (ds : Datastream) (bytes : List Byte) : Datastream :=
  { ds with mem := ds.mem.store ds.pos bytes, pos := ds.pos + BitVec.ofNat 32 bytes.length }

theorem remaining_after {ds : Datastream} {bytes : List Byte} (h : ds.Room bytes.length) :
    (ds.after bytes).remaining.toNat = ds.remaining.toNat - bytes.length := by
  obtain ⟨hfits, hsigned⟩ := h
  simp only [remaining, after] at hfits hsigned ⊢
  bv_omega

theorem sle_remaining {ds : Datastream} {n : ℕ} (h : ds.Room n) :
    (BitVec.ofNat 32 n).sle ds.remaining = true := by
  obtain ⟨hfits, hsigned⟩ := h
  have hn : (BitVec.ofNat 32 n).toNat = n := by
    rw [BitVec.toNat_ofNat]
    omega
  rw [BitVec.sle_eq_decide, decide_eq_true_iff, BitVec.toInt_eq_toNat_of_lt (by omega),
    BitVec.toInt_eq_toNat_of_lt (by omega), hn]
  omega

theorem absorbs : Absorbs Room after where
  write ds block hroom := by
    show (write block).run ds = _
    rw [run_write, if_pos (sle_remaining hroom)]
    rfl
  write_ok ds block ds' h := by
    change (write block).run ds = _ at h
    rw [run_write] at h
    split at h
    · cases h
      rfl
    · cases h
  room_append ds a n hroom := by
    have hfirst : ds.Room a.length := ⟨by have := hroom.1; omega, hroom.2⟩
    refine ⟨hfirst, ?_⟩
    obtain ⟨hfits, hsigned⟩ := hroom
    rw [Room, remaining_after hfirst]
    omega
  after_nil ds := by
    cases ds
    simp [after, Mem.store]
  after_append ds a b := by
    simp only [after, ← Mem.store_append, List.length_append, BitVec.ofNat_add, BitVec.add_assoc]

end Datastream

/-- A serializer run on `datastream<char *> ds(start, size)`. -/
def packInto (mem : Mem) (start : Addr) (size : BitVec 32) (program : WriteProgram Fault) :
    Except Fault Datastream :=
  Prod.snd <$> (program Datastream).run (Datastream.init mem start size)

/-- The buffer holds exactly these bytes, the position is at its end, and no cell
outside it has changed. -/
structure Filled (mem : Mem) (start : Addr) (bytes : List Byte) (ds : Datastream) : Prop where
  stop_eq : ds.stop = start + BitVec.ofNat 32 bytes.length
  pos_eq : ds.pos = ds.stop
  content : ds.mem.load start bytes.length = bytes
  outside : ∀ x, ¬ InRange start bytes.length x → ds.mem x = mem x

/-- A buffer of the right size is filled exactly, whatever it held before. -/
theorem packInto_filled {program : WriteProgram Fault} {bytes : List Byte}
    (h : Emits program bytes) (hsmall : bytes.length < 2 ^ 31) {size : BitVec 32}
    (hsize : size = BitVec.ofNat 32 bytes.length) (mem : Mem) (start : Addr) :
    ∃ ds, packInto mem start size program = .ok ds ∧ Filled mem start bytes ds := by
  subst hsize
  have hroom : (Datastream.init mem start (BitVec.ofNat 32 bytes.length)).Room bytes.length := by
    simp only [Datastream.Room, Datastream.remaining, Datastream.init]
    bv_omega
  refine ⟨(Datastream.init mem start (BitVec.ofNat 32 bytes.length)).after bytes, ?_, ?_⟩
  · rw [packInto, Datastream.absorbs.run h hroom]
    rfl
  · exact {
      stop_eq := rfl
      pos_eq := rfl
      content := Mem.load_store mem (by omega)
      outside := fun x hx => Mem.store_of_not_inRange mem hx }

end FractalCdt
