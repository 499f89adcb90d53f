/-
# The bytes still to come

A stream that is only read is, up to the addresses, the list of the bytes it has
not handed out yet.  That list is a byte source of its own, and a data stream
whose position is inside its buffer presents one.  The two answer alike, so a
deserializer can be studied on lists and run on pointers.
-/

import FractalCdt.Stream.Datastream

namespace FractalCdt

open FractalCdt.Math

instance : ByteSource (List Byte) Fault where
  read s := fun bytes =>
    if s.toNat ≤ bytes.length then .ok (bytes.take s.toNat, bytes.drop s.toNat)
    else .error (.check "read")
  get := fun
    | [] => .error (.check "get")
    | b :: bytes => .ok (b, bytes)

theorem decodes_read {s : BitVec 32} {block : List Byte} (h : s.toNat = block.length) :
    Decodes (ByteSource.read s) block block := by
  intro rest
  show (if s.toNat ≤ (block ++ rest).length then _ else _) = _
  rw [h, if_pos (by simp), List.take_left, List.drop_left]

theorem run_get_cons {b : Byte} {rest : List Byte} :
    (ByteSource.get (σ := List Byte)).run (b :: rest) = .ok (b, rest) := rfl

namespace Datastream

theorem valid_iff {ds : Datastream} :
    ds.valid = true ↔ ds.pos ≤ ds.stop ∧ ds.start ≤ ds.pos := by
  simp [valid]

/-- The position is inside the buffer and these bytes are left. -/
structure Holds (ds : Datastream) (bytes : List Byte) : Prop where
  valid : ds.valid = true
  bytes_eq : ds.mem.load ds.pos ds.remaining.toNat = bytes

/-- A stream over the buffer of `origin` that has exactly these bytes left. -/
structure Presents (origin ds : Datastream) (bytes : List Byte) : Prop extends ds.Holds bytes where
  mem_eq : ds.mem = origin.mem
  start_eq : ds.start = origin.start
  stop_eq : ds.stop = origin.stop

theorem Holds.presents {ds : Datastream} {bytes : List Byte} (h : ds.Holds bytes) :
    Presents ds ds bytes := { h with mem_eq := rfl, start_eq := rfl, stop_eq := rfl }

variable {origin ds : Datastream} {bytes : List Byte}

theorem Presents.length_eq (h : Presents origin ds bytes) : bytes.length = ds.remaining.toNat := by
  rw [← h.bytes_eq, Mem.length_load]

/-- Taking a block that is there leaves the bytes after it. -/
theorem Presents.advance (h : Presents origin ds bytes) {s : BitVec 32}
    (hs : s.toNat ≤ bytes.length) :
    ds.mem.load ds.pos s.toNat = bytes.take s.toNat ∧
      Presents origin { ds with pos := ds.pos + s } (bytes.drop s.toNat) := by
  obtain ⟨hstop, hstart⟩ := valid_iff.mp h.valid
  rw [h.length_eq] at hs
  have hsplit : ds.remaining.toNat = s.toNat + ({ ds with pos := ds.pos + s }).remaining.toNat := by
    simp only [remaining] at hs ⊢
    bv_omega
  have hbytes := h.bytes_eq
  rw [hsplit, Mem.load_add, BitVec.ofNat_toNat, BitVec.setWidth_eq] at hbytes
  have hlength : (ds.mem.load ds.pos s.toNat).length = s.toNat := Mem.length_load ..
  constructor
  · rw [← hbytes, List.take_left' hlength]
  · refine { mem_eq := h.mem_eq, start_eq := h.start_eq, stop_eq := h.stop_eq, valid := ?_,
             bytes_eq := ?_ }
    · simp only [remaining] at hs
      rw [valid_iff]
      show ds.pos + s ≤ ds.stop ∧ ds.start ≤ ds.pos + s
      constructor <;> bv_omega
    · rw [← hbytes, List.drop_left' hlength]

theorem simulates_read (s : BitVec 32) :
    Simulates (Presents origin) (read s) (ByteSource.read s) := by
  intro ds bytes h
  rw [run_read]
  by_cases hs : s.toNat ≤ bytes.length
  · obtain ⟨hblock, hnext⟩ := h.advance hs
    have hcheck : s ≤ ds.remaining := by
      rw [h.length_eq] at hs
      exact hs
    rw [if_pos hcheck, hblock]
    show Agrees _ _ (if s.toNat ≤ bytes.length then _ else _)
    rw [if_pos hs]
    exact .ok hnext
  · have hcheck : ¬ s ≤ ds.remaining := by
      rw [h.length_eq] at hs
      exact hs
    rw [if_neg hcheck]
    show Agrees _ _ (if s.toNat ≤ bytes.length then _ else _)
    rw [if_neg hs]
    exact .error _

theorem simulates_get : Simulates (Presents origin) getByte ByteSource.get := by
  intro ds bytes h
  obtain ⟨hstop, hstart⟩ := valid_iff.mp h.valid
  rw [run_getByte]
  cases bytes with
  | nil =>
      have hend : ¬ ds.pos < ds.stop := by
        have hlength := h.length_eq
        simp only [remaining, List.length_nil] at hlength
        bv_omega
      rw [if_neg hend]
      exact .error _
  | cons b rest =>
      have hlength := h.length_eq
      simp only [remaining, List.length_cons] at hlength
      have hcheck : ds.pos < ds.stop := by bv_omega
      obtain ⟨hblock, hnext⟩ := h.advance (s := 1) (by simp)
      have hbyte : ds.mem ds.pos = b := by simpa [Mem.load, footprint] using hblock
      rw [if_pos hcheck, hbyte]
      exact .ok hnext

/-- What is left of the bytes tells where the position is. -/
theorem Presents.eq_of_suffix {src src' : Datastream} {taken rest : List Byte}
    (hsrc : src.Holds (taken ++ rest)) (hsrc' : Presents src src' rest) :
    src' = { src with pos := src.pos + BitVec.ofNat 32 taken.length } := by
  have hbefore := hsrc.presents.length_eq
  have hafter := hsrc'.length_eq
  have hpos : src'.pos = src.pos + BitVec.ofNat 32 taken.length := by
    rw [List.length_append] at hbefore
    simp only [Datastream.remaining, hsrc'.stop_eq] at hbefore hafter
    bv_omega
  rw [← hpos, ← hsrc'.mem_eq, ← hsrc'.start_eq, ← hsrc'.stop_eq]

/-- A program that takes these bytes from a list takes them from a stream. -/
theorem run_of_decodes {α : Type} {f : M α} {g : StateT (List Byte) (Except Fault) α}
    {src : Datastream} {taken rest : List Byte} {a : α} (hsim : Simulates (Presents src) f g)
    (hdec : Decodes g taken a) (hsrc : src.Holds (taken ++ rest)) :
    f.run src = .ok (a, { src with pos := src.pos + BitVec.ofNat 32 taken.length }) ∧
      Holds { src with pos := src.pos + BitVec.ofNat 32 taken.length } rest := by
  obtain ⟨src', hrun, hsrc'⟩ := hsim.run_ok hsrc.presents (hdec rest)
  rw [← Presents.eq_of_suffix hsrc hsrc']
  exact ⟨hrun, hsrc'.toHolds⟩

end Datastream

end FractalCdt
