/-
# The memory of a linked contract

`layoutMemory` places the stack and the output segments one after another in
32-bit arithmetic.  With the options of `fractal-ld` the stack comes first, so
every segment lies above it and the end of the data is also the heap base.
-/

import FractalCdt.Math.Bytes
import FractalCdt.Math.Extents

namespace FractalCdt.Toolchain

open FractalCdt.Math

/-- An output segment: its bytes and its alignment. -/
structure OutputSegment where
  data : List Byte
  Alignment : ℕ
  power : ∃ k, Alignment = 2 ^ k

namespace OutputSegment

/-- Some bytes, aligned to a power of two. -/
def aligned (data : List Byte) (k : ℕ) : OutputSegment := ⟨data, 2 ^ k, ⟨k, rfl⟩⟩

def Size (Seg : OutputSegment) : BitVec 32 := BitVec.ofNat 32 Seg.data.length

theorem alignment_pos (Seg : OutputSegment) : 0 < Seg.Alignment := by
  obtain ⟨k, hk⟩ := Seg.power
  rw [hk]
  exact Nat.two_pow_pos k

end OutputSegment

/-- The options of the linker that the layout depends on; zero stands for a limit
that is not given. -/
structure Config where
  StackFirst : Bool
  ZStackSize : BitVec 32
  GlobalBase : BitVec 32
  InitialMemory : BitVec 32
  MaxMemory : BitVec 32

/-- The options `fractal-ld` passes, and the linker's defaults. -/
def fractalLd : Config := ⟨true, 8192, 1024, 0, 0⟩

def kStackAlignment : ℕ := 16

def WasmPageSize : ℕ := 65536

/-- `alignTo`, assigned to a `uint32_t`. -/
def alignTo (Value : BitVec 32) (Align : ℕ) : BitVec 32 :=
  BitVec.ofNat 32 (alignUp Align Value.toNat)

/-- `PlaceStack`. -/
def placeStack (config : Config) (MemoryPtr : BitVec 32) : Except String (BitVec 32) :=
  let MemoryPtr := alignTo MemoryPtr kStackAlignment
  if config.ZStackSize ≠ alignTo config.ZStackSize kStackAlignment then
    .error ("stack size must be " ++ toString kStackAlignment ++ "-byte aligned")
  else .ok (MemoryPtr + config.ZStackSize)

/-- A segment and its `StartVA`. -/
structure Placed where
  segment : OutputSegment
  StartVA : BitVec 32

def Placed.extent (s : Placed) : Extent := ⟨s.StartVA.toNat, s.segment.data.length⟩

/-- The loop over `Segments`. -/
def placeSegments : List OutputSegment → BitVec 32 → List Placed × BitVec 32
  | [], MemoryPtr => ([], MemoryPtr)
  | Seg :: Segments, MemoryPtr =>
      let StartVA := alignTo MemoryPtr Seg.Alignment
      let (placed, MemoryPtr) := placeSegments Segments (StartVA + Seg.Size)
      (⟨Seg, StartVA⟩ :: placed, MemoryPtr)

/-- What `layoutMemory` sets. -/
structure Layout where
  StackPointer : BitVec 32
  segments : List Placed
  DataEnd : BitVec 32
  HeapBase : BitVec 32
  NumMemoryPages : BitVec 32
  MaxMemoryPages : BitVec 32

/-- `Writer::layoutMemory`. -/
def layoutMemory (config : Config) (Segments : List OutputSegment) : Except String Layout := do
  let MemoryPtr ← if config.StackFirst then placeStack config 0 else .ok config.GlobalBase
  let stackTop := MemoryPtr
  let (segments, MemoryPtr) := placeSegments Segments MemoryPtr
  let DataEnd := MemoryPtr
  let MemoryPtr ← if config.StackFirst then .ok MemoryPtr else placeStack config MemoryPtr
  let StackPointer := if config.StackFirst then stackTop else MemoryPtr
  let HeapBase := MemoryPtr
  let MemoryPtr ←
    if config.InitialMemory = 0 then .ok MemoryPtr
    else if config.InitialMemory ≠ alignTo config.InitialMemory WasmPageSize then
      .error ("initial memory must be " ++ toString WasmPageSize ++ "-byte aligned")
    else if config.InitialMemory < MemoryPtr then
      .error ("initial memory too small, " ++ toString MemoryPtr.toNat ++ " bytes needed")
    else .ok config.InitialMemory
  let NumMemoryPages := alignTo MemoryPtr WasmPageSize / BitVec.ofNat 32 WasmPageSize
  let MaxMemoryPages ←
    if config.MaxMemory = 0 then .ok 0
    else if config.MaxMemory ≠ alignTo config.MaxMemory WasmPageSize then
      .error ("maximum memory must be " ++ toString WasmPageSize ++ "-byte aligned")
    else if config.MaxMemory < MemoryPtr then
      .error ("maximum memory too small, " ++ toString MemoryPtr.toNat ++ " bytes needed")
    else .ok (config.MaxMemory / BitVec.ofNat 32 WasmPageSize)
  return { StackPointer, segments, DataEnd, HeapBase, NumMemoryPages, MaxMemoryPages }

/-! ## Without wrapping -/

/-- Where the segments end when they are placed from an address on. -/
def layoutEnd (Segments : List OutputSegment) (start : ℕ) : ℕ :=
  Segments.foldl (fun ptr Seg => alignUp Seg.Alignment ptr + Seg.data.length) start

theorem le_layoutEnd (Segments : List OutputSegment) (start : ℕ) :
    start ≤ layoutEnd Segments start := by
  induction Segments generalizing start with
  | nil => exact Nat.le_refl start
  | cons Seg Segments ih =>
      have hup := @le_alignUp Seg.Alignment start Seg.alignment_pos
      have hrest := ih (alignUp Seg.Alignment start + Seg.data.length)
      show start ≤ layoutEnd Segments (alignUp Seg.Alignment start + Seg.data.length)
      omega

theorem toNat_alignTo {Value : BitVec 32} {Align : ℕ} (h : alignUp Align Value.toNat < 2 ^ 32) :
    (alignTo Value Align).toNat = alignUp Align Value.toNat := by
  rw [alignTo, BitVec.toNat_ofNat, Nat.mod_eq_of_lt h]

/-- Segments that end within the address space are placed one after another. -/
theorem placeSegments_spec {Segments : List OutputSegment} {MemoryPtr : BitVec 32}
    (h : layoutEnd Segments MemoryPtr.toNat < 2 ^ 32) :
    (placeSegments Segments MemoryPtr).2.toNat = layoutEnd Segments MemoryPtr.toNat ∧
    ∀ s ∈ (placeSegments Segments MemoryPtr).1,
      MemoryPtr.toNat ≤ s.extent.start ∧ s.extent.stop ≤ layoutEnd Segments MemoryPtr.toNat := by
  induction Segments generalizing MemoryPtr with
  | nil => exact ⟨rfl, nofun⟩
  | cons Seg Segments ih =>
      have hup := @le_alignUp Seg.Alignment MemoryPtr.toNat Seg.alignment_pos
      have hend := le_layoutEnd Segments (alignUp Seg.Alignment MemoryPtr.toNat + Seg.data.length)
      change layoutEnd Segments (alignUp Seg.Alignment MemoryPtr.toNat + Seg.data.length) < _ at h
      have hstart : (alignTo MemoryPtr Seg.Alignment).toNat =
        alignUp Seg.Alignment MemoryPtr.toNat :=
        toNat_alignTo (by omega)
      have hnext : (alignTo MemoryPtr Seg.Alignment + Seg.Size).toNat =
          alignUp Seg.Alignment MemoryPtr.toNat + Seg.data.length := by
        rw [BitVec.toNat_add, hstart, OutputSegment.Size, BitVec.toNat_ofNat]
        omega
      rw [← hnext] at h hend
      obtain ⟨hptr, hplaced⟩ := ih h
      rw [hnext] at hptr hplaced hend
      refine ⟨hptr, ?_⟩
      intro s hs
      rcases List.mem_cons.mp hs with rfl | hs
      · show MemoryPtr.toNat ≤ (alignTo MemoryPtr Seg.Alignment).toNat ∧
          (alignTo MemoryPtr Seg.Alignment).toNat + Seg.data.length ≤ _
        rw [hstart]
        exact ⟨hup, hend⟩
      · obtain ⟨hlow, hhigh⟩ := hplaced s hs
        exact ⟨by omega, hhigh⟩

/-- What `fractal-ld` makes of segments that leave room in the address space. -/
theorem layoutMemory_fractalLd {Segments : List OutputSegment}
    (h : layoutEnd Segments 8192 ≤ 65536 * 65535) :
    ∃ l, layoutMemory fractalLd Segments = .ok l ∧ l.StackPointer = 8192 ∧
      l.DataEnd.toNat = layoutEnd Segments 8192 ∧ l.HeapBase = l.DataEnd ∧
      65536 * l.NumMemoryPages.toNat = alignUp 65536 (layoutEnd Segments 8192) ∧
      ∀ s ∈ l.segments, 8192 ≤ s.extent.start ∧ s.extent.stop ≤ layoutEnd Segments 8192 := by
  obtain ⟨hptr, hplaced⟩ := @placeSegments_spec Segments 8192 (lt_of_le_of_lt h (by decide))
  refine ⟨⟨8192, (placeSegments Segments 8192).1, (placeSegments Segments 8192).2,
    (placeSegments Segments 8192).2,
    alignTo (placeSegments Segments 8192).2 WasmPageSize / BitVec.ofNat 32 WasmPageSize, 0⟩,
    rfl, rfl, hptr, rfl, ?_, hplaced⟩
  have hptr' : (placeSegments Segments 8192).2.toNat = layoutEnd Segments 8192 := hptr
  -- the end of the data is at most 65535 pages, so rounding it up does not wrap
  have hup : alignUp 65536 (layoutEnd Segments 8192) ≤ 65536 * 65535 := by
    rw [alignUp]
    omega
  have halign : (alignTo (placeSegments Segments 8192).2 WasmPageSize).toNat =
      alignUp 65536 (layoutEnd Segments 8192) := by
    rw [toNat_alignTo, hptr', WasmPageSize]
    rw [hptr', WasmPageSize]
    omega
  show 65536 * (alignTo (placeSegments Segments 8192).2 WasmPageSize /
    BitVec.ofNat 32 WasmPageSize).toNat = _
  rw [BitVec.toNat_udiv, halign]
  exact Nat.mul_div_cancel' dvd_alignUp

end FractalCdt.Toolchain
