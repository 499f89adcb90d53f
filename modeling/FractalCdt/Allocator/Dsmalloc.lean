/-
# The allocator

`dsmalloc` moves one pointer through the linear memory and keeps its own count
of pages.  Both the pointer and the page count shifted into a byte count wrap at
`2^32`.  While the pointer stays strictly below the end of the memory neither
does, and the host's limit of 65536 pages stops every request that would.  A
pointer exactly at the end loses this: `served_iff` says that such a heap start
is the only one from which a run can go wrong.
-/

import FractalCdt.Math.Extents
import FractalCdt.Math.Memory
import FractalCdt.Math.Run
import FractalCdt.Stream.Datastream

namespace FractalCdt.Allocator

open FractalCdt.Math

/-- The state of `_dsmalloc`. -/
structure Dsmalloc where
  heap : Addr
  lastPtr : Addr
  nextPage : BitVec 32
  deriving DecidableEq

/-- A wasm instance: its linear memory of `pages` pages and the allocator. -/
structure Machine where
  mem : Mem
  pages : ℕ
  malloc : Dsmalloc

abbrev MachineM := StateT Machine (Except Fault)

/-- `memory.grow`, for a host that grants or refuses. -/
def growMemory (granted : Bool) (delta : BitVec 32) : MachineM (BitVec 32) := do
  let m ← get
  if granted ∧ m.pages + delta.toNat ≤ 65536 then
    set { m with pages := m.pages + delta.toNat }
    return BitVec.ofNat 32 m.pages
  else return -1

/-- The word at address 0, where the post-pass puts the start of the heap. -/
def heapBase (mem : Mem) : Addr := BitVec.ofNat 32 (ofLeBytes (mem.load 0 4))

namespace Dsmalloc

/-- A global that no constructor has run for. -/
def zeroed : Dsmalloc := ⟨0, 0, 0⟩

/-- `align(ptr, align_amt)`. -/
def align (ptr : Addr) (alignAmt : Byte) : Addr :=
  (ptr + alignAmt.setWidth 32 - 1) &&& ~~~(alignAmt.setWidth 32 - 1)

/-- `dsmalloc()`. -/
def construct (mem : Mem) (pages : ℕ) : Dsmalloc :=
  let heap := align (heapBase mem) 8
  { heap, lastPtr := heap, nextPage := BitVec.ofNat 32 pages }

/-- `operator()` up to the call of `memory.grow`: the new state and
`pages_to_alloc`. -/
def advance (d : Dsmalloc) (sz : BitVec 32) (alignAmt : Byte) : Dsmalloc × BitVec 32 :=
  let lastPtr := align (d.lastPtr + sz) alignAmt
  let pagesToAlloc := sz >>> 16
  let nextPage := d.nextPage + pagesToAlloc
  if nextPage <<< 16 ≤ lastPtr then
    ({ d with lastPtr, nextPage := nextPage + 1 }, pagesToAlloc + 1)
  else ({ d with lastPtr, nextPage }, pagesToAlloc)

section Advance

variable {d : Dsmalloc} {sz : BitVec 32} {alignAmt : Byte}

theorem advance_of_full (h : (d.nextPage + sz >>> 16) <<< 16 ≤ align (d.lastPtr + sz) alignAmt) :
    d.advance sz alignAmt =
      (⟨d.heap, align (d.lastPtr + sz) alignAmt, d.nextPage + sz >>> 16 + 1⟩, sz >>> 16 + 1) := by
  simp only [advance, if_pos h]

theorem advance_of_not_full
    (h : ¬ (d.nextPage + sz >>> 16) <<< 16 ≤ align (d.lastPtr + sz) alignAmt) :
    d.advance sz alignAmt =
      (⟨d.heap, align (d.lastPtr + sz) alignAmt, d.nextPage + sz >>> 16⟩, sz >>> 16) := by
  simp only [advance, if_neg h]

end Advance

/-- `char *operator()(size_t sz, uint8_t align_amt)`. -/
def call (sz : BitVec 32) (alignAmt : Byte) (granted : Bool) : MachineM Addr := do
  if sz = 0 then return 0
  let m ← get
  let (malloc, pagesToAlloc) := m.malloc.advance sz alignAmt
  set { m with malloc }
  let previous ← growMemory granted pagesToAlloc
  check (previous != -1) "failed to allocate pages"
  return m.malloc.lastPtr

end Dsmalloc

/-- A size, and whether the host grants the pages it takes. -/
structure Request where
  size : BitVec 32
  granted : Bool

/-- `void *malloc(size_t size)`. -/
def malloc (req : Request) : MachineM Addr := Dsmalloc.call req.size 8 req.granted

/-! ## One request -/

section Step

variable {m m' : Machine} {req : Request} {p : Addr}

theorem and_allOnes_shiftLeft (x : BitVec 32) :
    x &&& BitVec.allOnes 32 <<< 3 = (x >>> 3) <<< 3 := by
  ext i hi
  simp only [BitVec.getElem_and, BitVec.getElem_shiftLeft, BitVec.getElem_allOnes]
  by_cases hlow : i < 3
  · simp [hlow]
  · have hback : 3 + (i - 3) = i := by omega
    simp only [hlow, decide_false, Bool.not_false, Bool.and_true, Bool.true_and,
      BitVec.getElem_ushiftRight, hback]
    exact (BitVec.getLsbD_eq_getElem hi).symm

theorem align_eight (ptr : Addr) : Dsmalloc.align ptr 8 = ((ptr + 7) >>> 3) <<< 3 := by
  have hmask : ~~~((8 : Byte).setWidth 32 - 1) = BitVec.allOnes 32 <<< 3 := by decide
  have hsub : ptr + (8 : Byte).setWidth 32 - 1 = ptr + 7 := by
    show ptr + 8 - 1 = ptr + 7
    bv_omega
  rw [Dsmalloc.align, hmask, hsub, and_allOnes_shiftLeft]

/-- Without a wrap, `align` rounds up to the next multiple of eight. -/
theorem toNat_align {ptr : Addr} (h : ptr.toNat + 7 < 2 ^ 32) :
    (Dsmalloc.align ptr 8).toNat = alignUp 8 ptr.toNat := by
  have hadd : (ptr + 7).toNat = ptr.toNat + 7 := by
    bv_omega
  have hdiv : (ptr.toNat + 7) / 8 * 8 < 2 ^ 32 := by omega
  rw [align_eight, BitVec.toNat_shiftLeft, BitVec.toNat_ushiftRight, hadd,
    Nat.shiftRight_eq_div_pow, Nat.shiftLeft_eq, alignUp]
  exact Nat.mod_eq_of_lt hdiv

theorem malloc_zero (h : req.size = 0) : (malloc req).run m = .ok (0, m) := by
  rw [malloc, Dsmalloc.call, if_pos h]
  rfl

theorem run_growMemory (granted : Bool) (delta : BitVec 32) :
    (growMemory granted delta).run m =
      if granted ∧ m.pages + delta.toNat ≤ 65536 then
        .ok (BitVec.ofNat 32 m.pages, { m with pages := m.pages + delta.toNat })
      else .ok (-1, m) := by
  rw [growMemory, StateT.run_bind, StateT.run_get]
  show StateT.run (if _ then _ else _) m = _
  split <;> rfl

/-- The machine after a request that is not for zero bytes has been served. -/
def Machine.advanced (m : Machine) (sz : BitVec 32) : Machine :=
  { m with
    malloc := (m.malloc.advance sz 8).1
    pages := m.pages + (m.malloc.advance sz 8).2.toNat }

/-- A request that is not for zero bytes is served when the host lets the memory
grow with it. -/
theorem run_malloc (hsize : req.size ≠ 0) :
    (malloc req).run m =
      if req.granted ∧ (m.advanced req.size).pages ≤ 65536 then
        .ok (m.malloc.lastPtr, m.advanced req.size)
      else .error (.check "failed to allocate pages") := by
  rw [malloc, Dsmalloc.call, if_neg hsize]
  simp only [StateT.run_bind, StateT.run_get, StateT.run_set, pure_bind, run_growMemory]
  by_cases hgrow : req.granted ∧ m.pages + (m.malloc.advance req.size 8).2.toNat ≤ 65536
  · have hanswer : (BitVec.ofNat 32 m.pages != -1) = true := by
      have hlow : m.pages ≤ 65536 := by omega
      rw [bne_iff_ne]
      bv_omega
    rw [if_pos hgrow, Machine.advanced, if_pos hgrow]
    show (check (BitVec.ofNat 32 m.pages != -1) _ : MachineM Unit).run _ >>= _ = _
    rw [hanswer]
    rfl
  · rw [if_neg hgrow, Machine.advanced, if_neg hgrow]
    rfl

/-- What a request that is served does. -/
theorem malloc_cases (h : (malloc req).run m = .ok (p, m')) :
    (req.size = 0 ∧ p = 0 ∧ m' = m) ∨
    (req.size ≠ 0 ∧ p = m.malloc.lastPtr ∧ m'.pages ≤ 65536 ∧ m' = m.advanced req.size) := by
  by_cases hsize : req.size = 0
  · rw [malloc_zero hsize] at h
    cases h
    exact .inl ⟨hsize, rfl, rfl⟩
  · right
    rw [run_malloc hsize] at h
    split at h
    case isTrue hgrow =>
      cases h
      exact ⟨hsize, rfl, hgrow.2, rfl⟩
    case isFalse => cases h

/-- The pointer is aligned and strictly below the end of the memory, and the
allocator's page count is the memory's. -/
structure Roomy (m : Machine) : Prop where
  aligned : 8 ∣ m.malloc.lastPtr.toNat
  below : m.malloc.lastPtr.toNat < 65536 * m.pages
  nextPage_eq : m.malloc.nextPage.toNat = m.pages
  pages_le : m.pages ≤ 65536

theorem toNat_pagesToAlloc (sz : BitVec 32) : (sz >>> 16).toNat = sz.toNat / 65536 := by
  rw [BitVec.toNat_ushiftRight, Nat.shiftRight_eq_div_pow]

/-- With at most 65535 pages before the extra one, the pointer stays in the
address space and below the end of the extra page. -/
theorem Roomy.toNat_align (h : Roomy m) {sz : BitVec 32}
    (hfew : m.pages + sz.toNat / 65536 ≤ 65535) :
    (Dsmalloc.align (m.malloc.lastPtr + sz) 8).toNat =
      alignUp 8 (m.malloc.lastPtr.toNat + sz.toNat) ∧
    alignUp 8 (m.malloc.lastPtr.toNat + sz.toNat) <
      65536 * (m.pages + sz.toNat / 65536 + 1) := by
  obtain ⟨⟨k, hk⟩, hbelow, -, -⟩ := h
  have hsz := sz.isLt
  have hsum : (m.malloc.lastPtr + sz).toNat = m.malloc.lastPtr.toNat + sz.toNat := by
    rw [BitVec.toNat_add]
    omega
  have hup := @alignUp_lt 8 (m.malloc.lastPtr.toNat + sz.toNat) (by decide)
  refine ⟨?_, by omega⟩
  rw [Allocator.toNat_align (by omega), hsum]

/-- From a roomy state, a request that stays within the host's limit wraps
nowhere: the pointer moves up to behind the block, and the state is roomy again. -/
theorem Roomy.advanced (h : Roomy m) {sz : BitVec 32} (hlimit : (m.advanced sz).pages ≤ 65536) :
    (m.advanced sz).malloc.lastPtr.toNat = alignUp 8 (m.malloc.lastPtr.toNat + sz.toNat) ∧
    Roomy (m.advanced sz) := by
  have hsz := sz.isLt
  have hshift := toNat_pagesToAlloc sz
  have hnext : (m.malloc.nextPage + sz >>> 16).toNat = m.pages + sz.toNat / 65536 := by
    have := h.pages_le
    rw [BitVec.toNat_add, hshift, h.nextPage_eq]
    omega
  by_cases hfull : (m.malloc.nextPage + sz >>> 16) <<< 16 ≤ Dsmalloc.align (m.malloc.lastPtr + sz) 8
  · have hextra := Dsmalloc.advance_of_full hfull
    have hpages : (sz >>> 16 + 1).toNat = sz.toNat / 65536 + 1 := by
      rw [BitVec.toNat_add, hshift]
      show (_ + 1) % _ = _
      omega
    rw [Machine.advanced, hextra] at hlimit ⊢
    simp only [hpages] at hlimit ⊢
    obtain ⟨halign, hlt⟩ := @Roomy.toNat_align _ h sz (by omega)
    refine ⟨halign, ⟨?_, ?_, ?_, hlimit⟩⟩
    · rw [halign]
      exact dvd_alignUp
    · rw [halign]
      exact hlt
    · dsimp only
      rw [BitVec.toNat_add, hnext]
      show (_ + 1) % _ = _
      omega
  · have hexact := Dsmalloc.advance_of_not_full hfull
    rw [Machine.advanced, hexact] at hlimit ⊢
    simp only [hshift] at hlimit ⊢
    -- 65536 pages would be zero bytes, which no pointer is below.
    have hbytes : ((m.malloc.nextPage + sz >>> 16) <<< 16).toNat =
        (m.pages + sz.toNat / 65536) * 65536 % 2 ^ 32 := by
      rw [BitVec.toNat_shiftLeft, hnext, Nat.shiftLeft_eq]
    rw [BitVec.not_le, BitVec.lt_def, hbytes] at hfull
    obtain ⟨halign, -⟩ := @Roomy.toNat_align _ h sz (by omega)
    refine ⟨halign, ⟨?_, ?_, hnext, hlimit⟩⟩
    · rw [halign]
      exact dvd_alignUp
    · dsimp only
      omega

end Step

/-! ## Runs of requests -/

/-- A block that was returned. -/
structure Block where
  start : Addr
  size : BitVec 32

def Block.extent (b : Block) : Extent := ⟨b.start.toNat, b.size.toNat⟩

/-- A machine, and the blocks it has returned. -/
structure Ledger where
  machine : Machine
  blocks : List Block

/-- Serve one request and enter the block, unless none was asked for. -/
def serve (req : Request) : StateT Ledger (Except Fault) Addr := fun s => do
  let (p, machine) ← (malloc req).run s.machine
  return (p, ⟨machine, if req.size = 0 then s.blocks else ⟨p, req.size⟩ :: s.blocks⟩)

/-- The block just returned is aligned, above the heap start, inside the memory
and apart from every block before. -/
structure SoundBlock (h : Addr) (before : List Block) (b : Block) (pages : ℕ) : Prop where
  aligned : 8 ∣ b.start.toNat
  above : h ≤ b.start
  noWrap : b.start.toNat + b.size.toNat ≤ 2 ^ 32
  inside : b.start.toNat + b.size.toNat ≤ 65536 * pages
  apart : ∀ c ∈ before, b.extent.Apart c.extent

/-- A request is served soundly. -/
structure Served (h : Addr) (s : Ledger) (req : Request) (p : Addr) (s' : Ledger) : Prop where
  block : p ≠ 0 → SoundBlock h s.blocks ⟨p, req.size⟩ s'.machine.pages
  nextPage_eq : s'.machine.malloc.nextPage.toNat = s'.machine.pages

/-- The machine is roomy, and the blocks lie stacked between the heap start and
the pointer. -/
structure Sane (h : Addr) (s : Ledger) : Prop where
  roomy : Roomy s.machine
  above : h ≤ s.machine.malloc.lastPtr
  stacked : Stacked h.toNat s.machine.malloc.lastPtr.toNat (s.blocks.map Block.extent)

theorem Sane.serve {h : Addr} {s s' : Ledger} {req : Request} {p : Addr} (hsane : Sane h s)
    (hrun : (serve req).run s = .ok (p, s')) : Sane h s' ∧ Served h s req p s' := by
  obtain ⟨⟨p', m'⟩, hmalloc, hledger⟩ := exists_of_bind_eq_ok hrun
  cases hledger
  rcases malloc_cases hmalloc with ⟨hzero, rfl, rfl⟩ | ⟨hsize, rfl, hlimit, rfl⟩
  · rw [if_pos hzero]
    exact ⟨hsane, ⟨nofun, hsane.roomy.nextPage_eq⟩⟩
  · obtain ⟨hptr, hroomy⟩ := hsane.roomy.advanced hlimit
    have hup := @le_alignUp 8 (s.machine.malloc.lastPtr.toNat + req.size.toNat) (by decide)
    have habove := hsane.above
    have hbelow := hroomy.below
    have hpages := hroomy.pages_le
    rw [BitVec.le_def] at habove
    -- The pointer has moved behind the block.
    have hstacked : Stacked h.toNat (s.machine.advanced req.size).malloc.lastPtr.toNat
        (Block.extent ⟨s.machine.malloc.lastPtr, req.size⟩ :: s.blocks.map Block.extent) :=
      hsane.stacked.push habove le_rfl (hup.trans hptr.ge)
    have hgrown : h ≤ (s.machine.advanced req.size).malloc.lastPtr := by
      rw [BitVec.le_def]
      omega
    refine ⟨⟨hroomy, hgrown, ?_⟩, ⟨?_, hroomy.nextPage_eq⟩⟩
    · rw [if_neg hsize]
      exact hstacked
    · intro _
      have hend : s.machine.malloc.lastPtr.toNat + req.size.toNat <
          65536 * (s.machine.advanced req.size).pages := by omega
      exact {
        aligned := hsane.roomy.aligned
        above := hsane.above
        noWrap := hend.le.trans (by omega)
        inside := hend.le
        apart := fun c hc =>
          hsane.stacked.apart_of_le le_rfl c.extent (List.mem_map_of_mem hc) }

theorem run_serve {s : Ledger} {req : Request} {p : Addr} {m : Machine}
    (h : (malloc req).run s.machine = .ok (p, m)) :
    (serve req).run s =
      .ok (p, ⟨m, if req.size = 0 then s.blocks else ⟨p, req.size⟩ :: s.blocks⟩) :=
  congrArg (· >>= _) h

/-- A block is returned where the pointer stood; a request for no bytes changes
nothing. -/
theorem serve_cases {s s' : Ledger} {req : Request} {p : Addr}
    (hrun : (serve req).run s = .ok (p, s')) :
    (req.size = 0 ∧ s' = s) ∨ (req.size ≠ 0 ∧ p = s.machine.malloc.lastPtr) := by
  obtain ⟨⟨p', m'⟩, hmalloc, hledger⟩ := exists_of_bind_eq_ok hrun
  cases hledger
  rcases malloc_cases hmalloc with ⟨hzero, -, rfl⟩ | ⟨hsize, rfl, -, -⟩
  · left
    rw [if_pos hzero]
    exact ⟨hzero, rfl⟩
  · exact .inr ⟨hsize, rfl⟩

/-- The machine when the constructor has run: an aligned heap start that is not
above the end of the memory. -/
structure Start where
  mem : Mem
  pages : ℕ
  pages_le : pages ≤ 65535
  aligned : 8 ∣ (heapBase mem).toNat
  inside : (heapBase mem).toNat ≤ 65536 * pages

namespace Start

variable (st : Start)

def h : Addr := heapBase st.mem

def ledger : Ledger := ⟨⟨st.mem, st.pages, .construct st.mem st.pages⟩, []⟩

theorem lastPtr_eq : st.ledger.machine.malloc.lastPtr = st.h := by
  have hlt : (heapBase st.mem).toNat + 7 < 2 ^ 32 := by
    have := st.inside
    have := st.pages_le
    omega
  apply BitVec.eq_of_toNat_eq
  show (Dsmalloc.align (heapBase st.mem) 8).toNat = _
  rw [toNat_align hlt, alignUp_of_dvd (by decide) st.aligned]
  rfl

theorem nextPage_eq : st.ledger.machine.malloc.nextPage.toNat = st.pages := by
  show (BitVec.ofNat 32 st.pages).toNat = _
  have := st.pages_le
  rw [BitVec.toNat_ofNat]
  omega

theorem sane (hbelow : st.h.toNat < 65536 * st.pages) : Sane st.h st.ledger := by
  have hptr := st.lastPtr_eq
  refine ⟨⟨?_, ?_, st.nextPage_eq, ?_⟩, ?_, .nil⟩
  · rw [hptr]
    exact st.aligned
  · rw [hptr]
    exact hbelow
  · have := st.pages_le
    show st.pages ≤ 65536
    omega
  · rw [hptr]
    exact BitVec.le_refl _

end Start

/-! ## A pointer exactly at the end -/

/-- The request that ends seven bytes before the address space does. -/
def lastRequest (pages : ℕ) : Request := ⟨BitVec.ofNat 32 (65536 * (65535 - pages) + 65529), true⟩

theorem size_lastRequest (n : ℕ) (hle : n ≤ 65535) :
    (lastRequest n).size.toNat = 65536 * (65535 - n) + 65529 := by
  rw [lastRequest, BitVec.toNat_ofNat]
  omega

theorem size_lastRequest_ne {n : ℕ} (hle : n ≤ 65535) : (lastRequest n).size ≠ 0 := by
  have hsize := size_lastRequest n hle
  intro hzero
  bv_omega

/-- From a pointer at the end of the memory, the pointer wraps to zero, and the
page the block ends in is not asked for. -/
theorem run_lastRequest {m : Machine} {n : ℕ} (hpages : m.pages = n) (hpos : 1 ≤ n)
    (hle : n ≤ 65535) (hptr : m.malloc.lastPtr.toNat = 65536 * n)
    (hnext : m.malloc.nextPage.toNat = n) :
    (malloc (lastRequest n)).run m =
      .ok (m.malloc.lastPtr, ⟨m.mem, 65535, ⟨m.malloc.heap, 0, 0xFFFF⟩⟩) := by
  have hsize := size_lastRequest n hle
  have hsum : m.malloc.lastPtr + (lastRequest n).size = 0xFFFFFFF9#32 := by
    bv_omega
  have hshift := toNat_pagesToAlloc (lastRequest n).size
  have hcount : m.malloc.nextPage + (lastRequest n).size >>> 16 = 0xFFFF#32 := by
    bv_omega
  have hfull : ¬ (m.malloc.nextPage + (lastRequest n).size >>> 16) <<< 16 ≤
      Dsmalloc.align (m.malloc.lastPtr + (lastRequest n).size) 8 := by
    rw [hsum, hcount]
    decide
  have hadvance := Dsmalloc.advance_of_not_full hfull
  have hwrap : Dsmalloc.align 0xFFFFFFF9#32 8 = 0 := by decide
  rw [hsum, hwrap, hcount] at hadvance
  have hgrown : m.pages + ((lastRequest n).size >>> 16).toNat = 65535 := by
    rw [hshift, hsize, hpages]
    omega
  have hmachine : m.advanced (lastRequest n).size =
      ⟨m.mem, 65535, ⟨m.malloc.heap, 0, 0xFFFF⟩⟩ := by
    rw [Machine.advanced, hadvance]
    simp only [hgrown]
    rfl
  rw [run_malloc (size_lastRequest_ne hle), hmachine, if_pos ⟨rfl, by dsimp only; omega⟩]

/-- The block then leaves the memory. -/
theorem not_served_lastRequest {s : Ledger} {h : Addr} {n : ℕ} (hpages : s.machine.pages = n)
    (hpos : 1 ≤ n) (hle : n ≤ 65535) (hptr : s.machine.malloc.lastPtr.toNat = 65536 * n)
    (hnext : s.machine.malloc.nextPage.toNat = n) (reqs : List Request) :
    ¬ Along serve (Served h) (lastRequest n :: reqs) s := by
  have hsize := size_lastRequest n hle
  rw [along_cons_of_ok (run_serve (run_lastRequest hpages hpos hle hptr hnext))]
  rintro ⟨hserved, -⟩
  have hinside := (hserved.block ?_).inside
  · dsimp only at hinside
    omega
  · intro hnull
    bv_omega

/-- Eight bytes from a page that is there. -/
theorem run_malloc_eight (mem : Mem) (heap : Addr) {p q : Addr}
    (halign : Dsmalloc.align (p + 8) 8 = q) (hlow : ¬ (0xFFFF#32 + 8#32 >>> 16) <<< 16 ≤ q) :
    (malloc ⟨8, true⟩).run ⟨mem, 65535, ⟨heap, p, 0xFFFF⟩⟩ =
      .ok (p, ⟨mem, 65535, ⟨heap, q, 0xFFFF⟩⟩) := by
  have hadvance := @Dsmalloc.advance_of_not_full ⟨heap, p, 0xFFFF⟩ 8 8 (by rwa [halign])
  rw [halign] at hadvance
  have hmachine : Machine.advanced ⟨mem, 65535, ⟨heap, p, 0xFFFF⟩⟩ 8 =
      ⟨mem, 65535, ⟨heap, q, 0xFFFF⟩⟩ := by
    rw [Machine.advanced, hadvance]
    rfl
  have hne : (8 : BitVec 32) ≠ 0 := by decide
  rw [run_malloc hne, hmachine, if_pos ⟨rfl, by dsimp only; omega⟩]

theorem serve_eight (mem : Mem) (heap : Addr) {p q : Addr}
    (halign : Dsmalloc.align (p + 8) 8 = q) (hlow : ¬ (0xFFFF#32 + 8#32 >>> 16) <<< 16 ≤ q)
    (blocks : List Block) :
    (serve ⟨8, true⟩).run ⟨⟨mem, 65535, ⟨heap, p, 0xFFFF⟩⟩, blocks⟩ =
      .ok (p, ⟨⟨mem, 65535, ⟨heap, q, 0xFFFF⟩⟩, ⟨p, 8⟩ :: blocks⟩) :=
  @run_serve ⟨⟨mem, 65535, ⟨heap, p, 0xFFFF⟩⟩, blocks⟩ _ _ _ (run_malloc_eight mem heap halign hlow)

/-- After that, the allocator starts over: two small blocks later, the one at
address 8 is given away. -/
theorem not_along_restart {P : Ledger → Request → Addr → Ledger → Prop} {s : Ledger} {n : ℕ}
    (hpages : s.machine.pages = n) (hpos : 1 ≤ n) (hle : n ≤ 65535)
    (hptr : s.machine.malloc.lastPtr.toNat = 65536 * n)
    (hnext : s.machine.malloc.nextPage.toNat = n) (hbad : ∀ s s', ¬ P s ⟨8, true⟩ 8 s') :
    ¬ Along serve P [lastRequest n, ⟨8, true⟩, ⟨8, true⟩] s := by
  have hfirst := run_serve (run_lastRequest hpages hpos hle hptr hnext)
  have hsecond := @serve_eight s.machine.mem s.machine.malloc.heap 0 8 (by decide) (by decide)
  have hthird := @serve_eight s.machine.mem s.machine.malloc.heap 8 16 (by decide) (by decide)
  rw [along_cons_of_ok hfirst, along_cons_of_ok (hsecond _), along_cons_of_ok (hthird _)]
  rintro ⟨-, -, hthere, -⟩
  exact hbad _ _ hthere

namespace Start

variable (st : Start)

/-- From a heap start at the end of the memory some run goes wrong. -/
theorem exists_not_served (hfull : st.h.toNat = 65536 * st.pages) :
    ∃ reqs, ¬ Along serve (Served st.h) reqs st.ledger := by
  have hle := st.pages_le
  by_cases hzero : st.pages = 0
  · -- An empty memory and a null heap start: one block fills the first page.
    refine ⟨[⟨65529, true⟩, lastRequest 1], ?_⟩
    have hbase : heapBase st.mem = 0 := by
      apply BitVec.eq_of_toNat_eq
      exact hfull.trans (by rw [hzero]; rfl)
    have hmachine : st.ledger.machine = ⟨st.mem, 0, ⟨0, 0, 0⟩⟩ := by
      show Machine.mk st.mem st.pages (.construct st.mem st.pages) = _
      rw [hzero, Dsmalloc.construct, hbase]
      rfl
    have hadvance : Dsmalloc.advance ⟨0, 0, 0⟩ 65529 8 = (⟨0, 65536, 1⟩, 1) := by decide
    have hgrown : Machine.advanced ⟨st.mem, 0, ⟨0, 0, 0⟩⟩ 65529 = ⟨st.mem, 1, ⟨0, 65536, 1⟩⟩ := by
      rw [Machine.advanced, hadvance]
      rfl
    have hmalloc : (malloc ⟨65529, true⟩).run st.ledger.machine =
        .ok (0, ⟨st.mem, 1, ⟨0, 65536, 1⟩⟩) := by
      have hne : (65529 : BitVec 32) ≠ 0 := by decide
      rw [hmachine, run_malloc hne, hgrown, if_pos ⟨rfl, by dsimp only; omega⟩]
    rw [along_cons_of_ok (run_serve hmalloc)]
    exact not_and_of_not_right _ (@not_served_lastRequest
      ⟨⟨st.mem, 1, ⟨0, 65536, 1⟩⟩, [⟨0, 65529⟩]⟩ st.h 1
      rfl le_rfl (by decide) rfl rfl [])
  · refine ⟨[lastRequest st.pages], ?_⟩
    have hptr : st.ledger.machine.malloc.lastPtr.toNat = 65536 * st.pages := by
      rw [st.lastPtr_eq, hfull]
    exact not_served_lastRequest rfl (Nat.one_le_iff_ne_zero.mpr hzero) hle hptr st.nextPage_eq []

/-- From a heap start, every run is served soundly exactly when the heap starts
strictly below the end of the memory. -/
theorem served_iff :
    (∀ reqs, Along serve (Served st.h) reqs st.ledger) ↔ st.h.toNat < 65536 * st.pages := by
  constructor
  · intro hall
    by_contra hnot
    have hfull : st.h.toNat = 65536 * st.pages := le_antisymm st.inside (not_lt.mp hnot)
    obtain ⟨reqs, hreqs⟩ := st.exists_not_served hfull
    exact hreqs (hall reqs)
  · intro hbelow reqs
    apply along_of_invariant (Sane st.h)
    · intro s req p s' hsane hrun
      exact (hsane.serve hrun).1
    · intro s req p s' hsane hrun
      exact (hsane.serve hrun).2
    · exact st.sane hbelow

end Start

/-- One page, all of it static data: `lastRequest 1` gets a block of `0xFFFEFFF9`
bytes from 65536 on that ends in a page that was never asked for. -/
theorem not_served_pageEnd :
    ¬ ∀ (st : Start) (reqs : List Request), Along serve (Served st.h) reqs st.ledger := by
  intro hall
  let st : Start := {
    mem := Mem.store (fun _ => 0) 0 [0, 0, 1, 0]
    pages := 1
    pages_le := by decide
    aligned := by decide
    inside := by decide }
  have hfull : st.h.toNat = 65536 * st.pages := by decide
  obtain ⟨reqs, hreqs⟩ := st.exists_not_served hfull
  exact hreqs (hall st reqs)

end FractalCdt.Allocator
