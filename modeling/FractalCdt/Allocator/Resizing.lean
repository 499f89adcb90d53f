/-
# Blocks that are cleared and blocks that are resized

`calloc` multiplies in 32 bits before it asks for a block, and `realloc` asks for
a new block and leaves the old bytes where they are.  Runs of all calls keep the
pointer at or below the end of the memory, and nothing is written behind it.
-/

import FractalCdt.Allocator.Ctors

namespace FractalCdt.Allocator

open FractalCdt.Math

/-- A store of one byte. -/
def storeByte (a : Addr) (c : Byte) : MachineM Unit := do
  let m ← get
  if a.toNat < 65536 * m.pages then
    set { m with mem := m.mem.store a [c] }
  else throw .trap

/-- The loop of `memset`, with `p` the address of `p[i]`. -/
def fillBytes (c : Byte) : ℕ → Addr → MachineM Unit
  | 0, _ => pure ()
  | n + 1, p => do
      storeByte p c
      fillBytes c n (p + 1)

/-- `void *memset(void *ptr, int c, size_t n)`. -/
def memset (ptr : Addr) (c : Byte) (n : BitVec 32) : MachineM Unit := fillBytes c n.toNat ptr

/-- `void *calloc(size_t count, size_t size)`. -/
def calloc (count size : BitVec 32) (granted : Bool) : MachineM Addr := do
  let ptr ← Dsmalloc.call (count * size) 8 granted
  if ptr ≠ 0 then
    memset ptr 0 (count * size)
    return ptr
  return 0

/-- `void *realloc(void *ptr, size_t size)`. -/
def realloc (_ : Addr) (req : Request) : MachineM Addr := Dsmalloc.call req.size 8 req.granted

/-- `void free(void *ptr)`. -/
def free (_ : Addr) : MachineM Unit := pure ()

/-- What a program does with the heap. -/
inductive Call
  | malloc (req : Request)
  | calloc (count size : BitVec 32) (granted : Bool)
  | realloc (ptr : Addr) (req : Request)
  | free (ptr : Addr)
  | write (block : ℕ) (offset : BitVec 32) (value : Byte)

/-- The size of the block that a call asks the allocator for. -/
def Call.size : Call → BitVec 32
  | .malloc req => req.size
  | .calloc count size _ => count * size
  | .realloc _ req => req.size
  | .free _ => 0
  | .write .. => 0

/-- Make a request and enter the block, unless it is null. -/
def enter (size : BitVec 32) (request : MachineM Addr) : StateT Ledger (Except Fault) Addr :=
  fun s => do
    let (p, machine) ← request.run s.machine
    return (p, ⟨machine, if p = 0 then s.blocks else ⟨p, size⟩ :: s.blocks⟩)

def Call.exec : Call → StateT Ledger (Except Fault) Addr
  | .malloc req => enter req.size (Allocator.malloc req)
  | .calloc count size granted => enter (count * size) (Allocator.calloc count size granted)
  | .realloc ptr req => enter req.size (Allocator.realloc ptr req)
  | .free ptr => fun s => do
      let ((), machine) ← (Allocator.free ptr).run s.machine
      return (0, { s with machine })
  | .write block offset value => fun s => .ok (0, s.write block offset value)

/-- A heap that some sequence of calls leads to. -/
inductive Reachable (st : Start) : Ledger → Prop
  | start : Reachable st st.ledger
  | step {s s' : Ledger} {call : Call} {p : Addr} (h : Reachable st s)
      (hrun : call.exec.run s = .ok (p, s')) : Reachable st s'

/-! ## Clearing -/

section Memset

variable {m m' : Machine} {c : Byte} {n : ℕ} {p : Addr}

theorem run_storeByte (a : Addr) : (storeByte a c).run m =
    if a.toNat < 65536 * m.pages then .ok ((), { m with mem := m.mem.store a [c] })
    else .error .trap := by
  rw [storeByte, StateT.run_bind, StateT.run_get]
  show StateT.run (if _ then _ else _) m = _
  split <;> rfl

theorem run_fillBytes_succ (hin : p.toNat < 65536 * m.pages) : (fillBytes c (n + 1) p).run m =
    (fillBytes c n (p + 1)).run { m with mem := m.mem.store p [c] } := by
  rw [fillBytes, StateT.run_bind, run_storeByte, if_pos hin]
  rfl

/-- A loop that ends has stored every byte. -/
theorem eq_of_fillBytes (hrun : (fillBytes c n p).run m = .ok ((), m')) :
    m' = { m with mem := m.mem.store p (List.replicate n c) } := by
  induction n generalizing p m with
  | zero =>
      cases hrun
      rfl
  | succ n ih =>
      by_cases hin : p.toNat < 65536 * m.pages
      · rw [run_fillBytes_succ hin] at hrun
        rw [ih hrun]
        rfl
      · rw [fillBytes, StateT.run_bind, run_storeByte, if_neg hin] at hrun
        cases hrun

theorem run_fillBytes (hin : p.toNat + n ≤ 65536 * m.pages) (hpages : m.pages ≤ 65536) :
    (fillBytes c n p).run m = .ok ((), { m with mem := m.mem.store p (List.replicate n c) }) := by
  induction n generalizing p m with
  | zero => rfl
  | succ n ih =>
      rw [run_fillBytes_succ (by omega)]
      by_cases hlast : n = 0
      · subst hlast
        rfl
      · have hnext : (p + 1).toNat + n ≤ 65536 * m.pages := by bv_omega
        exact ih hnext hpages

/-- A loop that leaves the memory traps. -/
theorem run_fillBytes_trap (hpos : 0 < n) (hout : 65536 * m.pages < p.toNat + n)
    (hend : p.toNat + n ≤ 2 ^ 32) : (fillBytes c n p).run m = .error .trap := by
  induction n generalizing p m with
  | zero => cases hpos
  | succ n ih =>
      by_cases hin : p.toNat < 65536 * m.pages
      · have hnext : (p + 1).toNat = p.toNat + 1 := by bv_omega
        rw [run_fillBytes_succ hin]
        apply ih
        · omega
        · dsimp only
          omega
        · omega
      · rw [fillBytes, StateT.run_bind, run_storeByte, if_neg hin]
        rfl

end Memset

/-! ## The pointer and the end of the memory -/

/-- The pointer is aligned and not above the end of the memory, and the allocator's
page count is the memory's. -/
structure Fitted (m : Machine) : Prop where
  aligned : 8 ∣ m.malloc.lastPtr.toNat
  le_end : m.malloc.lastPtr.toNat ≤ 65536 * m.pages
  nextPage_eq : m.malloc.nextPage.toNat = m.pages
  pages_le : m.pages ≤ 65536

section Pointer

variable {m : Machine} {sz : BitVec 32}

theorem Roomy.fitted (h : Roomy m) : Fitted m :=
  ⟨h.aligned, h.below.le, h.nextPage_eq, h.pages_le⟩

theorem Fitted.roomy (h : Fitted m) (hbelow : m.malloc.lastPtr.toNat < 65536 * m.pages) :
    Roomy m :=
  ⟨h.aligned, hbelow, h.nextPage_eq, h.pages_le⟩

theorem align_wraps {ptr : Addr} (h : 2 ^ 32 ≤ ptr.toNat + 7) : Dsmalloc.align ptr 8 = 0 := by
  have hlow : ((ptr + 7) >>> 3).toNat = 0 := by
    rw [BitVec.toNat_ushiftRight, Nat.shiftRight_eq_div_pow]
    bv_omega
  have hzero : (ptr + 7) >>> 3 = 0 := BitVec.eq_of_toNat_eq hlow
  rw [align_eight, hzero]
  rfl

/-- Where the pointer is after a request that was served: behind the block, or at zero
when the block leaves the memory. -/
def Moved (m : Machine) (sz : BitVec 32) : Prop :=
  m.malloc.lastPtr.toNat + sz.toNat ≤ (m.advanced sz).malloc.lastPtr.toNat ∨
    ((m.advanced sz).malloc.lastPtr = 0 ∧
      65536 * (m.advanced sz).pages < m.malloc.lastPtr.toNat + sz.toNat)

theorem advanced_mem : (m.advanced sz).mem = m.mem := by
  simp only [Machine.advanced]

theorem advanced_of_full
    (h : (m.malloc.nextPage + sz >>> 16) <<< 16 ≤ Dsmalloc.align (m.malloc.lastPtr + sz) 8) :
    m.advanced sz = ⟨m.mem, m.pages + (sz.toNat / 65536 + 1),
      ⟨m.malloc.heap, Dsmalloc.align (m.malloc.lastPtr + sz) 8,
        m.malloc.nextPage + sz >>> 16 + 1⟩⟩ := by
  have hpages : (sz >>> 16 + 1).toNat = sz.toNat / 65536 + 1 := by
    have hsz := sz.isLt
    rw [BitVec.toNat_add, toNat_pagesToAlloc]
    show (_ + 1) % _ = _
    omega
  rw [Machine.advanced, Dsmalloc.advance_of_full h]
  simp only [hpages]

theorem advanced_of_not_full
    (h : ¬ (m.malloc.nextPage + sz >>> 16) <<< 16 ≤ Dsmalloc.align (m.malloc.lastPtr + sz) 8) :
    m.advanced sz = ⟨m.mem, m.pages + sz.toNat / 65536,
      ⟨m.malloc.heap, Dsmalloc.align (m.malloc.lastPtr + sz) 8,
        m.malloc.nextPage + sz >>> 16⟩⟩ := by
  rw [Machine.advanced, Dsmalloc.advance_of_not_full h]
  simp only [toNat_pagesToAlloc]

theorem advanced_pages_le : (m.advanced sz).pages ≤ m.pages + (sz.toNat / 65536 + 1) := by
  by_cases hfull :
      (m.malloc.nextPage + sz >>> 16) <<< 16 ≤ Dsmalloc.align (m.malloc.lastPtr + sz) 8
  · rw [advanced_of_full hfull]
  · rw [advanced_of_not_full hfull]
    exact Nat.le_succ _

/-- From the end of the memory, a request that stays within the host's limit and in
the address space moves the pointer behind the block. -/
theorem Fitted.advanced_of_room (h : Fitted m) (hend : m.malloc.lastPtr.toNat = 65536 * m.pages)
    (hroom : m.malloc.lastPtr.toNat + sz.toNat + 7 < 2 ^ 32) :
    Fitted (m.advanced sz) ∧
      (m.advanced sz).malloc.lastPtr.toNat = alignUp 8 (m.malloc.lastPtr.toNat + sz.toNat) ∧
      (m.advanced sz).pages = m.pages + (sz.toNat / 65536 + 1) := by
  have hsum : (m.malloc.lastPtr + sz).toNat = m.malloc.lastPtr.toNat + sz.toNat := by
    rw [BitVec.toNat_add]
    omega
  have halign := @toNat_align (m.malloc.lastPtr + sz) (by omega)
  have hle := @le_alignUp 8 (m.malloc.lastPtr.toNat + sz.toNat) (by decide)
  have hnext : (m.malloc.nextPage + sz >>> 16).toNat = m.pages + sz.toNat / 65536 := by
    rw [BitVec.toNat_add, toNat_pagesToAlloc, h.nextPage_eq]
    omega
  rw [hsum] at halign
  have hfull : (m.malloc.nextPage + sz >>> 16) <<< 16 ≤
      Dsmalloc.align (m.malloc.lastPtr + sz) 8 := by
    rw [BitVec.le_def, halign, BitVec.toNat_shiftLeft, hnext, Nat.shiftLeft_eq]
    have hmod := Nat.mod_le ((m.pages + sz.toNat / 65536) * 2 ^ 16) (2 ^ 32)
    omega
  rw [advanced_of_full hfull]
  refine ⟨⟨?_, ?_, ?_, ?_⟩, halign, rfl⟩
  · dsimp only
    rw [halign]
    exact dvd_alignUp
  · dsimp only
    rw [halign]
    exact alignUp_le (by decide) (by omega) (by omega)
  · dsimp only
    rw [BitVec.toNat_add, hnext]
    show (_ + 1) % _ = _
    omega
  · dsimp only
    omega

/-- When the last seven bytes of the address space are reached, the pointer wraps. -/
theorem Fitted.advanced_of_wrap (h : Fitted m) (hend : m.malloc.lastPtr.toNat = 65536 * m.pages)
    (hlimit : (m.advanced sz).pages ≤ 65536)
    (hwrap : 2 ^ 32 ≤ m.malloc.lastPtr.toNat + sz.toNat + 7) :
    m.malloc.lastPtr.toNat + sz.toNat ≤ 2 ^ 32 ∧
      m.advanced sz = ⟨m.mem, 65535, ⟨m.malloc.heap, 0, 0xFFFF⟩⟩ := by
  have hsz := sz.isLt
  have hlt := m.malloc.lastPtr.isLt
  have hnext : (m.malloc.nextPage + sz >>> 16).toNat = m.pages + sz.toNat / 65536 := by
    rw [BitVec.toNat_add, toNat_pagesToAlloc, h.nextPage_eq]
    omega
  have hbytes : ((m.malloc.nextPage + sz >>> 16) <<< 16).toNat =
      (m.pages + sz.toNat / 65536) * 65536 % 2 ^ 32 := by
    rw [BitVec.toNat_shiftLeft, hnext, Nat.shiftLeft_eq]
  by_cases hfull :
      (m.malloc.nextPage + sz >>> 16) <<< 16 ≤ Dsmalloc.align (m.malloc.lastPtr + sz) 8
  · rw [advanced_of_full hfull] at hlimit
    rw [BitVec.le_def, hbytes] at hfull
    dsimp only at hlimit
    have hsum : (m.malloc.lastPtr + sz).toNat = m.malloc.lastPtr.toNat + sz.toNat := by
      rw [BitVec.toNat_add]
      omega
    rw [align_wraps (by omega)] at hfull
    have hzero : (0 : Addr).toNat = 0 := rfl
    omega
  · have hpages := hlimit
    rw [advanced_of_not_full hfull] at hpages ⊢
    rw [BitVec.le_def, hbytes] at hfull
    dsimp only at hpages
    have hfew : m.pages + sz.toNat / 65536 = 65535 := by omega
    have hsum : (m.malloc.lastPtr + sz).toNat = m.malloc.lastPtr.toNat + sz.toNat := by
      rw [BitVec.toNat_add]
      omega
    have hlast : m.malloc.nextPage + sz >>> 16 = 0xFFFF := by
      apply BitVec.eq_of_toNat_eq
      rw [hnext, hfew]
      rfl
    rw [align_wraps (by omega), hlast, hfew]
    exact ⟨by omega, rfl⟩

theorem Fitted.advanced (h : Fitted m) (hlimit : (m.advanced sz).pages ≤ 65536) :
    Fitted (m.advanced sz) ∧ Moved m sz ∧ m.malloc.lastPtr.toNat + sz.toNat ≤ 2 ^ 32 := by
  have hup := @le_alignUp 8 (m.malloc.lastPtr.toNat + sz.toNat) (by decide)
  by_cases hbelow : m.malloc.lastPtr.toNat < 65536 * m.pages
  · obtain ⟨hptr, hroomy⟩ := (h.roomy hbelow).advanced hlimit
    have hend := hroomy.below
    exact ⟨hroomy.fitted, .inl (hup.trans hptr.ge), by omega⟩
  · have hend : m.malloc.lastPtr.toNat = 65536 * m.pages :=
      le_antisymm h.le_end (not_lt.mp hbelow)
    by_cases hroom : m.malloc.lastPtr.toNat + sz.toNat + 7 < 2 ^ 32
    · obtain ⟨hfitted, hptr, -⟩ := h.advanced_of_room hend hroom
      exact ⟨hfitted, .inl (hup.trans hptr.ge), by omega⟩
    · obtain ⟨hspace, hmachine⟩ := h.advanced_of_wrap hend hlimit (not_lt.mp hroom)
      rw [Moved, hmachine]
      refine ⟨⟨dvd_zero 8, Nat.zero_le _, rfl, by dsimp only; omega⟩, .inr ⟨rfl, ?_⟩, hspace⟩
      dsimp only
      omega

/-- A block in the memory leaves the pointer below its end, unless the pointer was at the
end and less than eight bytes remain of the last page. -/
theorem Fitted.below_advanced_iff (h : Fitted m) (hlimit : (m.advanced sz).pages ≤ 65536)
    (hinside : m.malloc.lastPtr.toNat + sz.toNat ≤ 65536 * (m.advanced sz).pages) :
    (m.advanced sz).malloc.lastPtr.toNat < 65536 * (m.advanced sz).pages ↔
      m.malloc.lastPtr.toNat < 65536 * m.pages ∨ sz.toNat % 65536 < 65529 := by
  by_cases hbelow : m.malloc.lastPtr.toNat < 65536 * m.pages
  · exact iff_of_true ((h.roomy hbelow).advanced hlimit).2.below (.inl hbelow)
  · have hend : m.malloc.lastPtr.toNat = 65536 * m.pages :=
      le_antisymm h.le_end (not_lt.mp hbelow)
    rw [or_iff_right hbelow]
    by_cases hroom : m.malloc.lastPtr.toNat + sz.toNat + 7 < 2 ^ 32
    · obtain ⟨-, hptr, hpages⟩ := h.advanced_of_room hend hroom
      rw [hptr, hpages, alignUp]
      omega
    · obtain ⟨-, hmachine⟩ := h.advanced_of_wrap hend hlimit (not_lt.mp hroom)
      rw [hmachine] at hinside
      dsimp only at hinside
      omega

end Pointer

/-! ## What a call does -/

/-- No block is returned, and only bytes of returned blocks may change. -/
structure Quiet (s : Ledger) (p : Addr) (s' : Ledger) : Prop where
  null : p = 0
  malloc_eq : s'.machine.malloc = s.machine.malloc
  pages_eq : s'.machine.pages = s.machine.pages
  blocks_eq : s'.blocks = s.blocks
  mem_eq : ∀ a, (∀ b ∈ s.blocks, ¬ InRange b.start b.size.toNat a) →
    s'.machine.mem a = s.machine.mem a

/-- A block is taken where the pointer stands, and only its bytes may change. -/
structure Allocated (s : Ledger) (sz : BitVec 32) (p : Addr) (s' : Ledger) : Prop where
  limit : (s.machine.advanced sz).pages ≤ 65536
  start_eq : p = s.machine.malloc.lastPtr
  malloc_eq : s'.machine.malloc = (s.machine.advanced sz).malloc
  pages_eq : s'.machine.pages = (s.machine.advanced sz).pages
  blocks_eq : s'.blocks = if p = 0 then s.blocks else ⟨p, sz⟩ :: s.blocks
  mem_eq : ∀ a, ¬ InRange p sz.toNat a → s'.machine.mem a = s.machine.mem a

section Calls

variable {s s' : Ledger} {p : Addr} {m m' : Machine} {count size : BitVec 32} {granted : Bool}

/-- The request that `calloc` makes. -/
abbrev product (count size : BitVec 32) (granted : Bool) : Request := ⟨count * size, granted⟩

/-- A block that `calloc` gets is cleared, a null pointer is passed on. -/
theorem run_calloc (h : (malloc (product count size granted)).run m = .ok (p, m')) :
    (calloc count size granted).run m =
      if p = 0 then .ok (0, m')
      else ((memset p 0 (count * size)).run m').map fun out => (p, out.2) := by
  rw [malloc] at h
  rw [calloc, StateT.run_bind, h]
  show StateT.run (if p ≠ 0 then _ else _) m' = _
  by_cases hnull : p = 0
  · rw [if_pos hnull, if_neg (not_not_intro hnull)]
    rfl
  · rw [if_neg hnull, if_pos hnull, StateT.run_bind]
    cases (memset p 0 (count * size)).run m' <;> rfl

theorem malloc_of_calloc (h : (calloc count size granted).run m = .ok (p, m')) :
    ∃ m₁, (malloc (product count size granted)).run m = .ok (p, m₁) ∧
      m' = { m₁ with mem :=
        if p = 0 then m₁.mem else m₁.mem.store p (List.replicate (count * size).toNat 0) } := by
  cases hmalloc : (malloc (product count size granted)).run m with
  | error e =>
      rw [malloc] at hmalloc
      rw [calloc, StateT.run_bind, hmalloc] at h
      cases h
  | ok out =>
      obtain ⟨p₁, m₁⟩ := out
      rw [run_calloc hmalloc] at h
      by_cases hnull : p₁ = 0
      · rw [if_pos hnull] at h
        cases h
        exact ⟨m', by rw [hnull], by simp⟩
      · rw [if_neg hnull] at h
        cases hset : (memset p₁ 0 (count * size)).run m₁ with
        | error e =>
            rw [hset] at h
            cases h
        | ok out =>
            obtain ⟨⟨⟩, m₂⟩ := out
            rw [hset] at h
            cases h
            exact ⟨m₁, rfl, by rw [if_neg hnull]; exact eq_of_fillBytes hset⟩

theorem run_enter {size : BitVec 32} {request : MachineM Addr}
    (h : request.run s.machine = .ok (p, m)) :
    (enter size request).run s = .ok (p, ⟨m, if p = 0 then s.blocks else ⟨p, size⟩ :: s.blocks⟩) :=
  congrArg (· >>= _) h

theorem of_run_enter {size : BitVec 32} {request : MachineM Addr}
    (h : (enter size request).run s = .ok (p, s')) :
    request.run s.machine = .ok (p, s'.machine) ∧
      s'.blocks = if p = 0 then s.blocks else ⟨p, size⟩ :: s.blocks := by
  obtain ⟨⟨p', m'⟩, hrequest, hledger⟩ := exists_of_bind_eq_ok h
  cases hledger
  exact ⟨hrequest, rfl⟩

theorem quiet_or_allocated_of_malloc {req : Request}
    (h : (enter req.size (malloc req)).run s = .ok (p, s')) :
    Quiet s p s' ∨ Allocated s req.size p s' := by
  obtain ⟨hmalloc, hblocks⟩ := of_run_enter h
  rcases malloc_cases hmalloc with ⟨-, hnull, hsame⟩ | ⟨-, hptr, hlimit, hmachine⟩
  · rw [if_pos hnull] at hblocks
    exact .inl ⟨hnull, by rw [hsame], by rw [hsame], hblocks, fun a _ => by rw [hsame]⟩
  · rw [hmachine] at hlimit
    exact .inr ⟨hlimit, hptr, by rw [hmachine], by rw [hmachine], hblocks,
      fun a _ => by rw [hmachine]; rfl⟩

theorem quiet_or_allocated_of_calloc
    (h : (enter (count * size) (calloc count size granted)).run s = .ok (p, s')) :
    Quiet s p s' ∨ Allocated s (count * size) p s' := by
  obtain ⟨hcalloc, hblocks⟩ := of_run_enter h
  obtain ⟨m₁, hmalloc, hmachine⟩ := malloc_of_calloc hcalloc
  rcases malloc_cases hmalloc with ⟨-, hnull, hsame⟩ | ⟨-, hptr, hlimit, hadvanced⟩
  · rw [if_pos hnull] at hblocks hmachine
    rw [hsame] at hmachine
    exact .inl ⟨hnull, by rw [hmachine], by rw [hmachine], hblocks, fun a _ => by rw [hmachine]⟩
  · rw [hadvanced] at hlimit hmachine
    refine .inr ⟨hlimit, hptr, by rw [hmachine], by rw [hmachine], hblocks, ?_⟩
    intro a hout
    rw [hmachine]
    show (if p = 0 then _ else _ : Mem) a = _
    split
    · rfl
    · apply Mem.store_of_not_inRange
      rwa [List.length_replicate]

theorem exec_free (ptr : Addr) : (Call.free ptr).exec.run s = .ok (0, s) := rfl

/-- Every call is quiet or takes a block. -/
theorem exec_cases {call : Call} (hrun : call.exec.run s = .ok (p, s')) :
    Quiet s p s' ∨ Allocated s call.size p s' := by
  cases call with
  | malloc req => exact quiet_or_allocated_of_malloc hrun
  | calloc count size granted => exact quiet_or_allocated_of_calloc hrun
  | realloc ptr req => exact quiet_or_allocated_of_malloc hrun
  | free ptr =>
      rw [exec_free] at hrun
      cases hrun
      exact .inl ⟨rfl, rfl, rfl, rfl, fun _ _ => rfl⟩
  | write block offset value =>
      cases hrun
      left
      unfold Ledger.write
      split
      · exact ⟨rfl, rfl, rfl, rfl, fun _ _ => rfl⟩
      case h_2 b hblock =>
        split
        · refine ⟨rfl, rfl, rfl, rfl, ?_⟩
          intro a hout
          apply Mem.store_of_not_inRange
          intro hin
          apply hout b (List.mem_of_getElem? hblock)
          simp only [InRange, List.length_singleton] at hin ⊢
          bv_omega
        · exact ⟨rfl, rfl, rfl, rfl, fun _ _ => rfl⟩

end Calls

/-! ## Every heap that is reached -/

section Reached

variable {st : Start} {s s' : Ledger} {p : Addr} {call : Call}

theorem Fitted.of_eq {m m' : Machine} (h : Fitted m) (hmalloc : m'.malloc = m.malloc)
    (hpages : m'.pages = m.pages) : Fitted m' := by
  refine ⟨?_, ?_, ?_, ?_⟩
  · rw [hmalloc]
    exact h.aligned
  · rw [hmalloc, hpages]
    exact h.le_end
  · rw [hmalloc, hpages]
    exact h.nextPage_eq
  · rw [hpages]
    exact h.pages_le

theorem Roomy.of_eq {m m' : Machine} (h : Roomy m) (hmalloc : m'.malloc = m.malloc)
    (hpages : m'.pages = m.pages) : Roomy m' := by
  apply (h.fitted.of_eq hmalloc hpages).roomy
  rw [hmalloc, hpages]
  exact h.below

theorem Fitted.exec (h : Fitted s.machine) (hrun : call.exec.run s = .ok (p, s')) :
    Fitted s'.machine := by
  rcases exec_cases hrun with hquiet | halloc
  · exact h.of_eq hquiet.malloc_eq hquiet.pages_eq
  · exact (h.advanced halloc.limit).1.of_eq halloc.malloc_eq halloc.pages_eq

theorem Reachable.fitted (h : Reachable st s) : Fitted s.machine := by
  induction h with
  | start =>
      have hpages := st.pages_le
      refine ⟨?_, ?_, st.nextPage_eq, by show st.pages ≤ 65536; omega⟩
      · rw [st.lastPtr_eq]
        exact st.aligned
      · rw [st.lastPtr_eq]
        exact st.inside
  | step _ hrun ih => exact ih.exec hrun

/-- Below the pointer lie the blocks, and from it on nothing has been written. -/
structure Tidy (st : Start) (s : Ledger) : Prop where
  roomy : Roomy s.machine
  below : ∀ b ∈ s.blocks, b.extent.stop ≤ s.machine.malloc.lastPtr.toNat
  untouched : ∀ a, s.machine.malloc.lastPtr ≤ a → s.machine.mem a = st.mem a

/-- A cell from the end of a block on is not in it. -/
theorem not_inRange_of_le {b : Block} {a : Addr} (h : b.extent.stop ≤ a.toNat) :
    ¬ InRange b.start b.size.toNat a := by
  have hstop : b.start.toNat + b.size.toNat ≤ a.toNat := h
  simp only [InRange]
  bv_omega

theorem Tidy.exec (h : Tidy st s) (hrun : call.exec.run s = .ok (p, s')) : Tidy st s' := by
  rcases exec_cases hrun with hquiet | halloc
  · refine ⟨h.roomy.of_eq hquiet.malloc_eq hquiet.pages_eq, ?_, ?_⟩
    · rw [hquiet.blocks_eq, hquiet.malloc_eq]
      exact h.below
    · intro a ha
      rw [hquiet.malloc_eq] at ha
      rw [hquiet.mem_eq a, h.untouched a ha]
      intro b hb
      exact not_inRange_of_le ((h.below b hb).trans ha)
  · obtain ⟨hptr, hroomy⟩ := h.roomy.advanced halloc.limit
    have hup := @le_alignUp 8 (s.machine.malloc.lastPtr.toNat + call.size.toNat) (by decide)
    have hend : (Block.extent ⟨p, call.size⟩).stop ≤
        (s.machine.advanced call.size).malloc.lastPtr.toNat := by
      rw [halloc.start_eq]
      exact hup.trans hptr.ge
    have hgrown : s.machine.malloc.lastPtr.toNat ≤
        (s.machine.advanced call.size).malloc.lastPtr.toNat := by
      omega
    refine ⟨hroomy.of_eq halloc.malloc_eq halloc.pages_eq, ?_, ?_⟩
    · rw [halloc.blocks_eq, halloc.malloc_eq]
      intro b hb
      split at hb
      · exact (h.below b hb).trans hgrown
      · rcases List.mem_cons.mp hb with rfl | hb
        · exact hend
        · exact (h.below b hb).trans hgrown
    · intro a ha
      rw [halloc.malloc_eq, BitVec.le_def] at ha
      rw [halloc.mem_eq a (not_inRange_of_le (b := ⟨p, call.size⟩) (hend.trans ha))]
      exact h.untouched a (hgrown.trans ha)

theorem Reachable.tidy (h : Reachable st s) (hbelow : st.h.toNat < 65536 * st.pages) :
    Tidy st s := by
  induction h with
  | start => exact ⟨(st.sane hbelow).roomy, fun b hb => absurd hb List.not_mem_nil, fun _ _ => rfl⟩
  | step _ hrun ih => exact ih.exec hrun

end Reached

/-! ## Resizing -/

/-- The block at `q` starts with the bytes that `b` had, as many as there are, and no
block has changed. -/
structure Kept (s : Ledger) (b : Block) (req : Request) (q : Addr) (s' : Ledger) : Prop where
  contents : ∀ i < min b.size.toNat req.size.toNat,
    s'.machine.mem (q + BitVec.ofNat 32 i) = s.machine.mem (b.start + BitVec.ofNat 32 i)
  others : ∀ c ∈ s.blocks, ∀ i < c.size.toNat,
    s'.machine.mem (c.start + BitVec.ofNat 32 i) = s.machine.mem (c.start + BitVec.ofNat 32 i)

section Resizing

variable {st : Start} {s s' : Ledger} {b : Block} {req : Request} {p q : Addr}

/-- A `realloc` that returns answers the pointer and writes nothing. -/
theorem of_exec_realloc (hsize : req.size ≠ 0)
    (hrun : (Call.realloc p req).exec.run s = .ok (q, s')) :
    q = s.machine.malloc.lastPtr ∧ s'.machine.mem = s.machine.mem := by
  obtain ⟨hmalloc, -⟩ := of_run_enter hrun
  rcases malloc_cases hmalloc with ⟨hzero, -, -⟩ | ⟨-, hptr, -, hmachine⟩
  · exact absurd hzero hsize
  · rw [hmachine, advanced_mem]
    exact ⟨hptr, rfl⟩

/-- The pointer and the block that is entered stay in the address space. -/
theorem toNat_lastPtr_add (h : Reachable st s) (hsize : req.size ≠ 0)
    (hrun : (Call.realloc p req).exec.run s = .ok (q, s')) {i : ℕ} (hi : i < req.size.toNat) :
    (s.machine.malloc.lastPtr + BitVec.ofNat 32 i).toNat = s.machine.malloc.lastPtr.toNat + i := by
  obtain ⟨hmalloc, -⟩ := of_run_enter hrun
  rcases malloc_cases hmalloc with ⟨hzero, -, -⟩ | ⟨-, -, hlimit, hmachine⟩
  · exact absurd hzero hsize
  · rw [hmachine] at hlimit
    obtain ⟨-, -, hspace⟩ := h.fitted.advanced hlimit
    bv_omega

/-- The contents are kept when they happen to stand at the pointer already.  Unless
the heap starts at the very end of the memory, what stands there is what the memory was
loaded with. -/
theorem kept_iff (h : Reachable st s) (hsize : req.size ≠ 0)
    (hrun : (Call.realloc b.start req).exec.run s = .ok (q, s')) :
    (Kept s b req q s' ↔ ∀ i < min b.size.toNat req.size.toNat,
      s.machine.mem (s.machine.malloc.lastPtr + BitVec.ofNat 32 i) =
        s.machine.mem (b.start + BitVec.ofNat 32 i)) ∧
    (st.h.toNat < 65536 * st.pages → ∀ i < req.size.toNat,
      s.machine.mem (s.machine.malloc.lastPtr + BitVec.ofNat 32 i) =
        st.mem (s.machine.malloc.lastPtr + BitVec.ofNat 32 i)) := by
  obtain ⟨hptr, hmem⟩ := of_exec_realloc hsize hrun
  refine ⟨⟨?_, ?_⟩, ?_⟩
  · intro hkept i hi
    have hbyte := hkept.contents i hi
    rwa [hptr, hmem] at hbyte
  · intro hsame
    refine ⟨?_, ?_⟩
    · rw [hptr, hmem]
      exact hsame
    · rw [hmem]
      exact fun _ _ _ _ => rfl
  · intro hbelow i hi
    apply (h.tidy hbelow).untouched
    rw [BitVec.le_def, toNat_lastPtr_add h hsize hrun hi]
    exact Nat.le_add_right _ _

end Resizing

/-- One page, with the heap from 8192 on. -/
def Sample.start : Start := (Sample.withInit []).linked.toStart

/-- The sample after a request for eight bytes. -/
def Sample.withBlock : Ledger :=
  ⟨⟨Sample.start.mem, 1, ⟨8192, 8200, 1⟩⟩, [⟨8192, 8⟩]⟩

theorem Sample.ledger_eq :
    Sample.start.ledger = ⟨⟨Sample.start.mem, 1, ⟨8192, 8192, 1⟩⟩, []⟩ := by
  have hconstruct : Dsmalloc.construct Sample.start.mem 1 = ⟨8192, 8192, 1⟩ := by decide
  show (⟨⟨Sample.start.mem, 1, .construct Sample.start.mem 1⟩, []⟩ : Ledger) = _
  rw [hconstruct]

theorem Sample.exec_malloc :
    (Call.malloc ⟨8, true⟩).exec.run Sample.start.ledger = .ok (8192, Sample.withBlock) := by
  have hne : (8 : BitVec 32) ≠ 0 := by decide
  have hadvance : Dsmalloc.advance ⟨8192, 8192, 1⟩ 8 8 = (⟨8192, 8200, 1⟩, 0) := by decide
  have hadvanced : Machine.advanced ⟨Sample.start.mem, 1, ⟨8192, 8192, 1⟩⟩ 8 =
      ⟨Sample.start.mem, 1, ⟨8192, 8200, 1⟩⟩ := by
    rw [Machine.advanced, hadvance]
    rfl
  have hmalloc : (malloc ⟨8, true⟩).run ⟨Sample.start.mem, 1, ⟨8192, 8192, 1⟩⟩ =
      .ok (8192, ⟨Sample.start.mem, 1, ⟨8192, 8200, 1⟩⟩) := by
    rw [run_malloc hne, hadvanced, if_pos ⟨rfl, by dsimp only; omega⟩]
  rw [ledger_eq]
  exact run_enter hmalloc

theorem Sample.reachable_withBlock : Reachable Sample.start Sample.withBlock :=
  .step .start Sample.exec_malloc

/-- The two ledgers of the sample, before and after its block is resized. -/
theorem Sample.exec_realloc {s : Ledger} (hptr : s.machine.malloc = ⟨8192, 8200, 1⟩)
    (hpages : s.machine.pages = 1) :
    ∃ s', (Call.realloc 8192 ⟨16, true⟩).exec.run s = .ok (8200, s') := by
  have hne : (16 : BitVec 32) ≠ 0 := by decide
  have hadvance : Dsmalloc.advance ⟨8192, 8200, 1⟩ 16 8 = (⟨8192, 8216, 1⟩, 0) := by decide
  have hlimit : (s.machine.advanced 16).pages ≤ 65536 := by
    rw [Machine.advanced, hptr, hadvance, hpages]
    simp
  have hmalloc := @run_malloc s.machine ⟨16, true⟩ hne
  rw [if_pos ⟨rfl, hlimit⟩, hptr] at hmalloc
  exact ⟨_, run_enter hmalloc⟩

/-- A block of zeros is kept, because there are zeros at the pointer. -/
theorem kept_iff_zeros : ∃ s', (Call.realloc 8192 ⟨16, true⟩).exec.run Sample.withBlock =
    .ok (8200, s') ∧ Kept Sample.withBlock ⟨8192, 8⟩ ⟨16, true⟩ 8200 s' := by
  have hne : (16 : BitVec 32) ≠ 0 := by decide
  obtain ⟨s', hexec⟩ := @Sample.exec_realloc Sample.withBlock rfl rfl
  refine ⟨s', hexec, ?_⟩
  apply (@kept_iff _ _ _ ⟨8192, 8⟩ ⟨16, true⟩ _ Sample.reachable_withBlock hne hexec).1.mpr
  intro i hi
  have hlow : i < 8 := hi
  have hzero : ∀ k < 16, Sample.start.mem (8192 + BitVec.ofNat 32 k) = 0 := by decide
  have hfirst := hzero i (by omega)
  have hsecond := hzero (8 + i) (by omega)
  rw [BitVec.ofNat_add, ← BitVec.add_assoc] at hsecond
  exact hsecond.trans hfirst.symm

/-- A byte that was written is not found in the new block. -/
theorem not_forall_kept : ¬ ∀ (st : Start) (s s' : Ledger) (b : Block) (req : Request) (q : Addr),
    Reachable st s → b ∈ s.blocks → req.size ≠ 0 →
    (Call.realloc b.start req).exec.run s = .ok (q, s') → Kept s b req q s' := by
  intro hall
  have hwrite : (Call.write 0 0 1).exec.run Sample.withBlock =
      .ok (0, Sample.withBlock.write 0 0 1) := rfl
  have hne : (16 : BitVec 32) ≠ 0 := by decide
  obtain ⟨s', hexec⟩ := @Sample.exec_realloc (Sample.withBlock.write 0 0 1) rfl rfl
  have hkept := hall _ _ s' ⟨8192, 8⟩ ⟨16, true⟩ 8200 (.step Sample.reachable_withBlock hwrite)
    List.mem_cons_self hne hexec
  have hbyte := hkept.contents 0 (by decide)
  rw [(of_exec_realloc hne hexec).2] at hbyte
  revert hbyte
  decide

/-! ## Clearing what was asked for -/

/-- `calloc` answers a block for this residue: it is not empty, the pointer is not null,
the host lets the memory grow and the block lies in it. -/
structure Hands (m : Machine) (sz : BitVec 32) (granted : Bool) : Prop where
  size_ne : sz ≠ 0
  ptr_ne : m.malloc.lastPtr ≠ 0
  granted : granted = true
  limit : (m.advanced sz).pages ≤ 65536
  inside : m.malloc.lastPtr.toNat + sz.toNat ≤ 65536 * (m.advanced sz).pages

/-- The block at `p` holds `count * size` bytes, the product of the numbers: they lie in
the memory, they are zero, and no block that is returned later overlaps them. -/
structure Clears (count size : BitVec 32) (p : Addr) (s : Ledger) : Prop where
  inside : p.toNat + count.toNat * size.toNat ≤ 65536 * s.machine.pages
  zero : ∀ i < count.toNat * size.toNat, s.machine.mem (p + BitVec.ofNat 32 i) = 0
  reserved : ∀ calls, Along Call.exec (fun _ call q _ => q ≠ 0 →
    (Block.extent ⟨q, call.size⟩).Apart ⟨p.toNat, count.toNat * size.toNat⟩) calls s

section Clearing

variable {st : Start} {s s' : Ledger} {p : Addr} {m m' : Machine} {count size : BitVec 32}
  {granted : Bool}

/-- The machine when `calloc` has answered a block. -/
def Machine.cleared (m : Machine) (sz : BitVec 32) : Machine where
  mem := m.mem.store m.malloc.lastPtr (List.replicate sz.toNat 0)
  pages := (m.advanced sz).pages
  malloc := (m.advanced sz).malloc

section Cleared

variable {sz : BitVec 32}

theorem cleared_pages : (m.cleared sz).pages = (m.advanced sz).pages := by
  rw [Machine.cleared]

theorem cleared_malloc : (m.cleared sz).malloc = (m.advanced sz).malloc := by
  rw [Machine.cleared]

theorem Fitted.cleared (h : Fitted (m.advanced sz)) : Fitted (m.cleared sz) :=
  h.of_eq cleared_malloc cleared_pages

end Cleared

theorem run_calloc_of_hands (h : Hands m (count * size) granted) :
    (calloc count size granted).run m = .ok (m.malloc.lastPtr, m.cleared (count * size)) := by
  have hmalloc := @run_malloc m (product count size granted) h.size_ne
  rw [if_pos ⟨h.granted, h.limit⟩] at hmalloc
  rw [run_calloc hmalloc, if_neg h.ptr_ne, memset, run_fillBytes h.inside h.limit, advanced_mem]
  rfl

theorem exec_calloc_of_hands (h : Hands s.machine (count * size) granted) :
    (Call.calloc count size granted).exec.run s = .ok (s.machine.malloc.lastPtr,
      ⟨s.machine.cleared (count * size),
        ⟨s.machine.malloc.lastPtr, count * size⟩ :: s.blocks⟩) := by
  have henter := @run_enter s _ _ (count * size) _ (run_calloc_of_hands h)
  rw [if_neg h.ptr_ne] at henter
  exact henter

theorem exec_malloc {req : Request} (h : (malloc req).run s.machine = .ok (p, m)) :
    (Call.malloc req).exec.run s =
      .ok (p, ⟨m, if p = 0 then s.blocks else ⟨p, req.size⟩ :: s.blocks⟩) :=
  run_enter h

/-- Otherwise `calloc` answers null or does not return. -/
theorem null_of_not_hands (hfitted : Fitted m) (h : ¬ Hands m (count * size) granted)
    (hrun : (calloc count size granted).run m = .ok (p, m')) : p = 0 := by
  obtain ⟨m₁, hmalloc, -⟩ := malloc_of_calloc hrun
  rcases malloc_cases hmalloc with ⟨-, hnull, -⟩ | ⟨hsize, hptr, -, hadvanced⟩
  · exact hnull
  · by_contra hne
    have hserved := hmalloc
    rw [run_malloc hsize] at hserved
    by_cases hgrow : granted = true ∧ (m.advanced (count * size)).pages ≤ 65536
    · obtain ⟨-, -, hspace⟩ := hfitted.advanced hgrow.2
      have hout : 65536 * (m.advanced (count * size)).pages < p.toNat + (count * size).toNat := by
        by_contra hin
        rw [hptr] at hin hne
        exact h ⟨hsize, hne, hgrow.1, hgrow.2, not_lt.mp hin⟩
      have hpos : 0 < (count * size).toNat := by
        have hsize : count * size ≠ 0 := hsize
        bv_omega
      rw [← hptr] at hspace
      rw [run_calloc hmalloc, if_neg hne, memset, hadvanced,
        run_fillBytes_trap hpos hout hspace] at hrun
      cases hrun
    · rw [if_neg hgrow] at hserved
      cases hserved

/-- From a roomy state on, blocks are taken from the pointer on. -/
theorem along_apart {e : Extent} (hroomy : Roomy s.machine)
    (hle : e.stop ≤ s.machine.malloc.lastPtr.toNat) (calls : List Call) :
    Along Call.exec (fun _ call q _ => q ≠ 0 → (Block.extent ⟨q, call.size⟩).Apart e) calls s := by
  apply along_of_invariant fun s : Ledger =>
    Roomy s.machine ∧ e.stop ≤ s.machine.malloc.lastPtr.toNat
  · rintro s call q s' ⟨hroomy, hle⟩ hrun
    rcases exec_cases hrun with hquiet | halloc
    · rw [hquiet.malloc_eq]
      exact ⟨hroomy.of_eq hquiet.malloc_eq hquiet.pages_eq, hle⟩
    · obtain ⟨hptr, hroomy'⟩ := hroomy.advanced halloc.limit
      have hup := @le_alignUp 8 (s.machine.malloc.lastPtr.toNat + call.size.toNat) (by decide)
      rw [halloc.malloc_eq]
      exact ⟨hroomy'.of_eq halloc.malloc_eq halloc.pages_eq, by omega⟩
  · rintro s call q s' ⟨-, hle⟩ hrun hne
    rcases exec_cases hrun with hquiet | halloc
    · exact absurd hquiet.null hne
    · right
      rw [halloc.start_eq]
      exact hle
  · exact ⟨hroomy, hle⟩

/-- Requests for eight bytes climb from a low pointer to any block above it. -/
theorem not_along_apart_climb {mem : Mem} {heap : Addr} {blocks : List Block} {e : Extent}
    (hstart : 8 ∣ e.start) (hpos : 0 < e.start) (hlow : e.start < 0xFFFF0000) (hlen : 0 < e.len)
    {n : ℕ} {q : Addr} (hq : q.toNat + 8 * n = e.start) :
    ¬ Along Call.exec (fun _ call q _ => q ≠ 0 → (Block.extent ⟨q, call.size⟩).Apart e)
      (List.replicate (n + 1) (.malloc ⟨8, true⟩)) ⟨⟨mem, 65535, ⟨heap, q, 0xFFFF⟩⟩, blocks⟩ := by
  induction n generalizing q blocks with
  | zero =>
      have hne : (8 : BitVec 32) ≠ 0 := by decide
      have hmalloc := @run_malloc ⟨mem, 65535, ⟨heap, q, 0xFFFF⟩⟩ ⟨8, true⟩ hne
      have hlimit := @advanced_pages_le ⟨mem, 65535, ⟨heap, q, 0xFFFF⟩⟩ 8
      rw [if_pos ⟨rfl, hlimit⟩] at hmalloc
      have hexec := @exec_malloc ⟨⟨mem, 65535, ⟨heap, q, 0xFFFF⟩⟩, blocks⟩ _ _ _ hmalloc
      rw [List.replicate_one, along_cons_of_ok hexec]
      apply not_and_of_not_left
      intro hapart
      have hnull : q ≠ 0 := by
        rintro rfl
        simp at hq
        omega
      rcases hapart hnull with hbefore | hafter
      · have hstop : q.toNat + 8 ≤ e.start := hbefore
        omega
      · have hstop : e.start + e.len ≤ q.toNat := hafter
        omega
  | succ n ih =>
      have hnext : (q + 8).toNat = q.toNat + 8 := by bv_omega
      have halign : Dsmalloc.align (q + 8) 8 = q + 8 := by
        apply BitVec.eq_of_toNat_eq
        rw [toNat_align (by omega), alignUp_of_dvd (by decide) (by omega)]
      have hbelow : ¬ (0xFFFF#32 + 8#32 >>> 16) <<< 16 ≤ q + 8 := by
        rw [BitVec.le_def, hnext]
        show ¬ 0xFFFF0000 ≤ _
        omega
      have hexec := @exec_malloc ⟨⟨mem, 65535, ⟨heap, q, 0xFFFF⟩⟩, blocks⟩ _ _ _
        (run_malloc_eight mem heap halign hbelow)
      rw [List.replicate_succ, along_cons_of_ok hexec]
      apply not_and_of_not_right
      apply ih
      omega

/-- A block that ends at the end of the memory is given away again, after the pointer
has wrapped. -/
theorem exists_not_apart {e : Extent} (hfitted : Fitted s.machine)
    (hend : s.machine.malloc.lastPtr.toNat = 65536 * s.machine.pages) (hstart : 8 ∣ e.start)
    (hpos : 0 < e.start) (hlen : 0 < e.len) (hstop : e.stop ≤ 65536 * s.machine.pages) :
    ∃ calls, ¬ Along Call.exec
      (fun _ call q _ => q ≠ 0 → (Block.extent ⟨q, call.size⟩).Apart e) calls s := by
  have hlt := s.machine.malloc.lastPtr.isLt
  have hstop' : e.start + e.len ≤ 65536 * s.machine.pages := hstop
  have hrun := run_lastRequest (m := s.machine) rfl (by omega) (by omega) hend hfitted.nextPage_eq
  refine ⟨.malloc (lastRequest s.machine.pages) ::
    List.replicate (e.start / 8 + 1) (.malloc ⟨8, true⟩), ?_⟩
  have hzero : (0 : Addr).toNat = 0 := rfl
  rw [along_cons_of_ok (exec_malloc hrun)]
  apply not_and_of_not_right
  apply not_along_apart_climb hstart hpos (by omega) hlen
  omega

theorem cleared_zero {sz : BitVec 32} {i : ℕ} (hi : i < sz.toNat) :
    (m.cleared sz).mem (m.malloc.lastPtr + BitVec.ofNat 32 i) = 0 := by
  apply Mem.store_zeros_of_inRange
  · exact fun b hb => List.eq_of_mem_replicate hb
  · rw [List.length_replicate, InRange]
    bv_omega

theorem toNat_product (h : count.toNat * size.toNat < 2 ^ 32) :
    (count * size).toNat = count.toNat * size.toNat := by
  rw [BitVec.toNat_mul, Nat.mod_eq_of_lt h]

/-- The condition is necessary: a product that does not fit leaves the memory, and from
the very end of the memory the pointer can wrap. -/
theorem Clears.fits (hfitted : Fitted s.machine)
    (hhands : Hands s.machine (count * size) granted)
    (hclears : Clears count size s.machine.malloc.lastPtr
      ⟨s.machine.cleared (count * size), ⟨s.machine.malloc.lastPtr, count * size⟩ :: s.blocks⟩) :
    count.toNat * size.toNat < 2 ^ 32 ∧
      (s.machine.advanced (count * size)).malloc.lastPtr.toNat <
        65536 * (s.machine.advanced (count * size)).pages := by
  obtain ⟨hinside, -, hapart⟩ := hclears
  obtain ⟨hfitted', -, -⟩ := hfitted.advanced hhands.limit
  have hlimit := hhands.limit
  have hptr : 0 < s.machine.malloc.lastPtr.toNat := by
    have hne := hhands.ptr_ne
    bv_omega
  rw [cleared_pages] at hinside
  have hfits : count.toNat * size.toNat < 2 ^ 32 := by omega
  have hpos : 0 < count.toNat * size.toNat := by
    have hne := hhands.size_ne
    rw [← toNat_product hfits]
    bv_omega
  refine ⟨hfits, ?_⟩
  by_contra hnot
  have hend := le_antisymm hfitted'.le_end (not_lt.mp hnot)
  rw [← cleared_pages] at hend hinside
  rw [← cleared_malloc] at hend
  obtain ⟨calls, hcalls⟩ := @exists_not_apart
    ⟨s.machine.cleared (count * size), ⟨s.machine.malloc.lastPtr, count * size⟩ :: s.blocks⟩
    ⟨s.machine.malloc.lastPtr.toNat, count.toNat * size.toNat⟩
    hfitted'.cleared hend hfitted.aligned hptr hpos hinside
  exact hcalls (hapart calls)

/-- A block that `calloc` answers is what was asked for when the product fits 32 bits,
and the block does not run up to the very end of the memory from the very end of the
memory. -/
theorem clears_iff (h : Reachable st s)
    (hrun : (Call.calloc count size granted).exec.run s = .ok (p, s')) (hne : p ≠ 0) :
    Clears count size p s' ↔ count.toNat * size.toNat < 2 ^ 32 ∧
      (s.machine.malloc.lastPtr.toNat < 65536 * s.machine.pages ∨
        count.toNat * size.toNat % 65536 < 65529) := by
  have hhands : Hands s.machine (count * size) granted := by
    by_contra hnot
    exact hne (null_of_not_hands h.fitted hnot (of_run_enter hrun).1)
  rw [exec_calloc_of_hands hhands] at hrun
  cases hrun
  have hpointer := h.fitted.below_advanced_iff hhands.limit hhands.inside
  have hresidue : (count * size).toNat % 65536 = count.toNat * size.toNat % 65536 := by
    rw [BitVec.toNat_mul]
    omega
  rw [hresidue] at hpointer
  rw [← hpointer]
  constructor
  · exact fun hclears => hclears.fits h.fitted hhands
  · rintro ⟨hfits, hbelow⟩
    obtain ⟨hfitted', hmoved, -⟩ := h.fitted.advanced hhands.limit
    have hinside := hhands.inside
    refine ⟨?_, ?_, ?_⟩
    · rw [cleared_pages, ← toNat_product hfits]
      exact hinside
    · rw [← toNat_product hfits]
      exact fun i hi => cleared_zero hi
    · apply along_apart
      · exact (hfitted'.roomy hbelow).of_eq cleared_malloc cleared_pages
      · rw [cleared_malloc, ← toNat_product hfits]
        rcases hmoved with hbehind | ⟨-, hout⟩
        · exact hbehind
        · omega

end Clearing

theorem Sample.hands_start {sz : BitVec 32} {d : Dsmalloc} {pages : BitVec 32}
    (hadvance : Dsmalloc.advance ⟨8192, 8192, 1⟩ sz 8 = (d, pages)) (hsize : sz ≠ 0)
    (hlimit : 1 + pages.toNat ≤ 65536) (hinside : 8192 + sz.toNat ≤ 65536 * (1 + pages.toNat)) :
    Hands Sample.start.ledger.machine sz true := by
  have hadvanced : Machine.advanced ⟨Sample.start.mem, 1, ⟨8192, 8192, 1⟩⟩ sz =
      ⟨Sample.start.mem, 1 + pages.toNat, d⟩ := by
    rw [Machine.advanced, hadvance]
  rw [Sample.ledger_eq]
  refine ⟨hsize, by decide, rfl, ?_, ?_⟩
  · rw [hadvanced]
    exact hlimit
  · rw [hadvanced]
    exact hinside

/-- Two numbers of four bytes each. -/
theorem clears_iff_small : ∃ p s', (Call.calloc 2 4 true).exec.run Sample.start.ledger =
    .ok (p, s') ∧ Clears 2 4 p s' := by
  have hhands : Hands Sample.start.ledger.machine (2 * 4) true :=
    @Sample.hands_start _ ⟨8192, 8200, 1⟩ 0 (by decide) (by decide) (by decide) (by decide)
  have hexec := exec_calloc_of_hands hhands
  refine ⟨_, _, hexec, ?_⟩
  apply (clears_iff .start hexec hhands.ptr_ne).mpr
  refine ⟨by decide, .inr (by decide)⟩

/-- 65536 times 65537 bytes are cut down to 65536. -/
theorem not_forall_clears : ¬ ∀ (st : Start) (s s' : Ledger) (count size : BitVec 32)
    (granted : Bool) (p : Addr), Reachable st s →
    (Call.calloc count size granted).exec.run s = .ok (p, s') → p ≠ 0 →
    Clears count size p s' := by
  intro hall
  have hhands : Hands Sample.start.ledger.machine (65536 * 65537) true :=
    @Sample.hands_start _ ⟨8192, 73728, 2⟩ 1 (by decide) (by decide) (by decide) (by decide)
  have hinside := (hall _ _ _ 65536 65537 true _ .start (exec_calloc_of_hands hhands)
    hhands.ptr_ne).inside
  have hlimit := hhands.limit
  have hproduct : (65536 : BitVec 32).toNat * (65537 : BitVec 32).toNat = 65536 * 65537 := rfl
  rw [cleared_pages] at hinside
  omega

end FractalCdt.Allocator
