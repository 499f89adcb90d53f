/-
# The start of the heap

`fractal-pp` reads the end of the data back from the linked file, behind the
literal of the second global, and adds it to the module as a word at address 0,
where the constructor of the allocator finds it.  The heap then starts above the
stack and the data; `separated_iff` says for which contracts it stays there.
-/

import FractalCdt.Allocator.Dsmalloc
import FractalCdt.Toolchain.GlobalSection
import FractalCdt.Toolchain.Layout

namespace FractalCdt.Toolchain

open FractalCdt.Math FractalCdt.Allocator

/-! ## The linked file -/

/-- A data segment of a module. -/
structure DataSegment where
  offset : BitVec 32
  data : List Byte

def DataSegment.extent (ds : DataSegment) : Extent := ⟨ds.offset.toNat, ds.data.length⟩

/-- `Writer::createDataSection`. -/
def createDataSection (l : Layout) : List DataSegment :=
  l.segments.map fun s => ⟨s.StartVA, s.segment.data⟩

/-- `__stack_pointer`, and the fake globals of `__heap_base` and `__data_end`. -/
def definedGlobals (l : Layout) : List WasmGlobal :=
  [⟨⟨0x7f, true⟩, l.StackPointer⟩, ⟨⟨0x7f, false⟩, l.HeapBase⟩, ⟨⟨0x7f, false⟩, l.DataEnd⟩]

/-- The linked file around the contents of its global section. -/
structure Surroundings where
  front : List Byte
  back : List Byte

namespace Surroundings

variable (around : Surroundings) (l : Layout)

def file : List Byte := around.front ++ (createGlobalSection (definedGlobals l) ++ around.back)

def reader : BinaryReader where
  data := around.file l
  readEnd := around.front.length + (createGlobalSection (definedGlobals l)).length

theorem window_reader :
    (around.reader l).window around.front.length =
      createGlobalSection (definedGlobals l) ++ [] := by
  rw [BinaryReader.window, reader, file, List.drop_left, Nat.add_sub_cancel_left, List.take_left,
    List.append_nil]

end Surroundings

/-! ## The post-pass -/

/-- `GetHeapPtr`.  Past the end of the file, and where the bytes are no numeral,
no value is defined. -/
def getHeapPtr (globals : List ModuleGlobal) (buff : List Byte) : Option (BitVec 32) := do
  let global ← globals[1]?
  let expr ← global.initExpr.head?
  let (heapPtr, _) ← readS32Leb128 ((buff.drop (expr.locOffset + 4)).take 5)
  return heapPtr

/-- `StripZeroedData`. -/
def stripZeroedData (dataSegments : List DataSegment) : List DataSegment :=
  dataSegments.filter fun DS => ¬ DS.data.all fun datum => datum == 0

/-- `AddHeapPointerData`. -/
def addHeapPointerData (heapPtr : BitVec 32) (dataSegments : List DataSegment) :
    List DataSegment :=
  let heapPtr := (heapPtr + 7) &&& ~~~7
  dataSegments ++ [⟨0, leBytes 4 heapPtr.toNat⟩]

/-- `ProgramMain`, from the global section on. -/
def postPass (around : Surroundings) (l : Layout) : Option (List DataSegment) := do
  let (globals, _) ← (around.reader l).readGlobalSection.run around.front.length
  let heapPtr ← getHeapPtr globals (around.file l)
  return addHeapPointerData heapPtr (stripZeroedData (createDataSection l))

/-- The segments, stored one after another into zeroed cells. -/
def initialMemory (dataSegments : List DataSegment) : Mem :=
  dataSegments.foldl (fun (mem : Mem) ds => mem.store ds.offset ds.data) fun _ => 0

/-- The initial memory of a module; a segment that does not fit is an error. -/
def instantiate (pages : ℕ) (dataSegments : List DataSegment) : Option Mem :=
  if ∀ ds ∈ dataSegments, ds.extent.stop ≤ 65536 * pages then some (initialMemory dataSegments)
  else none

section HeapPtr

variable {l : Layout} {around : Surroundings}

/-- Behind the literal of a global come its end, and the type and the opcode of
the next. -/
theorem drop_locOffset {front back : List Byte} (a b c : WasmGlobal) :
    ∃ tail, (front ++ (createGlobalSection [a, b, c] ++ back)).drop
      (front.length + 1 + (writeGlobal a).length + 3 + (writeSleb128 b.Int32).length + 4) =
      writeSleb128 c.Int32 ++ tail := by
  refine ⟨0x0b :: back, ?_⟩
  have hcount : uleb [a, b, c].length = [3] := @uleb_of_lt 3 (by decide)
  have hsplit : front ++ (createGlobalSection [a, b, c] ++ back) =
      (front ++ [3] ++ writeGlobal a ++ writeGlobalType b.GlobalType ++ [0x41] ++
        writeSleb128 b.Int32 ++ [0x0b] ++ writeGlobalType c.GlobalType ++ [0x41]) ++
        (writeSleb128 c.Int32 ++ 0x0b :: back) := by
    rw [createGlobalSection, writeVector, hcount]
    simp only [List.flatMap_cons, List.flatMap_nil, writeGlobal, writeInitExpr, List.append_assoc,
      List.cons_append, List.nil_append]
  have hlength : front.length + 1 + (writeGlobal a).length + 3 + (writeSleb128 b.Int32).length + 4 =
      (front ++ [3] ++ writeGlobal a ++ writeGlobalType b.GlobalType ++ [0x41] ++
        writeSleb128 b.Int32 ++ [0x0b] ++ writeGlobalType c.GlobalType ++ [0x41]).length := by
    simp only [List.length_append, writeGlobalType, List.length_cons, List.length_nil]
  rw [hsplit, hlength, List.drop_left]

theorem length_writeSleb128_le (v : BitVec 32) : (writeSleb128 v).length ≤ 5 := by
  have hlow := BitVec.le_toInt v
  have hhigh := @BitVec.toInt_lt 32 v
  exact sleb_length_le (n := 4) (by omega) (by omega)

/-- The post-pass reads the value of `__data_end`. -/
theorem getHeapPtr_eq :
    getHeapPtr (BinaryReader.globalsAt (around.front.length + 1) (definedGlobals l))
      (around.file l) = some l.DataEnd := by
  obtain ⟨tail, htail⟩ := @drop_locOffset around.front around.back
    ⟨⟨0x7f, true⟩, l.StackPointer⟩ ⟨⟨0x7f, false⟩, l.HeapBase⟩ ⟨⟨0x7f, false⟩, l.DataEnd⟩
  have htake : (writeSleb128 l.DataEnd ++ tail).take 5 =
      writeSleb128 l.DataEnd ++ tail.take (5 - (writeSleb128 l.DataEnd).length) := by
    rw [List.take_append, List.take_of_length_le (length_writeSleb128_le _)]
  show (readS32Leb128 (((around.file l).drop _).take 5)).bind _ = _
  rw [Surroundings.file, definedGlobals, htail, htake, readS32Leb128_writeSleb128]
  rfl

theorem postPass_eq : postPass around l =
    some (addHeapPointerData l.DataEnd (stripZeroedData (createDataSection l))) := by
  have hconcrete : ∀ g ∈ definedGlobals l, Concrete g.GlobalType.type := by
    intro g hg
    simp only [definedGlobals, List.mem_cons, List.not_mem_nil, or_false] at hg
    rcases hg with rfl | rfl | rfl <;> exact .inl rfl
  have hfew : (definedGlobals l).length < 2 ^ 32 := show 3 < 2 ^ 32 by decide
  have hcount : (uleb (definedGlobals l).length).length = 1 :=
    congrArg List.length (@uleb_of_lt 3 (by decide))
  rw [postPass, BinaryReader.run_readGlobalSection hfew hconcrete (around.window_reader l), hcount]
  show (getHeapPtr (BinaryReader.globalsAt _ _) _).bind _ = _
  rw [getHeapPtr_eq]
  rfl

end HeapPtr

/-! ## The deployed contract -/

/-- The layout of a contract and its initial memory. -/
structure Deployed where
  layout : Layout
  mem : Mem

/-- Link the segments, run the post-pass over the file and instantiate the module. -/
def deploy (Segments : List OutputSegment) (around : Surroundings) : Option Deployed := do
  let layout ← (layoutMemory fractalLd Segments).toOption
  let dataSegments ← postPass around layout
  let mem ← instantiate layout.NumMemoryPages.toNat dataSegments
  return ⟨layout, mem⟩

/-- Some cell of the block lies in the extent. -/
def Overlaps (p : Addr) (size : BitVec 32) (x : Extent) : Prop :=
  ∃ a, InRange p size.toNat a ∧ x.start ≤ a.toNat ∧ a.toNat < x.stop

namespace Deployed

variable (c : Deployed)

def pages : ℕ := c.layout.NumMemoryPages.toNat

/-- The allocator behind its constructor. -/
def ledger : Ledger := ⟨⟨c.mem, c.pages, .construct c.mem c.pages⟩, []⟩

/-- The stack and the static data. -/
def reserved : List Extent :=
  ⟨0, c.layout.StackPointer.toNat⟩ :: c.layout.segments.map Placed.extent

/-- The block that is returned overlaps nothing that is reserved. -/
def Clear (_ : Ledger) (req : Request) (p : Addr) (_ : Ledger) : Prop :=
  p ≠ 0 → ∀ x ∈ c.reserved, ¬ Overlaps p req.size x

end Deployed

/-- Heap, stack and static data of a contract are apart, in every run. -/
structure Separated (c : Deployed) : Prop where
  wordApart : ∀ s ∈ c.layout.segments, Extent.Apart ⟨0, 4⟩ s.extent
  aligned : 8 ∣ (heapBase c.mem).toNat
  aboveStack : c.layout.StackPointer ≤ heapBase c.mem
  aboveData : ∀ s ∈ c.layout.segments, s.extent.stop ≤ (heapBase c.mem).toNat
  inside : (heapBase c.mem).toNat ≤ 65536 * c.pages
  blocks : ∀ reqs, Along serve c.Clear reqs c.ledger

section Deploy

variable {Segments : List OutputSegment} {around : Surroundings}

/-- The post-pass rounds up as the allocator does. -/
theorem heapPtr_eq_align (v : BitVec 32) : (v + 7) &&& ~~~7 = Dsmalloc.align v 8 := by
  have hsub : v + (8 : Byte).setWidth 32 - 1 = v + 7 := by
    show v + 8 - 1 = v + 7
    bv_omega
  rw [Dsmalloc.align, hsub]
  rfl

theorem toNat_heapPtr {v : BitVec 32} (h : v.toNat + 7 < 2 ^ 32) :
    ((v + 7) &&& ~~~7).toNat = alignUp 8 v.toNat := by
  rw [heapPtr_eq_align, toNat_align h]

/-- The word that is added is stored last. -/
theorem heapBase_initialMemory (dataSegments : List DataSegment) (v : BitVec 32) :
    heapBase (initialMemory (addHeapPointerData v dataSegments)) = (v + 7) &&& ~~~7 := by
  have hlength : (leBytes 4 ((v + 7) &&& ~~~7).toNat).length ≤ 2 ^ 32 := by
    rw [length_leBytes]
    decide
  have hload := @Mem.load_store (initialMemory dataSegments) 0 _ hlength
  rw [length_leBytes] at hload
  have hmem : initialMemory (addHeapPointerData v dataSegments) =
      (initialMemory dataSegments).store 0 (leBytes 4 ((v + 7) &&& ~~~7).toNat) := by
    rw [initialMemory, addHeapPointerData, List.foldl_append]
    rfl
  rw [hmem, heapBase, hload]
  exact ofNat_ofLeBytes_leBytes (n := 4) _

/-- What becomes of segments that leave room in the address space. -/
structure Placement (Segments : List OutputSegment) (c : Deployed) : Prop where
  stackPointer_eq : c.layout.StackPointer = 8192
  heapBase_eq : (heapBase c.mem).toNat = alignUp 8 (layoutEnd Segments 8192)
  pages_eq : 65536 * c.pages = alignUp 65536 (layoutEnd Segments 8192)
  inside : ∀ s ∈ c.layout.segments,
    8192 ≤ s.extent.start ∧ s.extent.stop ≤ layoutEnd Segments 8192

/-- A block above an address does not reach what lies below it. -/
theorem not_overlaps_of_below {h p : Addr} {size : BitVec 32} {x : Extent} (habove : h ≤ p)
    (hwrap : p.toNat + size.toNat ≤ 2 ^ 32) (hx : x.stop ≤ h.toNat) : ¬ Overlaps p size x := by
  rintro ⟨a, hin, -, hhigh⟩
  rw [BitVec.le_def] at habove
  rw [InRange, BitVec.toNat_sub] at hin
  have hp := p.isLt
  have ha := a.isLt
  omega

theorem exists_deploy (h : layoutEnd Segments 8192 ≤ 65536 * 65535) :
    ∃ c, deploy Segments around = some c ∧ Placement Segments c := by
  obtain ⟨l, hlayout, hstack, hdata, -, hpages, hinside⟩ := layoutMemory_fractalLd h
  have hlow := le_layoutEnd Segments 8192
  have hup := @le_alignUp 65536 (layoutEnd Segments 8192) (by decide)
  have hfits : ∀ ds ∈ addHeapPointerData l.DataEnd (stripZeroedData (createDataSection l)),
      ds.extent.stop ≤ 65536 * l.NumMemoryPages.toNat := by
    intro ds hds
    rw [hpages]
    rcases List.mem_append.mp hds with hds | hds
    · obtain ⟨s, hs, rfl⟩ := List.mem_map.mp (List.mem_of_mem_filter hds)
      exact (hinside s hs).2.trans hup
    · rw [List.mem_singleton.mp hds]
      show 0 + (leBytes 4 _).length ≤ _
      rw [length_leBytes]
      omega
  refine ⟨⟨l, initialMemory
    (addHeapPointerData l.DataEnd (stripZeroedData (createDataSection l)))⟩,
    ?_, ⟨hstack, ?_, hpages, hinside⟩⟩
  · rw [deploy, hlayout]
    show (postPass around l).bind _ = _
    rw [postPass_eq]
    show (instantiate _ _).bind _ = _
    rw [instantiate, if_pos hfits]
    rfl
  · rw [heapBase_initialMemory, toNat_heapPtr (by omega), hdata]

namespace Placement

variable {c : Deployed}

/-- The allocator starts in one of the states it is verified from. -/
def start (hc : Placement Segments c) (h : layoutEnd Segments 8192 ≤ 65536 * 65535) : Start where
  mem := c.mem
  pages := c.pages
  pages_le := by
    have hpages := hc.pages_eq
    have hle := @alignUp_le 65536 (layoutEnd Segments 8192) _ (by decide) (Nat.dvd_mul_right _ _) h
    omega
  aligned := hc.heapBase_eq ▸ dvd_alignUp
  inside := by
    rw [hc.heapBase_eq, hc.pages_eq]
    have hdvd : 8 ∣ alignUp 65536 (layoutEnd Segments 8192) :=
      Nat.dvd_trans (by decide) dvd_alignUp
    exact alignUp_le (by decide) hdvd (le_alignUp (by decide))

/-- Everything reserved lies below the start of the heap. -/
theorem reserved_below (hc : Placement Segments c) :
    ∀ x ∈ c.reserved, x.stop ≤ (heapBase c.mem).toNat := by
  have hlow := le_layoutEnd Segments 8192
  have hup := @le_alignUp 8 (layoutEnd Segments 8192) (by decide)
  intro x hx
  rw [hc.heapBase_eq]
  rcases List.mem_cons.mp hx with rfl | hx
  · rw [hc.stackPointer_eq]
    exact hlow.trans hup
  · obtain ⟨s, hs, rfl⟩ := List.mem_map.mp hx
    exact (hc.inside s hs).2.trans hup

/-- A heap that starts inside a page stays apart from the stack and the data. -/
theorem separated (hc : Placement Segments c) (h : layoutEnd Segments 8192 ≤ 65536 * 65535)
    (hpage : ¬ 65536 ∣ alignUp 8 (layoutEnd Segments 8192)) : Separated c where
  wordApart := by
    intro s hs
    left
    have hlow := (hc.inside s hs).1
    exact Nat.le_trans (by decide) hlow
  aligned := (hc.start h).aligned
  aboveStack := by
    have hstack := hc.reserved_below _ (List.mem_cons_self ..)
    rw [BitVec.le_def]
    exact (Nat.zero_add _).ge.trans hstack
  aboveData := by
    intro s hs
    exact hc.reserved_below _ (List.mem_cons_of_mem _ (List.mem_map_of_mem hs))
  inside := (hc.start h).inside
  blocks := by
    have hbelow : (hc.start h).h.toNat < 65536 * (hc.start h).pages := by
      apply lt_of_le_of_ne (hc.start h).inside
      intro hfull
      apply hpage
      rw [← hc.heapBase_eq]
      exact ⟨_, hfull⟩
    intro reqs
    apply along_of_invariant (Sane (hc.start h).h)
    · intro s req p s' hsane hrun
      exact (hsane.serve hrun).1
    · intro s req p s' hsane hrun hp x hx
      have hblock := (hsane.serve hrun).2.block hp
      exact not_overlaps_of_below hblock.above hblock.noWrap (hc.reserved_below x hx)
    · exact (hc.start h).sane hbelow

/-- A heap that starts at the end of the memory comes back to the stack. -/
theorem not_separated (hc : Placement Segments c) (h : layoutEnd Segments 8192 ≤ 65536 * 65535)
    (hpage : 65536 ∣ alignUp 8 (layoutEnd Segments 8192)) : ¬ Separated c := by
  have hlow := le_layoutEnd Segments 8192
  have hup := @le_alignUp 8 (layoutEnd Segments 8192) (by decide)
  have hfull : (heapBase c.mem).toNat = 65536 * c.pages := by
    have hinside : (heapBase c.mem).toNat ≤ 65536 * c.pages := (hc.start h).inside
    apply le_antisymm hinside
    rw [hc.heapBase_eq, hc.pages_eq]
    exact alignUp_le (by decide) hpage hup
  have hpos : 1 ≤ c.pages := by
    have hstart := hc.heapBase_eq
    omega
  have hptr : c.ledger.machine.malloc.lastPtr.toNat = 65536 * c.pages :=
    (congrArg BitVec.toNat (hc.start h).lastPtr_eq).trans hfull
  have hnext : c.ledger.machine.malloc.nextPage.toNat = c.pages := (hc.start h).nextPage_eq
  -- The block at address 8 lies in the stack.
  have hbad : ∀ s s', ¬ c.Clear s ⟨8, true⟩ 8 s' := by
    intro s s' hclear
    have hstack : ⟨0, c.layout.StackPointer.toNat⟩ ∈ c.reserved := List.mem_cons_self ..
    rw [hc.stackPointer_eq] at hstack
    exact hclear (by decide) _ hstack ⟨8, by decide, by decide, by decide⟩
  have hrestart := @not_along_restart c.Clear c.ledger c.pages rfl hpos (hc.start h).pages_le
    hptr hnext hbad
  generalize [lastRequest c.pages, ⟨8, true⟩, ⟨8, true⟩] = reqs at hrestart
  intro hsep
  exact hrestart (hsep.blocks reqs)

end Placement

/-- Heap, stack and static data of a linked contract never overlap, exactly when
the heap does not start at the end of the memory. -/
theorem separated_iff (h : layoutEnd Segments 8192 ≤ 65536 * 65535) :
    (∃ c, deploy Segments around = some c ∧ Separated c) ↔
      ¬ 65536 ∣ alignUp 8 (layoutEnd Segments 8192) := by
  obtain ⟨c, hdeploy, hc⟩ := @exists_deploy Segments around h
  constructor
  · rintro ⟨c', hdeploy', hsep⟩ hpage
    obtain rfl : c = c' := Option.some.inj (hdeploy.symm.trans hdeploy')
    exact hc.not_separated h hpage hsep
  · intro hpage
    exact ⟨c, hdeploy, hc.separated h hpage⟩

/-- Segments of three alignments, of which the second is placed behind a gap. -/
def staticData : List OutputSegment :=
  [.aligned [1, 2, 3] 2, .aligned [7] 4, .aligned [5, 6] 0]

theorem separated_staticData : layoutEnd staticData 8192 = 8211 ∧
    ∃ c, deploy staticData ⟨[], []⟩ = some c ∧ Separated c :=
  ⟨by decide, (separated_iff (by decide)).mpr (by decide)⟩

/-- Static data that fills the first page: two blocks later, the allocator gives
away the stack. -/
theorem not_separated_fullPage :
    ¬ ∀ (Segments : List OutputSegment) (around : Surroundings),
      layoutEnd Segments 8192 ≤ 65536 * 65535 →
        ∃ c, deploy Segments around = some c ∧ Separated c := by
  intro hall
  obtain ⟨Seg, hlength, halign⟩ : ∃ Seg : OutputSegment,
      Seg.data.length = 57344 ∧ Seg.Alignment = 1 :=
    ⟨⟨List.replicate 57344 1, 1, ⟨0, rfl⟩⟩, List.length_replicate, rfl⟩
  have hend : layoutEnd [Seg] 8192 = 65536 := by
    show alignUp Seg.Alignment 8192 + Seg.data.length = _
    rw [hlength, halign]
    rfl
  have hroom : layoutEnd [Seg] 8192 ≤ 65536 * 65535 := by
    rw [hend]
    decide
  obtain ⟨c, hdeploy, hc⟩ := @exists_deploy [Seg] ⟨[], []⟩ hroom
  obtain ⟨c', hdeploy', hsep⟩ := hall [Seg] ⟨[], []⟩ hroom
  obtain rfl : c = c' := Option.some.inj (hdeploy.symm.trans hdeploy')
  apply hc.not_separated hroom _ hsep
  rw [hend]
  decide

end Deploy

end FractalCdt.Toolchain
