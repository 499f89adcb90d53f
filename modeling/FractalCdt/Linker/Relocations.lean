/-
# Relocated chunks

A function or a segment is copied and then the value of each of its relocations is
written into it.  What is written is read back by the post-pass, or by the program, as
the number of what the symbol of the relocation is; every other byte stays.
-/

import FractalCdt.Linker.Encoding
import FractalCdt.Linker.Segments
import FractalCdt.Math.Patching

namespace FractalCdt.Linker

open FractalCdt.Math FractalCdt.Toolchain

namespace RelocType

/-- The size that `parseRelocSection` asks for. -/
def size : RelocType → ℕ
  | .TABLE_INDEX_I32 | .MEMORY_ADDR_I32 => 4
  | _ => 5

/-- What `InputChunk::writeTo` puts at a relocation. -/
def encode (type : RelocType) (Value : BitVec 32) : List Byte :=
  match type with
  | .TYPE_INDEX_LEB | .FUNCTION_INDEX_LEB | .GLOBAL_INDEX_LEB | .MEMORY_ADDR_LEB =>
      encodeULEB128 5 0 Value.toNat
  | .TABLE_INDEX_SLEB | .MEMORY_ADDR_SLEB => encodeSLEB128 5 0 Value.toInt
  | .TABLE_INDEX_I32 | .MEMORY_ADDR_I32 => write32le Value

/-- How the reader of the output finds the value again: a word is loaded, a numeral is
decoded. -/
def decode (type : RelocType) (bytes : List Byte) : Option (BitVec 32) :=
  match type with
  | .TYPE_INDEX_LEB | .FUNCTION_INDEX_LEB | .GLOBAL_INDEX_LEB | .MEMORY_ADDR_LEB =>
      (readU32Leb128 bytes).map (·.1)
  | .TABLE_INDEX_SLEB | .MEMORY_ADDR_SLEB => (readS32Leb128 bytes).map (·.1)
  | .TABLE_INDEX_I32 | .MEMORY_ADDR_I32 => some (BitVec.ofNat 32 (ofLeBytes (bytes.take 4)))

theorem of_isMemory (type : RelocType) (h : type.isMemory) :
    type.kind? = some .data ∧ ¬ type.isTable := by
  cases type <;> first | exact ⟨rfl, Bool.false_ne_true⟩ | cases h

theorem length_encode (type : RelocType) (Value : BitVec 32) :
    (type.encode Value).length = type.size := by
  cases type with
  | TYPE_INDEX_LEB | FUNCTION_INDEX_LEB | GLOBAL_INDEX_LEB | MEMORY_ADDR_LEB =>
      exact length_encodeULEB128 Value
  | TABLE_INDEX_SLEB | MEMORY_ADDR_SLEB => exact length_encodeSLEB128 Value
  | TABLE_INDEX_I32 | MEMORY_ADDR_I32 => exact length_leBytes 4 _

theorem decode_encode (type : RelocType) (Value : BitVec 32) (rest : List Byte) :
    type.decode (type.encode Value ++ rest) = some Value := by
  cases type with
  | TYPE_INDEX_LEB | FUNCTION_INDEX_LEB | GLOBAL_INDEX_LEB | MEMORY_ADDR_LEB =>
      exact congrArg (Option.map _) (readU32Leb128_encodeULEB128 Value rest)
  | TABLE_INDEX_SLEB | MEMORY_ADDR_SLEB =>
      exact congrArg (Option.map _) (readS32Leb128_encodeSLEB128 Value rest)
  | TABLE_INDEX_I32 | MEMORY_ADDR_I32 =>
      have htake : (write32le Value ++ rest).take 4 = write32le Value :=
        List.take_left' (length_leBytes 4 _)
      show some (BitVec.ofNat 32 (ofLeBytes ((write32le Value ++ rest).take 4))) = _
      rw [htake, ofLeBytes_write32le]

end RelocType

namespace InputChunk

variable (C : InputChunk)

/-- Where a relocation is written, from the start of the chunk. -/
def field (Reloc : WasmRelocation) : Extent :=
  ⟨Reloc.Offset - C.InputSectionOffset, Reloc.type.size⟩

/-- The relocations are within the function or segment, as the object reader says that they
should be, and apart. -/
structure Tidy : Prop where
  inside : ∀ Reloc ∈ C.Relocations, C.InputSectionOffset ≤ Reloc.Offset ∧
    (C.field Reloc).stop ≤ C.data.length
  apart : C.Relocations.Pairwise fun a b => (C.field a).Apart (C.field b)

instance : Decidable C.Tidy :=
  decidable_of_iff (_ ∧ _) ⟨fun h => ⟨h.1, h.2⟩, fun h => ⟨h.inside, h.apart⟩⟩

end InputChunk

/-! ## Values -/

namespace SymbolTable

variable (t : SymbolTable) (Entry : String) (l : Toolchain.Layout)

/-- What `layoutMemory` sets the linker's own data symbols to; with the stack first,
`DataStart` is where the stack ends. -/
def ownAddress (Sym : SymbolRef) (Offset : BitVec 32) : BitVec 32 :=
  if Sym = .table "__dso_handle" then l.StackPointer
  else if Sym = .table "__data_end" then l.DataEnd
  else if Sym = .table "__heap_base" then l.HeapBase
  else Offset

/-- `getVirtualAddress`. -/
def getVirtualAddress (Sym : SymbolRef) : Option (BitVec 32) :=
  match t.content? Sym with
  | some (.defined (.data (some Segment) Offset _)) =>
      (t.segmentAddress Entry l Segment).map (· + Offset)
  | some (.defined (.data none Offset _)) => some (ownAddress l Sym Offset)
  | _ => none

/-- The value of an address of data, in `calcNewValue`. -/
def calcAddress (Sym : SymbolRef) (Addend : BitVec 32) : Option (BitVec 32) :=
  match t.content? Sym with
  | some (.defined (.data ..)) =>
      if t.isLive Entry (t.keyOf Sym) then (t.getVirtualAddress Entry l Sym).map (· + Addend)
      else some 0
  | some (.undefined .data) => some 0
  | _ => none

/-- `calcNewValue`; `none` where a cast fails. -/
def calcNewValue (File : ParsedFile) (Reloc : WasmRelocation) : Option (BitVec 32) :=
  match Reloc.type with
  | .TABLE_INDEX_I32 | .TABLE_INDEX_SLEB =>
      ((File.getSymbol Reloc.Index).bind (t.getTableIndex Entry)).map (BitVec.ofNat 32)
  | .MEMORY_ADDR_SLEB | .MEMORY_ADDR_I32 | .MEMORY_ADDR_LEB =>
      (File.getSymbol Reloc.Index).bind fun Sym => t.calcAddress Entry l Sym Reloc.Addend
  | .TYPE_INDEX_LEB => (t.TypeMap Entry File Reloc.Index).map (BitVec.ofNat 32)
  | .FUNCTION_INDEX_LEB =>
      ((File.getSymbol Reloc.Index).bind (t.getFunctionIndex Entry)).map (BitVec.ofNat 32)
  | .GLOBAL_INDEX_LEB =>
      ((File.getSymbol Reloc.Index).bind (t.getGlobalIndex Entry)).map (BitVec.ofNat 32)

/-- What is written for a relocation of a chunk. -/
def patch (File : ParsedFile) (C : InputChunk) (Reloc : WasmRelocation) : Option (Patch Byte) :=
  (t.calcNewValue Entry l File Reloc).map fun Value =>
    ⟨(C.field Reloc).start, Reloc.type.encode Value⟩

/-- `InputChunk::writeTo`. -/
def writeTo (File : ParsedFile) (C : InputChunk) (OutputOffset : ℕ) (Buf : List Byte) :
    Option (List Byte) :=
  (C.Relocations.mapM (t.patch Entry l File C)).map fun ps =>
    Patch.applyAll (ps.map (·.shift OutputOffset)) (Patch.apply ⟨OutputOffset, C.data⟩ Buf)

/-- The chunk in the place of itself. -/
def relocate (File : ParsedFile) (C : InputChunk) : Option (List Byte) :=
  t.writeTo Entry l File C 0 C.data

/-! ## What a value stands for -/

/-- What the value of a relocation is, by its type and by what its symbol is. -/
inductive Means (File : ParsedFile) (Reloc : WasmRelocation) : BitVec 32 → Prop
  | function (Sym : SymbolRef) (r : FunctionRef) (i : ℕ) (htype : Reloc.type = .FUNCTION_INDEX_LEB)
      (hSym : File.getSymbol Reloc.Index = some Sym) (href : t.functionRef? Sym = some r)
      (hi : (t.functions Entry)[i]? = some r) : Means File Reloc (BitVec.ofNat 32 i)
  | null (Sym : SymbolRef) (htype : Reloc.type.isTable)
      (hSym : File.getSymbol Reloc.Index = some Sym) (hnull : t.hasNullTableIndex Sym) :
      Means File Reloc 0
  | address (Sym : SymbolRef) (r : FunctionRef) (i k : ℕ) (htype : Reloc.type.isTable)
      (hSym : File.getSymbol Reloc.Index = some Sym) (href : t.functionRef? Sym = some r)
      (hi : (t.functions Entry)[i]? = some r) (hk : (t.elements Entry)[k]? = some (some i)) :
      Means File Reloc (BitVec.ofNat 32 (kInitialTableOffset + k))
  | signature (Sig : WasmSignature) (j : ℕ) (htype : Reloc.type = .TYPE_INDEX_LEB)
      (hSig : File.obj.types[Reloc.Index]? = some Sig) (hj : (t.Types Entry).keys[j]? = some Sig) :
      Means File Reloc (BitVec.ofNat 32 j)
  | global (Sym : SymbolRef) (r : GlobalRef) (i : ℕ) (htype : Reloc.type = .GLOBAL_INDEX_LEB)
      (hSym : File.getSymbol Reloc.Index = some Sym) (href : t.globalRef? Sym = some r)
      (hi : (t.globals Entry)[i]? = some r) : Means File Reloc (BitVec.ofNat 32 i)
  | data (Sym : SymbolRef) (Segment : SegmentId) (Offset Size a : BitVec 32)
      (htype : Reloc.type.isMemory) (hSym : File.getSymbol Reloc.Index = some Sym)
      (hcontent : t.content? Sym = some (.defined (.data (some Segment) Offset Size)))
      (ha : t.segmentAddress Entry l Segment = some a) :
      Means File Reloc (a + Offset + Reloc.Addend)
  | own (Sym : SymbolRef) (Offset Size : BitVec 32) (htype : Reloc.type.isMemory)
      (hSym : File.getSymbol Reloc.Index = some Sym)
      (hcontent : t.content? Sym = some (.defined (.data none Offset Size))) :
      Means File Reloc (ownAddress l Sym Offset + Reloc.Addend)
  | missing (Sym : SymbolRef) (htype : Reloc.type.isMemory)
      (hSym : File.getSymbol Reloc.Index = some Sym)
      (hcontent : t.content? Sym = some (.undefined .data)) : Means File Reloc 0

variable {t} {Entry} {l}

/-- A segment that is live has an address. -/
theorem exists_segmentAddress (hids : (t.ObjectFiles.map (·.id)).Nodup) (hfits : t.Fits Entry)
    (hl : t.layout Entry = .ok l) {Segment : SegmentId} {F : ParsedFile}
    (hF : t.file? Segment.File = some F) {Seg : InputSegment}
    (hSeg : F.obj.Segments[Segment.i]? = some Seg) (hlive : .segment Segment ∈ t.live Entry) :
    ∃ a, t.segmentAddress Entry l Segment = some a := by
  obtain ⟨hmem, hid⟩ := file?_eq_some hF
  have hx : (Segment, Seg) ∈ t.liveSegments Entry :=
    mem_liveSegments_iff.mpr ⟨F, hmem, hid.symm, hSeg, hlive⟩
  obtain ⟨k, i, outer, inner, a, hlocated⟩ := located hids hfits hl hx
  exact ⟨a, hlocated.address⟩

end SymbolTable

namespace Command

variable {cmd : Command} {l : Toolchain.Layout} {F : ParsedFile} {Reloc : WasmRelocation}

/-- The value of a relocation of data. -/
theorem means_of_memory (h : cmd.Regular) (hfits : cmd.linked.Fits cmd.Entry)
    (hl : cmd.linked.layout cmd.Entry = .ok l)
    (hlive : (F, Reloc) ∈ cmd.linked.liveRelocs cmd.Entry) (hmemory : Reloc.type.isMemory) :
    ∃ v, (F.getSymbol Reloc.Index).bind (fun Sym =>
        cmd.linked.calcAddress cmd.Entry l Sym Reloc.Addend) = some v ∧
      cmd.linked.Means cmd.Entry l F Reloc v := by
  obtain ⟨hkind?, htable⟩ := Reloc.type.of_isMemory hmemory
  obtain ⟨Sym, hSym, hstands, hcase⟩ := symbol_of_liveReloc h hlive hkind?
  have hkey : cmd.linked.isLive cmd.Entry (cmd.linked.keyOf Sym) :=
    decide_eq_true (hcase.resolve_left fun hnull => htable hnull.1).2
  obtain ⟨c, hc, hkind⟩ := hstands.content
  rw [hSym, Option.bind_some, SymbolTable.calcAddress, hc]
  cases c with
  | lazy => cases hkind
  | undefined w =>
      cases w with
      | function | global => cases hkind
      | data => exact ⟨0, rfl, .missing Sym hmemory hSym hc⟩
  | defined d =>
      cases d with
      | function | global => cases hkind
      | data Segment Offset Size =>
          dsimp only
          rw [if_pos hkey]
          cases Segment with
          | none =>
              refine ⟨_, ?_, .own Sym Offset Size hmemory hSym hc⟩
              rw [SymbolTable.getVirtualAddress, hc]
              rfl
          | some Segment =>
              -- what is live is placed
              obtain ⟨G, hG, Seg, hSeg, -⟩ := hstands.valid _ hc
              have hkeyOf : cmd.linked.keyOf Sym = .segment Segment := by
                rw [SymbolTable.keyOf, hc]
              rw [hkeyOf] at hkey
              obtain ⟨a, ha⟩ := SymbolTable.exists_segmentAddress ids_linked hfits hl hG hSeg
                (of_decide_eq_true hkey)
              refine ⟨_, ?_, .data Sym Segment Offset Size a hmemory hSym hc ha⟩
              rw [SymbolTable.getVirtualAddress, hc]
              dsimp only
              rw [ha]
              rfl

/-- A live relocation has a value, that of what it refers to. -/
theorem means_of_liveReloc (h : cmd.Regular) (hfits : cmd.linked.Fits cmd.Entry)
    (hl : cmd.linked.layout cmd.Entry = .ok l)
    (hlive : (F, Reloc) ∈ cmd.linked.liveRelocs cmd.Entry) :
    ∃ v, cmd.linked.calcNewValue cmd.Entry l F Reloc = some v ∧
      cmd.linked.Means cmd.Entry l F Reloc v := by
  cases htype : Reloc.type with
  | MEMORY_ADDR_LEB | MEMORY_ADDR_SLEB | MEMORY_ADDR_I32 =>
      obtain ⟨v, hv, hmeans⟩ := means_of_memory h hfits hl hlive (by rw [htype]; rfl)
      refine ⟨v, ?_, hmeans⟩
      rw [SymbolTable.calcNewValue, htype]
      exact hv
  | TABLE_INDEX_SLEB | TABLE_INDEX_I32 =>
      have htable : Reloc.type.isTable := by rw [htype]; rfl
      obtain ⟨Sym, hSym, ⟨hnull, hzero⟩ | ⟨r, i, k, href, hi, hindex, hk⟩⟩ :=
        address_of_liveReloc h hlive htable
      · refine ⟨0, ?_, .null Sym htable hSym hnull⟩
        rw [SymbolTable.calcNewValue, htype, hSym]
        exact congrArg (Option.map _) hzero
      · refine ⟨_, ?_, .address Sym r i k htable hSym href hi hk⟩
        rw [SymbolTable.calcNewValue, htype, hSym]
        exact congrArg (Option.map _) hindex
  | TYPE_INDEX_LEB =>
      obtain ⟨Sig, j, hSig, hmap, hj⟩ := type_of_liveReloc hlive htype
      refine ⟨_, ?_, .signature Sig j htype hSig hj⟩
      rw [SymbolTable.calcNewValue, htype]
      exact congrArg (Option.map _) hmap
  | GLOBAL_INDEX_LEB =>
      obtain ⟨Sym, r, i, hSym, href, hindex, hi⟩ := mem_globals_of_liveReloc h hlive htype
      refine ⟨_, ?_, .global Sym r i htype hSym href hi⟩
      rw [SymbolTable.calcNewValue, htype, hSym]
      exact congrArg (Option.map _) hindex
  | FUNCTION_INDEX_LEB =>
      obtain ⟨Sym, hSym, hcase⟩ := mem_functions_of_liveReloc h hlive (by rw [htype]; rfl)
      obtain ⟨-, r, i, href, hi⟩ := hcase.resolve_left fun hnull => by
        rw [htype] at hnull
        cases hnull.1
      refine ⟨_, ?_, .function Sym r i htype hSym href hi⟩
      rw [SymbolTable.calcNewValue, htype, hSym]
      exact congrArg (Option.map _)
        ((SymbolTable.getFunctionIndex_eq_some_iff ids_linked).mpr ⟨r, href, hi⟩)

/-! ## The chunk in the output -/

/-- The relocations of the objects are written within their chunks and apart. -/
def Tidy (cmd : Command) : Prop := ∀ F ∈ cmd.ObjectFiles, ∀ C ∈ F.obj.chunks, C.Tidy

instance (cmd : Command) : Decidable cmd.Tidy := by
  unfold Tidy
  infer_instance

end Command

/-- What is in the output instead of a chunk: every relocation is written, and reads, as what it
refers to, and all else is as it was. -/
structure Relocated (t : SymbolTable) (Entry : String) (l : Toolchain.Layout) (File : ParsedFile)
    (C : InputChunk) (bytes : List Byte) : Prop where
  length : bytes.length = C.data.length
  values : ∀ Reloc ∈ C.Relocations, ∃ v, t.Means Entry l File Reloc v ∧
    window bytes (C.field Reloc).start (C.field Reloc).len = Reloc.type.encode v ∧
    Reloc.type.decode (bytes.drop (C.field Reloc).start) = some v
  frame : ∀ e : Extent, (∀ Reloc ∈ C.Relocations, (C.field Reloc).Apart e) →
    window bytes e.start e.len = window C.data e.start e.len

namespace Command

variable {cmd : Command} {l : Toolchain.Layout} {F : ParsedFile}

theorem mem_chunks_of_liveChunks (hF : F ∈ cmd.ObjectFiles) {c : LiveKey × InputChunk}
    (hc : c ∈ F.liveChunks) : c.2 ∈ F.obj.chunks :=
  (SymbolTable.mem_of_chunk? (SymbolTable.chunk?_of_liveChunks (file?_linked hF) hc)).2

/-- A live chunk is relocated, wherever there is room for it. -/
theorem exists_writeTo (h : cmd.Regular) (hfits : cmd.linked.Fits cmd.Entry)
    (htidy : cmd.Tidy) (hl : cmd.linked.layout cmd.Entry = .ok l) (hF : F ∈ cmd.ObjectFiles)
    {c : LiveKey × InputChunk} (hc : c ∈ F.liveChunks) (hlive : c.1 ∈ cmd.linked.live cmd.Entry) :
    ∃ bytes, cmd.linked.relocate cmd.Entry l F c.2 = some bytes ∧
      Relocated cmd.linked cmd.Entry l F c.2 bytes ∧
      ∀ OutputOffset Buf, OutputOffset + c.2.data.length ≤ Buf.length →
        cmd.linked.writeTo cmd.Entry l F c.2 OutputOffset Buf =
          some (Patch.apply ⟨OutputOffset, bytes⟩ Buf) := by
  have hrelocs : ∀ Reloc ∈ c.2.Relocations, (F, Reloc) ∈ cmd.linked.liveRelocs cmd.Entry :=
    fun Reloc hReloc => SymbolTable.mem_liveRelocs_iff.mpr
      ⟨ObjectFiles_linked ▸ hF, c, hc, hlive, hReloc⟩
  obtain ⟨hinside, hapart⟩ := htidy F hF c.2 (mem_chunks_of_liveChunks hF hc)
  have hpatch : ∀ Reloc ∈ c.2.Relocations, ∃ p,
      cmd.linked.patch cmd.Entry l F c.2 Reloc = some p ∧ p.extent = c.2.field Reloc := by
    intro Reloc hReloc
    obtain ⟨v, hv, -⟩ := means_of_liveReloc h hfits hl (hrelocs Reloc hReloc)
    refine ⟨_, congrArg (Option.map _) hv, ?_⟩
    rw [Patch.extent, RelocType.length_encode]
    rfl
  obtain ⟨ps, hps, hin, hfilled⟩ := filled_applyAll hpatch
    (fun Reloc hReloc => (hinside Reloc hReloc).2) hapart
  have hwrite : ∀ OutputOffset Buf, OutputOffset + c.2.data.length ≤ Buf.length →
      cmd.linked.writeTo cmd.Entry l F c.2 OutputOffset Buf =
        some (Patch.apply ⟨OutputOffset, Patch.applyAll ps c.2.data⟩ Buf) := by
    intro OutputOffset Buf hroom
    rw [SymbolTable.writeTo, hps, Option.map_some, applyAll_shift hin hroom]
  refine ⟨Patch.applyAll ps c.2.data, ?_,
    ⟨hfilled.length, fun Reloc hReloc => ?_, hfilled.frame⟩, hwrite⟩
  · rw [SymbolTable.relocate, hwrite 0 c.2.data (by omega), apply_whole hfilled.length]
  · obtain ⟨v, hv, hmeans⟩ := means_of_liveReloc h hfits hl (hrelocs Reloc hReloc)
    have hfield := hfilled.fields Reloc hReloc _ (congrArg (Option.map _) hv)
    dsimp only at hfield
    refine ⟨v, hmeans, ?_, ?_⟩
    · rwa [RelocType.length_encode] at hfield
    · rw [← List.take_append_drop (Reloc.type.encode v).length (List.drop _ _)]
      exact (congrArg (fun b => Reloc.type.decode (b ++ _)) hfield).trans
        (Reloc.type.decode_encode v _)

/-- Every chunk that is kept is copied to its place, and each of its relocations then reads as
what its symbol is; no other byte of the chunk changes, and none outside of it. -/
theorem link_relocations (h : cmd.Regular) (hfits : cmd.linked.Fits cmd.Entry) (htidy : cmd.Tidy) :
    ∃ l, cmd.linked.layout cmd.Entry = .ok l ∧
      ∀ F ∈ cmd.ObjectFiles, ∀ c ∈ F.liveChunks, c.1 ∈ cmd.linked.live cmd.Entry →
        ∃ bytes, cmd.linked.relocate cmd.Entry l F c.2 = some bytes ∧
          Relocated cmd.linked cmd.Entry l F c.2 bytes ∧
          ∀ OutputOffset Buf, OutputOffset + c.2.data.length ≤ Buf.length →
            cmd.linked.writeTo cmd.Entry l F c.2 OutputOffset Buf =
              some (Patch.apply ⟨OutputOffset, bytes⟩ Buf) := by
  obtain ⟨l, hl, -⟩ := Toolchain.layoutMemory_fractalLd hfits.all
  exact ⟨l, hl, fun F hF c hc hlive => exists_writeTo h hfits htidy hl hF hc hlive⟩

theorem link_relocations_sample : ∃ l bytes, sample.linked.layout sample.Entry = .ok l ∧
    sample.linked.relocate sample.Entry l ⟨.object 0, sampleMain, []⟩ sampleWord.toInputChunk =
      some bytes := by
  obtain ⟨l, hl, hchunks⟩ := @link_relocations sample (by decide +kernel) (by decide +kernel)
    (by decide +kernel)
  obtain ⟨bytes, hbytes, -⟩ := hchunks ⟨.object 0, sampleMain, []⟩
    (ObjectFiles_sample ▸ List.mem_cons_self) (.segment ⟨.object 0, 0⟩, sampleWord.toInputChunk)
    (List.mem_of_getElem? (show _[1]? = _ from rfl)) (by decide +kernel)
  exact ⟨l, bytes, hl, hbytes⟩

end Command

end FractalCdt.Linker
