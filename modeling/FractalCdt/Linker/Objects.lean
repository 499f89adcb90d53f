/-
# What the linker is given

A relocatable object lists its functions, data segments and globals, and the
symbols by which its relocations refer to them and to those of other objects.
An archive is a list of objects with an index of the names they define.  The
checks of the object reader are fields of an object.  That alignments are powers of
two is no check of the reader; the compiler takes care of it.
-/

import FractalCdt.Toolchain.GlobalSection
import Mathlib.Data.List.Nodup

namespace FractalCdt.Linker

open FractalCdt.Math FractalCdt.Toolchain

structure WasmSignature where
  ParamTypes : List Byte
  ReturnType : Byte
  deriving DecidableEq, Repr

/-- `WASM_SYMBOL_BINDING_*`. -/
inductive Binding
  | bindingGlobal
  | bindingWeak
  | bindingLocal
  deriving DecidableEq, Repr

/-- The flags of a symbol; `WASM_SYMBOL_UNDEFINED` is told by its `SymbolInfo`. -/
structure Flags where
  binding : Binding
  hidden : Bool
  deriving DecidableEq, Repr

/-! ## Chunks and their relocations -/

/-- `R_WEBASSEMBLY_*`, as far as code and data use them. -/
inductive RelocType
  | FUNCTION_INDEX_LEB
  | TABLE_INDEX_SLEB
  | TABLE_INDEX_I32
  | MEMORY_ADDR_LEB
  | MEMORY_ADDR_SLEB
  | MEMORY_ADDR_I32
  | TYPE_INDEX_LEB
  | GLOBAL_INDEX_LEB
  deriving DecidableEq, Repr

/-- `Index` is that of a symbol, or of a type for `TYPE_INDEX_LEB`; `Offset` counts
from the start of the section. -/
structure WasmRelocation where
  type : RelocType
  Offset : ℕ
  Index : ℕ
  Addend : BitVec 32
  deriving DecidableEq, Repr

/-- `InputChunk`: some bytes of a section and the relocations inside of them. -/
structure InputChunk where
  data : List Byte
  InputSectionOffset : ℕ
  Comdat : Option ℕ
  Relocations : List WasmRelocation
  deriving DecidableEq, Repr

/-- The bytes of a function start with a numeral of `CodeOffset` bytes, which tells how many
follow it. -/
structure InputFunction extends InputChunk where
  Signature : WasmSignature
  CodeOffset : ℕ
  sized : Terminated (data.take CodeOffset) ∧
    CodeOffset + groupsValue (data.take CodeOffset) = data.length
  deriving DecidableEq, Repr

/-- The compiler aligns to powers of two; the reader takes any number. -/
structure InputSegment extends InputChunk where
  Name : String
  Alignment : ℕ
  power : ∃ k, Alignment = 2 ^ k
  deriving DecidableEq, Repr

/-! ## Symbols -/

/-- What an undefined symbol asks for. -/
inductive Wanted
  | function (FunctionType : Option WasmSignature)
  | data
  | global (GlobalType : WasmGlobalType)
  deriving DecidableEq, Repr

/-- What a defined symbol stands for; the indices leave the imports out. -/
inductive Element
  | function (Index : ℕ)
  | data (Segment : ℕ) (Offset Size : BitVec 32)
  | global (Index : ℕ) (GlobalType : WasmGlobalType)
  deriving DecidableEq, Repr

inductive SymbolInfo
  | defined (e : Element)
  | undefined (w : Wanted)
  deriving DecidableEq, Repr

structure WasmSymbol where
  Name : String
  Flags : Flags
  Info : SymbolInfo
  deriving DecidableEq, Repr

namespace WasmSymbol

def isTypeFunction (sym : WasmSymbol) : Bool :=
  match sym.Info with
  | .defined (.function _) | .undefined (.function _) => true
  | _ => false

def isTypeData (sym : WasmSymbol) : Bool :=
  match sym.Info with
  | .defined (.data ..) | .undefined .data => true
  | _ => false

def isTypeGlobal (sym : WasmSymbol) : Bool :=
  match sym.Info with
  | .defined (.global ..) | .undefined (.global _) => true
  | _ => false

def isDefined (sym : WasmSymbol) : Bool :=
  match sym.Info with
  | .defined _ => true
  | .undefined _ => false

def isBindingLocal (sym : WasmSymbol) : Bool := sym.Flags.binding = .bindingLocal

end WasmSymbol

/-- The types of a relocation that refer to a function. -/
def RelocType.isFunction : RelocType → Bool
  | .FUNCTION_INDEX_LEB | .TABLE_INDEX_SLEB | .TABLE_INDEX_I32 => true
  | _ => false

/-- Those by which a function gets into the table. -/
def RelocType.isTable : RelocType → Bool
  | .TABLE_INDEX_SLEB | .TABLE_INDEX_I32 => true
  | _ => false

def RelocType.isMemory : RelocType → Bool
  | .MEMORY_ADDR_LEB | .MEMORY_ADDR_SLEB | .MEMORY_ADDR_I32 => true
  | _ => false

/-- An entry of the linking section's list of init functions. -/
structure WasmInitFunc where
  Priority : ℕ
  Symbol : ℕ
  deriving DecidableEq, Repr

/-! ## Files -/

/-- The sections of an object. -/
structure Sections where
  types : List WasmSignature
  Comdats : List String
  Functions : List InputFunction
  Segments : List InputSegment
  Globals : List WasmGlobal
  symbols : List WasmSymbol
  InitFunctions : List WasmInitFunc
  /-- The section `.imports`. -/
  allowed_imports : List String
  deriving DecidableEq, Repr

namespace Sections

variable (o : Sections)

/-- The checks `parseLinkingSectionSymtab` makes of a symbol; an undefined function has
the type of its import. -/
def ValidSymbol (sym : WasmSymbol) : Prop :=
  match sym.Info with
  | .defined (.function Index) => Index < o.Functions.length
  | .defined (.data Segment Offset Size) =>
      ∃ Seg ∈ o.Segments[Segment]?, (Offset + Size).toNat ≤ Seg.data.length
  | .defined (.global Index GlobalType) => (o.Globals[Index]?).map (·.GlobalType) = some GlobalType
  | .undefined (.function FunctionType) => FunctionType.isSome
  | .undefined .data => True
  | .undefined (.global _) => sym.Flags.binding ≠ .bindingWeak

instance (sym : WasmSymbol) : Decidable (o.ValidSymbol sym) :=
  match sym with
  | ⟨_, _, .defined (.function Index)⟩ =>
      inferInstanceAs (Decidable (Index < o.Functions.length))
  | ⟨_, _, .defined (.data Segment Offset Size)⟩ =>
      inferInstanceAs (Decidable (∃ Seg ∈ o.Segments[Segment]?,
        (Offset + Size).toNat ≤ Seg.data.length))
  | ⟨_, _, .defined (.global Index GlobalType)⟩ =>
      inferInstanceAs (Decidable ((o.Globals[Index]?).map (·.GlobalType) = some GlobalType))
  | ⟨_, _, .undefined (.function FunctionType)⟩ =>
      inferInstanceAs (Decidable (FunctionType.isSome = true))
  | ⟨_, _, .undefined .data⟩ => .isTrue trivial
  | ⟨_, flags, .undefined (.global _)⟩ =>
      inferInstanceAs (Decidable (flags.binding ≠ .bindingWeak))

/-- The check `parseRelocSection` makes of the index of a relocation. -/
def ValidReloc (Reloc : WasmRelocation) : Prop :=
  match Reloc.type with
  | .TYPE_INDEX_LEB => Reloc.Index < o.types.length
  | .GLOBAL_INDEX_LEB => (o.symbols[Reloc.Index]?).any (·.isTypeGlobal)
  | .MEMORY_ADDR_LEB | .MEMORY_ADDR_SLEB | .MEMORY_ADDR_I32 =>
      (o.symbols[Reloc.Index]?).any (·.isTypeData)
  | .FUNCTION_INDEX_LEB | .TABLE_INDEX_SLEB | .TABLE_INDEX_I32 =>
      (o.symbols[Reloc.Index]?).any (·.isTypeFunction)

instance (Reloc : WasmRelocation) : Decidable (o.ValidReloc Reloc) :=
  match Reloc with
  | ⟨.TYPE_INDEX_LEB, _, Index, _⟩ => inferInstanceAs (Decidable (Index < o.types.length))
  | ⟨.GLOBAL_INDEX_LEB, _, Index, _⟩ =>
      inferInstanceAs (Decidable ((o.symbols[Index]?).any (·.isTypeGlobal) = true))
  | ⟨.MEMORY_ADDR_LEB, _, Index, _⟩ | ⟨.MEMORY_ADDR_SLEB, _, Index, _⟩
  | ⟨.MEMORY_ADDR_I32, _, Index, _⟩ =>
      inferInstanceAs (Decidable ((o.symbols[Index]?).any (·.isTypeData) = true))
  | ⟨.FUNCTION_INDEX_LEB, _, Index, _⟩ | ⟨.TABLE_INDEX_SLEB, _, Index, _⟩
  | ⟨.TABLE_INDEX_I32, _, Index, _⟩ =>
      inferInstanceAs (Decidable ((o.symbols[Index]?).any (·.isTypeFunction) = true))

/-- The functions and the segments. -/
def chunks : List InputChunk := o.Functions.map (·.toInputChunk) ++ o.Segments.map (·.toInputChunk)

/-- The function or segment that a symbol is in. -/
def chunk? (sym : WasmSymbol) : Option InputChunk :=
  match sym.Info with
  | .defined (.function Index) => (o.Functions[Index]?).map (·.toInputChunk)
  | .defined (.data Segment _ _) => (o.Segments[Segment]?).map (·.toInputChunk)
  | _ => none

/-- The comdat group that a symbol is in. -/
def group? (sym : WasmSymbol) : Option String :=
  (o.chunk? sym).bind fun C => C.Comdat.bind fun i => o.Comdats[i]?

end Sections

/-- An object that `WasmObjectFile` has read without an error. -/
structure ObjFile extends Sections where
  elements : ∀ sym ∈ symbols, toSections.ValidSymbol sym
  relocs : ∀ C ∈ toSections.chunks, ∀ Reloc ∈ C.Relocations, toSections.ValidReloc Reloc
  inits : ∀ F ∈ InitFunctions, (symbols[F.Symbol]?).any (·.isTypeFunction)
  names : ((symbols.filter fun sym => !sym.isBindingLocal).map (·.Name)).Nodup
  comdats : Comdats.Nodup
  groups : ∀ C ∈ toSections.chunks, ∀ i ∈ C.Comdat, i < Comdats.length

/-- An archive: its members, and the names of its index with the member each is in. -/
structure ArchiveFile where
  members : List ObjFile
  index : List (String × ℕ)
  inRange : ∀ e ∈ index, e.2 < members.length

inductive InputFile
  | object (o : ObjFile)
  | archive (a : ArchiveFile)

/-- Which file it is: the one at a place of the command line, or a member of the
archive there. -/
inductive FileId
  | object (i : ℕ)
  | member (i m : ℕ)
  deriving DecidableEq, Repr

/-- The files of a command line, `-e`, the names forced with `--undefined` and those of
the files of allowed imports. -/
structure Command where
  Files : List InputFile
  Entry : String
  undefined : List String
  AllowUndefinedSymbols : List String

namespace Command

variable (cmd : Command)

def archive? (i : ℕ) : Option ArchiveFile :=
  match cmd.Files[i]? with
  | some (.archive a) => some a
  | _ => none

/-- The object that a file is. -/
def object? : FileId → Option ObjFile
  | .object i =>
      match cmd.Files[i]? with
      | some (.object o) => some o
      | _ => none
  | .member i m => (cmd.archive? i).bind (·.members[m]?)

theorem archive?_eq_some_iff {i : ℕ} {a : ArchiveFile} :
    cmd.archive? i = some a ↔ cmd.Files[i]? = some (.archive a) := by
  unfold archive?
  split <;> simp_all

theorem object?_object {i : ℕ} {obj : ObjFile} :
    cmd.object? (.object i) = some obj ↔ cmd.Files[i]? = some (.object obj) := by
  simp only [object?]
  split <;> simp_all

theorem object?_member {i m : ℕ} {obj : ObjFile} : cmd.object? (.member i m) = some obj ↔
    ∃ a, cmd.archive? i = some a ∧ a.members[m]? = some obj := Option.bind_eq_some_iff

end Command

end FractalCdt.Linker
