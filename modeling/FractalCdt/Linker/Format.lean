/-
# The file between the linker and the post-pass

The linker writes a module section by section, each behind its code and its size, and
the post-pass reads it back with checks of its own: sections are in order, end where
they say, and name nothing that is not there.
-/

import FractalCdt.Linker.Objects
import FractalCdt.Linker.Utf8
import FractalCdt.Toolchain.FunctionBody
import FractalCdt.Toolchain.PostPass

namespace FractalCdt.Linker

open FractalCdt.Math FractalCdt.Toolchain

/-! ## Sections -/

inductive ExternalKind
  | function
  | table
  | memory
  | global
  deriving DecidableEq, Repr

/-- Flags, a minimum and, behind a flag, a maximum. -/
structure WasmLimits where
  Shared : Bool
  Initial : BitVec 32
  Maximum : Option (BitVec 32)
  deriving DecidableEq, Repr

inductive ImportDesc
  | function (SigIndex : BitVec 32)
  | table (Limits : WasmLimits)
  | memory (Limits : WasmLimits)
  | global (Global : WasmGlobalType)
  deriving DecidableEq, Repr

def ImportDesc.kind : ImportDesc → ExternalKind
  | .function _ => .function
  | .table _ => .table
  | .memory _ => .memory
  | .global _ => .global

/-- Names are bytes here. -/
structure WasmImport where
  Module : List Byte
  Field : List Byte
  desc : ImportDesc
  deriving DecidableEq, Repr

structure WasmExport where
  Name : List Byte
  Kind : ExternalKind
  Index : BitVec 32
  deriving DecidableEq, Repr

structure ElemSegment where
  table : BitVec 32
  offset : BitVec 32
  functions : List (BitVec 32)
  deriving DecidableEq, Repr

/-- A section of an executable file; a function body is a list of bytes. -/
inductive Section
  | custom (Name payload : List Byte)
  | type (Types : List WasmSignature)
  | imports (ImportedSymbols : List WasmImport)
  | function (sigs : List (BitVec 32))
  | table (tables : List WasmLimits)
  | memory (memories : List WasmLimits)
  | global (globals : List WasmGlobal)
  | exports (Exports : List WasmExport)
  | elem (segments : List ElemSegment)
  | code (bodies : List (List Byte))
  | data (segments : List DataSegment)

/-- `WASM_SEC_*`. -/
def Section.id : Section → ℕ
  | .custom .. => 0
  | .type _ => 1
  | .imports _ => 2
  | .function _ => 3
  | .table _ => 4
  | .memory _ => 5
  | .global _ => 6
  | .exports _ => 7
  | .elem _ => 9
  | .code _ => 10
  | .data _ => 11

/-! ## Writing -/

def writeStr (String : List Byte) : List Byte := uleb String.length ++ String

def writeUleb128 (Number : BitVec 32) : List Byte := uleb Number.toNat

/-- `writeSig`; `0x40` stands for no result. -/
def writeSig (Sig : WasmSignature) : List Byte :=
  0x60 :: writeVector (fun ParamType => [ParamType]) Sig.ParamTypes ++
    if Sig.ReturnType = 0x40 then uleb 0 else uleb 1 ++ [Sig.ReturnType]

/-- `WASM_LIMITS_FLAG_HAS_MAX` of the linker and `WABT_BINARY_LIMITS_IS_SHARED_FLAG`. -/
def limitsFlags (hasMax shared : Bool) : ℕ := (if hasMax then 1 else 0) + if shared then 2 else 0

def WasmLimits.Flags (Limits : WasmLimits) : ℕ :=
  limitsFlags Limits.Maximum.isSome Limits.Shared

def writeLimits (Limits : WasmLimits) : List Byte :=
  BitVec.ofNat 8 Limits.Flags :: (writeUleb128 Limits.Initial ++
    match Limits.Maximum with
    | some Maximum => writeUleb128 Maximum
    | none => [])

def writeTableType (Limits : WasmLimits) : List Byte := 0x70 :: writeLimits Limits

def ExternalKind.code : ExternalKind → Byte
  | .function => 0
  | .table => 1
  | .memory => 2
  | .global => 3

def writeImport (Import : WasmImport) : List Byte :=
  writeStr Import.Module ++ (writeStr Import.Field ++ (Import.desc.kind.code ::
    match Import.desc with
    | .function SigIndex => writeUleb128 SigIndex
    | .table Limits => writeTableType Limits
    | .memory Limits => writeLimits Limits
    | .global Global => writeGlobalType Global))

def writeExport (Export : WasmExport) : List Byte :=
  writeStr Export.Name ++ (Export.Kind.code :: writeUleb128 Export.Index)

/-- What `createElemSection` writes behind the count of the segments. -/
def writeElem (Segment : ElemSegment) : List Byte :=
  writeUleb128 Segment.table ++
    (writeInitExpr Segment.offset ++ writeVector writeUleb128 Segment.functions)

/-- The header of an output segment and its payload. -/
def writeSegment (Segment : DataSegment) : List Byte :=
  uleb 0 ++ (writeInitExpr Segment.offset ++ writeStr Segment.data)

/-- The body of a section, as the `create*Section` of `Writer` makes it. -/
def Section.body : Section → List Byte
  | .custom Name payload => writeStr Name ++ payload
  | .type Types => writeVector writeSig Types
  | .imports ImportedSymbols => writeVector writeImport ImportedSymbols
  | .function sigs => writeVector writeUleb128 sigs
  | .table tables => writeVector writeTableType tables
  | .memory memories => writeVector writeLimits memories
  | .global globals => createGlobalSection globals
  | .exports Exports => writeVector writeExport Exports
  | .elem segments => writeVector writeElem segments
  | .code bodies => writeVector (fun body => body) bodies
  | .data segments => writeVector writeSegment segments

/-- A section behind the header of `OutputSection::createHeader`. -/
def Section.write (s : Section) : List Byte := uleb s.id ++ writeStr s.body

/-- `createHeader`: the magic and the version. -/
def Header : List Byte := [0x00, 0x61, 0x73, 0x6d, 0x01, 0x00, 0x00, 0x00]

/-- The output file. -/
def writeModule (OutputSections : List Section) : List Byte :=
  Header ++ OutputSections.flatMap Section.write

/-! ## Reading -/

/-- What the reader has counted so far: `num_signatures_`, `num_*_imports_` and `num_*_`. -/
structure Counts where
  signatures : ℕ
  imports : ExternalKind → ℕ
  defined : ExternalKind → ℕ

namespace Counts

def zero : Counts := ⟨0, fun _ => 0, fun _ => 0⟩

variable (c : Counts)

/-- `NumTotal*`. -/
def total (Kind : ExternalKind) : ℕ := c.imports Kind + c.defined Kind

def define (Kind : ExternalKind) (count : ℕ) : Counts :=
  { c with defined := fun K => if K = Kind then count else c.defined K }

/-- The counts behind a section. -/
def add : Section → Counts
  | .type Types => { c with signatures := Types.length }
  | .imports ImportedSymbols =>
      { c with
        imports := fun Kind =>
          c.imports Kind + ImportedSymbols.countP fun Import => Import.desc.kind = Kind }
  | .function sigs => c.define .function sigs.length
  | .table tables => c.define .table tables.length
  | .memory memories => c.define .memory memories.length
  | .global globals => c.define .global globals.length
  | _ => c

end Counts

/-- The limits that `ReadTable` lets pass. -/
def WasmLimits.okTable (Limits : WasmLimits) : Bool :=
  !Limits.Shared && Limits.Maximum.all fun max => Limits.Initial ≤ max

/-- The limits that `ReadMemory` lets pass. -/
def WasmLimits.okMemory (Limits : WasmLimits) : Bool :=
  Limits.Initial ≤ 65536 && (!Limits.Shared || Limits.Maximum.isSome) &&
    Limits.Maximum.all fun max => max ≤ 65536 && Limits.Initial ≤ max

/-- The names of the custom sections that the reader does not skip: `name`, `reloc…`
and `linking`. -/
def isKnownName (Name : List Byte) : Bool :=
  Name == [0x6e, 0x61, 0x6d, 0x65] || [0x72, 0x65, 0x6c, 0x6f, 0x63].isPrefixOf Name ||
    Name == [0x6c, 0x69, 0x6e, 0x6b, 0x69, 0x6e, 0x67]

section Readers

variable (r : BinaryReader)

/-- `ReadBytes`. -/
def readBytes : ReadM (List Byte) := do
  let size ← r.readU32
  let offset ← get
  errorUnless (offset + size.toNat ≤ r.readEnd)
  set (offset + size.toNat)
  return (r.window offset).take size.toNat

/-- `ReadStr`. -/
def readStr : ReadM (List Byte) := do
  let s ← readBytes r
  errorUnless (isValidUtf8 s)
  return s

/-- The body of the loop of `ReadTypeSection`. -/
def readSig : ReadM WasmSignature := do
  let form ← r.readS32
  errorUnless (form == -0x20)
  let ParamTypes ← r.readVector r.readConcrete
  let results ← r.readVector r.readConcrete
  errorUnless (results.length ≤ 1)
  return ⟨ParamTypes, results.headD 0x40⟩

/-- The part that `ReadTable` and `ReadMemory` share. -/
def readLimits : ReadM WasmLimits := do
  let flags ← r.readU32
  let initial ← r.readU32
  if flags &&& 1 ≠ 0 then
    let max ← r.readU32
    return ⟨flags &&& 2 ≠ 0, initial, some max⟩
  else return ⟨flags &&& 2 ≠ 0, initial, none⟩

def readTable : ReadM WasmLimits := do
  let elemType ← r.readS32
  errorUnless (elemType == -0x10)
  let Limits ← readLimits r
  errorUnless Limits.okTable
  return Limits

def readMemory : ReadM WasmLimits := do
  let Limits ← readLimits r
  errorUnless Limits.okMemory
  return Limits

def readKind : ReadM ExternalKind := do
  let kind ← r.readU8
  if kind = 0 then return .function
  else if kind = 1 then return .table
  else if kind = 2 then return .memory
  else if kind = 3 then return .global
  else failure

/-- An index below a bound. -/
def readIndex (bound : ℕ) : ReadM (BitVec 32) := do
  let index ← r.readU32
  errorUnless (index.toNat < bound)
  return index

/-- The body of the loop of `ReadImportSection`. -/
def readImport (c : Counts) : ReadM WasmImport := do
  let Module ← readStr r
  let Field ← readStr r
  let kind ← readKind r
  let desc ← match kind with
    | .function => ImportDesc.function <$> readIndex r c.signatures
    | .table => ImportDesc.table <$> readTable r
    | .memory => ImportDesc.memory <$> readMemory r
    | .global => ImportDesc.global <$> r.readGlobalHeader
  return ⟨Module, Field, desc⟩

/-- The body of the loop of `ReadExportSection`. -/
def readExport (c : Counts) : ReadM WasmExport := do
  let Name ← readStr r
  let Kind ← readKind r
  let Index ← readIndex r (c.total Kind)
  return ⟨Name, Kind, Index⟩

/-- `ReadInitExpr`, of an `i32.const`; the linker writes no other. -/
def readLiteral : ReadM (BitVec 32) := do
  let initExpr ← r.readInitExpr
  match initExpr with
  | [⟨.i32Const value, _⟩] => return value
  | _ => failure

/-- The body of the loop of `ReadElemSection`. -/
def readElem : ReadM ElemSegment := do
  let table ← r.readU32
  let offset ← readLiteral r
  let functions ← r.readVector r.readU32
  return ⟨table, offset, functions⟩

/-- `ReadGlobalSection`, of globals with an `i32.const` each. -/
def readGlobals : ReadM Section := do
  let globals ← r.readGlobalSection
  let globals ← BinaryReader.found (globals.mapM ModuleGlobal.literal?)
  return .global globals

/-- The body of the loop of `ReadDataSection`. -/
def readSegment : ReadM DataSegment := do
  let _ ← r.readU32
  let offset ← readLiteral r
  let data ← readBytes r
  return ⟨offset, data⟩

/-- `ReadCustomSection`, of a section that is skipped. -/
def readCustom : ReadM Section := do
  let Name ← readStr r
  errorUnless (!isKnownName Name)
  let offset ← get
  set r.readEnd
  return .custom Name (r.window offset)

/-- What a section is checked for when its items have been read. -/
def Section.ok (c : Counts) : Section → Bool
  | .table tables => tables.length ≤ 1
  | .memory memories => memories.length ≤ 1
  | .elem segments => segments.isEmpty || 0 < c.total .table
  | .code bodies => bodies.length == c.defined .function
  | .data segments => segments.isEmpty || 0 < c.total .memory
  | _ => true

/-- The items of the section with a code; the linker writes no start section. -/
def readItems (c : Counts) (code : ℕ) : ReadM Section :=
  match code with
  | 0 => readCustom r
  | 1 => .type <$> r.readVector (readSig r)
  | 2 => .imports <$> r.readVector (readImport r c)
  | 3 => .function <$> r.readVector (readIndex r c.signatures)
  | 4 => .table <$> r.readVector (readTable r)
  | 5 => .memory <$> r.readVector (readMemory r)
  | 6 => readGlobals r
  | 7 => .exports <$> r.readVector (readExport r c)
  | 9 => .elem <$> r.readVector (readElem r)
  | 10 => .code <$> r.readVector (r.readBody (c.total .function) c.signatures)
  | 11 => .data <$> r.readVector (readSegment r)
  | _ => failure

def readSection (c : Counts) (code : ℕ) : ReadM Section := do
  let s ← readItems r c code
  errorUnless (s.ok c)
  return s

end Readers

/-- The last known section behind one. -/
def lastKnown (last : Option ℕ) (code : ℕ) : Option ℕ := if code = 0 then last else some code

/-- Is a section in order? -/
def inOrder (last : Option ℕ) (code : ℕ) : Bool :=
  last.all fun last => code = 0 || last < code

/-- The loop of `ReadSections`; every section takes at least two bytes, which bounds the
number of rounds. -/
def readSections (data : List Byte) : ℕ → Option ℕ → Counts → ReadM (List Section)
  | 0, _, _ => failure
  | rounds + 1, last, c => do
      let offset ← get
      if offset < data.length then
        let r : BinaryReader := ⟨data, data.length⟩
        let code ← r.readU32
        let size ← r.readU32
        let start ← get
        errorUnless (start + size.toNat ≤ data.length)
        errorUnless (inOrder last code.toNat)
        let s ← readSection ⟨data, start + size.toNat⟩ c code.toNat
        let stop ← get
        errorUnless (stop = start + size.toNat)
        let sections ← readSections data rounds (lastKnown last code.toNat) (c.add s)
        return s :: sections
      else return []

/-- `ReadModule`. -/
def readModule (data : List Byte) : Option (List Section) :=
  if data.take 8 = Header then
    ((readSections data data.length none .zero).run 8).map Prod.fst
  else none

/-! ## What can be read -/

/-- The types of a signature are value types. -/
structure ValidSig (Sig : WasmSignature) : Prop where
  params : ∀ ParamType ∈ Sig.ParamTypes, Concrete ParamType
  result : Sig.ReturnType = 0x40 ∨ Concrete Sig.ReturnType

/-- What an import says is valid behind the signatures that have been read. -/
def ImportDesc.Valid (c : Counts) : ImportDesc → Prop
  | .function SigIndex => SigIndex.toNat < c.signatures
  | .table Limits => Limits.okTable = true
  | .memory Limits => Limits.okMemory = true
  | .global Global => Concrete Global.type

structure ValidImport (c : Counts) (Import : WasmImport) : Prop where
  Module : isValidUtf8 Import.Module = true
  Field : isValidUtf8 Import.Field = true
  desc : Import.desc.Valid c

structure ValidExport (c : Counts) (Export : WasmExport) : Prop where
  Name : isValidUtf8 Export.Name = true
  Index : Export.Index.toNat < c.total Export.Kind

/-- The bytes are a function body that names no function and no type behind the last. -/
def ValidBody (numTotalFuncs numSignatures : ℕ) (body : List Byte) : Prop :=
  ∃ b : Body, b.Valid numTotalFuncs numSignatures ∧ body = b.bytes

/-- The items of a section can be read behind those that have been counted. -/
def Section.Valid (c : Counts) : Section → Prop
  | .custom Name _ => isValidUtf8 Name = true ∧ isKnownName Name = false
  | .type Types => ∀ Sig ∈ Types, ValidSig Sig
  | .imports ImportedSymbols => ∀ Import ∈ ImportedSymbols, ValidImport c Import
  | .function sigs => ∀ sigIndex ∈ sigs, sigIndex.toNat < c.signatures
  | .table tables => ∀ Limits ∈ tables, Limits.okTable = true
  | .memory memories => ∀ Limits ∈ memories, Limits.okMemory = true
  | .exports Exports => ∀ Export ∈ Exports, ValidExport c Export
  | .global globals => ∀ Global ∈ globals, Concrete Global.GlobalType.type
  | .code bodies => ∀ body ∈ bodies, ValidBody (c.total .function) c.signatures body
  | _ => True

/-- The sections can be read one after another. -/
def ValidFrom (last : Option ℕ) (c : Counts) : List Section → Prop
  | [] => True
  | s :: sections =>
      inOrder last s.id = true ∧ s.Valid c ∧ s.ok c = true ∧
        ValidFrom (lastKnown last s.id) (c.add s) sections

/-- The last known section and the counts behind some sections. -/
def lastBehind (last : Option ℕ) (sections : List Section) : Option ℕ :=
  sections.foldl (fun last s => lastKnown last s.id) last

def countsBehind (c : Counts) (sections : List Section) : Counts := sections.foldl Counts.add c

end FractalCdt.Linker
