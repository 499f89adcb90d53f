/-
# The symbol table

The files of the command line are read one after another, and each symbol of an
object is entered in one table.  A reference to a name that only an archive
offers loads the member that defines it before the next symbol is looked at, and
so on from there.  The calls that are still to come are kept as a list of tasks,
so that entering one symbol is one step.
-/

import FractalCdt.Linker.Objects
import FractalCdt.Math.IndexMap
import FractalCdt.Math.Exhaust

namespace FractalCdt.Linker

open FractalCdt.Math FractalCdt.Toolchain

/-- A function of an object, or one of `SyntheticFunctions`. -/
inductive FunctionId
  | synthetic (i : ℕ)
  | input (File : FileId) (i : ℕ)
  deriving DecidableEq, Repr

structure SegmentId where
  File : FileId
  i : ℕ
  deriving DecidableEq, Repr

/-- A global of an object, or `WasmSym::StackPointer`. -/
inductive GlobalId
  | stackPointer
  | input (File : FileId) (i : ℕ)
  deriving DecidableEq, Repr

/-- What a defined symbol is; data that the linker defines itself is in no segment. -/
inductive Definition
  | function (Function : FunctionId)
  | data (Segment : Option SegmentId) (Offset Size : BitVec 32)
  | global (Global : GlobalId) (GlobalType : WasmGlobalType)
  deriving DecidableEq, Repr

/-- The classes of symbols; a lazy one waits for a member of an archive. -/
inductive Content
  | defined (d : Definition)
  | undefined (w : Wanted)
  | lazy (archive member : ℕ)
  deriving DecidableEq, Repr

structure Symbol where
  Flags : Flags
  File : Option FileId
  IsUsedInRegularObj : Bool
  content : Content
  deriving DecidableEq, Repr

namespace Symbol

variable (S : Symbol)

def isDefined : Bool :=
  match S.content with
  | .defined _ => true
  | _ => false

def isUndefined : Bool :=
  match S.content with
  | .undefined _ => true
  | _ => false

def isLazy : Bool :=
  match S.content with
  | .lazy .. => true
  | _ => false

def isFunctionSymbol : Bool :=
  match S.content with
  | .defined (.function _) | .undefined (.function _) => true
  | _ => false

def isDataSymbol : Bool :=
  match S.content with
  | .defined (.data ..) | .undefined .data => true
  | _ => false

def getGlobalType : Option WasmGlobalType :=
  match S.content with
  | .defined (.global _ GlobalType) | .undefined (.global GlobalType) => some GlobalType
  | _ => none

def isWeak : Bool := S.Flags.binding = .bindingWeak

end Symbol

/-- What ends the link; a different signature of a function is only warned of. -/
inductive LinkError
  | duplicateSymbol (Name : String)
  | symbolTypeMismatch (Name : String)
  | globalTypeMismatch (Name : String)
  | undefinedSymbol (Name : String)
  deriving DecidableEq, Repr

def checkFunctionType (Name : String) (Existing : Symbol) : List LinkError :=
  if Existing.isFunctionSymbol then [] else [.symbolTypeMismatch Name]

def checkDataType (Name : String) (Existing : Symbol) : List LinkError :=
  if Existing.isDataSymbol then [] else [.symbolTypeMismatch Name]

def checkGlobalType (Name : String) (NewType : WasmGlobalType) (Existing : Symbol) :
    List LinkError :=
  match Existing.getGlobalType with
  | none => [.symbolTypeMismatch Name]
  | some OldType => if NewType = OldType then [] else [.globalTypeMismatch Name]

/-- Whether a second definition takes the place of what is there. -/
def shouldReplace (Name : String) (Existing : Symbol) (NewFlags : Flags) :
    Bool × List LinkError :=
  if ¬ Existing.isDefined then (true, [])
  else if NewFlags.binding = .bindingWeak then (false, [])
  else if Existing.isWeak then (true, [])
  else (true, [.duplicateSymbol Name])

/-! ## Files that are being read -/

/-- An object with its `UsedComdats`. -/
structure ParsedFile where
  id : FileId
  obj : ObjFile
  UsedComdats : List Bool

namespace ParsedFile

variable (F : ParsedFile)

/-- An earlier object has a group of the same name. -/
def isExcludedByComdat (Chunk : InputChunk) : Bool :=
  match Chunk.Comdat with
  | none => false
  | some C => F.UsedComdats[C]? != some true

/-- `ObjFile::createDefined` up to the table. -/
def createDefined (sym : WasmSymbol) : Option Definition :=
  match sym.Info with
  | .undefined _ => none
  | .defined (.function Index) => do
      let Func ← F.obj.Functions[Index]?
      if F.isExcludedByComdat Func.toInputChunk then none
      else some (.function (.input F.id Index))
  | .defined (.data Segment Offset Size) => do
      let Seg ← F.obj.Segments[Segment]?
      if F.isExcludedByComdat Seg.toInputChunk then none
      else some (.data (some ⟨F.id, Segment⟩) Offset Size)
  | .defined (.global Index GlobalType) => some (.global (.input F.id Index) GlobalType)

/-- What `ObjFile::createUndefined` asks for, also for a symbol that is excluded. -/
def wanted (sym : WasmSymbol) : Wanted :=
  match sym.Info with
  | .undefined w => w
  | .defined (.function Index) => .function ((F.obj.Functions[Index]?).map (·.Signature))
  | .defined (.data ..) => .data
  | .defined (.global _ GlobalType) => .global GlobalType

end ParsedFile

/-- `Symtab->addComdat` of one name after another. -/
def addComdats : List String → List String → List String × List Bool
  | Comdats, [] => (Comdats, [])
  | Comdats, Name :: Names =>
      let (Comdats', used) :=
        addComdats (if Name ∈ Comdats then Comdats else Comdats ++ [Name]) Names
      (Comdats', decide (Name ∉ Comdats) :: used)

/-! ## The table -/

/-- A function without an object. -/
structure SyntheticFunction where
  Name : String
  Signature : WasmSignature
  Body : List Byte
  TableIndex : Option ℕ
  deriving DecidableEq, Repr

structure SymbolTable where
  /-- `SymMap` and `SymVector`. -/
  Symbols : IndexMap String Symbol
  Comdats : List String
  ObjectFiles : List ParsedFile
  SyntheticFunctions : List SyntheticFunction
  allowed : List String
  /-- `ArchiveFile::Seen`, of all archives. -/
  Seen : List (ℕ × ℕ)
  errors : List LinkError

/-- A call that is still to come. -/
inductive Task
  /-- `Symtab->addFile` of the file at a place of the command line. -/
  | file (i : ℕ)
  /-- `Symtab->addLazy` of an entry of the index of an archive. -/
  | lazy (archive : ℕ) (Name : String) (member : ℕ)
  /-- `createDefined` or `createUndefined` of a symbol of an object. -/
  | symbol (F : ParsedFile) (sym : WasmSymbol)
  /-- `ObjectFiles.push_back`. -/
  | parsed (F : ParsedFile)

namespace SymbolTable

variable (t : SymbolTable)

def find (Name : String) : Option Symbol := t.Symbols.find Name

def replaceSymbol (Name : String) (S : Symbol) : SymbolTable :=
  { t with Symbols := t.Symbols.set Name S }

def error (errors : List LinkError) : SymbolTable := { t with errors := t.errors ++ errors }

/-- `addDefinedFunction`, `addDefinedData` and `addDefinedGlobal`. -/
def addDefined (Name : String) (Flags : Flags) (File : Option FileId) (d : Definition)
    (check : Symbol → List LinkError) : SymbolTable :=
  let S' : Symbol := ⟨Flags, File, true, .defined d⟩
  match t.find Name with
  | none => t.replaceSymbol Name S'
  | some S =>
      match S.content with
      | .lazy .. => t.replaceSymbol Name S'
      | _ =>
          let (replace, errors) := shouldReplace Name S Flags
          (t.replaceSymbol Name
            (if replace then S' else { S with IsUsedInRegularObj := true })).error
              (check S ++ errors)

/-- The type of the entry is not checked. -/
def addDefinedFunction (Entry Name : String) (Flags : Flags) (File : Option FileId)
    (Function : FunctionId) : SymbolTable :=
  t.addDefined Name Flags File (.function Function) fun S =>
    if Name = Entry then [] else checkFunctionType Name S

def addDefinedData (Name : String) (Flags : Flags) (File : Option FileId)
    (Segment : Option SegmentId) (Address Size : BitVec 32) : SymbolTable :=
  t.addDefined Name Flags File (.data Segment Address Size) (checkDataType Name)

def addDefinedGlobal (Name : String) (Flags : Flags) (File : Option FileId) (Global : GlobalId)
    (GlobalType : WasmGlobalType) : SymbolTable :=
  t.addDefined Name Flags File (.global Global GlobalType) (checkGlobalType Name GlobalType)

/-- `addUndefinedFunction`, `addUndefinedData` and `addUndefinedGlobal` up to the call of
`fetch`, with the member to be fetched. -/
def addUndefined (Name : String) (Flags : Flags) (File : Option FileId) (w : Wanted) (used : Bool)
    (check : Symbol → List LinkError) : SymbolTable × Option (ℕ × ℕ) :=
  match t.find Name with
  | none => (t.replaceSymbol Name ⟨Flags, File, used, .undefined w⟩, none)
  | some S =>
      let t' := t.replaceSymbol Name { S with IsUsedInRegularObj := S.IsUsedInRegularObj || used }
      match S.content with
      | .lazy archive member => (t', some (archive, member))
      | .defined _ => (t'.error (check S), none)
      | .undefined _ => (t', none)

def addUndefinedFunction (Name : String) (Flags : Flags) (File : Option FileId)
    (Sig : Option WasmSignature) : SymbolTable × Option (ℕ × ℕ) :=
  t.addUndefined Name Flags File (.function Sig) true (checkFunctionType Name)

/-- Unlike the other two it does not set `IsUsedInRegularObj`. -/
def addUndefinedData (Name : String) (Flags : Flags) (File : Option FileId) :
    SymbolTable × Option (ℕ × ℕ) :=
  t.addUndefined Name Flags File .data false (checkDataType Name)

def addUndefinedGlobal (Name : String) (Flags : Flags) (File : Option FileId)
    (GlobalType : WasmGlobalType) : SymbolTable × Option (ℕ × ℕ) :=
  t.addUndefined Name Flags File (.global GlobalType) true (checkGlobalType Name GlobalType)

/-- An object as it is when its groups have been entered. -/
def opened (id : FileId) (obj : ObjFile) : ParsedFile :=
  ⟨id, obj, (addComdats t.Comdats obj.Comdats).2⟩

/-- `ObjFile::parse` up to the symbols. -/
def parse (id : FileId) (obj : ObjFile) : SymbolTable × List Task :=
  ({ t with Comdats := (addComdats t.Comdats obj.Comdats).1 },
    obj.symbols.map (.symbol (t.opened id obj)) ++ [.parsed (t.opened id obj)])

variable (cmd : Command)

/-- `ArchiveFile::addMember`. -/
def addMember (archive member : ℕ) : SymbolTable × List Task :=
  if (archive, member) ∈ t.Seen then (t, [])
  else
    let t' := { t with Seen := (archive, member) :: t.Seen }
    match cmd.object? (.member archive member) with
    | none => (t', [])
    | some obj => t'.parse (.member archive member) obj

/-- `LazySymbol::fetch`, if there is a member to be fetched. -/
def fetch : Option (ℕ × ℕ) → SymbolTable × List Task
  | none => (t, [])
  | some (archive, member) => t.addMember cmd archive member

def addLazy (archive : ℕ) (Name : String) (member : ℕ) : SymbolTable × List Task :=
  match t.find Name with
  | none =>
      (t.replaceSymbol Name ⟨⟨.bindingGlobal, false⟩, none, false, .lazy archive member⟩, [])
  | some S => if S.isUndefined then t.addMember cmd archive member else (t, [])

/-- The part of `ObjFile::createDefined` that enters a definition. -/
def enterDefined (F : ParsedFile) (sym : WasmSymbol) : Definition → SymbolTable
  | .function Function => t.addDefinedFunction cmd.Entry sym.Name sym.Flags (some F.id) Function
  | .data Segment Offset Size => t.addDefinedData sym.Name sym.Flags (some F.id) Segment Offset Size
  | .global Global GlobalType =>
      t.addDefinedGlobal sym.Name sym.Flags (some F.id) Global GlobalType

/-- `ObjFile::createUndefined`. -/
def createUndefined (F : ParsedFile) (sym : WasmSymbol) : SymbolTable × Option (ℕ × ℕ) :=
  match F.wanted sym with
  | .function FunctionType => t.addUndefinedFunction sym.Name sym.Flags (some F.id) FunctionType
  | .data => t.addUndefinedData sym.Name sym.Flags (some F.id)
  | .global GlobalType => t.addUndefinedGlobal sym.Name sym.Flags (some F.id) GlobalType

/-- `addAllowedUndefFunction`, for a name of the section `.imports`. -/
def addAllowed (F : ParsedFile) (sym : WasmSymbol) : SymbolTable :=
  if sym.Name ∈ F.obj.allowed_imports then { t with allowed := sym.Name :: t.allowed } else t

/-- The body of the loop over the symbols of an object. -/
def addSymbol (F : ParsedFile) (sym : WasmSymbol) : SymbolTable × List Task :=
  let t := t.addAllowed F sym
  match F.createDefined sym with
  | some d => if sym.isBindingLocal then (t, []) else (t.enterDefined cmd F sym d, [])
  | none =>
      let (t, member) := t.createUndefined F sym
      t.fetch cmd member

/-- `Symtab->addFile`, for a file of the command line. -/
def addFile (i : ℕ) : SymbolTable × List Task :=
  match cmd.Files[i]? with
  | none => (t, [])
  | some (.object obj) => t.parse (.object i) obj
  | some (.archive a) => (t, a.index.map fun e => .lazy i e.1 e.2)

/-- One call, and the calls it makes in turn. -/
def perform : Task → SymbolTable × List Task
  | .file i => t.addFile cmd i
  | .lazy archive Name member => t.addLazy cmd archive Name member
  | .symbol F sym => t.addSymbol cmd F sym
  | .parsed F => ({ t with ObjectFiles := t.ObjectFiles ++ [F] }, [])

end SymbolTable

/-! ## Reading all files -/

/-- The table, the calls that are still to come, and those that are done. -/
structure Loading where
  table : SymbolTable
  agenda : List Task
  done : List Task

namespace Loading

variable (cmd : Command)

/-- The next call; what it calls comes before what is left. -/
def next (s : Loading) : Option Loading :=
  match s.agenda with
  | [] => none
  | task :: rest =>
      some ⟨(s.table.perform cmd task).1, (s.table.perform cmd task).2 ++ rest, s.done ++ [task]⟩

end Loading

namespace Command

variable (cmd : Command)

def hidden : Flags := ⟨.bindingGlobal, true⟩

def visible : Flags := ⟨.bindingGlobal, false⟩

/-- `addSyntheticFunction`; the two have an empty body until it is set. -/
def syntheticFunctions : List SyntheticFunction :=
  [⟨"__wasm_call_ctors", ⟨[], 0x40⟩, [], none⟩, ⟨cmd.Entry, ⟨[0x7E], 0x40⟩, [], none⟩]

/-- The symbols the linker defines before any others. -/
def syntheticSymbols : List (String × Flags × Definition) :=
  [("__wasm_call_ctors", hidden, .function (.synthetic 0)),
    (cmd.Entry, ⟨.bindingWeak, false⟩, .function (.synthetic 1)),
    ("__stack_pointer", hidden, .global .stackPointer ⟨0x7F, true⟩),
    ("__heap_base", visible, .data none 0 0),
    ("__dso_handle", hidden, .data none 0 0),
    ("__data_end", visible, .data none 0 0)]

/-- The table with them in it. -/
def synthetic : SymbolTable :=
  { Symbols := cmd.syntheticSymbols.foldl
      (fun Symbols (Name, Flags, d) => Symbols.set Name ⟨Flags, none, false, .defined d⟩) .empty
    Comdats := []
    ObjectFiles := []
    SyntheticFunctions := cmd.syntheticFunctions
    allowed := []
    Seen := []
    errors := [] }

/-- The table when the entry and the names of `--undefined` have been asked for. -/
def startTable : SymbolTable :=
  (cmd.Entry :: cmd.undefined).foldl
    (fun t Name => (t.addUndefinedFunction Name visible none none).1) cmd.synthetic

/-- Nothing is read yet. -/
def start : Loading := ⟨cmd.startTable, (List.range cmd.Files.length).map .file, []⟩

/-- The members of all archives. -/
def memberIds : List (ℕ × ℕ) :=
  (List.range cmd.Files.length).flatMap fun i =>
    match cmd.archive? i with
    | none => []
    | some a => (List.range a.members.length).map fun m => (i, m)

/-- The calls that reading an object takes. -/
def objectCalls (obj : ObjFile) : ℕ := obj.symbols.length + 1

/-- The calls that a call takes, without those for members it loads. -/
def weight : Task → ℕ
  | .file i =>
      match cmd.Files[i]? with
      | none => 1
      | some (.object obj) => objectCalls obj + 1
      | some (.archive a) => a.index.length + 1
  | _ => 1

/-- The calls that loading a member takes, once. -/
def memberWeight (id : ℕ × ℕ) : ℕ :=
  match cmd.object? (.member id.1 id.2) with
  | none => 0
  | some obj => objectCalls obj

/-- As many calls as all files together can take. -/
def enough : ℕ :=
  (cmd.start.agenda.map cmd.weight).sum + (cmd.memberIds.map cmd.memberWeight).sum

/-- What reading all files leaves. -/
def load : Loading := exhaust (·.next cmd) cmd.enough cmd.start

/-! ## A small link -/

/-- `apply` of the main object calls `f`, which the object does not define. -/
def sampleApply : InputFunction where
  data := [8, 0, 0x10, 0x80, 0x80, 0x80, 0x80, 0x00, 0x0b]
  InputSectionOffset := 1
  Comdat := none
  Relocations := [⟨.FUNCTION_INDEX_LEB, 4, 1, 0⟩]
  Signature := ⟨[0x7e], 0x40⟩
  CodeOffset := 1
  sized := ⟨show BitVec.toNat (8 : Byte) < 128 by decide, rfl⟩

/-- An empty function; that of the archive is in a comdat group. -/
def sampleEmpty (Comdat : Option ℕ) : InputFunction where
  data := [2, 0, 0x0b]
  InputSectionOffset := 1
  Comdat := Comdat
  Relocations := []
  Signature := ⟨[], 0x40⟩
  CodeOffset := 1
  sized := ⟨show BitVec.toNat (2 : Byte) < 128 by decide, rfl⟩

/-- A word that holds the address of `f`. -/
def sampleWord : InputSegment where
  data := [0, 0, 0, 0]
  InputSectionOffset := 5
  Comdat := none
  Relocations := [⟨.TABLE_INDEX_I32, 5, 1, 0⟩]
  Name := ".data.word"
  Alignment := 4
  power := ⟨2, rfl⟩

def sampleMain : ObjFile where
  types := [⟨[0x7e], 0x40⟩, ⟨[], 0x40⟩]
  Comdats := []
  Functions := [sampleApply]
  Segments := [sampleWord]
  Globals := []
  symbols := [⟨"apply", visible, .defined (.function 0)⟩,
    ⟨"f", visible, .undefined (.function (some ⟨[], 0x40⟩))⟩,
    ⟨"word", visible, .defined (.data 0 0 4)⟩,
    ⟨"host", visible, .undefined (.function (some ⟨[], 0x40⟩))⟩]
  InitFunctions := [⟨1, 3⟩]
  allowed_imports := ["host"]
  elements := by decide
  relocs := by decide
  inits := by decide
  names := by decide
  comdats := by decide
  groups := by decide

def sampleMember : ObjFile where
  types := [⟨[], 0x40⟩]
  Comdats := ["f"]
  Functions := [sampleEmpty (some 0)]
  Segments := []
  Globals := []
  symbols := [⟨"f", visible, .defined (.function 0)⟩]
  InitFunctions := []
  allowed_imports := []
  elements := by decide
  relocs := by decide
  inits := by decide
  names := by decide
  comdats := by decide
  groups := by decide

/-- Some bytes that are aligned further than they are long. -/
def sampleBytes : InputSegment where
  data := [1, 2, 3]
  InputSectionOffset := 5
  Comdat := none
  Relocations := []
  Name := ".data.bytes"
  Alignment := 8
  power := ⟨3, rfl⟩

/-- A copy of the group of the archive, and a weak `word`. -/
def sampleCopy : ObjFile where
  types := [⟨[], 0x40⟩]
  Comdats := ["f"]
  Functions := [sampleEmpty (some 0)]
  Segments := [sampleBytes]
  Globals := []
  symbols := [⟨"f", visible, .defined (.function 0)⟩,
    ⟨"bytes", visible, .defined (.data 0 0 3)⟩,
    ⟨"word", ⟨.bindingWeak, false⟩, .defined (.data 0 0 3)⟩]
  InitFunctions := []
  allowed_imports := []
  elements := by decide
  relocs := by decide
  inits := by decide
  names := by decide
  comdats := by decide
  groups := by decide

/-- An object, an archive with what it asks for, and an object that competes with both. -/
def sample : Command where
  Files := [.object sampleMain, .archive ⟨[sampleMember], [("f", 0)], by decide⟩,
    .object sampleCopy]
  Entry := "apply"
  undefined := []
  AllowUndefinedSymbols := []

end Command

end FractalCdt.Linker
