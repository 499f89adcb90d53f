/-
# What is kept

The output holds the functions and segments that the entry, the constructors and the
visible symbols lead to: a relocation leads from the chunk it is in to the symbol it
refers to.  A reference to the address of a function with a body that traps leads
nowhere, since that address is null.
-/

import FractalCdt.Linker.Undefines
import FractalCdt.Math.Marking

namespace FractalCdt.Linker

open FractalCdt.Math

/-- The symbol that an object holds at an index: one of the table, or one of its own. -/
inductive SymbolRef
  | table (Name : String)
  | own (d : Definition)
  deriving DecidableEq, Repr

/-- What has a bit that says whether it is live: a chunk, a global, or a symbol that is
neither. -/
inductive LiveKey
  | function (Function : FunctionId)
  | segment (Segment : SegmentId)
  | global (Global : GlobalId)
  | symbol (Sym : SymbolRef)
  deriving DecidableEq, Repr

/-- `ObjFile::getSymbol`. -/
def ParsedFile.getSymbol (F : ParsedFile) (Index : ℕ) : Option SymbolRef :=
  (F.obj.symbols[Index]?).map fun sym =>
    match F.createDefined sym with
    | some d => if sym.isBindingLocal then .own d else .table sym.Name
    | none => .table sym.Name

namespace SymbolTable

variable (t : SymbolTable)

/-- The object of a file that has been read. -/
def file? (id : FileId) : Option ParsedFile := t.ObjectFiles.find? (·.id = id)

def content? : SymbolRef → Option Content
  | .table Name => (t.find Name).map (·.content)
  | .own d => some (.defined d)

/-- Where `isLive` and `markLive` of a symbol find the bit. -/
def keyOf (Sym : SymbolRef) : LiveKey :=
  match t.content? Sym with
  | some (.defined (.function Function)) => .function Function
  | some (.defined (.data (some Segment) _ _)) => .segment Segment
  | some (.defined (.global Global _)) => .global Global
  | _ => .symbol Sym

/-- `hasTableIndex() && getTableIndex() == 0`, before the table is laid out. -/
def hasNullTableIndex (Sym : SymbolRef) : Bool :=
  match t.content? Sym with
  | some (.defined (.function (.synthetic i))) =>
      (t.SyntheticFunctions[i]?).any (·.TableIndex = some 0)
  | _ => false

/-- The object and the chunk with a bit. -/
def chunk? : LiveKey → Option (ParsedFile × InputChunk)
  | .function (.input File i) => do
      let F ← t.file? File
      let Func ← F.obj.Functions[i]?
      some (F, Func.toInputChunk)
  | .segment ⟨File, i⟩ => do
      let F ← t.file? File
      let Seg ← F.obj.Segments[i]?
      some (F, Seg.toInputChunk)
  | _ => none

/-- What is enqueued for a relocation of a chunk of an object. -/
def follow (F : ParsedFile) (Reloc : WasmRelocation) : Option LiveKey :=
  if Reloc.type = .TYPE_INDEX_LEB then none
  else
    (F.getSymbol Reloc.Index).bind fun Sym =>
      if Reloc.type.isTable && t.hasNullTableIndex Sym then none else some (t.keyOf Sym)

/-- What is enqueued when a chunk is taken from the queue. -/
def successors (key : LiveKey) : List LiveKey :=
  match t.chunk? key with
  | none => []
  | some (F, C) => C.Relocations.filterMap (t.follow F)

/-- Only chunks are put in the queue. -/
def isChunk : LiveKey → Bool
  | .function _ | .segment _ => true
  | _ => false

variable (Entry : String)

/-- The roots, in the order in which they are enqueued. -/
def roots : List LiveKey :=
  [t.keyOf (.table Entry), t.keyOf (.table "__wasm_call_ctors")] ++
  (t.Symbols.keys.filter fun n => (t.find n).all (!·.Flags.hidden)).map
    (fun n => t.keyOf (.table n)) ++
  t.ObjectFiles.flatMap fun Obj =>
    Obj.obj.InitFunctions.filterMap fun F => (Obj.getSymbol F.Symbol).map t.keyOf

/-- All that can be enqueued. -/
def enqueued : List LiveKey :=
  t.roots Entry ++ t.ObjectFiles.flatMap fun F =>
    F.obj.chunks.flatMap fun C => C.Relocations.filterMap (t.follow F)

/-- What `markLive` leaves marked; `__stack_pointer` is live from the start. -/
def live : List LiveKey :=
  (Marking.mark isChunk t.successors (t.enqueued Entry).length [.global .stackPointer]
    (t.roots Entry)).marked

/-! ## What is live is what is reached -/

/-- A relocation in the chunk leads to the other one. -/
def Refers (a b : LiveKey) : Prop :=
  ∃ F C, t.chunk? a = some (F, C) ∧ ∃ Reloc ∈ C.Relocations, t.follow F Reloc = some b

variable {t} {Entry}

theorem mem_successors_iff {a b : LiveKey} : b ∈ t.successors a ↔ t.Refers a b := by
  unfold successors Refers
  cases t.chunk? a with
  | none => simp
  | some p =>
      obtain ⟨F, C⟩ := p
      rw [List.mem_filterMap]
      constructor
      · exact fun h => ⟨F, C, rfl, h⟩
      · rintro ⟨F', C', heq, h⟩
        cases heq
        exact h

theorem file?_eq_some {id : FileId} {F : ParsedFile} (h : t.file? id = some F) :
    F ∈ t.ObjectFiles ∧ F.id = id :=
  ⟨List.mem_of_find?_eq_some h,
    of_decide_eq_true (List.find?_some (p := fun F : ParsedFile => decide (F.id = id)) h)⟩

/-- The chunk of a function of an object. -/
theorem chunk?_function {File : FileId} {i : ℕ} {F : ParsedFile} {C : InputChunk} :
    t.chunk? (.function (.input File i)) = some (F, C) ↔
      t.file? File = some F ∧ ∃ Func, F.obj.Functions[i]? = some Func ∧ Func.toInputChunk = C := by
  simp only [chunk?, Option.bind_eq_bind, Option.bind_eq_some_iff, Option.some.injEq, Prod.mk.injEq]
  constructor
  · rintro ⟨G, hG, Func, hFunc, rfl, rfl⟩
    exact ⟨hG, Func, hFunc, rfl⟩
  · rintro ⟨hF, Func, hFunc, rfl⟩
    exact ⟨F, hF, Func, hFunc, rfl, rfl⟩

theorem chunk?_segment {File : FileId} {i : ℕ} {F : ParsedFile} {C : InputChunk} :
    t.chunk? (.segment ⟨File, i⟩) = some (F, C) ↔
      t.file? File = some F ∧ ∃ Seg, F.obj.Segments[i]? = some Seg ∧ Seg.toInputChunk = C := by
  simp only [chunk?, Option.bind_eq_bind, Option.bind_eq_some_iff, Option.some.injEq, Prod.mk.injEq]
  constructor
  · rintro ⟨G, hG, Seg, hSeg, rfl, rfl⟩
    exact ⟨hG, Seg, hSeg, rfl⟩
  · rintro ⟨hF, Seg, hSeg, rfl⟩
    exact ⟨F, hF, Seg, hSeg, rfl, rfl⟩

theorem mem_of_chunk? {key : LiveKey} {F : ParsedFile} {C : InputChunk}
    (h : t.chunk? key = some (F, C)) : F ∈ t.ObjectFiles ∧ C ∈ F.obj.chunks := by
  cases key with
  | global | symbol => cases h
  | function Function =>
      cases Function with
      | synthetic => cases h
      | input File i =>
          obtain ⟨hF, Func, hFunc, rfl⟩ := chunk?_function.mp h
          exact ⟨(file?_eq_some hF).1,
            List.mem_append_left _ (List.mem_map_of_mem (List.mem_of_getElem? hFunc))⟩
  | segment Segment =>
      obtain ⟨File, i⟩ := Segment
      obtain ⟨hF, Seg, hSeg, rfl⟩ := chunk?_segment.mp h
      exact ⟨(file?_eq_some hF).1,
        List.mem_append_right _ (List.mem_map_of_mem (List.mem_of_getElem? hSeg))⟩

theorem mem_live_iff {key : LiveKey} : key ∈ t.live Entry ↔
    key = .global .stackPointer ∨
      ∃ root ∈ t.roots Entry, Relation.ReflTransGen t.Refers root key := by
  have hleads : Marking.Leads t.successors = t.Refers := by
    funext a b
    exact propext mem_successors_iff
  unfold live
  rw [@Marking.mem_mark_iff _ _ _ _ (t.enqueued Entry), hleads, List.mem_singleton]
  case hinitial =>
    intro k hk
    rw [List.mem_singleton.mp hk]
    rfl
  case hpushes =>
    intro k hk
    cases k with
    | function | segment => cases hk
    | global | symbol => rfl
  case hroots => exact List.subset_append_left ..
  case hsucc =>
    intro a b hb
    obtain ⟨F, C, hchunk, Reloc, hReloc, hfollow⟩ := mem_successors_iff.mp hb
    obtain ⟨hF, hC⟩ := mem_of_chunk? hchunk
    refine List.mem_append_right _ (List.mem_flatMap.mpr ⟨F, hF, List.mem_flatMap.mpr ⟨C, hC, ?_⟩⟩)
    exact List.mem_filterMap.mpr ⟨Reloc, hReloc, hfollow⟩
  case hn => exact le_rfl

end SymbolTable

end FractalCdt.Linker
