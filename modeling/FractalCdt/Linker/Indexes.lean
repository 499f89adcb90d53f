/-
# The index spaces of the output

Functions and globals are numbered with the imports first and then what is live in
the objects.  A function gets into the table when a live relocation takes its
address, and a signature into the list of types when it is first used.  Whatever a
live relocation refers to has an index.
-/

import FractalCdt.Linker.Linked
import FractalCdt.Math.Numbering

namespace FractalCdt.Linker

open FractalCdt.Math

/-- What has a function index: a function with a body, or an import. -/
inductive FunctionRef
  | defined (Function : FunctionId)
  | imported (Name : String)
  deriving DecidableEq, Repr

inductive GlobalRef
  | defined (Global : GlobalId)
  | imported (Name : String)
  deriving DecidableEq, Repr

/-- The chunks of an object, with where their bits are. -/
def ParsedFile.liveChunks (F : ParsedFile) : List (LiveKey × InputChunk) :=
  (F.obj.Functions.zipIdx.map fun (Func, i) => (.function (.input F.id i), Func.toInputChunk)) ++
    F.obj.Segments.zipIdx.map fun (Seg, i) => (.segment ⟨F.id, i⟩, Seg.toInputChunk)

namespace SymbolTable

variable (t : SymbolTable)

/-- The function that a symbol is, `none` where `cast<FunctionSymbol>` fails. -/
def functionRef? (Sym : SymbolRef) : Option FunctionRef :=
  match Sym, t.content? Sym with
  | _, some (.defined (.function Function)) => some (.defined Function)
  | .table Name, some (.undefined (.function _)) => some (.imported Name)
  | _, _ => none

def globalRef? (Sym : SymbolRef) : Option GlobalRef :=
  match Sym, t.content? Sym with
  | _, some (.defined (.global Global _)) => some (.defined Global)
  | .table Name, some (.undefined (.global _)) => some (.imported Name)
  | _, _ => none

def signature? : FunctionId → Option WasmSignature
  | .synthetic i => (t.SyntheticFunctions[i]?).map (·.Signature)
  | .input File i => ((t.file? File).bind (·.obj.Functions[i]?)).map (·.Signature)

variable (Entry : String)

def isLive (key : LiveKey) : Bool := key ∈ t.live Entry

/-- `calculateImports`. -/
def ImportedSymbols : List String :=
  t.Symbols.keys.filter fun n => (t.find n).any fun Sym =>
    Sym.isUndefined && !Sym.isDataSymbol && !Sym.isWeak &&
      t.isLive Entry (t.keyOf (.table n)) && Sym.IsUsedInRegularObj

def importedFunctions : List String :=
  (t.ImportedSymbols Entry).filter fun n => (t.find n).any (·.isFunctionSymbol)

def importedGlobals : List String :=
  (t.ImportedSymbols Entry).filter fun n => !(t.find n).any (·.isFunctionSymbol)

/-! ## Functions -/

def InputFunctions : List FunctionId :=
  t.functionIds.filter fun f => t.isLive Entry (.function f)

/-- The function index space; `setFunctionIndex` counts from `NumImportedFunctions` on. -/
def functions : List FunctionRef :=
  (t.importedFunctions Entry).map .imported ++ (t.InputFunctions Entry).map .defined

/-- `getFunctionIndex`. -/
def getFunctionIndex (Sym : SymbolRef) : Option ℕ :=
  (t.functionRef? Sym).bind fun r => (t.functions Entry).idxOf? r

/-! ## The table -/

/-- The relocations of live chunks, in the order in which `HandleRelocs` sees them. -/
def liveRelocs : List (ParsedFile × WasmRelocation) :=
  t.ObjectFiles.flatMap fun File =>
    (File.liveChunks.filter fun c => t.isLive Entry c.1).flatMap fun c =>
      c.2.Relocations.map (File, ·)

/-- What `HandleRelocs` gives an index in the table for a relocation. -/
def indirect? (File : ParsedFile) (Reloc : WasmRelocation) : Option FunctionRef :=
  if Reloc.type.isTable then
    (File.getSymbol Reloc.Index).bind fun Sym =>
      if t.hasNullTableIndex Sym || (t.getFunctionIndex Entry Sym).isNone then none
      else t.functionRef? Sym
  else none

/-- `IndirectFunctions`. -/
def IndirectFunctions : Numbering FunctionRef :=
  Numbering.empty.internAll
    ((t.liveRelocs Entry).filterMap fun (File, Reloc) => t.indirect? Entry File Reloc)

def kInitialTableOffset : ℕ := 1

/-- `getTableIndex`. -/
def getTableIndex (Sym : SymbolRef) : Option ℕ :=
  if t.hasNullTableIndex Sym then some 0
  else ((t.functionRef? Sym).bind (t.IndirectFunctions Entry).number?).map (kInitialTableOffset + ·)

/-- The function indices that `createElemSection` writes. -/
def elements : List (Option ℕ) :=
  (t.IndirectFunctions Entry).keys.map fun r => (t.functions Entry).idxOf? r

/-! ## Globals -/

def InputGlobals : List GlobalId := t.globalIds.filter fun g => t.isLive Entry (.global g)

/-- The global index space. -/
def globals : List GlobalRef :=
  (t.importedGlobals Entry).map .imported ++ (t.InputGlobals Entry).map .defined

/-- `getGlobalIndex`. -/
def getGlobalIndex (Sym : SymbolRef) : Option ℕ :=
  (t.globalRef? Sym).bind fun r => (t.globals Entry).idxOf? r

/-! ## Types -/

/-- The signatures in the order in which they are registered: for the relocations, for
the imports and for the functions. -/
def registered : List WasmSignature :=
  ((t.liveRelocs Entry).filterMap fun (File, Reloc) =>
      if Reloc.type = .TYPE_INDEX_LEB then File.obj.types[Reloc.Index]? else none) ++
    ((t.importedFunctions Entry).filterMap fun n => (t.find n).bind fun Sym =>
      match Sym.content with
      | .undefined (.function FunctionType) => FunctionType
      | _ => none) ++
    (t.InputFunctions Entry).filterMap t.signature?

def Types : Numbering WasmSignature := Numbering.empty.internAll (t.registered Entry)

/-- `TypeMap`. -/
def TypeMap (File : ParsedFile) (Index : ℕ) : Option ℕ :=
  (File.obj.types[Index]?).bind (t.Types Entry).number?

/-! ## No two things have one index -/

variable {t} {Entry} {Sym : SymbolRef}

theorem nodup_importedFunctions : (t.importedFunctions Entry).Nodup :=
  (t.Symbols.nodup.filter _).filter _

theorem nodup_importedGlobals : (t.importedGlobals Entry).Nodup :=
  (t.Symbols.nodup.filter _).filter _

/-- What each object has of something, under the object's file. -/
theorem nodup_flatMap_files {α : Type} {of : FileId → ℕ → α} {count : ParsedFile → ℕ}
    (hids : (t.ObjectFiles.map (·.id)).Nodup)
    (hof : ∀ id id' i i', of id i = of id' i' → id = id' ∧ i = i') :
    (t.ObjectFiles.flatMap fun File => (List.range (count File)).map (of File.id)).Nodup := by
  rw [List.nodup_flatMap]
  constructor
  · intro File _
    exact List.nodup_range.map fun i i' h => (hof _ _ _ _ h).2
  · rw [List.Nodup, List.pairwise_map] at hids
    refine hids.imp fun hne => ?_
    intro x hx hx'
    obtain ⟨i, -, rfl⟩ := List.mem_map.mp hx
    obtain ⟨i', -, heq⟩ := List.mem_map.mp hx'
    exact hne (hof _ _ _ _ heq).1.symm

/-- Imports and then definitions, each once. -/
theorem nodup_map_append_map {α β γ : Type} {f : α → γ} {g : β → γ} {xs : List α} {ys : List β}
    (hxs : xs.Nodup) (hys : ys.Nodup) (hf : ∀ a a', f a = f a' → a = a')
    (hg : ∀ b b', g b = g b' → b = b') (hfg : ∀ a b, f a ≠ g b) :
    (xs.map f ++ ys.map g).Nodup := by
  refine List.nodup_append.mpr
    ⟨hxs.map fun a a' h => hf a a' h, hys.map fun b b' h => hg b b' h, ?_⟩
  intro c hc c' hc' heq
  obtain ⟨a, -, rfl⟩ := List.mem_map.mp hc
  obtain ⟨b, -, rfl⟩ := List.mem_map.mp hc'
  exact hfg a b heq

theorem nodup_functions (hids : (t.ObjectFiles.map (·.id)).Nodup) : (t.functions Entry).Nodup := by
  have hinput : (t.functionIds).Nodup := by
    refine List.nodup_append.mpr ⟨List.nodup_range.map fun i i' h => ?_,
      nodup_flatMap_files hids fun id id' i i' h => ?_, ?_⟩
    · cases h
      rfl
    · cases h
      exact ⟨rfl, rfl⟩
    · rintro x hx y hy rfl
      obtain ⟨i, -, rfl⟩ := List.mem_map.mp hx
      obtain ⟨File, -, hmem⟩ := List.mem_flatMap.mp hy
      obtain ⟨i', -, heq⟩ := List.mem_map.mp hmem
      cases heq
  exact nodup_map_append_map nodup_importedFunctions (hinput.filter _)
    (fun _ _ => FunctionRef.imported.inj) (fun _ _ => FunctionRef.defined.inj) nofun

theorem nodup_globals (hids : (t.ObjectFiles.map (·.id)).Nodup) : (t.globals Entry).Nodup := by
  have hinput : (t.globalIds).Nodup := by
    refine List.nodup_cons.mpr ⟨fun hmem => ?_, nodup_flatMap_files hids fun id id' i i' h => ?_⟩
    · obtain ⟨File, -, hmem⟩ := List.mem_flatMap.mp hmem
      obtain ⟨i', -, heq⟩ := List.mem_map.mp hmem
      cases heq
    · cases h
      exact ⟨rfl, rfl⟩
  exact nodup_map_append_map nodup_importedGlobals (hinput.filter _)
    (fun _ _ => GlobalRef.imported.inj) (fun _ _ => GlobalRef.defined.inj) nofun

/-- The index of a function is its place. -/
theorem getFunctionIndex_eq_some_iff (hids : (t.ObjectFiles.map (·.id)).Nodup) {i : ℕ} :
    t.getFunctionIndex Entry Sym = some i ↔
      ∃ r, t.functionRef? Sym = some r ∧ (t.functions Entry)[i]? = some r := by
  unfold getFunctionIndex
  rw [Option.bind_eq_some_iff]
  exact exists_congr fun r => and_congr_right fun _ =>
    Numbering.number?_eq_some_iff (N := ⟨_, nodup_functions hids⟩)

theorem getGlobalIndex_eq_some_iff (hids : (t.ObjectFiles.map (·.id)).Nodup) {i : ℕ} :
    t.getGlobalIndex Entry Sym = some i ↔
      ∃ r, t.globalRef? Sym = some r ∧ (t.globals Entry)[i]? = some r := by
  unfold getGlobalIndex
  rw [Option.bind_eq_some_iff]
  exact exists_congr fun r => and_congr_right fun _ =>
    Numbering.number?_eq_some_iff (N := ⟨_, nodup_globals hids⟩)

/-! ## What is live -/

theorem live_of_refers {a b : LiveKey} (ha : a ∈ t.live Entry) (h : t.Refers a b) :
    b ∈ t.live Entry := by
  rw [mem_live_iff] at ha ⊢
  rcases ha with rfl | ⟨root, hroot, hpath⟩
  · obtain ⟨F, C, hchunk, -⟩ := h
    cases hchunk
  · exact .inr ⟨root, hroot, hpath.tail h⟩

theorem chunk?_of_liveChunks {F : ParsedFile} (hF : t.file? F.id = some F)
    {c : LiveKey × InputChunk} (hc : c ∈ F.liveChunks) : t.chunk? c.1 = some (F, c.2) := by
  unfold ParsedFile.liveChunks at hc
  rcases List.mem_append.mp hc with hfunction | hsegment
  · obtain ⟨⟨Func, i⟩, hi, rfl⟩ := List.mem_map.mp hfunction
    exact chunk?_function.mpr ⟨hF, Func, List.mk_mem_zipIdx_iff_getElem?.mp hi, rfl⟩
  · obtain ⟨⟨Seg, i⟩, hi, rfl⟩ := List.mem_map.mp hsegment
    exact chunk?_segment.mpr ⟨hF, Seg, List.mk_mem_zipIdx_iff_getElem?.mp hi, rfl⟩

theorem mem_liveRelocs_iff {F : ParsedFile} {Reloc : WasmRelocation} :
    (F, Reloc) ∈ t.liveRelocs Entry ↔ F ∈ t.ObjectFiles ∧
      ∃ c ∈ F.liveChunks, c.1 ∈ t.live Entry ∧ Reloc ∈ c.2.Relocations := by
  unfold liveRelocs isLive
  simp only [List.mem_flatMap, List.mem_filter, decide_eq_true_eq, List.mem_map, Prod.mk.injEq]
  constructor
  · rintro ⟨G, hG, c, ⟨hc, hlive⟩, Reloc', hReloc, rfl, rfl⟩
    exact ⟨hG, c, hc, hlive, hReloc⟩
  · rintro ⟨hF, c, hc, hlive, hReloc⟩
    exact ⟨F, hF, c, ⟨hc, hlive⟩, Reloc, hReloc, rfl, rfl⟩

/-! ## What a symbol is -/

theorem functionRef?_of_stands (h : t.Stands Sym .function) :
    (∃ Function, t.content? Sym = some (.defined (.function Function)) ∧ Function ∈ t.functionIds ∧
      t.functionRef? Sym = some (.defined Function) ∧ t.keyOf Sym = .function Function) ∨
    ∃ n S FunctionType, Sym = .table n ∧ t.find n = some S ∧
      S.content = .undefined (.function FunctionType) ∧ ¬ S.isWeak ∧ S.IsUsedInRegularObj ∧
      t.functionRef? Sym = some (.imported n) := by
  obtain ⟨c, hc, hkind⟩ := h.content
  cases c with
  | lazy => cases hkind
  | defined d =>
      cases d with
      | data | global => cases hkind
      | function Function =>
          refine .inl ⟨Function, hc, h.valid _ hc, ?_, ?_⟩
          · unfold functionRef?
            rw [hc]
          · unfold keyOf
            rw [hc]
  | undefined w =>
      cases w with
      | data | global => cases hkind
      | function FunctionType =>
          obtain ⟨n, S, rfl, hS, hcontent, hwanted⟩ := h.wanted _ hc
          obtain ⟨hweak, hused⟩ := hwanted nofun
          refine .inr ⟨n, S, FunctionType, rfl, hS, hcontent, hweak, hused, ?_⟩
          unfold functionRef?
          rw [hc]

theorem globalRef?_of_stands (h : t.Stands Sym .global) :
    (∃ Global GlobalType, t.content? Sym = some (.defined (.global Global GlobalType)) ∧
      Global ∈ t.globalIds ∧ t.globalRef? Sym = some (.defined Global) ∧
      t.keyOf Sym = .global Global) ∨
    ∃ n S GlobalType, Sym = .table n ∧ t.find n = some S ∧
      S.content = .undefined (.global GlobalType) ∧ ¬ S.isWeak ∧ S.IsUsedInRegularObj ∧
      t.globalRef? Sym = some (.imported n) := by
  obtain ⟨c, hc, hkind⟩ := h.content
  cases c with
  | lazy => cases hkind
  | defined d =>
      cases d with
      | data | function => cases hkind
      | global Global GlobalType =>
          refine .inl ⟨Global, GlobalType, hc, h.valid _ hc, ?_, ?_⟩
          · unfold globalRef?
            rw [hc]
          · unfold keyOf
            rw [hc]
  | undefined w =>
      cases w with
      | data | function => cases hkind
      | global GlobalType =>
          obtain ⟨n, S, rfl, hS, hcontent, hwanted⟩ := h.wanted _ hc
          obtain ⟨hweak, hused⟩ := hwanted nofun
          refine .inr ⟨n, S, GlobalType, rfl, hS, hcontent, hweak, hused, ?_⟩
          unfold globalRef?
          rw [hc]

/-- What is undefined, live and wanted is imported. -/
theorem mem_ImportedSymbols {n : String} {S : Symbol} (hS : t.find n = some S)
    (hund : S.isUndefined) (hdata : ¬ S.isDataSymbol) (hweak : ¬ S.isWeak)
    (hused : S.IsUsedInRegularObj) (hlive : t.keyOf (.table n) ∈ t.live Entry) :
    n ∈ t.ImportedSymbols Entry := by
  have hkey : n ∈ t.Symbols.keys := by
    rw [t.Symbols.mem_keys]
    exact Option.isSome_iff_exists.mpr ⟨S, hS⟩
  refine List.mem_filter.mpr ⟨hkey, ?_⟩
  rw [hS]
  simp [hund, hdata, hweak, hused, isLive, hlive]

/-- A function that is live has an index. -/
theorem mem_functions_of_stands (h : t.Stands Sym .function) (hlive : t.keyOf Sym ∈ t.live Entry) :
    ∃ r, t.functionRef? Sym = some r ∧ r ∈ t.functions Entry := by
  rcases functionRef?_of_stands h with ⟨Function, -, hmem, href, hkey⟩ |
    ⟨n, S, FunctionType, rfl, hS, hcontent, hweak, hused, href⟩
  · refine ⟨_, href, List.mem_append_right _ (List.mem_map_of_mem (List.mem_filter.mpr ⟨hmem, ?_⟩))⟩
    rw [hkey] at hlive
    exact decide_eq_true hlive
  · refine ⟨_, href, List.mem_append_left _ (List.mem_map_of_mem (List.mem_filter.mpr ⟨?_, ?_⟩))⟩
    · refine mem_ImportedSymbols hS (Symbol.isUndefined_iff.mpr ⟨_, hcontent⟩) ?_ hweak hused hlive
      simp [Symbol.isDataSymbol, hcontent]
    · rw [hS]
      simp [Symbol.isFunctionSymbol, hcontent]

theorem mem_globals_of_stands (h : t.Stands Sym .global) (hlive : t.keyOf Sym ∈ t.live Entry) :
    ∃ r, t.globalRef? Sym = some r ∧ r ∈ t.globals Entry := by
  rcases globalRef?_of_stands h with ⟨Global, GlobalType, -, hmem, href, hkey⟩ |
    ⟨n, S, GlobalType, rfl, hS, hcontent, hweak, hused, href⟩
  · refine ⟨_, href, List.mem_append_right _ (List.mem_map_of_mem (List.mem_filter.mpr ⟨hmem, ?_⟩))⟩
    rw [hkey] at hlive
    exact decide_eq_true hlive
  · refine ⟨_, href, List.mem_append_left _ (List.mem_map_of_mem (List.mem_filter.mpr ⟨?_, ?_⟩))⟩
    · refine mem_ImportedSymbols hS (Symbol.isUndefined_iff.mpr ⟨_, hcontent⟩) ?_ hweak hused hlive
      simp [Symbol.isDataSymbol, hcontent]
    · rw [hS]
      simp [Symbol.isFunctionSymbol, hcontent]

end SymbolTable

/-! ## What a relocation refers to -/

/-- The kind of the symbol that a relocation refers to. -/
def RelocType.kind? : RelocType → Option Kind
  | .FUNCTION_INDEX_LEB | .TABLE_INDEX_SLEB | .TABLE_INDEX_I32 => some .function
  | .MEMORY_ADDR_LEB | .MEMORY_ADDR_SLEB | .MEMORY_ADDR_I32 => some .data
  | .GLOBAL_INDEX_LEB => some .global
  | .TYPE_INDEX_LEB => none

theorem WasmSymbol.kind_eq {sym : WasmSymbol} :
    (sym.isTypeFunction → sym.kind = .function) ∧ (sym.isTypeData → sym.kind = .data) ∧
      (sym.isTypeGlobal → sym.kind = .global) := by
  obtain ⟨Name, flags, Info⟩ := sym
  unfold isTypeFunction isTypeData isTypeGlobal kind
  cases Info with
  | defined e => cases e <;> simp [Element.kind]
  | undefined w => cases w <;> simp [Wanted.kind]

theorem Sections.kind_of_validReloc {o : Sections} {Reloc : WasmRelocation} {k : Kind}
    (h : o.ValidReloc Reloc) (hk : Reloc.type.kind? = some k) :
    ∃ sym, o.symbols[Reloc.Index]? = some sym ∧ sym.kind = k := by
  have hany {p : WasmSymbol → Bool} (hp : ∀ sym, p sym → sym.kind = k)
      (h : (o.symbols[Reloc.Index]?).any p) :
      ∃ sym, o.symbols[Reloc.Index]? = some sym ∧ sym.kind = k := by
    obtain ⟨sym, hsym, hpsym⟩ := (Option.any_eq_true _ _).mp h
    exact ⟨sym, hsym, hp sym hpsym⟩
  obtain ⟨type, Offset, Index, Addend⟩ := Reloc
  cases type with
  | TYPE_INDEX_LEB => cases hk
  | GLOBAL_INDEX_LEB =>
      cases hk
      exact hany (fun sym => WasmSymbol.kind_eq.2.2) h
  | MEMORY_ADDR_LEB | MEMORY_ADDR_SLEB | MEMORY_ADDR_I32 =>
      cases hk
      exact hany (fun sym => WasmSymbol.kind_eq.2.1) h
  | FUNCTION_INDEX_LEB | TABLE_INDEX_SLEB | TABLE_INDEX_I32 =>
      cases hk
      exact hany (fun sym => WasmSymbol.kind_eq.1) h

namespace Command

variable {cmd : Command} {F : ParsedFile} {Reloc : WasmRelocation}

theorem ids_linked : (cmd.linked.ObjectFiles.map (·.id)).Nodup :=
  ObjectFiles_linked ▸ cmd.ids_load

/-- The symbol that a live relocation refers to is live, unless it is null. -/
theorem symbol_of_liveReloc (h : cmd.Regular) (hlive : (F, Reloc) ∈ cmd.linked.liveRelocs cmd.Entry)
    {k : Kind} (hk : Reloc.type.kind? = some k) :
    ∃ Sym, F.getSymbol Reloc.Index = some Sym ∧ cmd.linked.Stands Sym k ∧
      (Reloc.type.isTable ∧ cmd.linked.hasNullTableIndex Sym ∨
        ¬ (Reloc.type.isTable ∧ cmd.linked.hasNullTableIndex Sym) ∧
          cmd.linked.keyOf Sym ∈ cmd.linked.live cmd.Entry) := by
  obtain ⟨hF, c, hc, hkey, hReloc⟩ := SymbolTable.mem_liveRelocs_iff.mp hlive
  rw [ObjectFiles_linked] at hF
  have hchunk := SymbolTable.chunk?_of_liveChunks (file?_linked hF) hc
  obtain ⟨sym, hsym, rfl⟩ := Sections.kind_of_validReloc
    (F.obj.relocs c.2 (SymbolTable.mem_of_chunk? hchunk).2 Reloc hReloc) hk
  obtain ⟨Sym, hSym, hstands⟩ := stands_linked h hF hsym
  refine ⟨Sym, hSym, hstands, ?_⟩
  by_cases hnull : Reloc.type.isTable ∧ cmd.linked.hasNullTableIndex Sym
  · exact .inl hnull
  · refine .inr ⟨hnull, SymbolTable.live_of_refers hkey ⟨F, c.2, hchunk, Reloc, hReloc, ?_⟩⟩
    have htype : Reloc.type ≠ .TYPE_INDEX_LEB := by
      rintro heq
      rw [heq] at hk
      cases hk
    rw [SymbolTable.follow, if_neg htype, hSym, Option.bind_some, if_neg]
    rwa [Bool.and_eq_true]

/-- A function that a live relocation refers to, unless it is null, is in the index space. -/
theorem mem_functions_of_liveReloc (h : cmd.Regular)
    (hlive : (F, Reloc) ∈ cmd.linked.liveRelocs cmd.Entry) (hfunction : Reloc.type.isFunction) :
    ∃ Sym, F.getSymbol Reloc.Index = some Sym ∧
      (Reloc.type.isTable ∧ cmd.linked.hasNullTableIndex Sym ∨
        ¬ (Reloc.type.isTable ∧ cmd.linked.hasNullTableIndex Sym) ∧
          ∃ r, ∃ i : ℕ, cmd.linked.functionRef? Sym = some r ∧
            (cmd.linked.functions cmd.Entry)[i]? = some r) := by
  have hk : Reloc.type.kind? = some .function := by
    obtain ⟨type, Offset, Index, Addend⟩ := Reloc
    cases type <;> first | rfl | cases hfunction
  obtain ⟨Sym, hSym, hstands, hcase⟩ := symbol_of_liveReloc h hlive hk
  refine ⟨Sym, hSym, hcase.imp_right fun ⟨hnull, hkey⟩ => ⟨hnull, ?_⟩⟩
  obtain ⟨r, href, hmem⟩ := SymbolTable.mem_functions_of_stands hstands hkey
  obtain ⟨i, hi⟩ := List.getElem?_of_mem hmem
  exact ⟨r, i, href, hi⟩

/-- The functions of the output are the imports and then what is live, each once; and a call
in something live has the index of the function that its symbol is. -/
theorem link_functions (h : cmd.Regular) :
    (cmd.linked.functions cmd.Entry).Nodup ∧
    ∀ F Reloc, (F, Reloc) ∈ cmd.linked.liveRelocs cmd.Entry → Reloc.type = .FUNCTION_INDEX_LEB →
      ∃ Sym r, ∃ i : ℕ, F.getSymbol Reloc.Index = some Sym ∧ cmd.linked.functionRef? Sym = some r ∧
        cmd.linked.getFunctionIndex cmd.Entry Sym = some i ∧
        (cmd.linked.functions cmd.Entry)[i]? = some r := by
  refine ⟨SymbolTable.nodup_functions ids_linked, fun F Reloc hlive htype => ?_⟩
  have hfunction : Reloc.type.isFunction := by rw [htype]; rfl
  have htable : ¬ Reloc.type.isTable := by rw [htype]; exact Bool.false_ne_true
  obtain ⟨Sym, hSym, hcase⟩ := mem_functions_of_liveReloc h hlive hfunction
  obtain ⟨-, r, i, href, hi⟩ := hcase.resolve_left fun hnull => htable hnull.1
  exact ⟨Sym, r, i, hSym, href, (SymbolTable.getFunctionIndex_eq_some_iff ids_linked).mpr
    ⟨r, href, hi⟩, hi⟩

theorem link_functions_sample : ∃ Sym r, ∃ i : ℕ,
    ParsedFile.getSymbol ⟨.object 0, sampleMain, []⟩ 1 = some Sym ∧
      sample.linked.functionRef? Sym = some r ∧
      sample.linked.getFunctionIndex sample.Entry Sym = some i ∧
      (sample.linked.functions sample.Entry)[i]? = some r :=
  (@link_functions sample (by decide +kernel)).2 _ ⟨.FUNCTION_INDEX_LEB, 4, 1, 0⟩
    (List.mem_of_getElem? (show _[0]? = _ from rfl)) rfl

/-- A function whose address something live takes is in the table. -/
theorem mem_IndirectFunctions
    (hlive : (F, Reloc) ∈ cmd.linked.liveRelocs cmd.Entry) (htable : Reloc.type.isTable)
    {Sym : SymbolRef} (hSym : F.getSymbol Reloc.Index = some Sym) {r : FunctionRef}
    (href : cmd.linked.functionRef? Sym = some r) {i : ℕ}
    (hi : (cmd.linked.functions cmd.Entry)[i]? = some r)
    (hnull : ¬ cmd.linked.hasNullTableIndex Sym) :
    r ∈ (cmd.linked.IndirectFunctions cmd.Entry).keys := by
  have hindex : cmd.linked.getFunctionIndex cmd.Entry Sym = some i :=
    (SymbolTable.getFunctionIndex_eq_some_iff ids_linked).mpr ⟨r, href, hi⟩
  refine Numbering.mem_keys_internAll.mpr (.inr (List.mem_filterMap.mpr ⟨(F, Reloc), hlive, ?_⟩))
  show cmd.linked.indirect? cmd.Entry F Reloc = some r
  unfold SymbolTable.indirect?
  rw [if_pos htable, hSym, Option.bind_some, if_neg, href]
  simp [hnull, hindex]

/-- Whatever is in the table has a function index. -/
theorem mem_functions_of_indirect {r : FunctionRef}
    (hr : r ∈ (cmd.linked.IndirectFunctions cmd.Entry).keys) :
    r ∈ cmd.linked.functions cmd.Entry := by
  rcases Numbering.mem_keys_internAll.mp hr with hempty | hmem
  · cases hempty
  · obtain ⟨⟨F, Reloc⟩, -, hindirect⟩ := List.mem_filterMap.mp hmem
    have hindirect : cmd.linked.indirect? cmd.Entry F Reloc = some r := hindirect
    unfold SymbolTable.indirect? at hindirect
    split at hindirect
    case isFalse => cases hindirect
    case isTrue =>
      obtain ⟨Sym, -, hcase⟩ := Option.bind_eq_some_iff.mp hindirect
      split at hcase
      case isTrue => cases hcase
      case isFalse hnot =>
        obtain ⟨i, hindex⟩ : ∃ i, cmd.linked.getFunctionIndex cmd.Entry Sym = some i := by
          rw [← Option.ne_none_iff_exists']
          intro hnone
          simp [hnone] at hnot
        obtain ⟨r', href, hi⟩ := (SymbolTable.getFunctionIndex_eq_some_iff ids_linked).mp hindex
        cases hcase.symm.trans href
        exact List.mem_of_getElem? hi

/-- Only a body that traps has the address null. -/
theorem dummy_of_hasNullTableIndex {Sym : SymbolRef} (hnull : cmd.linked.hasNullTableIndex Sym) :
    ∃ n i Sig, cmd.linked.content? Sym = some (.defined (.function (.synthetic i))) ∧
      cmd.linked.SyntheticFunctions[i]? = some ⟨n, Sig, SymbolTable.UnreachableFn, some 0⟩ := by
  unfold SymbolTable.hasNullTableIndex at hnull
  split at hnull
  case h_2 => cases hnull
  case h_1 i hcontent =>
    obtain ⟨f, hf, hzero⟩ := (Option.any_eq_true _ _).mp hnull
    have hzero : f.TableIndex = some 0 := of_decide_eq_true hzero
    rcases mem_SyntheticFunctions (List.mem_of_getElem? hf) with hown | ⟨n, Sig, rfl⟩
    · simp only [syntheticFunctions, List.mem_cons, List.not_mem_nil, or_false] at hown
      rcases hown with rfl | rfl <;> cases hzero
    · exact ⟨n, i, Sig, hcontent, hf⟩

/-- The address of a function that something live takes: null, or its place in the table. -/
theorem address_of_liveReloc (h : cmd.Regular)
    (hlive : (F, Reloc) ∈ cmd.linked.liveRelocs cmd.Entry) (htable : Reloc.type.isTable) :
    ∃ Sym, F.getSymbol Reloc.Index = some Sym ∧
      (cmd.linked.hasNullTableIndex Sym ∧ cmd.linked.getTableIndex cmd.Entry Sym = some 0 ∨
        ∃ r, ∃ i k : ℕ, cmd.linked.functionRef? Sym = some r ∧
          (cmd.linked.functions cmd.Entry)[i]? = some r ∧
          cmd.linked.getTableIndex cmd.Entry Sym = some (SymbolTable.kInitialTableOffset + k) ∧
          (cmd.linked.elements cmd.Entry)[k]? = some (some i)) := by
  have hfunction : Reloc.type.isFunction := by
    obtain ⟨type, Offset, Index, Addend⟩ := Reloc
    cases type <;> first | rfl | cases htable
  obtain ⟨Sym, hSym, ⟨-, hnull⟩ | ⟨hnot, r, i, href, hi⟩⟩ :=
    mem_functions_of_liveReloc h hlive hfunction
  · exact ⟨Sym, hSym, .inl ⟨hnull, if_pos hnull⟩⟩
  · have hnull : ¬ cmd.linked.hasNullTableIndex Sym := fun hnull => hnot ⟨htable, hnull⟩
    have hmem := mem_IndirectFunctions hlive htable hSym href hi hnull
    obtain ⟨k, hk⟩ := List.getElem?_of_mem hmem
    refine ⟨Sym, hSym, .inr ⟨r, i, k, href, hi, ?_, ?_⟩⟩
    · rw [SymbolTable.getTableIndex, if_neg hnull, href, Option.bind_some,
        Numbering.number?_eq_some_iff.mpr hk, Option.map_some]
    · rw [SymbolTable.elements, List.getElem?_map, hk, Option.map_some]
      exact congrArg some (Numbering.number?_eq_some_iff
        (N := ⟨_, SymbolTable.nodup_functions ids_linked⟩).mpr hi)

/-- The address of a function that something live takes: null for a body that traps, and else
its place in the table, where the function's index is. -/
theorem link_addresses (h : cmd.Regular) :
    (none ∉ cmd.linked.elements cmd.Entry) ∧
    ∀ F Reloc, (F, Reloc) ∈ cmd.linked.liveRelocs cmd.Entry → Reloc.type.isTable →
      ∃ Sym, F.getSymbol Reloc.Index = some Sym ∧
        ((∃ n i Sig, cmd.linked.content? Sym = some (.defined (.function (.synthetic i))) ∧
            cmd.linked.SyntheticFunctions[i]? = some ⟨n, Sig, SymbolTable.UnreachableFn, some 0⟩ ∧
            cmd.linked.getTableIndex cmd.Entry Sym = some 0) ∨
          ∃ r, ∃ i k : ℕ, cmd.linked.functionRef? Sym = some r ∧
            (cmd.linked.functions cmd.Entry)[i]? = some r ∧
            cmd.linked.getTableIndex cmd.Entry Sym = some (SymbolTable.kInitialTableOffset + k) ∧
            (cmd.linked.elements cmd.Entry)[k]? = some (some i)) := by
  refine ⟨fun hnone => ?_, fun F Reloc hlive htable => ?_⟩
  · obtain ⟨r, hr, hindex⟩ := List.mem_map.mp hnone
    rw [List.idxOf?_eq_none_iff] at hindex
    exact hindex (mem_functions_of_indirect hr)
  · obtain ⟨Sym, hSym, ⟨hnull, hzero⟩ | hplace⟩ := address_of_liveReloc h hlive htable
    · obtain ⟨n, j, Sig, hcontent, hj⟩ := dummy_of_hasNullTableIndex hnull
      exact ⟨Sym, hSym, .inl ⟨n, j, Sig, hcontent, hj, hzero⟩⟩
    · exact ⟨Sym, hSym, .inr hplace⟩

theorem link_addresses_sample : none ∉ sample.linked.elements sample.Entry ∧
    ∃ r, ∃ i k : ℕ, sample.linked.functionRef? (.table "f") = some r ∧
      (sample.linked.functions sample.Entry)[i]? = some r ∧
      sample.linked.getTableIndex sample.Entry (.table "f") =
        some (SymbolTable.kInitialTableOffset + k) ∧
      (sample.linked.elements sample.Entry)[k]? = some (some i) := by
  obtain ⟨hplaced, haddresses⟩ := @link_addresses sample (by decide +kernel)
  obtain ⟨Sym, hSym, hcase⟩ := haddresses ⟨.object 0, sampleMain, []⟩ ⟨.TABLE_INDEX_I32, 5, 1, 0⟩
    (List.mem_of_getElem? (show _[1]? = _ from rfl)) rfl
  cases hSym
  refine ⟨hplaced, hcase.resolve_left ?_⟩
  rintro ⟨n, i, Sig, hcontent, -⟩
  have hf : sample.linked.content? (.table "f") =
      some (.defined (.function (.input (.member 1 0) 0))) := rfl
  cases hf.symm.trans hcontent

/-! ## Globals and types -/

theorem mem_globals_of_liveReloc (h : cmd.Regular)
    (hlive : (F, Reloc) ∈ cmd.linked.liveRelocs cmd.Entry)
    (htype : Reloc.type = .GLOBAL_INDEX_LEB) :
    ∃ Sym r, ∃ i : ℕ, F.getSymbol Reloc.Index = some Sym ∧ cmd.linked.globalRef? Sym = some r ∧
      cmd.linked.getGlobalIndex cmd.Entry Sym = some i ∧
      (cmd.linked.globals cmd.Entry)[i]? = some r := by
  obtain ⟨Sym, hSym, hstands, hcase⟩ := symbol_of_liveReloc h hlive (by rw [htype]; rfl)
  have hkey := (hcase.resolve_left fun hnull => by rw [htype] at hnull; cases hnull.1).2
  obtain ⟨r, href, hmem⟩ := SymbolTable.mem_globals_of_stands hstands hkey
  obtain ⟨i, hi⟩ := List.getElem?_of_mem hmem
  exact ⟨Sym, r, i, hSym, href, (SymbolTable.getGlobalIndex_eq_some_iff ids_linked).mpr
    ⟨r, href, hi⟩, hi⟩

/-- A signature that is registered has an index. -/
theorem number_of_registered {Sig : WasmSignature} (h : Sig ∈ cmd.linked.registered cmd.Entry) :
    ∃ j, (cmd.linked.Types cmd.Entry).number? Sig = some j ∧
      (cmd.linked.Types cmd.Entry).keys[j]? = some Sig := by
  have hmem : Sig ∈ (cmd.linked.Types cmd.Entry).keys := Numbering.mem_keys_internAll.mpr (.inr h)
  obtain ⟨j, hj⟩ := List.getElem?_of_mem hmem
  exact ⟨j, Numbering.number?_eq_some_iff.mpr hj, hj⟩

/-- The type that a live `call_indirect` names is in the list of types. -/
theorem type_of_liveReloc (hlive : (F, Reloc) ∈ cmd.linked.liveRelocs cmd.Entry)
    (htype : Reloc.type = .TYPE_INDEX_LEB) :
    ∃ Sig j, F.obj.types[Reloc.Index]? = some Sig ∧
      cmd.linked.TypeMap cmd.Entry F Reloc.Index = some j ∧
      (cmd.linked.Types cmd.Entry).keys[j]? = some Sig := by
  obtain ⟨hF, c, hc, -, hReloc⟩ := SymbolTable.mem_liveRelocs_iff.mp hlive
  rw [ObjectFiles_linked] at hF
  have hchunk := SymbolTable.chunk?_of_liveChunks (file?_linked hF) hc
  have hvalid := F.obj.relocs c.2 (SymbolTable.mem_of_chunk? hchunk).2 Reloc hReloc
  unfold Sections.ValidReloc at hvalid
  rw [htype] at hvalid
  have hSig := List.getElem?_eq_getElem hvalid
  obtain ⟨j, hj, hkeys⟩ := @number_of_registered cmd F.obj.types[Reloc.Index]
    (List.mem_append_left _ (List.mem_append_left _ (List.mem_filterMap.mpr
      ⟨(F, Reloc), hlive, (if_pos htype).trans hSig⟩)))
  refine ⟨_, j, hSig, ?_, hkeys⟩
  rw [SymbolTable.TypeMap, hSig, Option.bind_some, hj]

/-- A function that the output holds has a signature. -/
theorem signature_of_mem {Function : FunctionId} (hmem : Function ∈ cmd.linked.functionIds) :
    ∃ Sig, cmd.linked.signature? Function = some Sig := by
  rcases List.mem_append.mp hmem with hsynthetic | hinput
  · obtain ⟨i, hi, rfl⟩ := List.mem_map.mp hsynthetic
    exact ⟨_, congrArg (Option.map _) (List.getElem?_eq_getElem (List.mem_range.mp hi))⟩
  · obtain ⟨F, hF, hmem⟩ := List.mem_flatMap.mp hinput
    obtain ⟨i, hi, rfl⟩ := List.mem_map.mp hmem
    rw [ObjectFiles_linked] at hF
    rw [SymbolTable.signature?, file?_linked hF, Option.bind_some,
      List.getElem?_eq_getElem (List.mem_range.mp hi)]
    exact ⟨_, rfl⟩

theorem find_of_mem_ImportedSymbols {n : String}
    (hn : n ∈ cmd.linked.ImportedSymbols cmd.Entry) :
    ∃ S, cmd.linked.find n = some S ∧ S.isUndefined ∧ ¬ S.isDataSymbol ∧ ¬ S.isWeak ∧
      cmd.linked.keyOf (.table n) ∈ cmd.linked.live cmd.Entry ∧ S.IsUsedInRegularObj := by
  obtain ⟨-, hany⟩ := List.mem_filter.mp hn
  obtain ⟨S, hS, hsym⟩ := (Option.any_eq_true _ _).mp hany
  simp only [Bool.and_eq_true, Bool.not_eq_true', SymbolTable.isLive, decide_eq_true_eq] at hsym
  obtain ⟨⟨⟨⟨hund, hdata⟩, hweak⟩, hlive⟩, hused⟩ := hsym
  exact ⟨S, hS, hund, by simp [hdata], by simp [hweak], hlive, hused⟩

/-- An import that is not forced has a signature, that of the first reference. -/
theorem signature_of_import {n : String} (hn : n ∈ cmd.linked.importedFunctions cmd.Entry)
    (hforced : n ∉ cmd.undefined) :
    ∃ S Sig, cmd.linked.find n = some S ∧ S.content = .undefined (.function (some Sig)) := by
  obtain ⟨himported, hfunction⟩ := List.mem_filter.mp hn
  obtain ⟨S, hS, hund, -⟩ := find_of_mem_ImportedSymbols himported
  rw [hS] at hfunction
  have hfunction : S.isFunctionSymbol := hfunction
  have hmade := cmd.made_load n
  rw [find_load_of_isUndefined hS hund] at hmade
  obtain ⟨r, hhead, rfl⟩ := hmade hund
  rcases cmd.mem_references_iff.mp (List.mem_of_head? hhead) with
    ⟨hn, -⟩ | ⟨F, hF, sym, hsym, hd, -, rfl⟩
  · exact absurd hn hforced
  · cases hwanted : F.wanted sym with
    | data | global =>
        unfold Symbol.isFunctionSymbol at hfunction
        rw [hwanted] at hfunction
        cases hfunction
    | function FunctionType =>
        obtain ⟨Sig, rfl⟩ := Option.isSome_iff_exists.mp (ParsedFile.isSome_of_wanted hsym hwanted)
        exact ⟨_, Sig, hS, congrArg Content.undefined hwanted⟩

/-- Each signature is in the list of types once, and every signature that is written is in it:
those of live indirect calls, of imports that are not forced and of live functions. -/
theorem link_types (cmd : Command) :
    (cmd.linked.Types cmd.Entry).keys.Nodup ∧
    (∀ F Reloc, (F, Reloc) ∈ cmd.linked.liveRelocs cmd.Entry → Reloc.type = .TYPE_INDEX_LEB →
      ∃ Sig j, F.obj.types[Reloc.Index]? = some Sig ∧
        cmd.linked.TypeMap cmd.Entry F Reloc.Index = some j ∧
        (cmd.linked.Types cmd.Entry).keys[j]? = some Sig) ∧
    (∀ n ∈ cmd.linked.importedFunctions cmd.Entry, n ∉ cmd.undefined →
      ∃ S Sig, cmd.linked.find n = some S ∧ S.content = .undefined (.function (some Sig)) ∧
        Sig ∈ (cmd.linked.Types cmd.Entry).keys) ∧
    ∀ Function ∈ cmd.linked.InputFunctions cmd.Entry,
      ∃ Sig, cmd.linked.signature? Function = some Sig ∧
        Sig ∈ (cmd.linked.Types cmd.Entry).keys := by
  refine ⟨Numbering.nodup _, fun F Reloc hlive htype => type_of_liveReloc hlive htype,
    fun n hn hforced => ?_, fun Function hmem => ?_⟩
  · obtain ⟨S, Sig, hS, hcontent⟩ := signature_of_import hn hforced
    refine ⟨S, Sig, hS, hcontent, Numbering.mem_keys_internAll.mpr (.inr ?_)⟩
    refine List.mem_append_left _ (List.mem_append_right _ (List.mem_filterMap.mpr ⟨n, hn, ?_⟩))
    rw [hS, Option.bind_some, hcontent]
  · obtain ⟨Sig, hSig⟩ := signature_of_mem (List.mem_filter.mp hmem).1
    exact ⟨Sig, hSig, Numbering.mem_keys_internAll.mpr (.inr (List.mem_append_right _
      (List.mem_filterMap.mpr ⟨Function, hmem, hSig⟩)))⟩

/-! ## Imports -/

/-- Everything that is imported is allowed, and no object read defines it. -/
theorem link_imports (h : cmd.Links) {n : String}
    (hn : n ∈ cmd.linked.ImportedSymbols cmd.Entry) :
    cmd.offers n = [] ∧ (n ∈ cmd.AllowUndefinedSymbols ∨ ∃ F ∈ cmd.ObjectFiles,
      n ∈ F.obj.allowed_imports ∧ ∃ sym ∈ F.obj.symbols, sym.Name = n) := by
  obtain ⟨S, hS, hund, -, hweak, -, hused⟩ := find_of_mem_ImportedSymbols hn
  have hload := find_load_of_isUndefined hS hund
  constructor
  · by_contra hoffers
    obtain ⟨S', hS', hdef⟩ := cmd.isDefined_iff_offers.mpr hoffers
    cases hload.symm.trans hS'
    exact Symbol.not_isUndefined_of_isDefined hdef hund
  · by_contra hnot
    rw [not_or, ← cmd.mem_allowed_load] at hnot
    have hreported := cmd.mem_report_load_iff.mpr ⟨⟨S, hload, hund, hweak, hused⟩, hnot⟩
    rw [h.report] at hreported
    cases hreported

theorem link_imports_sample : sample.offers "host" = [] :=
  (@link_imports sample (by decide +kernel) "host" (by decide +kernel)).1

end Command

end FractalCdt.Linker
