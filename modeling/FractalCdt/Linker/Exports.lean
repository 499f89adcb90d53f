/-
# Exports

Whatever the linker knows by a visible name, it exports: a function and a global by
their indices, and an address by a global of its own that holds it.  Those globals come
behind all others, in the order of the names.
-/

import FractalCdt.Linker.Format
import FractalCdt.Linker.Relocations

namespace FractalCdt.Linker

open FractalCdt.Math FractalCdt.Toolchain

/-- `Exports` and `DefinedFakeGlobals`. -/
structure Exporting where
  Exports : List WasmExport
  DefinedFakeGlobals : List String

namespace SymbolTable

variable (t : SymbolTable) (Entry : String) (l : Toolchain.Layout)

/-- The symbols that the loop of `calculateExports` does not skip at once. -/
def ExportedSymbols : List String :=
  t.Symbols.keys.filter fun n => (t.find n).any fun Sym =>
    Sym.isDefined && !Sym.Flags.hidden && Sym.Flags.binding ≠ .bindingLocal &&
      t.isLive Entry (t.keyOf (.table n))

/-- The rest of the body of the loop; `FakeGlobalIndex` has been counted up for each fake
global. -/
def exportSymbol (s : Exporting) (Name : String) : Option Exporting :=
  match t.content? (.table Name) with
  | some (.defined (.function _)) =>
      (t.getFunctionIndex Entry (.table Name)).map fun Index =>
        { s with Exports := s.Exports ++ [⟨nameBytes Name, .function, BitVec.ofNat 32 Index⟩] }
  | some (.defined (.global _ GlobalType)) =>
      if GlobalType.Mutable then some s
      else
        (t.getGlobalIndex Entry (.table Name)).map fun Index =>
          { s with Exports := s.Exports ++ [⟨nameBytes Name, .global, BitVec.ofNat 32 Index⟩] }
  | some (.defined (.data ..)) =>
      let FakeGlobalIndex := (t.globals Entry).length + s.DefinedFakeGlobals.length
      some ⟨s.Exports ++ [⟨nameBytes Name, .global, BitVec.ofNat 32 FakeGlobalIndex⟩],
        s.DefinedFakeGlobals ++ [Name]⟩
  | _ => none

def calculateExports : Option Exporting :=
  (t.ExportedSymbols Entry).foldlM (t.exportSymbol Entry) ⟨[⟨nameBytes "memory", .memory, 0⟩], []⟩

/-- The global of an `WasmGlobal`; `layoutMemory` sets the one of the stack pointer. -/
def inputGlobal : GlobalId → Option WasmGlobal
  | .stackPointer => some ⟨⟨0x7f, true⟩, l.StackPointer⟩
  | .input File i => (t.file? File).bind (·.obj.Globals[i]?)

def fakeGlobal (Name : String) : Option WasmGlobal :=
  (t.getVirtualAddress Entry l (.table Name)).map (⟨⟨0x7f, false⟩, ·⟩)

/-- The globals that `createGlobalSection` writes. -/
def definedGlobals : Option (List WasmGlobal) := do
  let E ← t.calculateExports Entry
  let inputs ← (t.InputGlobals Entry).mapM (t.inputGlobal l)
  let fakes ← E.DefinedFakeGlobals.mapM (t.fakeGlobal Entry l)
  return inputs ++ fakes

/-- What an export names, by what its symbol is: the index of a function, of a global, or of
the global with an address. -/
inductive Exports (fakes : List String) (Name : String) : WasmExport → Prop
  | function (Function : FunctionId) (i : ℕ)
      (hcontent : t.content? (.table Name) = some (.defined (.function Function)))
      (hi : (t.functions Entry)[i]? = some (.defined Function)) :
      Exports fakes Name ⟨nameBytes Name, .function, BitVec.ofNat 32 i⟩
  | global (Global : GlobalId) (GlobalType : WasmGlobalType) (i : ℕ)
      (hcontent : t.content? (.table Name) = some (.defined (.global Global GlobalType)))
      (hi : (t.globals Entry)[i]? = some (.defined Global)) :
      Exports fakes Name ⟨nameBytes Name, .global, BitVec.ofNat 32 i⟩
  | data (Segment : Option SegmentId) (Offset Size : BitVec 32) (k : ℕ)
      (hcontent : t.content? (.table Name) = some (.defined (.data Segment Offset Size)))
      (hk : fakes[k]? = some Name) :
      Exports fakes Name ⟨nameBytes Name, .global, BitVec.ofNat 32 ((t.globals Entry).length + k)⟩

/-- The stack pointer is not exported. -/
def isMutable (Name : String) : Bool :=
  match t.content? (.table Name) with
  | some (.defined (.global _ GlobalType)) => GlobalType.Mutable
  | _ => false

/-- An address gets a global of its own. -/
def isFake (Name : String) : Bool :=
  match t.content? (.table Name) with
  | some (.defined (.data ..)) => true
  | _ => false

variable {t} {Entry} {l}

theorem mem_ExportedSymbols_iff {n : String} : n ∈ t.ExportedSymbols Entry ↔
    ∃ S, t.find n = some S ∧ S.isDefined ∧ ¬ S.Flags.hidden ∧ S.Flags.binding ≠ .bindingLocal ∧
      t.keyOf (.table n) ∈ t.live Entry := by
  unfold ExportedSymbols
  rw [List.mem_filter]
  constructor
  · rintro ⟨-, hany⟩
    obtain ⟨S, hS, hsym⟩ := (Option.any_eq_true _ _).mp hany
    simp only [Bool.and_eq_true, Bool.not_eq_true', decide_eq_true_eq, isLive] at hsym
    obtain ⟨⟨⟨hdef, hhidden⟩, hlocal⟩, hlive⟩ := hsym
    exact ⟨S, hS, hdef, by simp [hhidden], hlocal, hlive⟩
  · rintro ⟨S, hS, hdef, hhidden, hlocal, hlive⟩
    refine ⟨(t.Symbols.mem_keys n).mpr (Option.isSome_iff_exists.mpr ⟨S, hS⟩), ?_⟩
    rw [hS]
    simp [hdef, hhidden, hlocal, hlive, isLive]

/-- What is visible is live. -/
theorem visible_live {n : String} {S : Symbol} (hS : t.find n = some S)
    (hhidden : ¬ S.Flags.hidden) : t.keyOf (.table n) ∈ t.live Entry := by
  refine mem_live_iff.mpr (.inr ⟨_, ?_, .refl⟩)
  refine List.mem_append_left _ (List.mem_append_right _ (List.mem_map_of_mem
    (List.mem_filter.mpr ⟨(t.Symbols.mem_keys n).mpr (Option.isSome_iff_exists.mpr ⟨S, hS⟩), ?_⟩)))
  rw [hS]
  simp [hhidden]

end SymbolTable

namespace Command

variable {cmd : Command} {l : Toolchain.Layout} {n : String}

theorem stands_of_defined (h : cmd.Links) {d : Definition}
    (hcontent : cmd.linked.content? (.table n) = some (.defined d)) :
    cmd.linked.Stands (.table n) d.kind :=
  ⟨⟨_, hcontent, rfl⟩, fun _ => valid_linked h, fun w hw => by cases hcontent.symm.trans hw⟩

/-- A defined function that is live has an index. -/
theorem index_of_function (h : cmd.Links) {Function : FunctionId}
    (hcontent : cmd.linked.content? (.table n) = some (.defined (.function Function)))
    (hlive : cmd.linked.keyOf (.table n) ∈ cmd.linked.live cmd.Entry) :
    ∃ i, cmd.linked.getFunctionIndex cmd.Entry (.table n) = some i ∧
      (cmd.linked.functions cmd.Entry)[i]? = some (.defined Function) := by
  obtain ⟨r, href, hmem⟩ :=
    SymbolTable.mem_functions_of_stands (stands_of_defined h hcontent) hlive
  obtain ⟨i, hi⟩ := List.getElem?_of_mem hmem
  have hindex := (SymbolTable.getFunctionIndex_eq_some_iff ids_linked).mpr ⟨r, href, hi⟩
  unfold SymbolTable.functionRef? at href
  rw [hcontent] at href
  cases href
  exact ⟨i, hindex, hi⟩

theorem index_of_global (h : cmd.Links) {Global : GlobalId} {GlobalType : WasmGlobalType}
    (hcontent : cmd.linked.content? (.table n) = some (.defined (.global Global GlobalType)))
    (hlive : cmd.linked.keyOf (.table n) ∈ cmd.linked.live cmd.Entry) :
    ∃ i, cmd.linked.getGlobalIndex cmd.Entry (.table n) = some i ∧
      (cmd.linked.globals cmd.Entry)[i]? = some (.defined Global) := by
  obtain ⟨r, href, hmem⟩ := SymbolTable.mem_globals_of_stands (stands_of_defined h hcontent) hlive
  obtain ⟨i, hi⟩ := List.getElem?_of_mem hmem
  have hindex := (SymbolTable.getGlobalIndex_eq_some_iff ids_linked).mpr ⟨r, href, hi⟩
  unfold SymbolTable.globalRef? at href
  rw [hcontent] at href
  cases href
  exact ⟨i, hindex, hi⟩

/-- What the exports are when the loop has been through some names. -/
structure Exported (t : SymbolTable) (Entry : String) (names : List String) (s s' : Exporting) :
    Prop where
  fakes : s'.DefinedFakeGlobals = s.DefinedFakeGlobals ++ names.filter t.isFake
  exports : ∃ xs, s'.Exports = s.Exports ++ xs ∧ ∀ fakes, s'.DefinedFakeGlobals <+: fakes →
    List.Forall₂ (t.Exports Entry fakes) (names.filter (!t.isMutable ·)) xs

/-- A round that makes an export. -/
theorem exported_singleton {t : SymbolTable} {Entry : String} {s s' : Exporting} {x : WasmExport}
    (hexports : s'.Exports = s.Exports ++ [x])
    (hfakes : s'.DefinedFakeGlobals = s.DefinedFakeGlobals ++ [n].filter t.isFake)
    (hmutable : t.isMutable n = false)
    (hx : ∀ fakes, s'.DefinedFakeGlobals <+: fakes → t.Exports Entry fakes n x) :
    Exported t Entry [n] s s' := by
  refine ⟨hfakes, [x], hexports, fun fakes hprefix => ?_⟩
  rw [List.filter_cons_of_pos (by rw [hmutable]; rfl), List.filter_nil]
  exact .cons (hx fakes hprefix) .nil

/-- One round of the loop. -/
theorem exists_exportSymbol (h : cmd.Links) (hn : n ∈ cmd.linked.ExportedSymbols cmd.Entry)
    (s : Exporting) :
    ∃ s', cmd.linked.exportSymbol cmd.Entry s n = some s' ∧
      Exported cmd.linked cmd.Entry [n] s s' := by
  obtain ⟨S, hS, hdef, -, -, hlive⟩ := SymbolTable.mem_ExportedSymbols_iff.mp hn
  obtain ⟨d, hd⟩ := Symbol.isDefined_iff.mp hdef
  have hcontent : cmd.linked.content? (.table n) = some (.defined d) := by
    show (cmd.linked.find n).map _ = _
    rw [hS, Option.map_some, hd]
  unfold SymbolTable.exportSymbol
  rw [hcontent]
  cases d with
  | function Function =>
      obtain ⟨i, hindex, hi⟩ := index_of_function h hcontent hlive
      have hfake : [n].filter cmd.linked.isFake = [] := by
        simp [SymbolTable.isFake, hcontent]
      refine ⟨_, congrArg (Option.map _) hindex, exported_singleton rfl ?_ ?_ fun fakes hprefix =>
        .function Function i hcontent hi⟩
      · rw [hfake, List.append_nil]
      · rw [SymbolTable.isMutable, hcontent]
  | global Global GlobalType =>
      have hfake : [n].filter cmd.linked.isFake = [] := by
        simp [SymbolTable.isFake, hcontent]
      have hmutable : cmd.linked.isMutable n = GlobalType.Mutable := by
        rw [SymbolTable.isMutable, hcontent]
      by_cases hskip : GlobalType.Mutable
      · refine ⟨s, if_pos hskip, ?_, [], (List.append_nil _).symm, fun fakes hprefix => ?_⟩
        · rw [hfake, List.append_nil]
        · rw [List.filter_cons_of_neg (by rw [hmutable, hskip]; exact Bool.false_ne_true)]
          exact .nil
      · obtain ⟨i, hindex, hi⟩ := index_of_global h hcontent hlive
        refine ⟨_, (if_neg hskip).trans (congrArg (Option.map _) hindex),
          exported_singleton rfl ?_ ?_ fun fakes hprefix =>
            .global Global GlobalType i hcontent hi⟩
        · rw [hfake, List.append_nil]
        · rw [hmutable]
          exact Bool.eq_false_iff.mpr hskip
  | data Segment Offset Size =>
      refine ⟨_, rfl, exported_singleton rfl ?_ ?_ fun fakes hprefix =>
        .data Segment Offset Size s.DefinedFakeGlobals.length hcontent ?_⟩
      · simp [SymbolTable.isFake, hcontent]
      · rw [SymbolTable.isMutable, hcontent]
      · obtain ⟨more, rfl⟩ := hprefix
        rw [List.append_assoc, List.getElem?_append_right le_rfl, Nat.sub_self]
        rfl

/-- The loop. -/
theorem exists_foldlM_exportSymbol (h : cmd.Links) {names : List String}
    (hnames : ∀ n ∈ names, n ∈ cmd.linked.ExportedSymbols cmd.Entry) (s : Exporting) :
    ∃ s', names.foldlM (cmd.linked.exportSymbol cmd.Entry) s = some s' ∧
      Exported cmd.linked cmd.Entry names s s' := by
  induction names generalizing s with
  | nil =>
      exact ⟨s, rfl, (List.append_nil _).symm, [], (List.append_nil _).symm, fun _ _ => .nil⟩
  | cons n names ih =>
      obtain ⟨s₁, hstep, hfakes₁, xs₁, hxs₁, hexports₁⟩ :=
        exists_exportSymbol h (hnames n List.mem_cons_self) s
      obtain ⟨s₂, hrest, hfakes₂, xs₂, hxs₂, hexports₂⟩ :=
        ih (fun m hm => hnames m (List.mem_cons_of_mem n hm)) s₁
      refine ⟨s₂, ?_, ?_, xs₁ ++ xs₂, ?_, fun fakes hprefix => ?_⟩
      · rw [List.foldlM_cons, hstep]
        exact hrest
      · rw [hfakes₂, hfakes₁, List.append_assoc, ← List.filter_append]
        rfl
      · rw [hxs₂, hxs₁, List.append_assoc]
      · have hprefix₁ : s₁.DefinedFakeGlobals <+: fakes :=
          (hfakes₂ ▸ List.prefix_append _ _ : s₁.DefinedFakeGlobals <+: s₂.DefinedFakeGlobals).trans
            hprefix
        rw [← List.singleton_append, List.filter_append]
        exact List.rel_append (hexports₁ fakes hprefix₁) (hexports₂ fakes hprefix)

theorem exists_calculateExports (h : cmd.Links) :
    ∃ E, cmd.linked.calculateExports cmd.Entry = some E ∧
      Exported cmd.linked cmd.Entry (cmd.linked.ExportedSymbols cmd.Entry)
        ⟨[⟨nameBytes "memory", .memory, 0⟩], []⟩ E :=
  exists_foldlM_exportSymbol h (fun _ hn => hn) _

/-! ## The globals -/

/-- An address that is live is laid out. -/
theorem exists_virtualAddress (h : cmd.Links) (hfits : cmd.linked.Fits cmd.Entry)
    (hl : cmd.linked.layout cmd.Entry = .ok l) (hfake : cmd.linked.isFake n)
    (hlive : cmd.linked.keyOf (.table n) ∈ cmd.linked.live cmd.Entry) :
    ∃ v, cmd.linked.getVirtualAddress cmd.Entry l (.table n) = some v := by
  unfold SymbolTable.isFake at hfake
  split at hfake
  case h_2 => cases hfake
  case h_1 Segment Offset Size hcontent =>
    unfold SymbolTable.getVirtualAddress
    rw [hcontent]
    cases Segment with
    | none => exact ⟨_, rfl⟩
    | some Segment =>
        obtain ⟨F, hF, Seg, hSeg, -⟩ := valid_linked h hcontent
        have hkey : cmd.linked.keyOf (.table n) = .segment Segment := by
          rw [SymbolTable.keyOf, hcontent]
        rw [hkey] at hlive
        obtain ⟨a, ha⟩ := SymbolTable.exists_segmentAddress ids_linked hfits hl hF hSeg hlive
        exact ⟨_, congrArg (Option.map _) ha⟩

theorem exists_inputGlobal {Global : GlobalId}
    (hmem : Global ∈ cmd.linked.InputGlobals cmd.Entry) :
    ∃ G, cmd.linked.inputGlobal l Global = some G := by
  rcases List.mem_cons.mp (List.mem_filter.mp hmem).1 with rfl | hinput
  · exact ⟨_, rfl⟩
  · obtain ⟨F, hF, hmem⟩ := List.mem_flatMap.mp hinput
    obtain ⟨i, hi, rfl⟩ := List.mem_map.mp hmem
    rw [ObjectFiles_linked] at hF
    rw [SymbolTable.inputGlobal, file?_linked hF, Option.bind_some,
      List.getElem?_eq_getElem (List.mem_range.mp hi)]
    exact ⟨_, rfl⟩

/-- The globals are those of the objects that are live, and then one for each address that is
exported. -/
theorem exists_definedGlobals (h : cmd.Links) (hfits : cmd.linked.Fits cmd.Entry)
    (hl : cmd.linked.layout cmd.Entry = .ok l) {E : Exporting}
    (hE : cmd.linked.calculateExports cmd.Entry = some E)
    (hexported : E.DefinedFakeGlobals =
      (cmd.linked.ExportedSymbols cmd.Entry).filter cmd.linked.isFake) :
    ∃ inputs fakes, cmd.linked.definedGlobals cmd.Entry l = some (inputs ++ fakes) ∧
      inputs.length = (cmd.linked.InputGlobals cmd.Entry).length ∧
      (∀ i : ℕ, inputs[i]? =
        ((cmd.linked.InputGlobals cmd.Entry)[i]?).bind (cmd.linked.inputGlobal l)) ∧
      ∀ k : ℕ, fakes[k]? =
        (E.DefinedFakeGlobals[k]?).bind (cmd.linked.fakeGlobal cmd.Entry l) := by
  obtain ⟨inputs, hinputs, hget⟩ :=
    @exists_mapM _ _ (cmd.linked.inputGlobal l) (cmd.linked.InputGlobals cmd.Entry)
      fun Global hmem => exists_inputGlobal hmem
  obtain ⟨fakes, hfakes, hget'⟩ :=
    @exists_mapM _ _ (cmd.linked.fakeGlobal cmd.Entry l) E.DefinedFakeGlobals fun n hn => by
      rw [hexported, List.mem_filter] at hn
      obtain ⟨S, -, -, -, -, hlive⟩ := SymbolTable.mem_ExportedSymbols_iff.mp hn.1
      obtain ⟨v, hv⟩ := exists_virtualAddress h hfits hl hn.2 hlive
      exact ⟨_, congrArg (Option.map _) hv⟩
  refine ⟨inputs, fakes, ?_, (forall₂_of_mapM hinputs).length_eq.symm, hget, hget'⟩
  simp only [SymbolTable.definedGlobals, hE, hinputs, hfakes, Option.bind_eq_bind,
    Option.bind_some, Option.pure_def]

/-- Every visible definition but the stack pointer is exported once, in the order of the table,
by the index of the very function or global that it is; an address by the index of a global that
holds it. -/
theorem link_exports (h : cmd.Links) (hfits : cmd.linked.Fits cmd.Entry) :
    ∃ l E gs, cmd.linked.layout cmd.Entry = .ok l ∧
      cmd.linked.calculateExports cmd.Entry = some E ∧
      cmd.linked.definedGlobals cmd.Entry l = some gs ∧
      (∀ n S, cmd.linked.find n = some S → S.isDefined → ¬ S.Flags.hidden →
        S.Flags.binding ≠ .bindingLocal → n ∈ cmd.linked.ExportedSymbols cmd.Entry) ∧
      (∃ xs, E.Exports = ⟨nameBytes "memory", .memory, 0⟩ :: xs ∧
        List.Forall₂ (cmd.linked.Exports cmd.Entry E.DefinedFakeGlobals)
          ((cmd.linked.ExportedSymbols cmd.Entry).filter (!cmd.linked.isMutable ·)) xs) ∧
      ∀ (k : ℕ) n, E.DefinedFakeGlobals[k]? = some n →
        ∃ v, cmd.linked.getVirtualAddress cmd.Entry l (.table n) = some v ∧
          gs[(cmd.linked.InputGlobals cmd.Entry).length + k]? = some ⟨⟨0x7f, false⟩, v⟩ := by
  obtain ⟨l, hl, -⟩ := Toolchain.layoutMemory_fractalLd hfits.all
  obtain ⟨E, hE, hfakes, xs, hxs, hexports⟩ := exists_calculateExports h
  obtain ⟨inputs, fakes, hgs, hlength, -, hget⟩ := exists_definedGlobals h hfits hl hE hfakes
  refine ⟨l, E, inputs ++ fakes, hl, hE, hgs, fun n S hS hdef hhidden hlocal => ?_,
    ⟨xs, hxs, hexports _ List.prefix_rfl⟩, fun k n hn => ?_⟩
  · exact SymbolTable.mem_ExportedSymbols_iff.mpr
      ⟨S, hS, hdef, hhidden, hlocal, SymbolTable.visible_live hS hhidden⟩
  · have hmem : n ∈ E.DefinedFakeGlobals := List.mem_of_getElem? hn
    rw [hfakes, List.nil_append, List.mem_filter] at hmem
    obtain ⟨S, -, -, -, -, hlive⟩ := SymbolTable.mem_ExportedSymbols_iff.mp hmem.1
    obtain ⟨v, hv⟩ := exists_virtualAddress h hfits hl hmem.2 hlive
    refine ⟨v, hv, ?_⟩
    rw [← hlength, List.getElem?_append_right (Nat.le_add_right _ _), Nat.add_sub_cancel_left,
      hget, hn, Option.bind_some, SymbolTable.fakeGlobal, hv]
    rfl

theorem link_exports_sample : ∃ l E gs, sample.linked.layout sample.Entry = .ok l ∧
    sample.linked.calculateExports sample.Entry = some E ∧
    sample.linked.definedGlobals sample.Entry l = some gs := by
  obtain ⟨l, E, gs, hl, hE, hgs, -⟩ := @link_exports sample (by decide +kernel) (by decide +kernel)
  exact ⟨l, E, gs, hl, hE, hgs⟩

end Command

end FractalCdt.Linker
