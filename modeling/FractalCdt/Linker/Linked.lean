/-
# The table of a link without errors

What a name stands for in the end: a definition of an object that was read, one of
the linker's own, a body that traps, or an import.
-/

import FractalCdt.Linker.MarkLive

namespace FractalCdt.Linker

open FractalCdt.Math

theorem Symbol.isWeakUndefinedFunction_iff {S : Symbol} : S.isWeakUndefinedFunction ↔
    S.isWeak ∧ ∃ Sig, S.content = .undefined (.function (some Sig)) := by
  unfold isWeakUndefinedFunction isWeak
  split
  case h_1 => exact iff_of_true rfl ⟨rfl, _, rfl⟩
  case h_2 hnot =>
    refine iff_of_false Bool.false_ne_true ?_
    obtain ⟨⟨binding, hidden⟩, File, used, content⟩ := S
    rintro ⟨hweak, Sig, rfl⟩
    obtain rfl : binding = .bindingWeak := of_decide_eq_true hweak
    exact hnot _ _ _ _ rfl

namespace SymbolTable

variable {t : SymbolTable} {n Name : String} {IsHidden : Bool}

theorem find_setHidden : (t.setHidden Name IsHidden).find n =
    if n = Name then
      (t.find Name).map fun S => { S with Flags := { S.Flags with hidden := IsHidden } }
    else t.find n := by
  unfold setHidden
  cases hS : t.find Name with
  | some S => exact find_replaceSymbol ..
  | none =>
      by_cases hn : n = Name
      · rw [if_pos hn, hn]
        exact hS
      · rw [if_neg hn]

theorem content?_setHidden (Sym : SymbolRef) :
    (t.setHidden Name IsHidden).content? Sym = t.content? Sym := by
  cases Sym with
  | own => rfl
  | table n =>
      show ((t.setHidden Name IsHidden).find n).map _ = (t.find n).map _
      rw [find_setHidden]
      split
      case isTrue hn =>
        rw [hn]
        cases t.find Name <;> rfl
      case isFalse => rfl

theorem setHidden_frame : (t.setHidden Name IsHidden).ObjectFiles = t.ObjectFiles ∧
    (t.setHidden Name IsHidden).SyntheticFunctions = t.SyntheticFunctions := by
  unfold setHidden
  split <;> exact ⟨rfl, rfl⟩

end SymbolTable

namespace Command

variable (cmd : Command)

def linked : SymbolTable := cmd.handled.setHidden cmd.Entry false

/-- There are no errors. -/
structure Links : Prop where
  errors : cmd.load.table.errors = []
  report : cmd.handled.reportRemainingUndefines cmd = []

instance : Decidable cmd.Links :=
  decidable_of_iff (cmd.load.table.errors = [] ∧ cmd.handled.reportRemainingUndefines cmd = [])
    ⟨fun h => ⟨h.1, h.2⟩, fun h => ⟨h.1, h.2⟩⟩

theorem resolve_eq_ok_iff {t : SymbolTable} :
    cmd.resolve = .ok t ↔ cmd.Links ∧ t = cmd.linked := by
  unfold resolve
  constructor
  · intro h
    split at h
    · cases h
    case isFalse herrors =>
      split at h
      case h_1 hreport =>
        cases h
        exact ⟨⟨not_not.mp herrors, hreport⟩, rfl⟩
      · cases h
  · rintro ⟨⟨herrors, hreport⟩, rfl⟩
    rw [if_neg (not_not.mpr herrors), hreport]
    rfl

variable {cmd} {n : String}

theorem ObjectFiles_linked : cmd.linked.ObjectFiles = cmd.ObjectFiles :=
  SymbolTable.setHidden_frame.1.trans (SymbolTable.handleWeakUndefines_frame _).1

/-- What is live is what a chain of relocations leads to from the entry, the constructors, a
visible symbol or an init function; and the stack pointer. -/
theorem link_live (cmd : Command) (key : LiveKey) : key ∈ cmd.linked.live cmd.Entry ↔
    key = .global .stackPointer ∨
      ∃ root ∈ cmd.linked.roots cmd.Entry, Relation.ReflTransGen cmd.linked.Refers root key :=
  SymbolTable.mem_live_iff

/-- The objects read are told apart by their files. -/
theorem file?_linked {F : ParsedFile} (hF : F ∈ cmd.ObjectFiles) :
    cmd.linked.file? F.id = some F := by
  unfold SymbolTable.file?
  rw [ObjectFiles_linked]
  exact find?_of_nodup cmd.ids_load hF

theorem SyntheticFunctions_linked : cmd.syntheticFunctions <+: cmd.linked.SyntheticFunctions := by
  unfold linked handled
  rw [SymbolTable.setHidden_frame.2, ← cmd.SyntheticFunctions_load]
  exact SymbolTable.prefix_foldl_handleWeakUndefine _

/-- The linker's functions besides its own two have a body that traps. -/
theorem mem_SyntheticFunctions {f : SyntheticFunction} (hf : f ∈ cmd.linked.SyntheticFunctions) :
    f ∈ cmd.syntheticFunctions ∨
      ∃ n Sig, f = ⟨n, Sig, SymbolTable.UnreachableFn, some 0⟩ := by
  have hfold (names : List String) (t : SymbolTable)
      (hmem : f ∈ (names.foldl SymbolTable.handleWeakUndefine t).SyntheticFunctions) :
      f ∈ t.SyntheticFunctions ∨ ∃ n Sig, f = ⟨n, Sig, SymbolTable.UnreachableFn, some 0⟩ := by
    induction names generalizing t with
    | nil => exact .inl hmem
    | cons Name names ih =>
        rcases ih _ hmem with hstep | hdummy
        · unfold SymbolTable.handleWeakUndefine at hstep
          split at hstep
          · rcases List.mem_append.mp hstep with hold | hnew
            · exact .inl hold
            · exact .inr ⟨_, _, List.mem_singleton.mp hnew⟩
          · exact .inl hstep
        · exact .inr hdummy
  unfold linked handled at hf
  rw [SymbolTable.setHidden_frame.2] at hf
  rw [← cmd.SyntheticFunctions_load]
  exact hfold _ _ hf

/-- What is still undefined is as it was when the files were read. -/
theorem find_load_of_isUndefined {S : Symbol} (hS : cmd.linked.find n = some S)
    (hund : S.isUndefined) : cmd.load.table.find n = some S := by
  have hhandled (S' : Symbol) (hS' : cmd.handled.find n = some S') (hund' : S'.isUndefined) :
      cmd.load.table.find n = some S' := by
    rcases SymbolTable.find_handleWeakUndefines (t := cmd.load.table) (n := n) with
      ⟨-, S₀, -, -, hdummy, hfind⟩ | ⟨-, hfind⟩
    · cases hfind.symm.trans hS'
      exact absurd hund' (Symbol.not_isUndefined_of_isDefined hdummy.isDefined)
    · exact hfind.symm.trans hS'
  rw [linked, SymbolTable.find_setHidden] at hS
  split at hS
  case isFalse => exact hhandled S hS hund
  case isTrue hn =>
    -- the entry is defined
    obtain ⟨S', hS', rfl⟩ := Option.map_eq_some_iff.mp hS
    obtain ⟨S₀, hS₀, hdef⟩ := cmd.find_load_entry
    cases hS₀.symm.trans (hn ▸ hhandled S' (hn ▸ hS') hund)
    exact absurd hund (Symbol.not_isUndefined_of_isDefined hdef)

/-! ## Definitions -/

/-- A definition entered under the name by an object that was read. -/
def DefinedIn (cmd : Command) (n : String) (d : Definition) : Prop :=
  ∃ F ∈ cmd.ObjectFiles, ∃ sym ∈ F.obj.symbols, sym.Name = n ∧ ¬ sym.isBindingLocal ∧
    F.createDefined sym = some d

theorem definition_of_mem_offers {o : Offer} (h : o ∈ cmd.offers n) :
    cmd.DefinedIn n o.definition ∨ ∃ flags, (n, flags, o.definition) ∈ cmd.syntheticSymbols := by
  unfold offers Loading.offers at h
  rw [List.mem_append, Option.mem_toList, List.mem_filterMap] at h
  rcases h with hstart | ⟨task, hdone, hoffer⟩
  · obtain ⟨S, hS, hoffer⟩ := Option.bind_eq_some_iff.mp hstart
    rcases cmd.starts_startTable hS with ⟨flags, d, used, hmem, rfl⟩ | ⟨-, rfl⟩
    · cases hoffer
      exact .inr ⟨flags, hmem⟩
    · cases hoffer
  · obtain ⟨F, sym, d, rfl, hn, hlocal, hd, rfl⟩ := Task.offer?_eq_some_iff.mp hoffer
    obtain ⟨hF, hsym⟩ := cmd.symbol_mem_done.mp hdone
    exact .inl ⟨F, hF, sym, hsym, hn, hlocal, hd⟩

theorem mem_of_chosen {L : List Offer} {o : Offer} (h : chosen L = some o) : o ∈ L := by
  rcases Option.or_eq_some_iff.mp h with hfind | ⟨-, hhead⟩
  · exact List.mem_of_find?_eq_some hfind
  · exact List.mem_of_head? hhead

/-- What a name stands for is from an object, the linker's own, or a body that traps. -/
theorem definition_linked (hlinks : cmd.Links) {d : Definition}
    (h : cmd.linked.content? (.table n) = some (.defined d)) :
    cmd.DefinedIn n d ∨ (∃ flags, (n, flags, d) ∈ cmd.syntheticSymbols) ∨
      ∃ i Sig, d = .function (.synthetic i) ∧
        cmd.linked.SyntheticFunctions[i]? = some ⟨n, Sig, SymbolTable.UnreachableFn, some 0⟩ := by
  rw [linked, SymbolTable.content?_setHidden] at h
  obtain ⟨S, hS, hcontent⟩ := Option.map_eq_some_iff.mp h
  rcases SymbolTable.find_handleWeakUndefines (t := cmd.load.table) (n := n) with
    ⟨-, S', -, -, ⟨used, i, Sig, rfl, hi⟩, hfind⟩ | ⟨-, hfind⟩
  · cases hfind.symm.trans hS
    cases hcontent
    refine .inr (.inr ⟨i, Sig, rfl, ?_⟩)
    rw [linked, SymbolTable.setHidden_frame.2]
    exact hi
  · have hresolution : cmd.resolution n = some ⟨S.Flags, S.File, d⟩ := by
      rw [resolution, ← hfind]
      show (cmd.handled.find n).bind _ = _
      rw [hS, Option.bind_some, Symbol.offer?, hcontent]
    rw [(cmd.resolution_eq_chosen hlinks.errors n).1] at hresolution
    exact (definition_of_mem_offers (mem_of_chosen hresolution)).imp_right .inl

/-! ## Kinds -/

end Command

inductive Kind
  | function
  | data
  | global
  deriving DecidableEq, Repr

def Wanted.kind : Wanted → Kind
  | .function _ => .function
  | .data => .data
  | .global _ => .global

def Element.kind : Element → Kind
  | .function _ => .function
  | .data .. => .data
  | .global .. => .global

def WasmSymbol.kind (sym : WasmSymbol) : Kind :=
  match sym.Info with
  | .defined e => e.kind
  | .undefined w => w.kind

def Definition.kind : Definition → Kind
  | .function _ => .function
  | .data .. => .data
  | .global .. => .global

/-- A lazy symbol is of no kind. -/
def Content.kind? : Content → Option Kind
  | .defined d => some d.kind
  | .undefined w => some w.kind
  | .lazy .. => none

namespace ParsedFile

variable {F : ParsedFile} {sym : WasmSymbol} {n : String}

theorem kind_wanted (F : ParsedFile) (sym : WasmSymbol) : (F.wanted sym).kind = sym.kind := by
  unfold wanted WasmSymbol.kind
  cases sym.Info with
  | undefined w => rfl
  | defined e => cases e <;> rfl

theorem kind_createDefined {d : Definition} (h : F.createDefined sym = some d) :
    d.kind = sym.kind := by
  unfold createDefined at h
  unfold WasmSymbol.kind
  cases hinfo : sym.Info with
  | undefined w =>
      rw [hinfo] at h
      cases h
  | defined e =>
      rw [hinfo] at h
      cases e with
      | global Index GlobalType =>
          cases h
          rfl
      | function Index =>
          obtain ⟨Func, -, hd⟩ := Option.bind_eq_some_iff.mp h
          split at hd
          · cases hd
          · cases hd
            rfl
      | data Segment Offset Size =>
          obtain ⟨Seg, -, hd⟩ := Option.bind_eq_some_iff.mp h
          split at hd
          · cases hd
          · cases hd
            rfl

theorem tableName?_eq_some_iff : F.tableName? sym = some n ↔
    sym.Name = n ∧ (¬ sym.isBindingLocal ∨ F.createDefined sym = none) := by
  unfold tableName?
  rw [← Option.not_isSome_iff_eq_none, ← not_and_or]
  split
  case isTrue h => exact iff_of_false nofun fun ⟨_, hnot⟩ => hnot h
  case isFalse h => rw [Option.some.injEq, and_iff_left h]

/-- A function that an object asks for has a type. -/
theorem isSome_of_wanted (hsym : sym ∈ F.obj.symbols) {FunctionType : Option WasmSignature}
    (h : F.wanted sym = .function FunctionType) : FunctionType.isSome := by
  have hvalid := F.obj.elements sym hsym
  obtain ⟨Name, flags, Info⟩ := sym
  cases Info with
  | undefined w =>
      obtain rfl : w = .function FunctionType := h
      exact hvalid
  | defined e =>
      cases e with
      | data | global => cases h
      | function Index =>
          cases h
          rw [List.getElem?_eq_getElem hvalid]
          rfl

/-- No object asks for a weak global. -/
theorem not_global_of_weak (hsym : sym ∈ F.obj.symbols) (hd : F.createDefined sym = none)
    (hweak : sym.Flags.binding = .bindingWeak) : sym.kind ≠ .global := by
  have hvalid := F.obj.elements sym hsym
  obtain ⟨Name, flags, Info⟩ := sym
  cases Info with
  | undefined w =>
      cases w with
      | function | data => exact nofun
      | global => exact absurd hweak hvalid
  | defined e =>
      cases e with
      | function | data => exact nofun
      | global => cases hd

end ParsedFile

namespace Command

variable (cmd : Command)

/-- The names in the table with what they are used as. -/
def uses : List (String × Kind) :=
  (cmd.syntheticSymbols.map fun e => (e.1, e.2.2.kind)) ++
    (cmd.undefined.map fun n => (n, .function)) ++
    cmd.ObjectFiles.flatMap fun F => F.obj.symbols.filterMap fun sym =>
      (F.tableName? sym).map fun n => (n, sym.kind)

/-- A name is used as what it is, in all objects read. -/
def Typed : Prop := ∀ x ∈ cmd.uses, ∀ y ∈ cmd.uses, x.1 = y.1 → x.2 = y.2

instance : Decidable cmd.Typed := by
  unfold Typed
  infer_instance

variable {cmd} {n : String}

theorem mem_uses_of_symbol {F : ParsedFile} (hF : F ∈ cmd.ObjectFiles) {sym : WasmSymbol}
    (hsym : sym ∈ F.obj.symbols) (hname : F.tableName? sym = some n) : (n, sym.kind) ∈ cmd.uses :=
  List.mem_append_right _ (List.mem_flatMap.mpr ⟨F, hF, List.mem_filterMap.mpr
    ⟨sym, hsym, Option.map_eq_some_iff.mpr ⟨n, hname, rfl⟩⟩⟩)

theorem mem_uses_of_reference {r : Reference} (h : r ∈ cmd.references n) :
    (n, r.wanted.kind) ∈ cmd.uses := by
  rcases cmd.mem_references_iff.mp h with ⟨hforced, rfl⟩ | ⟨F, hF, sym, hsym, hd, hn, rfl⟩
  · exact List.mem_append_left _ (List.mem_append_right _
      (List.mem_map.mpr ⟨n, hforced, rfl⟩))
  · show (n, (F.wanted sym).kind) ∈ cmd.uses
    rw [F.kind_wanted]
    exact mem_uses_of_symbol hF hsym (ParsedFile.tableName?_eq_some_iff.mpr ⟨hn, .inr hd⟩)

theorem mem_uses_of_offer {o : Offer} (h : o ∈ cmd.offers n) :
    (n, o.definition.kind) ∈ cmd.uses := by
  rcases definition_of_mem_offers h with ⟨F, hF, sym, hsym, hn, hlocal, hd⟩ | ⟨flags, hmem⟩
  · rw [ParsedFile.kind_createDefined hd]
    exact mem_uses_of_symbol hF hsym (ParsedFile.tableName?_eq_some_iff.mpr ⟨hn, .inl hlocal⟩)
  · exact List.mem_append_left _ (List.mem_append_left _ (List.mem_map.mpr ⟨_, hmem, rfl⟩))

/-- What a symbol is when all files are read, it is used as. -/
theorem mem_uses_of_load (hlinks : cmd.Links) {S : Symbol} {k : Kind}
    (hS : cmd.load.table.find n = some S) (hk : S.content.kind? = some k) :
    (n, k) ∈ cmd.uses := by
  cases hcontent : S.content with
  | lazy i m =>
      rw [hcontent] at hk
      cases hk
  | defined d =>
      rw [hcontent] at hk
      cases hk
      have hresolution : cmd.resolution n = some ⟨S.Flags, S.File, d⟩ := by
        rw [resolution, hS, Option.bind_some, Symbol.offer?, hcontent]
      rw [(cmd.resolution_eq_chosen hlinks.errors n).1] at hresolution
      exact mem_uses_of_offer (mem_of_chosen hresolution)
  | undefined w =>
      rw [hcontent] at hk
      cases hk
      have hmade := cmd.made_load n
      rw [hS] at hmade
      obtain ⟨r, hhead, rfl⟩ := hmade (Symbol.isUndefined_iff.mpr ⟨w, hcontent⟩)
      cases hcontent
      exact mem_uses_of_reference (List.mem_of_head? hhead)

/-! ## What the names of an object stand for -/

/-- A name that an object refers to or defines is not lazy in the end. -/
theorem find_load_of_symbol (hindexed : cmd.Indexed) (hcoherent : cmd.Coherent) {F : ParsedFile}
    (hF : F ∈ cmd.ObjectFiles) {sym : WasmSymbol} (hsym : sym ∈ F.obj.symbols)
    (hname : F.tableName? sym = some n) :
    ∃ S, cmd.load.table.find n = some S ∧
      (S.isDefined ∨ S.isUndefined ∧ F.createDefined sym = none) := by
  obtain ⟨rfl, hcase⟩ := ParsedFile.tableName?_eq_some_iff.mp hname
  cases hd : F.createDefined sym with
  | some d =>
      have hlocal : ¬ sym.isBindingLocal := hcase.resolve_right (by rw [hd]; exact nofun)
      obtain ⟨S, hS, hdef⟩ := isDefined_of_createDefined hF hsym hlocal (by rw [hd]; rfl)
      exact ⟨S, hS, .inl hdef⟩
  | none =>
      have hasks : cmd.Asks cmd.load.done sym.Name :=
        cmd.asks_load_iff.mpr (.inr ⟨F, hF, sym, hsym, hd, rfl⟩)
      by_cases hoffers : cmd.offers sym.Name = []
      · obtain ⟨S, hS, hund⟩ := cmd.isUndefined_of_asks hindexed hcoherent hasks hoffers
        exact ⟨S, hS, .inr ⟨hund, rfl⟩⟩
      · obtain ⟨S, hS, hdef⟩ := cmd.isDefined_iff_offers.mpr hoffers
        exact ⟨S, hS, .inl hdef⟩

theorem kind_of_isSome {S : Symbol} (h : S.isDefined ∨ S.isUndefined) :
    ∃ k, S.content.kind? = some k := by
  rcases h with hdef | hund
  · obtain ⟨d, hd⟩ := Symbol.isDefined_iff.mp hdef
    exact ⟨d.kind, by rw [hd]; rfl⟩
  · obtain ⟨w, hw⟩ := Symbol.isUndefined_iff.mp hund
    exact ⟨w.kind, by rw [hw]; rfl⟩

/-- A weak symbol that is still undefined is a function that gets a body, or data. -/
theorem weak_of_isUndefined {S : Symbol} (hS : cmd.load.table.find n = some S)
    (hund : S.isUndefined) (hweak : S.isWeak) :
    S.isWeakUndefinedFunction ∨ S.content = .undefined .data := by
  have hmade := cmd.made_load n
  rw [hS] at hmade
  obtain ⟨r, hhead, rfl⟩ := hmade hund
  rcases cmd.mem_references_iff.mp (List.mem_of_head? hhead) with
    ⟨-, rfl⟩ | ⟨F, hF, sym, hsym, hd, -, rfl⟩
  · cases hweak
  · rw [Symbol.isWeakUndefinedFunction_iff, and_iff_right hweak]
    cases hwanted : F.wanted sym with
    | data => exact .inr rfl
    | function FunctionType =>
        obtain ⟨Sig, rfl⟩ := Option.isSome_iff_exists.mp (ParsedFile.isSome_of_wanted hsym hwanted)
        exact .inl ⟨Sig, rfl⟩
    | global GlobalType =>
        refine absurd ?_ (ParsedFile.not_global_of_weak hsym hd (of_decide_eq_true hweak))
        rw [← F.kind_wanted, hwanted]
        rfl

/-- What the later stages of the link rely on: there are no errors, the index of each archive
is true, copies of a group agree, and a name is used as what it is. -/
structure Regular (cmd : Command) : Prop where
  links : cmd.Links
  indexed : cmd.Indexed
  coherent : cmd.Coherent
  typed : cmd.Typed

instance : Decidable cmd.Regular :=
  decidable_of_iff (cmd.Links ∧ cmd.Indexed ∧ cmd.Coherent ∧ cmd.Typed)
    ⟨fun h => ⟨h.1, h.2.1, h.2.2.1, h.2.2.2⟩, fun h => ⟨h.1, h.2, h.3, h.4⟩⟩

/-- What a name of an object stands for: something of its kind, and if that is an import,
the import is wanted. -/
theorem find_linked (h : cmd.Regular) {F : ParsedFile} (hF : F ∈ cmd.ObjectFiles)
    {sym : WasmSymbol} (hsym : sym ∈ F.obj.symbols) (hname : F.tableName? sym = some n) :
    ∃ S, cmd.linked.find n = some S ∧ S.content.kind? = some sym.kind ∧
      (S.isUndefined → sym.kind ≠ .data → ¬ S.isWeak ∧ S.IsUsedInRegularObj) := by
  obtain ⟨S, hS, hcase⟩ := find_load_of_symbol h.indexed h.coherent hF hsym hname
  obtain ⟨k, hk⟩ := kind_of_isSome (hcase.imp_right And.left)
  have hkind : k = sym.kind :=
    h.typed _ (mem_uses_of_load h.links hS hk) _ (mem_uses_of_symbol hF hsym hname) rfl
  subst hkind
  -- what is left of it when weak functions have a body
  have hhandled : ∃ S, cmd.handled.find n = some S ∧ S.content.kind? = some sym.kind ∧
      (S.isUndefined → sym.kind ≠ .data → ¬ S.isWeak ∧ S.IsUsedInRegularObj) := by
    rcases SymbolTable.find_handleWeakUndefines (t := cmd.load.table) (n := n) with
      ⟨S₁, S', hS₁, hweak, ⟨used, i, Sig, rfl, -⟩, hfind⟩ | ⟨hout, hfind⟩
    · cases hS.symm.trans hS₁
      obtain ⟨-, Sig', hcontent⟩ := Symbol.isWeakUndefinedFunction_iff.mp hweak
      rw [hcontent] at hk
      exact ⟨_, hfind, hk, nofun⟩
    · refine ⟨S, hfind.trans hS, hk, fun hund hdata => ⟨fun hweak => ?_, ?_⟩⟩
      · rcases weak_of_isUndefined hS hund hweak with hfunction | hcontent
        · exact hout S hS hfunction
        · rw [hcontent] at hk
          exact hdata (Option.some.inj hk).symm
      · have hd : F.createDefined sym = none :=
          hcase.elim (fun hdef => absurd hund (Symbol.not_isUndefined_of_isDefined hdef)) And.right
        have hmade := cmd.made_load n
        rw [hS] at hmade
        obtain ⟨r, -, rfl⟩ := hmade hund
        refine List.any_eq_true.mpr ⟨_, cmd.mem_references_iff.mpr (.inr ⟨F, hF, sym, hsym, hd,
          (ParsedFile.tableName?_eq_some_iff.mp hname).1, rfl⟩), decide_eq_true fun hwanted => ?_⟩
        exact hdata (F.kind_wanted sym ▸ congrArg Wanted.kind hwanted)
  obtain ⟨S', hS', hkind, hwanted⟩ := hhandled
  rw [linked, SymbolTable.find_setHidden]
  split
  case isFalse => exact ⟨S', hS', hkind, hwanted⟩
  case isTrue hn =>
    rw [← hn, hS']
    exact ⟨_, rfl, hkind, hwanted⟩

/-! ## What the symbols of an object stand for -/

end Command

namespace SymbolTable

variable (t : SymbolTable)

/-- The functions in the order in which `assignIndexes` comes to them. -/
def functionIds : List FunctionId :=
  (List.range t.SyntheticFunctions.length).map .synthetic ++
    t.ObjectFiles.flatMap fun File => (List.range File.obj.Functions.length).map (.input File.id)

/-- The globals, in the same order. -/
def globalIds : List GlobalId :=
  .stackPointer ::
    t.ObjectFiles.flatMap fun File => (List.range File.obj.Globals.length).map (.input File.id)

/-- What is defined is there. -/
def Valid : Definition → Prop
  | .function Function => Function ∈ t.functionIds
  | .data none _ _ => True
  | .data (some ⟨File, i⟩) Offset Size => ∃ F, t.file? File = some F ∧
      ∃ Seg, F.obj.Segments[i]? = some Seg ∧ (Offset + Size).toNat ≤ Seg.data.length
  | .global Global _ => Global ∈ t.globalIds

/-- A symbol of an object is something of a kind; an import is not weak and is used. -/
structure Stands (Sym : SymbolRef) (k : Kind) : Prop where
  content : ∃ c, t.content? Sym = some c ∧ c.kind? = some k
  valid : ∀ d, t.content? Sym = some (.defined d) → t.Valid d
  wanted : ∀ w, t.content? Sym = some (.undefined w) → ∃ n S, Sym = .table n ∧ t.find n = some S ∧
    S.content = .undefined w ∧ (k ≠ .data → ¬ S.isWeak ∧ S.IsUsedInRegularObj)

end SymbolTable

theorem ParsedFile.getSymbol_cases {F : ParsedFile} {Index : ℕ} {sym : WasmSymbol}
    (h : F.obj.symbols[Index]? = some sym) :
    (∃ d, F.getSymbol Index = some (.own d) ∧ F.createDefined sym = some d) ∨
      F.getSymbol Index = some (.table sym.Name) ∧ F.tableName? sym = some sym.Name := by
  unfold getSymbol
  rw [h, Option.map_some]
  cases hd : F.createDefined sym with
  | none => exact .inr ⟨rfl, tableName?_eq_some_iff.mpr ⟨rfl, .inr hd⟩⟩
  | some d =>
      dsimp only
      split
      case isTrue => exact .inl ⟨d, rfl, rfl⟩
      case isFalse hlocal => exact .inr ⟨rfl, tableName?_eq_some_iff.mpr ⟨rfl, .inl hlocal⟩⟩

namespace Command

variable {cmd : Command} {n : String}

theorem valid_createDefined {F : ParsedFile} (hF : F ∈ cmd.ObjectFiles) {sym : WasmSymbol}
    (hsym : sym ∈ F.obj.symbols) {d : Definition} (hd : F.createDefined sym = some d) :
    cmd.linked.Valid d := by
  have hobjects : F ∈ cmd.linked.ObjectFiles := ObjectFiles_linked ▸ hF
  have hvalid := F.obj.elements sym hsym
  obtain ⟨Name, flags, Info⟩ := sym
  cases Info with
  | undefined w => cases hd
  | defined e =>
      cases e with
      | global Index GlobalType =>
          cases hd
          obtain ⟨Global, hGlobal, -⟩ := Option.map_eq_some_iff.mp hvalid
          have hlt : Index < F.obj.Globals.length := (List.getElem?_eq_some_iff.mp hGlobal).1
          exact List.mem_cons_of_mem _ (List.mem_flatMap.mpr
            ⟨F, hobjects, List.mem_map_of_mem (List.mem_range.mpr hlt)⟩)
      | function Index =>
          obtain ⟨Func, -, hd⟩ := Option.bind_eq_some_iff.mp hd
          split at hd
          · cases hd
          · cases hd
            exact List.mem_append_right _ (List.mem_flatMap.mpr
              ⟨F, hobjects, List.mem_map_of_mem (List.mem_range.mpr hvalid)⟩)
      | data Segment Offset Size =>
          obtain ⟨Seg, hSeg, hd⟩ := Option.bind_eq_some_iff.mp hd
          split at hd
          · cases hd
          · cases hd
            obtain ⟨Seg', hSeg', hsize⟩ := hvalid
            cases hSeg.symm.trans hSeg'
            exact ⟨F, file?_linked hF, Seg, hSeg, hsize⟩

theorem mem_functionIds_synthetic {i : ℕ} (hi : i < cmd.linked.SyntheticFunctions.length) :
    .synthetic i ∈ cmd.linked.functionIds :=
  List.mem_append_left _ (List.mem_map_of_mem (List.mem_range.mpr hi))

theorem valid_linked (hlinks : cmd.Links) {d : Definition}
    (h : cmd.linked.content? (.table n) = some (.defined d)) : cmd.linked.Valid d := by
  rcases definition_linked hlinks h with
    ⟨F, hF, sym, hsym, -, -, hd⟩ | ⟨flags, hmem⟩ | ⟨i, Sig, rfl, hi⟩
  · exact valid_createDefined hF hsym hd
  · have hlength : 2 ≤ cmd.linked.SyntheticFunctions.length :=
      (SyntheticFunctions_linked).length_le
    simp only [syntheticSymbols, List.mem_cons, List.not_mem_nil, or_false, Prod.mk.injEq] at hmem
    rcases hmem with
      ⟨-, -, rfl⟩ | ⟨-, -, rfl⟩ | ⟨-, -, rfl⟩ | ⟨-, -, rfl⟩ | ⟨-, -, rfl⟩ | ⟨-, -, rfl⟩
    · exact mem_functionIds_synthetic (by omega)
    · exact mem_functionIds_synthetic (by omega)
    · exact List.mem_cons_self
    all_goals trivial
  · exact mem_functionIds_synthetic (List.getElem?_eq_some_iff.mp hi).1

/-- Every symbol of an object stands for something of its kind. -/
theorem stands_linked (h : cmd.Regular) {F : ParsedFile} (hF : F ∈ cmd.ObjectFiles) {Index : ℕ}
    {sym : WasmSymbol} (hsym : F.obj.symbols[Index]? = some sym) :
    ∃ Sym, F.getSymbol Index = some Sym ∧ cmd.linked.Stands Sym sym.kind := by
  have hmem := List.mem_of_getElem? hsym
  rcases F.getSymbol_cases hsym with ⟨d, hown, hd⟩ | ⟨htable, hname⟩
  · refine ⟨_, hown, ⟨_, rfl, congrArg some (ParsedFile.kind_createDefined hd)⟩,
      fun d' hd' => ?_, nofun⟩
    cases hd'
    exact valid_createDefined hF hmem hd
  · obtain ⟨S, hS, hkind, hwanted⟩ := find_linked h hF hmem hname
    have hcontent : cmd.linked.content? (.table sym.Name) = some S.content :=
      congrArg (Option.map _) hS
    refine ⟨_, htable, ⟨_, hcontent, hkind⟩, fun d => valid_linked h.links, fun w hw => ?_⟩
    have hundefined : S.content = .undefined w := Option.some.inj (hcontent.symm.trans hw)
    exact ⟨_, S, rfl, hS, hundefined, hwanted (Symbol.isUndefined_iff.mpr ⟨w, hundefined⟩)⟩

end Command

end FractalCdt.Linker
