/-
# What stays undefined

When all files are read, an undefined function whose first reference is weak gets a
body that traps, and other undefined names are reported.  Which ones depends on the
order of the files: the first reference to a name decides whether it counts as weak.
A name that only data references ask for is never reported.
-/

import FractalCdt.Linker.Archives
import FractalCdt.Linker.Resolution

namespace FractalCdt.Linker

open FractalCdt.Math

/-! ## The references to a name -/

structure Reference where
  Flags : Flags
  File : Option FileId
  wanted : Wanted
  deriving DecidableEq, Repr

def Reference.isWeak (r : Reference) : Bool := r.Flags.binding = .bindingWeak

/-- A reference to data does not set `IsUsedInRegularObj`. -/
def Reference.counts (r : Reference) : Bool := r.wanted ≠ .data

/-- The reference that a call makes to a name. -/
def Task.reference? (n : String) : Task → Option Reference
  | .symbol F sym =>
      if n = sym.Name ∧ F.createDefined sym = none then some ⟨sym.Flags, some F.id, F.wanted sym⟩
      else none
  | _ => none

namespace SymbolTable

variable (t : SymbolTable)

/-! ## Weak undefined functions -/

/-- `UnreachableFn`: its size, no locals, `unreachable` and `end`. -/
def UnreachableFn : List Byte := [0x03, 0x00, 0x00, 0x0B]

/-- A body of its own for an undefined function, at index zero of the table. -/
def addDummy (Name : String) (Sig : WasmSignature) : SymbolTable :=
  { t.replaceSymbol Name ⟨Command.hidden, none, ((t.find Name).any (·.IsUsedInRegularObj)),
      .defined (.function (.synthetic t.SyntheticFunctions.length))⟩ with
    SyntheticFunctions := t.SyntheticFunctions ++ [⟨Name, Sig, UnreachableFn, some 0⟩] }

/-- The body of the loop of `handleWeakUndefines`. -/
def handleWeakUndefine (Name : String) : SymbolTable :=
  match t.find Name with
  | some ⟨⟨.bindingWeak, _⟩, _, _, .undefined (.function (some Sig))⟩ => t.addDummy Name Sig
  | _ => t

def handleWeakUndefines : SymbolTable := t.Symbols.keys.foldl handleWeakUndefine t

/-! ## Names that are reported -/

/-- `Undefs` of `reportRemainingUndefines`. -/
def Undefs (AllowUndefinedSymbols : List String) : List String :=
  t.Symbols.keys.filter fun n =>
    (t.find n).any (fun S => S.isUndefined && !S.isWeak && S.IsUsedInRegularObj) &&
      n ∉ AllowUndefinedSymbols && n ∉ t.allowed

end SymbolTable

/-- The name by which a symbol of an object is in the table; one that is local and
defined is not. -/
def ParsedFile.tableName? (F : ParsedFile) (sym : WasmSymbol) : Option String :=
  if sym.isBindingLocal ∧ (F.createDefined sym).isSome then none else some sym.Name

/-- `EntrySym->setHidden`. -/
def SymbolTable.setHidden (t : SymbolTable) (Name : String) (IsHidden : Bool) : SymbolTable :=
  match t.find Name with
  | none => t
  | some S => t.replaceSymbol Name { S with Flags := { S.Flags with hidden := IsHidden } }

def SymbolTable.reportRemainingUndefines (t : SymbolTable) (cmd : Command) : List LinkError :=
  let Undefs := t.Undefs cmd.AllowUndefinedSymbols
  (t.ObjectFiles.flatMap fun File =>
      ((File.obj.symbols.filterMap File.tableName?).filter (· ∈ Undefs)).map .undefinedSymbol) ++
    (Undefs.filter fun n => (t.find n).all (·.File.isNone) && n ≠ cmd.Entry).map .undefinedSymbol

namespace Command

variable (cmd : Command)

/-- The table when weak undefined functions have a body. -/
def handled : SymbolTable := cmd.load.table.handleWeakUndefines

/-- What the files are resolved to, or why there is no output. -/
def resolve : Except (List LinkError) SymbolTable :=
  if cmd.load.table.errors ≠ [] then .error cmd.load.table.errors
  else
    match cmd.handled.reportRemainingUndefines cmd with
    | [] => .ok (cmd.handled.setHidden cmd.Entry false)
    | errors => .error errors

/-- The references to a name, in the order in which they are entered. -/
def references (n : String) : List Reference :=
  (if n ∈ cmd.undefined then [⟨visible, none, .function none⟩] else []) ++
    cmd.load.done.filterMap (·.reference? n)

end Command

/-! ## An undefined symbol is its references -/

/-- The symbol that the references to a name make of it, as long as it is undefined. -/
def Made (old : Option Symbol) (refs : List Reference) : Prop :=
  match old with
  | none => refs = []
  | some S => S.isUndefined → ∃ r ∈ refs.head?,
      S = ⟨r.Flags, r.File, refs.any (·.counts), .undefined r.wanted⟩

section Effects

variable {n : String} {task : Task} {old : Option Symbol} {refs : List Reference}

theorem reference?_eq_some_iff {r : Reference} : task.reference? n = some r ↔
    ∃ F sym, task = .symbol F sym ∧ sym.Name = n ∧ F.createDefined sym = none ∧
      r = ⟨sym.Flags, some F.id, F.wanted sym⟩ := by
  cases task with
  | file | parsed | lazy => simp [Task.reference?]
  | symbol F sym =>
      show (if n = sym.Name ∧ F.createDefined sym = none then _ else _) = _ ↔ _
      constructor
      · intro h
        split at h
        case isFalse => cases h
        case isTrue hcond =>
          cases h
          exact ⟨F, sym, rfl, hcond.1.symm, hcond.2, rfl⟩
      · rintro ⟨F', sym', heq, hn, hd, rfl⟩
        cases heq
        exact if_pos ⟨hn.symm, hd⟩

theorem made_effect_of_some {r : Reference} (h : Made old refs) (hr : task.reference? n = some r) :
    Made (task.effect n old) (refs ++ [r]) := by
  obtain ⟨F, sym, rfl, hn, hd, rfl⟩ := reference?_eq_some_iff.mp hr
  have heffect : (Task.symbol F sym).effect n old = F.over sym old := if_pos hn.symm
  rw [heffect, ParsedFile.over, hd]
  cases old with
  | none =>
      obtain rfl : refs = [] := h
      exact fun _ => ⟨_, rfl, by simp [askedOver, Reference.counts]⟩
  | some S =>
      intro hund
      obtain ⟨r, hhead, hS⟩ := h hund
      refine ⟨r, ?_, ?_⟩
      · rw [List.head?_append, hhead]
        rfl
      · rw [hS, List.any_append]
        simp [askedOver, Reference.counts]

theorem made_effect_of_none (h : Made old refs) (hr : task.reference? n = none) :
    Made (task.effect n old) refs := by
  cases task with
  | file | parsed => exact h
  | lazy i Name m =>
      show Made (if n = Name then old.or (some (lazySymbol i m)) else old) refs
      split
      · cases old with
        | none => exact fun hund => by cases hund
        | some S => exact h
      · exact h
  | symbol F sym =>
      show Made (if n = sym.Name then F.over sym old else old) refs
      split
      case isFalse => exact h
      case isTrue hn =>
        cases hd : F.createDefined sym with
        | none =>
            rw [reference?_eq_some_iff.mpr ⟨F, sym, rfl, hn.symm, hd, rfl⟩] at hr
            cases hr
        | some d =>
            rw [ParsedFile.over, hd]
            dsimp only
            split
            · exact h
            · exact fun hund =>
                absurd hund (Symbol.not_isUndefined_of_isDefined definedOver_isDefined)

theorem made_after {tasks : List Task} (h : Made old refs) :
    Made (Loading.after n old tasks) (refs ++ tasks.filterMap (·.reference? n)) := by
  induction tasks generalizing old refs with
  | nil => simpa [Loading.after] using h
  | cons task tasks ih =>
      show Made (Loading.after n (task.effect n old) tasks) _
      cases hr : task.reference? n with
      | none =>
          rw [List.filterMap_cons_none hr]
          exact ih (made_effect_of_none h hr)
      | some r =>
          rw [List.filterMap_cons_some hr, List.append_cons]
          exact ih (made_effect_of_some h hr)

end Effects

namespace Command

variable (cmd : Command)

theorem made_load (n : String) : Made (cmd.load.table.find n) (cmd.references n) := by
  rw [cmd.kept_load.find]
  refine made_after ?_
  cases hstart : cmd.startTable.find n with
  | none =>
      refine if_neg fun hforced => ?_
      have hsome := cmd.find_startTable_isSome hforced
      rw [hstart] at hsome
      cases hsome
  | some S =>
      intro hund
      rcases cmd.starts_startTable hstart with ⟨flags, d, used, hmem, rfl⟩ | ⟨hforced, rfl⟩
      · cases hund
      · exact ⟨⟨visible, none, .function none⟩, by rw [if_pos hforced]; rfl, by
          rw [if_pos hforced]; rfl⟩

end Command

/-! ## Weak undefined functions are defined -/

/-- An undefined function whose first reference is weak. -/
def Symbol.isWeakUndefinedFunction (S : Symbol) : Bool :=
  match S with
  | ⟨⟨.bindingWeak, _⟩, _, _, .undefined (.function (some _))⟩ => true
  | _ => false

namespace SymbolTable

variable {t : SymbolTable} {n Name : String}

theorem handleWeakUndefine_of_not {S : Symbol} (hS : t.find Name = some S)
    (h : ¬ S.isWeakUndefinedFunction) : t.handleWeakUndefine Name = t := by
  unfold handleWeakUndefine
  rw [hS]
  split
  case h_1 heq =>
    cases heq
    exact absurd rfl h
  case h_2 => rfl

theorem handleWeakUndefine_of_none (hS : t.find Name = none) : t.handleWeakUndefine Name = t := by
  unfold handleWeakUndefine
  rw [hS]

theorem handleWeakUndefine_eq {S : Symbol} (hS : t.find Name = some S)
    (h : S.isWeakUndefinedFunction) : ∃ Sig, t.handleWeakUndefine Name = t.addDummy Name Sig := by
  unfold handleWeakUndefine
  rw [hS]
  unfold Symbol.isWeakUndefinedFunction at h
  split at h
  case h_1 => exact ⟨_, rfl⟩
  case h_2 => cases h

/-- The symbol of a name has a body that traps, and is at index zero of the table. -/
def IsDummy (t : SymbolTable) (Name : String) (S : Symbol) : Prop :=
  ∃ used i Sig, S = ⟨Command.hidden, none, used, .defined (.function (.synthetic i))⟩ ∧
    t.SyntheticFunctions[i]? = some ⟨Name, Sig, UnreachableFn, some 0⟩

theorem IsDummy.mono {t' : SymbolTable} {S : Symbol} (h : t.IsDummy Name S)
    (hextends : t.SyntheticFunctions <+: t'.SyntheticFunctions) : t'.IsDummy Name S := by
  obtain ⟨used, i, Sig, rfl, hi⟩ := h
  obtain ⟨rest, hrest⟩ := hextends
  refine ⟨used, i, Sig, rfl, ?_⟩
  rw [← hrest, List.getElem?_append_left (List.getElem?_eq_some_iff.mp hi).1]
  exact hi

theorem find_addDummy (Sig : WasmSignature) :
    ∃ S, (t.addDummy Name Sig).IsDummy Name S ∧
      (t.addDummy Name Sig).find n = if n = Name then some S else t.find n :=
  ⟨_, ⟨_, _, Sig, rfl, List.getElem?_concat_length⟩, find_replaceSymbol ..⟩

theorem prefix_handleWeakUndefine :
    t.SyntheticFunctions <+: (t.handleWeakUndefine Name).SyntheticFunctions := by
  unfold handleWeakUndefine
  split
  · exact List.prefix_append ..
  · exact List.prefix_rfl

theorem prefix_foldl_handleWeakUndefine (names : List String) :
    t.SyntheticFunctions <+: (names.foldl handleWeakUndefine t).SyntheticFunctions := by
  induction names generalizing t with
  | nil => exact List.prefix_rfl
  | cons Name names ih => exact prefix_handleWeakUndefine.trans ih

theorem find_handleWeakUndefine :
    (∃ S S', t.find n = some S ∧ S.isWeakUndefinedFunction ∧ n = Name ∧
      (t.handleWeakUndefine Name).IsDummy n S' ∧
      (t.handleWeakUndefine Name).find n = some S') ∨
    ((∀ S, t.find n = some S → S.isWeakUndefinedFunction → n ≠ Name) ∧
      (t.handleWeakUndefine Name).find n = t.find n) := by
  cases hS : t.find Name with
  | none =>
      rw [handleWeakUndefine_of_none hS]
      refine .inr ⟨?_, rfl⟩
      rintro S hfind - rfl
      rw [hS] at hfind
      cases hfind
  | some S =>
      by_cases hweak : S.isWeakUndefinedFunction
      · obtain ⟨Sig, heq⟩ := handleWeakUndefine_eq hS hweak
        obtain ⟨S', hdummy, hfind⟩ := find_addDummy (t := t) (n := n) Sig
        rw [heq, hfind]
        by_cases hn : n = Name
        · rw [if_pos hn]
          exact .inl ⟨S, S', hn ▸ hS, hweak, hn, hn ▸ hdummy, rfl⟩
        · rw [if_neg hn]
          exact .inr ⟨fun _ _ _ => hn, rfl⟩
      · rw [handleWeakUndefine_of_not hS hweak]
        refine .inr ⟨?_, rfl⟩
        rintro S₀ hfind hweak₀ rfl
        rw [hS] at hfind
        cases hfind
        exact hweak hweak₀

theorem IsDummy.isDefined {S : Symbol} (h : t.IsDummy n S) : S.isDefined := by
  obtain ⟨used, i, Sig, rfl, -⟩ := h
  rfl

theorem IsDummy.not_isWeakUndefinedFunction {S : Symbol} (h : t.IsDummy n S) :
    ¬ S.isWeakUndefinedFunction := by
  obtain ⟨used, i, Sig, rfl, -⟩ := h
  exact Bool.false_ne_true

/-- What the loop leaves under a name: a body for a weak undefined function among the
names, and else what was there. -/
theorem find_foldl_handleWeakUndefine (names : List String) :
    (∃ S S', t.find n = some S ∧ S.isWeakUndefinedFunction ∧ n ∈ names ∧
      (names.foldl handleWeakUndefine t).IsDummy n S' ∧
      (names.foldl handleWeakUndefine t).find n = some S') ∨
    ((∀ S, t.find n = some S → S.isWeakUndefinedFunction → n ∉ names) ∧
      (names.foldl handleWeakUndefine t).find n = t.find n) := by
  induction names generalizing t with
  | nil => exact .inr ⟨fun _ _ _ => List.not_mem_nil, rfl⟩
  | cons Name names ih =>
      rw [List.foldl_cons]
      rcases find_handleWeakUndefine (t := t) (n := n) with
        ⟨S, S', hS, hweak, hn, hdummy, hfind⟩ | ⟨hnot, hfind⟩
      · rcases ih (t := t.handleWeakUndefine Name) with ⟨S₁, -, hS₁, hweak₁, -⟩ | ⟨-, hrest⟩
        · rw [hfind] at hS₁
          cases hS₁
          exact absurd hweak₁ hdummy.not_isWeakUndefinedFunction
        · rw [hrest]
          exact .inl ⟨S, S', hS, hweak, hn ▸ List.mem_cons_self,
            hdummy.mono (prefix_foldl_handleWeakUndefine names), hfind⟩
      · rcases ih (t := t.handleWeakUndefine Name) with
          ⟨S, S', hS, hweak, hmem, hdummy, hrest⟩ | ⟨hout, hrest⟩
        · rw [hfind] at hS
          exact .inl ⟨S, S', hS, hweak, List.mem_cons_of_mem _ hmem, hdummy, hrest⟩
        · rw [hrest, hfind]
          rw [hfind] at hout
          refine .inr ⟨fun S hS hweak hmem => ?_, rfl⟩
          exact (List.mem_cons.mp hmem).elim (hnot S hS hweak) (hout S hS hweak)

/-- After `handleWeakUndefines` no undefined function is weak. -/
theorem find_handleWeakUndefines :
    (∃ S S', t.find n = some S ∧ S.isWeakUndefinedFunction ∧
      t.handleWeakUndefines.IsDummy n S' ∧ t.handleWeakUndefines.find n = some S') ∨
    ((∀ S, t.find n = some S → ¬ S.isWeakUndefinedFunction) ∧
      t.handleWeakUndefines.find n = t.find n) := by
  rcases find_foldl_handleWeakUndefine (t := t) (n := n) t.Symbols.keys with
    ⟨S, S', hS, hweak, -, hrest⟩ | ⟨hout, hrest⟩
  · exact .inl ⟨S, S', hS, hweak, hrest⟩
  · refine .inr ⟨fun S hS hweak => hout S hS hweak ?_, hrest⟩
    rw [t.Symbols.mem_keys]
    exact Option.isSome_iff_exists.mpr ⟨S, hS⟩

/-- The loop changes nothing else. -/
theorem handleWeakUndefines_frame (t : SymbolTable) :
    t.handleWeakUndefines.ObjectFiles = t.ObjectFiles ∧
      t.handleWeakUndefines.allowed = t.allowed := by
  have hstep (t : SymbolTable) (Name : String) :
      (t.handleWeakUndefine Name).ObjectFiles = t.ObjectFiles ∧
        (t.handleWeakUndefine Name).allowed = t.allowed := by
    unfold handleWeakUndefine
    split <;> exact ⟨rfl, rfl⟩
  have hfold (names : List String) (t : SymbolTable) :
      (names.foldl handleWeakUndefine t).ObjectFiles = t.ObjectFiles ∧
        (names.foldl handleWeakUndefine t).allowed = t.allowed := by
    induction names generalizing t with
    | nil => exact ⟨rfl, rfl⟩
    | cons Name names ih =>
        obtain ⟨hobjects, hallowed⟩ := hstep t Name
        obtain ⟨hobjects', hallowed'⟩ := ih (t.handleWeakUndefine Name)
        exact ⟨hobjects'.trans hobjects, hallowed'.trans hallowed⟩
  exact hfold _ t

/-! ## The names of `.imports` -/

theorem mem_allowed_addAllowed {F : ParsedFile} {sym : WasmSymbol} :
    n ∈ (t.addAllowed F sym).allowed ↔
      n ∈ t.allowed ∨ sym.Name = n ∧ n ∈ F.obj.allowed_imports := by
  unfold addAllowed
  split
  case isTrue hmem =>
    rw [List.mem_cons, or_comm, eq_comm]
    exact or_congr_right ⟨fun heq => ⟨heq, heq ▸ hmem⟩, And.left⟩
  case isFalse hmem =>
    exact (or_iff_left fun ⟨heq, h⟩ => hmem (heq ▸ h)).symm

variable {cmd : Command}

theorem allowed_addDefined (flags : Flags) (file : Option FileId) (d : Definition)
    (check : Symbol → List LinkError) :
    (t.addDefined Name flags file d check).allowed = t.allowed := by
  unfold addDefined
  split
  · rfl
  · split <;> rfl

theorem allowed_addUndefined (flags : Flags) (file : Option FileId) (w : Wanted) (used : Bool)
    (check : Symbol → List LinkError) :
    (t.addUndefined Name flags file w used check).1.allowed = t.allowed := by
  unfold addUndefined
  split
  · rfl
  · dsimp only
    split <;> rfl

theorem allowed_fetch (member : Option (ℕ × ℕ)) : (t.fetch cmd member).1.allowed = t.allowed := by
  cases member with
  | none => rfl
  | some id =>
      show (t.addMember cmd id.1 id.2).1.allowed = t.allowed
      unfold addMember
      split
      · rfl
      · split <;> rfl

theorem allowed_addSymbol {F : ParsedFile} {sym : WasmSymbol} :
    (t.addSymbol cmd F sym).1.allowed = (t.addAllowed F sym).allowed := by
  unfold addSymbol
  cases F.createDefined sym with
  | some d =>
      dsimp only
      split
      · rfl
      · cases d <;> exact allowed_addDefined ..
  | none =>
      refine (allowed_fetch _).trans ?_
      show ((t.addAllowed F sym).createUndefined F sym).1.allowed = _
      unfold createUndefined
      split <;> exact allowed_addUndefined ..

theorem mem_allowed_perform {task : Task} : n ∈ (t.perform cmd task).1.allowed ↔
    n ∈ t.allowed ∨ ∃ F sym, task = .symbol F sym ∧ sym.Name = n ∧ n ∈ F.obj.allowed_imports := by
  cases task with
  | parsed F => exact (or_iff_left fun ⟨_, _, h, _⟩ => Task.noConfusion h).symm
  | file i =>
      have hsame : (t.perform cmd (.file i)).1.allowed = t.allowed := by
        show (t.addFile cmd i).1.allowed = t.allowed
        unfold addFile
        split <;> rfl
      rw [hsame]
      exact (or_iff_left fun ⟨_, _, h, _⟩ => Task.noConfusion h).symm
  | lazy i Name m =>
      have hsame : (t.perform cmd (.lazy i Name m)).1.allowed = t.allowed := by
        show (t.addLazy cmd i Name m).1.allowed = t.allowed
        unfold addLazy
        split
        · rfl
        · split
          · exact allowed_fetch (some (i, m))
          · rfl
      rw [hsame]
      exact (or_iff_left fun ⟨_, _, h, _⟩ => Task.noConfusion h).symm
  | symbol F sym =>
      show n ∈ (t.addSymbol cmd F sym).1.allowed ↔ _
      rw [allowed_addSymbol, mem_allowed_addAllowed]
      refine or_congr_right ⟨fun h => ⟨F, sym, rfl, h⟩, ?_⟩
      rintro ⟨F', sym', heq, h⟩
      cases heq
      exact h

end SymbolTable

namespace Command

variable (cmd : Command)

/-- A name is allowed if an object that lists it in `.imports` has a symbol of the name. -/
theorem mem_allowed_load {n : String} : n ∈ cmd.load.table.allowed ↔
    ∃ F ∈ cmd.ObjectFiles, n ∈ F.obj.allowed_imports ∧ ∃ sym ∈ F.obj.symbols, sym.Name = n := by
  have hdone : n ∈ cmd.load.table.allowed ↔
      ∃ F sym, .symbol F sym ∈ cmd.load.done ∧ sym.Name = n ∧ n ∈ F.obj.allowed_imports := by
    refine cmd.load_induction (P := fun s => n ∈ s.table.allowed ↔
      ∃ F sym, .symbol F sym ∈ s.done ∧ sym.Name = n ∧ n ∈ F.obj.allowed_imports) ?_ ?_
    · have hfold (names : List String) (t : SymbolTable) : (names.foldl (fun t Name =>
          (t.addUndefinedFunction Name visible none none).1) t).allowed = t.allowed := by
        induction names generalizing t with
        | nil => rfl
        | cons Name names ih => exact (ih _).trans (SymbolTable.allowed_addUndefined ..)
      have hstart : cmd.start.table.allowed = [] := hfold ..
      rw [hstart]
      exact iff_of_false List.not_mem_nil fun ⟨_, _, h, _⟩ => by cases h
    · intro s task rest h hagenda
      dsimp only
      rw [SymbolTable.mem_allowed_perform, h]
      simp only [List.mem_append, List.mem_singleton, or_and_right, exists_or, eq_comm]
  rw [hdone]
  constructor
  · rintro ⟨F, sym, hmem, hn, hallowed⟩
    obtain ⟨hF, hsym⟩ := cmd.symbol_mem_done.mp hmem
    exact ⟨F, hF, hallowed, sym, hsym, hn⟩
  · rintro ⟨F, hF, hallowed, sym, hsym, hn⟩
    exact ⟨F, sym, cmd.symbol_mem_done.mpr ⟨hF, hsym⟩, hn, hallowed⟩

/-! ## What is reported -/

theorem mem_references_iff {n : String} {r : Reference} : r ∈ cmd.references n ↔
    n ∈ cmd.undefined ∧ r = ⟨visible, none, .function none⟩ ∨
    ∃ F ∈ cmd.ObjectFiles, ∃ sym ∈ F.obj.symbols, F.createDefined sym = none ∧ sym.Name = n ∧
      r = ⟨sym.Flags, some F.id, F.wanted sym⟩ := by
  unfold references
  rw [List.mem_append]
  refine or_congr ?_ ?_
  · split
    case isTrue h => rw [List.mem_singleton, and_iff_right h]
    case isFalse h => exact iff_of_false List.not_mem_nil fun ⟨hn, _⟩ => h hn
  · rw [List.mem_filterMap]
    constructor
    · rintro ⟨task, hmem, hr⟩
      obtain ⟨F, sym, rfl, hn, hd, rfl⟩ := reference?_eq_some_iff.mp hr
      obtain ⟨hF, hsym⟩ := cmd.symbol_mem_done.mp hmem
      exact ⟨F, hF, sym, hsym, hd, hn, rfl⟩
    · rintro ⟨F, hF, sym, hsym, hd, hn, rfl⟩
      exact ⟨_, cmd.symbol_mem_done.mpr ⟨hF, hsym⟩,
        reference?_eq_some_iff.mpr ⟨F, sym, rfl, hn, hd, rfl⟩⟩

end Command

namespace SymbolTable

variable {t : SymbolTable} {n : String}

/-- The symbol is undefined, and would be reported if the name is not allowed. -/
def Missing (t : SymbolTable) (n : String) : Prop :=
  ∃ S, t.find n = some S ∧ S.isUndefined ∧ ¬ S.isWeak ∧ S.IsUsedInRegularObj

theorem mem_Undefs_iff {allowed : List String} :
    n ∈ t.Undefs allowed ↔ t.Missing n ∧ n ∉ allowed ∧ n ∉ t.allowed := by
  unfold Undefs Missing
  rw [List.mem_filter, t.Symbols.mem_keys]
  show (t.find n).isSome ∧ _ ↔ _
  cases t.find n with
  | none => simp
  | some S => simp [and_assoc]

theorem missing_handleWeakUndefines : t.handleWeakUndefines.Missing n ↔ t.Missing n := by
  unfold Missing
  rcases find_handleWeakUndefines (t := t) (n := n) with
    ⟨S, S', hS, hweak, hdummy, hfind⟩ | ⟨-, hfind⟩
  · rw [hS, hfind]
    refine iff_of_false ?_ ?_
    · rintro ⟨S₁, heq, hund, -⟩
      cases heq
      exact Symbol.not_isUndefined_of_isDefined hdummy.isDefined hund
    · rintro ⟨S₁, heq, -, hstrong, -⟩
      cases heq
      unfold Symbol.isWeakUndefinedFunction at hweak
      split at hweak
      · exact hstrong rfl
      · cases hweak
  · rw [hfind]

/-- Every name that is missing is reported, for an object that refers to it or by itself. -/
theorem mem_report_iff {cmd : Command}
    (hfile : ∀ S, t.find n = some S → S.isUndefined →
      (S.File = none ∧ n ≠ cmd.Entry) ∨ ∃ F ∈ t.ObjectFiles, ∃ sym ∈ F.obj.symbols,
        F.tableName? sym = some n) :
    .undefinedSymbol n ∈ t.reportRemainingUndefines cmd ↔
      n ∈ t.Undefs cmd.AllowUndefinedSymbols := by
  unfold reportRemainingUndefines
  simp only [List.mem_append, List.mem_flatMap, List.mem_map, List.mem_filter, List.mem_filterMap,
    decide_eq_true_eq, LinkError.undefinedSymbol.injEq, exists_eq_right]
  constructor
  · rintro (⟨F, -, -, h⟩ | ⟨h, -⟩)
    · exact h
    · exact h
  · intro h
    obtain ⟨⟨S, hS, hund, -, -⟩, -, -⟩ := mem_Undefs_iff.mp h
    rcases hfile S hS hund with ⟨hnone, hentry⟩ | ⟨F, hF, sym, hsym, hname⟩
    · refine .inr ⟨h, ?_⟩
      simp [hS, hnone, hentry]
    · exact .inl ⟨F, hF, ⟨sym, hsym, hname⟩, h⟩

end SymbolTable

namespace Command

variable (cmd : Command)

/-- In the end a name that is asked for is not lazy. -/
theorem isUndefined_of_asks (hindexed : cmd.Indexed) (hcoherent : cmd.Coherent) {n : String}
    (hasks : cmd.Asks cmd.load.done n) (hoffers : cmd.offers n = []) :
    ∃ S, cmd.load.table.find n = some S ∧ S.isUndefined := by
  have hnot : ¬ ∃ S, cmd.load.table.find n = some S ∧ S.isDefined := by
    rw [isDefined_iff_offers, hoffers]
    exact fun h => h rfl
  have hunlisted := (cmd.defined_or_unlisted hindexed hcoherent hasks).resolve_left hnot
  obtain ⟨S, hS, -⟩ := cmd.find_of_asks hasks
  refine ⟨S, hS, ?_⟩
  cases hcontent : S.content with
  | defined d => exact absurd ⟨S, hS, Symbol.isDefined_iff.mpr ⟨d, hcontent⟩⟩ hnot
  | undefined w => exact Symbol.isUndefined_iff.mpr ⟨w, hcontent⟩
  | lazy i m =>
      have hlazy := cmd.searched_load.pending n S (i, m) hS
        (Symbol.pending_eq_some_iff.mpr hcontent)
      obtain ⟨a, ha, hentry⟩ := cmd.lazy_mem_done.mp hlazy
      exact absurd hentry (hunlisted i a ha m)

theorem missing_load_iff (hindexed : cmd.Indexed) (hcoherent : cmd.Coherent) {n : String} :
    cmd.load.table.Missing n ↔ cmd.offers n = [] ∧
      (∃ r ∈ (cmd.references n).head?, ¬ r.isWeak) ∧ ∃ r ∈ cmd.references n, r.counts := by
  constructor
  · rintro ⟨S, hS, hund, hstrong, hused⟩
    have hmade := cmd.made_load n
    rw [hS] at hmade
    obtain ⟨r, hhead, rfl⟩ := hmade hund
    refine ⟨?_, ⟨r, hhead, hstrong⟩, List.any_eq_true.mp hused⟩
    by_contra hoffers
    obtain ⟨S, hS', hdef⟩ := cmd.isDefined_iff_offers.mpr hoffers
    rw [hS] at hS'
    cases hS'
    cases hdef
  · rintro ⟨hoffers, ⟨r, hhead, hstrong⟩, hcounts⟩
    have hasks : cmd.Asks cmd.load.done n := by
      rw [cmd.asks_load_iff]
      rcases cmd.mem_references_iff.mp (List.mem_of_head? hhead) with
        ⟨hforced, -⟩ | ⟨F, hF, sym, hsym, hd, hn, -⟩
      · exact .inl hforced
      · exact .inr ⟨F, hF, sym, hsym, hd, hn⟩
    obtain ⟨S, hS, hund⟩ := cmd.isUndefined_of_asks hindexed hcoherent hasks hoffers
    have hmade := cmd.made_load n
    rw [hS] at hmade
    obtain ⟨r', hhead', rfl⟩ := hmade hund
    cases hhead.symm.trans hhead'
    exact ⟨_, hS, hund, hstrong, List.any_eq_true.mpr hcounts⟩

/-- The entry is always defined, if only by the linker. -/
theorem find_load_entry : ∃ S, cmd.load.table.find cmd.Entry = some S ∧ S.isDefined := by
  obtain ⟨S, hS, hdef⟩ := cmd.find_synthetic_entry
  obtain ⟨S', hS', hdef'⟩ := (cmd.later_startTable _).isDefined hS hdef
  rw [cmd.kept_load.find]
  exact (Loading.later_after _ (cmd.startTable.find _) _).isDefined hS' hdef'

/-- An undefined symbol is from an object that refers to it, or is forced. -/
theorem file_of_isUndefined {n : String} {S : Symbol} (hS : cmd.load.table.find n = some S)
    (hund : S.isUndefined) : (S.File = none ∧ n ≠ cmd.Entry) ∨
      ∃ F ∈ cmd.ObjectFiles, ∃ sym ∈ F.obj.symbols, F.tableName? sym = some n := by
  have hmade := cmd.made_load n
  rw [hS] at hmade
  obtain ⟨r, hhead, rfl⟩ := hmade hund
  rcases cmd.mem_references_iff.mp (List.mem_of_head? hhead) with
    ⟨-, rfl⟩ | ⟨F, hF, sym, hsym, hd, rfl, -⟩
  · refine .inl ⟨rfl, ?_⟩
    rintro rfl
    obtain ⟨S, hS', hdef⟩ := cmd.find_load_entry
    rw [hS] at hS'
    cases hS'
    cases hdef
  · exact .inr ⟨F, hF, sym, hsym, if_neg fun h => by rw [hd] at h; cases h.2⟩

/-- What is missing is reported, unless it is allowed. -/
theorem mem_report_load_iff {n : String} :
    .undefinedSymbol n ∈ cmd.handled.reportRemainingUndefines cmd ↔
      cmd.load.table.Missing n ∧ n ∉ cmd.AllowUndefinedSymbols ∧ n ∉ cmd.load.table.allowed := by
  obtain ⟨hobjects, hallowed⟩ := cmd.load.table.handleWeakUndefines_frame
  rw [handled, SymbolTable.mem_report_iff, SymbolTable.mem_Undefs_iff,
    SymbolTable.missing_handleWeakUndefines, hallowed]
  intro S hS hund
  rw [hobjects]
  rcases SymbolTable.find_handleWeakUndefines (t := cmd.load.table) (n := n) with
    ⟨-, S', -, -, hdummy, hfind⟩ | ⟨-, hfind⟩
  · rw [hS] at hfind
    cases hfind
    exact absurd hund (Symbol.not_isUndefined_of_isDefined hdummy.isDefined)
  · exact cmd.file_of_isUndefined (hfind.symm.trans hS) hund

/-- A name is reported as undefined if no object read and not the linker itself defines it,
the first reference to it is not weak, some reference to it is not for data, and it is not
allowed. -/
theorem load_reports (hindexed : cmd.Indexed) (hcoherent : cmd.Coherent) (n : String) :
    .undefinedSymbol n ∈ cmd.handled.reportRemainingUndefines cmd ↔
      cmd.offers n = [] ∧ (∃ r ∈ (cmd.references n).head?, ¬ r.isWeak) ∧
      (∃ r ∈ cmd.references n, r.counts) ∧ n ∉ cmd.AllowUndefinedSymbols ∧
      ∀ F ∈ cmd.ObjectFiles, n ∈ F.obj.allowed_imports → ∀ sym ∈ F.obj.symbols, sym.Name ≠ n := by
  rw [mem_report_load_iff, cmd.missing_load_iff hindexed hcoherent, cmd.mem_allowed_load]
  push Not
  tauto

theorem load_reports_sample :
    .undefinedSymbol "host" ∉ sample.handled.reportRemainingUndefines sample := by
  rw [load_reports sample (by decide +kernel) (by decide +kernel) "host", ObjectFiles_sample]
  rintro ⟨-, -, -, -, hallowed⟩
  exact hallowed _ List.mem_cons_self List.mem_cons_self _
    (List.mem_of_getElem? (show _[3]? = _ from rfl)) rfl

end Command

end FractalCdt.Linker
