/-
# Steps of the loading

One call changes the symbol of at most one name: it enters a definition, asks for
one, or makes the name wait for an archive.  A definition stays, and what waits or
is asked for changes to a definition only.  Each member of an archive is read once,
so the calls come to an end.
-/

import FractalCdt.Linker.SymbolTable

namespace FractalCdt.Linker

open FractalCdt.Math

/-! ## One symbol -/

namespace Symbol

variable {S S' : Symbol}

theorem isDefined_iff : S.isDefined ↔ ∃ d, S.content = .defined d := by
  unfold isDefined
  cases S.content <;> simp

theorem isUndefined_iff : S.isUndefined ↔ ∃ w, S.content = .undefined w := by
  unfold isUndefined
  cases S.content <;> simp

theorem isDefined_congr (h : S'.content = S.content) : S'.isDefined = S.isDefined := by
  rw [isDefined, isDefined, h]

end Symbol

/-- What a definition leaves under its name. -/
def definedOver (old : Option Symbol) (flags : Flags) (file : Option FileId) (d : Definition) :
    Symbol :=
  match old with
  | none => ⟨flags, file, true, .defined d⟩
  | some S =>
      if S.isDefined ∧ flags.binding = .bindingWeak then { S with IsUsedInRegularObj := true }
      else ⟨flags, file, true, .defined d⟩

/-- What a reference leaves under its name. -/
def askedOver (old : Option Symbol) (flags : Flags) (file : Option FileId) (w : Wanted)
    (used : Bool) : Symbol :=
  match old with
  | none => ⟨flags, file, used, .undefined w⟩
  | some S => { S with IsUsedInRegularObj := S.IsUsedInRegularObj || used }

/-- What the index of an archive leaves under a new name. -/
def lazySymbol (archive member : ℕ) : Symbol :=
  ⟨⟨.bindingGlobal, false⟩, none, false, .lazy archive member⟩

/-- A symbol stays what it is, unless it becomes defined. -/
def Later (old new : Option Symbol) : Prop :=
  ∀ S, old = some S → ∃ S', new = some S' ∧
    (S'.isDefined ∨ S'.content = S.content ∧ S'.Flags = S.Flags ∧ S'.File = S.File)

section Symbols

variable {old new : Option Symbol} {S : Symbol} {flags : Flags} {file : Option FileId}
  {d : Definition} {w : Wanted} {used : Bool}

theorem definedOver_isDefined : (definedOver old flags file d).isDefined := by
  unfold definedOver
  split
  · rfl
  · split
    case isTrue h => exact h.1
    case isFalse => rfl

theorem definedOver_some (Name : String) : definedOver (some S) flags file d =
    if (shouldReplace Name S flags).1 then ⟨flags, file, true, .defined d⟩
    else { S with IsUsedInRegularObj := true } := by
  unfold definedOver shouldReplace
  by_cases hdef : S.isDefined <;> by_cases hweak : flags.binding = .bindingWeak <;>
    by_cases hold : S.isWeak <;> simp [hdef, hweak, hold]

theorem Later.refl (o : Option Symbol) : Later o o := fun S h => ⟨S, h, .inr ⟨rfl, rfl, rfl⟩⟩

theorem Later.trans {o₁ o₂ o₃ : Option Symbol} (h : Later o₁ o₂) (h' : Later o₂ o₃) :
    Later o₁ o₃ := by
  intro S hS
  obtain ⟨S', hS', hcase⟩ := h S hS
  obtain ⟨S'', hS'', hcase'⟩ := h' S' hS'
  refine ⟨S'', hS'', ?_⟩
  rcases hcase' with hdef | ⟨hcontent, hflags, hfile⟩
  · exact .inl hdef
  · rcases hcase with hdef | ⟨hcontent', hflags', hfile'⟩
    · rw [← Symbol.isDefined_congr hcontent] at hdef
      exact .inl hdef
    · exact .inr ⟨hcontent.trans hcontent', hflags.trans hflags', hfile.trans hfile'⟩

theorem later_definedOver : Later old (some (definedOver old flags file d)) :=
  fun _ _ => ⟨_, rfl, .inl definedOver_isDefined⟩

theorem later_askedOver : Later old (some (askedOver old flags file w used)) := by
  rintro S rfl
  exact ⟨_, rfl, .inr ⟨rfl, rfl, rfl⟩⟩

theorem Later.isDefined (h : Later old new) (hS : old = some S) (hdef : S.isDefined) :
    ∃ S', new = some S' ∧ S'.isDefined := by
  obtain ⟨S', hS', hcase⟩ := h S hS
  refine ⟨S', hS', ?_⟩
  rcases hcase with hdef' | ⟨hcontent, -, -⟩
  · exact hdef'
  · rw [Symbol.isDefined_congr hcontent]
    exact hdef

end Symbols

/-! ## One call -/

/-- The calls that reading an object makes. -/
def ParsedFile.calls (F : ParsedFile) : List Task := F.obj.symbols.map (.symbol F) ++ [.parsed F]

/-- What entering a symbol of an object leaves under its name. -/
def ParsedFile.over (F : ParsedFile) (sym : WasmSymbol) (old : Option Symbol) : Option Symbol :=
  match F.createDefined sym with
  | some d =>
      if sym.isBindingLocal then old else some (definedOver old sym.Flags (some F.id) d)
  | none =>
      some (askedOver old sym.Flags (some F.id) (F.wanted sym) (decide (F.wanted sym ≠ .data)))

/-- What a call leaves under a name. -/
def Task.effect (n : String) (task : Task) (old : Option Symbol) : Option Symbol :=
  match task with
  | .lazy archive Name member =>
      if n = Name then old.or (some (lazySymbol archive member)) else old
  | .symbol F sym => if n = sym.Name then F.over sym old else old
  | _ => old

/-- The check of the type that a definition makes of what is there. -/
def Definition.check (Entry Name : String) (d : Definition) (S : Symbol) : List LinkError :=
  match d with
  | .function _ => if Name = Entry then [] else checkFunctionType Name S
  | .data .. => checkDataType Name S
  | .global _ GlobalType => checkGlobalType Name GlobalType S

/-- The check of the type that a reference makes of a definition. -/
def Wanted.check (Name : String) (w : Wanted) (S : Symbol) : List LinkError :=
  match w with
  | .function _ => checkFunctionType Name S
  | .data => checkDataType Name S
  | .global GlobalType => checkGlobalType Name GlobalType S

/-- The errors of entering a symbol of an object over what is there. -/
def ParsedFile.faults (Entry : String) (F : ParsedFile) (sym : WasmSymbol)
    (old : Option Symbol) : List LinkError :=
  match old with
  | none => []
  | some S =>
      match F.createDefined sym with
      | some d =>
          if sym.isBindingLocal ∨ S.isLazy then []
          else d.check Entry sym.Name S ++ (shouldReplace sym.Name S sym.Flags).2
      | none => if S.isDefined then (F.wanted sym).check sym.Name S else []

/-- The errors of a call, if it enters a symbol of the name. -/
def Task.faults (Entry n : String) (task : Task) (old : Option Symbol) : List LinkError :=
  match task with
  | .symbol F sym => if n = sym.Name then F.faults Entry sym old else []
  | _ => []

theorem ParsedFile.later_over (F : ParsedFile) (sym : WasmSymbol) (old : Option Symbol) :
    Later old (F.over sym old) := by
  unfold ParsedFile.over
  split
  · split
    · exact .refl old
    · exact later_definedOver
  · exact later_askedOver

theorem Task.later_effect (n : String) (task : Task) (old : Option Symbol) :
    Later old (task.effect n old) := by
  cases task with
  | file | parsed => exact .refl old
  | lazy archive Name member =>
      show Later old (if n = Name then _ else old)
      split
      · intro S hS
        subst hS
        exact ⟨S, rfl, .inr ⟨rfl, rfl, rfl⟩⟩
      · exact .refl old
  | symbol F sym =>
      show Later old (if n = sym.Name then _ else old)
      split
      · exact F.later_over sym old
      · exact .refl old

/-- A call leaves what a name is, or makes it lazy or undefined if it is new, or makes it
defined. -/
theorem Task.content_effect {n : String} {task : Task} {old : Option Symbol} {S : Symbol}
    (h : task.effect n old = some S) :
    (∃ S₀, old = some S₀ ∧ S.content = S₀.content) ∨
    (∃ i m, old = none ∧ task = .lazy i n m ∧ S = lazySymbol i m) ∨
    (∃ F sym, old = none ∧ task = .symbol F sym ∧ sym.Name = n ∧ F.createDefined sym = none ∧
      S = ⟨sym.Flags, some F.id, decide (F.wanted sym ≠ .data), .undefined (F.wanted sym)⟩) ∨
    S.isDefined := by
  cases task with
  | file | parsed => exact .inl ⟨S, h, rfl⟩
  | lazy i Name m =>
      by_cases hn : n = Name
      · subst hn
        have hor : old.or (some (lazySymbol i m)) = some S := (if_pos rfl).symm.trans h
        cases old with
        | none =>
            cases hor
            exact .inr (.inl ⟨i, m, rfl, rfl, rfl⟩)
        | some S₀ =>
            cases hor
            exact .inl ⟨S, rfl, rfl⟩
      · exact .inl ⟨S, (if_neg hn).symm.trans h, rfl⟩
  | symbol F sym =>
      by_cases hn : n = sym.Name
      · have hover : F.over sym old = some S := (if_pos hn).symm.trans h
        unfold ParsedFile.over at hover
        cases hd : F.createDefined sym with
        | some d =>
            rw [hd] at hover
            dsimp only at hover
            split at hover
            · exact .inl ⟨S, hover, rfl⟩
            · cases hover
              exact .inr (.inr (.inr definedOver_isDefined))
        | none =>
            rw [hd] at hover
            cases old with
            | none =>
                cases hover
                exact .inr (.inr (.inl ⟨F, sym, rfl, rfl, hn.symm, hd, rfl⟩))
            | some S₀ =>
                cases hover
                exact .inl ⟨S₀, rfl, rfl⟩
      · exact .inl ⟨S, (if_neg hn).symm.trans h, rfl⟩

namespace SymbolTable

variable {t : SymbolTable} {cmd : Command} {F : ParsedFile} {sym : WasmSymbol} {n : String}

theorem find_replaceSymbol (Name : String) (S : Symbol) (n : String) :
    (t.replaceSymbol Name S).find n = if n = Name then some S else t.find n := rfl

theorem find_addDefined (Name : String) (flags : Flags) (file : Option FileId) (d : Definition)
    (check : Symbol → List LinkError) (n : String) :
    (t.addDefined Name flags file d check).find n =
      if n = Name then some (definedOver (t.find Name) flags file d) else t.find n := by
  unfold addDefined
  cases hfind : t.find Name with
  | none => rfl
  | some S =>
      rw [definedOver_some Name]
      obtain ⟨oldFlags, oldFile, oldUsed, content⟩ := S
      cases content <;> rfl

theorem find_addUndefined (Name : String) (flags : Flags) (file : Option FileId) (w : Wanted)
    (used : Bool) (check : Symbol → List LinkError) (n : String) :
    (t.addUndefined Name flags file w used check).1.find n =
      if n = Name then some (askedOver (t.find Name) flags file w used) else t.find n := by
  unfold addUndefined
  cases hfind : t.find Name with
  | none => rfl
  | some S =>
      obtain ⟨oldFlags, oldFile, oldUsed, content⟩ := S
      cases content <;> rfl

theorem find_enterDefined (d : Definition) (n : String) :
    (t.enterDefined cmd F sym d).find n =
      if n = sym.Name then some (definedOver (t.find sym.Name) sym.Flags (some F.id) d)
      else t.find n := by
  cases d <;> exact find_addDefined ..

theorem find_createUndefined (n : String) :
    (t.createUndefined F sym).1.find n =
      if n = sym.Name then
        some (askedOver (t.find sym.Name) sym.Flags (some F.id) (F.wanted sym)
          (decide (F.wanted sym ≠ .data)))
      else t.find n := by
  unfold createUndefined
  split <;> rename_i hwanted <;> rw [hwanted] <;> exact find_addUndefined ..

/-- Reading an object changes no symbol. -/
theorem find_addMember (archive member : ℕ) (n : String) :
    (t.addMember cmd archive member).1.find n = t.find n := by
  unfold addMember
  split
  · rfl
  · split <;> rfl

theorem find_fetch (member : Option (ℕ × ℕ)) (n : String) :
    (t.fetch cmd member).1.find n = t.find n := by
  cases member with
  | none => rfl
  | some id => exact find_addMember id.1 id.2 n

theorem find_addAllowed (n : String) : (t.addAllowed F sym).find n = t.find n := by
  unfold addAllowed
  split <;> rfl

/-- What a call leaves under a name depends on what was there alone. -/
theorem find_perform (task : Task) (n : String) :
    (t.perform cmd task).1.find n = task.effect n (t.find n) := by
  cases task with
  | file i =>
      show (t.addFile cmd i).1.find n = _
      unfold addFile
      split <;> rfl
  | parsed F => rfl
  | lazy archive Name member =>
      show (t.addLazy cmd archive Name member).1.find n = if n = Name then _ else _
      unfold addLazy
      by_cases hn : n = Name
      · subst hn
        cases hfind : t.find n with
        | none =>
            rw [if_pos rfl]
            exact (find_replaceSymbol ..).trans (if_pos rfl)
        | some S =>
            rw [if_pos rfl, Option.or_some]
            dsimp only
            split
            · exact (find_addMember ..).trans hfind
            · exact hfind
      · rw [if_neg hn]
        cases hfind : t.find Name with
        | none => exact (find_replaceSymbol ..).trans (if_neg hn)
        | some S =>
            dsimp only
            split
            · exact find_addMember ..
            · rfl
  | symbol F sym =>
      show (t.addSymbol cmd F sym).1.find n = if n = sym.Name then F.over sym (t.find n) else _
      unfold addSymbol ParsedFile.over
      cases hd : F.createDefined sym with
      | none =>
          refine (find_fetch ..).trans ((find_createUndefined n).trans ?_)
          rw [find_addAllowed, find_addAllowed]
          split
          case isTrue hn => rw [hn]
          case isFalse => rfl
      | some d =>
          dsimp only
          split
          · rw [find_addAllowed, ite_self]
          · refine (find_enterDefined d n).trans ?_
            rw [find_addAllowed, find_addAllowed]
            split
            case isTrue hn => rw [hn]
            case isFalse => rfl

/-! ## The errors of a call -/

theorem errors_addDefined (Name : String) (flags : Flags) (file : Option FileId) (d : Definition)
    (check : Symbol → List LinkError) :
    (t.addDefined Name flags file d check).errors = t.errors ++
      match t.find Name with
      | none => []
      | some S => if S.isLazy then [] else check S ++ (shouldReplace Name S flags).2 := by
  unfold addDefined
  cases t.find Name with
  | none => exact (List.append_nil _).symm
  | some S =>
      obtain ⟨oldFlags, oldFile, oldUsed, content⟩ := S
      cases content with
      | lazy archive member => exact (List.append_nil _).symm
      | defined _ | undefined _ => rfl

theorem errors_addUndefined (Name : String) (flags : Flags) (file : Option FileId) (w : Wanted)
    (used : Bool) (check : Symbol → List LinkError) :
    (t.addUndefined Name flags file w used check).1.errors = t.errors ++
      match t.find Name with
      | none => []
      | some S => if S.isDefined then check S else [] := by
  unfold addUndefined
  cases t.find Name with
  | none => exact (List.append_nil _).symm
  | some S =>
      obtain ⟨oldFlags, oldFile, oldUsed, content⟩ := S
      cases content with
      | defined _ => rfl
      | undefined _ | lazy _ _ => exact (List.append_nil _).symm

theorem errors_enterDefined (d : Definition) :
    (t.enterDefined cmd F sym d).errors = t.errors ++
      match t.find sym.Name with
      | none => []
      | some S =>
          if S.isLazy then []
          else d.check cmd.Entry sym.Name S ++ (shouldReplace sym.Name S sym.Flags).2 := by
  cases d <;> exact errors_addDefined ..

theorem errors_createUndefined :
    (t.createUndefined F sym).1.errors = t.errors ++
      match t.find sym.Name with
      | none => []
      | some S => if S.isDefined then (F.wanted sym).check sym.Name S else [] := by
  unfold createUndefined
  split <;> rename_i hwanted <;> rw [hwanted] <;> exact errors_addUndefined ..

theorem errors_addMember (archive member : ℕ) :
    (t.addMember cmd archive member).1.errors = t.errors := by
  unfold addMember
  split
  · rfl
  · split <;> rfl

theorem errors_fetch (member : Option (ℕ × ℕ)) : (t.fetch cmd member).1.errors = t.errors := by
  cases member with
  | none => rfl
  | some id => exact errors_addMember id.1 id.2

theorem errors_addAllowed : (t.addAllowed F sym).errors = t.errors := by
  unfold addAllowed
  split <;> rfl

theorem errors_addSymbol : (t.addSymbol cmd F sym).1.errors =
    t.errors ++ F.faults cmd.Entry sym (t.find sym.Name) := by
  unfold addSymbol ParsedFile.faults
  cases hd : F.createDefined sym with
  | none =>
      refine (errors_fetch ..).trans (errors_createUndefined.trans ?_)
      rw [find_addAllowed, errors_addAllowed]
  | some d =>
      dsimp only
      split
      case isTrue hlocal =>
        rw [errors_addAllowed]
        cases t.find sym.Name with
        | none => exact (List.append_nil _).symm
        | some S =>
            dsimp only
            rw [if_pos (.inl hlocal), List.append_nil]
      case isFalse hlocal =>
        refine (errors_enterDefined d).trans ?_
        rw [find_addAllowed, errors_addAllowed]
        cases t.find sym.Name with
        | none => rfl
        | some S => simp only [hlocal, Bool.false_eq_true, false_or]

/-- A call without an error was made of a table without one, and has no fault under
any name. -/
theorem faults_of_errors_perform {task : Task}
    (h : (t.perform cmd task).1.errors = []) :
    t.errors = [] ∧ ∀ n, task.faults cmd.Entry n (t.find n) = [] := by
  cases task with
  | file i =>
      have hsame : (t.perform cmd (.file i)).1.errors = t.errors := by
        show (t.addFile cmd i).1.errors = _
        unfold addFile
        split <;> rfl
      exact ⟨hsame ▸ h, fun n => rfl⟩
  | parsed F => exact ⟨h, fun n => rfl⟩
  | lazy archive Name member =>
      have hsame : (t.perform cmd (.lazy archive Name member)).1.errors = t.errors := by
        show (t.addLazy cmd archive Name member).1.errors = _
        unfold addLazy
        split
        · rfl
        · split
          · exact errors_addMember ..
          · rfl
      exact ⟨hsame ▸ h, fun n => rfl⟩
  | symbol F sym =>
      have heq : (t.perform cmd (.symbol F sym)).1.errors = _ := errors_addSymbol
      rw [heq, List.append_eq_nil_iff] at h
      refine ⟨h.1, fun n => ?_⟩
      show (if n = sym.Name then F.faults cmd.Entry sym (t.find n) else []) = []
      split
      case isTrue hn => rw [hn, h.2]
      case isFalse => rfl

end SymbolTable

/-! ## The start -/

namespace Command

variable (cmd : Command)

/-- What a name can be at the start: a definition of the linker's own, or forced. -/
def Starts (n : String) (S : Symbol) : Prop :=
  (∃ flags d used, (n, flags, d) ∈ cmd.syntheticSymbols ∧ S = ⟨flags, none, used, .defined d⟩) ∨
    n ∈ cmd.undefined ∧ S = ⟨visible, none, true, .undefined (.function none)⟩

theorem starts_synthetic {n : String} {S : Symbol} (h : cmd.synthetic.find n = some S) :
    cmd.Starts n S := by
  have hset (entries : List (String × Flags × Definition)) (m : IndexMap String Symbol)
      (hentries : entries ⊆ cmd.syntheticSymbols) (hm : ∀ n S, m.find n = some S → cmd.Starts n S) :
      ∀ n S, (entries.foldl
        (fun Symbols e => Symbols.set e.1 ⟨e.2.1, none, false, .defined e.2.2⟩) m).find n =
          some S → cmd.Starts n S := by
    induction entries generalizing m with
    | nil => exact hm
    | cons e entries ih =>
        refine ih _ (List.subset_of_cons_subset hentries) fun n S hS => ?_
        rw [IndexMap.find_set] at hS
        split at hS
        case isTrue hn =>
          cases hS
          exact .inl ⟨e.2.1, e.2.2, false, hn ▸ hentries List.mem_cons_self, rfl⟩
        case isFalse => exact hm n S hS
  exact hset cmd.syntheticSymbols .empty (List.Subset.refl _) (fun n S hS => by cases hS) n S h

/-- The linker defines the entry itself. -/
theorem find_synthetic_entry : ∃ S, cmd.synthetic.find cmd.Entry = some S ∧ S.isDefined := by
  unfold synthetic SymbolTable.find syntheticSymbols
  simp only [List.foldl_cons, List.foldl_nil, IndexMap.find_set]
  split_ifs <;> exact ⟨_, rfl, rfl⟩

theorem find_addUndefinedFunction (t : SymbolTable) (Name n : String) :
    (t.addUndefinedFunction Name visible none none).1.find n =
      if n = Name then some (askedOver (t.find Name) visible none (.function none) true)
      else t.find n := SymbolTable.find_addUndefined ..

theorem Starts.askedOver {n : String} {S : Symbol} (h : cmd.Starts n S) :
    cmd.Starts n { S with IsUsedInRegularObj := S.IsUsedInRegularObj || true } := by
  rcases h with ⟨flags, d, used, hmem, rfl⟩ | ⟨hmem, rfl⟩
  · exact .inl ⟨flags, d, _, hmem, rfl⟩
  · exact .inr ⟨hmem, rfl⟩

theorem starts_startTable {n : String} {S : Symbol} (h : cmd.startTable.find n = some S) :
    cmd.Starts n S := by
  have hfold (names : List String) (t : SymbolTable)
      (hnames : ∀ n ∈ names, n ∈ cmd.undefined ∨ ∃ S, t.find n = some S)
      (ht : ∀ n S, t.find n = some S → cmd.Starts n S) : ∀ n S, (names.foldl
        (fun t Name => (t.addUndefinedFunction Name visible none none).1) t).find n = some S →
        cmd.Starts n S := by
    induction names generalizing t with
    | nil => exact ht
    | cons Name names ih =>
        refine ih _ (fun n hn => ?_) fun n S hS => ?_
        · rw [find_addUndefinedFunction]
          refine (hnames n (List.mem_cons_of_mem _ hn)).imp_right fun hS => ?_
          split
          · exact ⟨_, rfl⟩
          · exact hS
        · rw [find_addUndefinedFunction] at hS
          split at hS
          case isFalse => exact ht n S hS
          case isTrue hn =>
            subst hn
            cases hold : t.find n with
            | some S₀ =>
                rw [hold] at hS
                cases hS
                exact (ht n S₀ hold).askedOver
            | none =>
                rw [hold] at hS
                cases hS
                refine .inr ⟨(hnames n List.mem_cons_self).resolve_right ?_, rfl⟩
                rintro ⟨S, hS⟩
                rw [hold] at hS
                cases hS
  refine hfold _ _ (fun n hn => ?_) (fun n S => cmd.starts_synthetic) n S h
  rcases List.mem_cons.mp hn with rfl | hforced
  · exact .inr (cmd.find_synthetic_entry.imp fun S hS => hS.1)
  · exact .inl hforced

/-- What is there at first stays. -/
theorem later_startTable (n : String) : Later (cmd.synthetic.find n) (cmd.startTable.find n) := by
  have hfold (names : List String) (t : SymbolTable) : Later (t.find n) ((names.foldl
      (fun t Name => (t.addUndefinedFunction Name visible none none).1) t).find n) := by
    induction names generalizing t with
    | nil => exact .refl _
    | cons Name names ih =>
        refine Later.trans ?_ (ih _)
        rw [find_addUndefinedFunction]
        split
        case isTrue hn =>
          rw [hn]
          exact later_askedOver
        case isFalse => exact .refl _
  exact hfold _ _

theorem find_startTable_isSome {n : String} (hn : n ∈ cmd.undefined) :
    (cmd.startTable.find n).isSome := by
  have hfold (names : List String) (t : SymbolTable) (h : n ∈ names ∨ (t.find n).isSome) :
      ((names.foldl (fun t Name =>
        (t.addUndefinedFunction Name visible none none).1) t).find n).isSome := by
    induction names generalizing t with
    | nil => exact h.resolve_left List.not_mem_nil
    | cons Name names ih =>
        refine ih _ ?_
        rw [find_addUndefinedFunction]
        split
        · exact .inr rfl
        case isFalse hname =>
          exact h.imp_left fun hmem => (List.mem_cons.mp hmem).resolve_left hname
  exact hfold _ _ (.inl (List.mem_cons_of_mem _ hn))

end Command

end FractalCdt.Linker
