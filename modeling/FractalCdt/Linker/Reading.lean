/-
# Which files are read

A call reads an object of the command line, lists the index of an archive, or
fetches a member that a reference waits for.  No member is read twice, so reading
comes to an end; then every symbol of every object that was read has been entered,
and every index listed.
-/

import FractalCdt.Linker.Loading

namespace FractalCdt.Linker

open FractalCdt.Math

/-- The member of an archive that a lazy symbol waits for. -/
def Symbol.pending (S : Symbol) : Option (ℕ × ℕ) :=
  match S.content with
  | .lazy archive member => some (archive, member)
  | _ => none

/-- The call enters a symbol or its name. -/
def Task.Enters : Task → Prop
  | .lazy .. | .symbol .. => True
  | _ => False

/-- The member that a call fetches. -/
def Task.fetches (t : SymbolTable) (task : Task) : Option (ℕ × ℕ) :=
  match task with
  | .lazy archive Name member =>
      if (t.find Name).any (·.isUndefined) then some (archive, member) else none
  | .symbol F sym =>
      if F.createDefined sym = none then (t.find sym.Name).bind (·.pending) else none
  | _ => none

namespace SymbolTable

variable {t t' : SymbolTable} {cmd : Command} {F : ParsedFile} {sym : WasmSymbol}

/-- What is kept of the files is the same. -/
structure SameFiles (t t' : SymbolTable) : Prop where
  Comdats : t'.Comdats = t.Comdats
  ObjectFiles : t'.ObjectFiles = t.ObjectFiles
  SyntheticFunctions : t'.SyntheticFunctions = t.SyntheticFunctions
  Seen : t'.Seen = t.Seen

theorem SameFiles.refl (t : SymbolTable) : t.SameFiles t := ⟨rfl, rfl, rfl, rfl⟩

theorem SameFiles.trans {t'' : SymbolTable} (h : t.SameFiles t') (h' : t'.SameFiles t'') :
    t.SameFiles t'' :=
  ⟨h'.1.trans h.1, h'.2.trans h.2, h'.3.trans h.3, h'.4.trans h.4⟩

theorem sameFiles_addDefined (Name : String) (flags : Flags) (file : Option FileId)
    (d : Definition) (check : Symbol → List LinkError) :
    t.SameFiles (t.addDefined Name flags file d check) := by
  unfold addDefined
  split
  · exact ⟨rfl, rfl, rfl, rfl⟩
  · split <;> exact ⟨rfl, rfl, rfl, rfl⟩

theorem sameFiles_addUndefined (Name : String) (flags : Flags) (file : Option FileId)
    (w : Wanted) (used : Bool) (check : Symbol → List LinkError) :
    t.SameFiles (t.addUndefined Name flags file w used check).1 := by
  unfold addUndefined
  split
  · exact ⟨rfl, rfl, rfl, rfl⟩
  · dsimp only
    split <;> exact ⟨rfl, rfl, rfl, rfl⟩

theorem sameFiles_enterDefined (d : Definition) : t.SameFiles (t.enterDefined cmd F sym d) := by
  cases d <;> exact sameFiles_addDefined ..

theorem sameFiles_createUndefined : t.SameFiles (t.createUndefined F sym).1 := by
  unfold createUndefined
  split <;> exact sameFiles_addUndefined ..

theorem sameFiles_addAllowed : t.SameFiles (t.addAllowed F sym) := by
  unfold addAllowed
  split <;> exact ⟨rfl, rfl, rfl, rfl⟩

theorem snd_addUndefined (Name : String) (flags : Flags) (file : Option FileId)
    (w : Wanted) (used : Bool) (check : Symbol → List LinkError) :
    (t.addUndefined Name flags file w used check).2 = (t.find Name).bind (·.pending) := by
  unfold addUndefined
  cases t.find Name with
  | none => rfl
  | some S =>
      obtain ⟨oldFlags, oldFile, oldUsed, content⟩ := S
      cases content <;> rfl

theorem snd_createUndefined :
    (t.createUndefined F sym).2 = (t.find sym.Name).bind (·.pending) := by
  unfold createUndefined
  split <;> exact snd_addUndefined ..

theorem fetches_lazy (archive : ℕ) (Name : String) (member : ℕ) :
    Task.fetches t (.lazy archive Name member) =
      if (t.find Name).any (·.isUndefined) then some (archive, member) else none := rfl

theorem fetches_symbol : Task.fetches t (.symbol F sym) =
    if F.createDefined sym = none then (t.find sym.Name).bind (·.pending) else none := rfl

/-- The calls that enter a symbol fetch a member at most. -/
theorem addLazy_eq (archive : ℕ) (Name : String) (member : ℕ) : ∃ t₁, t.SameFiles t₁ ∧
    t.addLazy cmd archive Name member =
      t₁.fetch cmd (Task.fetches t (.lazy archive Name member)) := by
  rw [fetches_lazy]
  unfold addLazy
  cases t.find Name with
  | none => exact ⟨t.replaceSymbol Name (lazySymbol archive member), ⟨rfl, rfl, rfl, rfl⟩, rfl⟩
  | some S =>
      refine ⟨t, .refl t, ?_⟩
      dsimp only [Option.any_some]
      split <;> rfl

theorem addSymbol_eq : ∃ t₁, t.SameFiles t₁ ∧
    t.addSymbol cmd F sym = t₁.fetch cmd (Task.fetches t (.symbol F sym)) := by
  rw [fetches_symbol]
  unfold addSymbol
  cases hd : F.createDefined sym with
  | some d =>
      dsimp only
      split
      · exact ⟨_, sameFiles_addAllowed, rfl⟩
      · exact ⟨_, sameFiles_addAllowed.trans (sameFiles_enterDefined d), rfl⟩
  | none =>
      refine ⟨((t.addAllowed F sym).createUndefined F sym).1,
        sameFiles_addAllowed.trans sameFiles_createUndefined, ?_⟩
      rw [if_pos rfl, ← find_addAllowed (F := F), ← snd_createUndefined]

theorem SyntheticFunctions_fetch (member : Option (ℕ × ℕ)) :
    (t.fetch cmd member).1.SyntheticFunctions = t.SyntheticFunctions := by
  cases member with
  | none => rfl
  | some id =>
      show (t.addMember cmd id.1 id.2).1.SyntheticFunctions = t.SyntheticFunctions
      unfold addMember
      split
      · rfl
      · split <;> rfl

theorem SyntheticFunctions_perform (task : Task) :
    (t.perform cmd task).1.SyntheticFunctions = t.SyntheticFunctions := by
  cases task with
  | parsed F => rfl
  | file i =>
      show (t.addFile cmd i).1.SyntheticFunctions = _
      unfold addFile
      split <;> rfl
  | lazy archive Name member =>
      obtain ⟨t₁, same, heq⟩ := addLazy_eq (t := t) archive Name member
      show (t.addLazy cmd archive Name member).1.SyntheticFunctions = _
      rw [heq, SyntheticFunctions_fetch, same.SyntheticFunctions]
  | symbol F sym =>
      obtain ⟨t₁, same, heq⟩ := addSymbol_eq (t := t) (F := F)
      show (t.addSymbol cmd F sym).1.SyntheticFunctions = _
      rw [heq, SyntheticFunctions_fetch, same.SyntheticFunctions]

/-- What a call does with the files. -/
inductive Outcome (cmd : Command) (t t' : SymbolTable) : Task → List Task → Prop
  | nowhere {i : ℕ} : cmd.Files[i]? = none → t' = t → Outcome cmd t t' (.file i) []
  | object {i : ℕ} {obj : ObjFile} : cmd.Files[i]? = some (.object obj) →
      t' = (t.parse (.object i) obj).1 →
      Outcome cmd t t' (.file i) (t.opened (.object i) obj).calls
  | archive {i : ℕ} {a : ArchiveFile} : cmd.Files[i]? = some (.archive a) → t' = t →
      Outcome cmd t t' (.file i) (a.index.map fun e => .lazy i e.1 e.2)
  | parsed {F : ParsedFile} : t' = { t with ObjectFiles := t.ObjectFiles ++ [F] } →
      Outcome cmd t t' (.parsed F) []
  | kept {task : Task} : task.Enters →
      (∀ id, task.fetches t = some id → id ∈ t.Seen) → t.SameFiles t' → Outcome cmd t t' task []
  | missing {task : Task} {id : ℕ × ℕ} : task.Enters →
      task.fetches t = some id → cmd.object? (.member id.1 id.2) = none →
      t'.Comdats = t.Comdats → t'.ObjectFiles = t.ObjectFiles → t'.Seen = id :: t.Seen →
      Outcome cmd t t' task []
  | fetched {task : Task} {id : ℕ × ℕ} {obj : ObjFile} : task.Enters →
      task.fetches t = some id → id ∉ t.Seen → cmd.object? (.member id.1 id.2) = some obj →
      t'.Comdats = (addComdats t.Comdats obj.Comdats).1 → t'.ObjectFiles = t.ObjectFiles →
      t'.Seen = id :: t.Seen →
      Outcome cmd t t' task (t.opened (.member id.1 id.2) obj).calls

theorem outcome_fetch {task : Task} {t₁ : SymbolTable} (htask : task.Enters)
    (same : t.SameFiles t₁) :
    Outcome cmd t (t₁.fetch cmd (task.fetches t)).1 task (t₁.fetch cmd (task.fetches t)).2 := by
  have hopened (id : FileId) (obj : ObjFile) : t₁.opened id obj = t.opened id obj := by
    rw [opened, opened, same.Comdats]
  cases hfetch : task.fetches t with
  | none => exact .kept htask (fun id hid => by rw [hfetch] at hid; cases hid) same
  | some id =>
      show Outcome cmd t (t₁.addMember cmd id.1 id.2).1 task (t₁.addMember cmd id.1 id.2).2
      unfold addMember
      split
      case isTrue hseen =>
        rw [same.Seen] at hseen
        exact .kept htask (fun id' hid => by rw [hfetch] at hid; cases hid; exact hseen) same
      case isFalse hseen =>
        rw [same.Seen] at hseen
        cases hobj : cmd.object? (.member id.1 id.2) with
        | none =>
            exact .missing htask hfetch hobj same.Comdats same.ObjectFiles
              (congrArg (id :: ·) same.Seen)
        | some obj =>
            have hcalls : Outcome cmd t ((({ t₁ with Seen := id :: t₁.Seen } : SymbolTable)).parse
                (.member id.1 id.2) obj).1 task _ := Outcome.fetched htask hfetch hseen hobj
              (congrArg (fun Comdats => (addComdats Comdats obj.Comdats).1) same.Comdats)
              same.ObjectFiles (congrArg (id :: ·) same.Seen)
            rw [← hopened] at hcalls
            exact hcalls

theorem outcome_perform (task : Task) :
    Outcome cmd t (t.perform cmd task).1 task (t.perform cmd task).2 := by
  cases task with
  | file i =>
      show Outcome cmd t (t.addFile cmd i).1 (.file i) (t.addFile cmd i).2
      unfold addFile
      cases hfile : cmd.Files[i]? with
      | none => exact .nowhere hfile rfl
      | some f =>
          cases f with
          | object obj => exact .object hfile rfl
          | archive a => exact .archive hfile rfl
  | parsed F => exact .parsed rfl
  | lazy archive Name member =>
      obtain ⟨t₁, same, heq⟩ := addLazy_eq (t := t) archive Name member
      show Outcome cmd t (t.addLazy cmd archive Name member).1 _
        (t.addLazy cmd archive Name member).2
      rw [heq]
      exact outcome_fetch trivial same
  | symbol F sym =>
      obtain ⟨t₁, same, heq⟩ := addSymbol_eq (t := t) (F := F)
      show Outcome cmd t (t.addSymbol cmd F sym).1 _ (t.addSymbol cmd F sym).2
      rw [heq]
      exact outcome_fetch trivial same

end SymbolTable

/-! ## What the calls of a call are -/

/-- The file that a call enters as read. -/
def Task.read? : Task → Option ParsedFile
  | .parsed F => some F
  | _ => none

def Task.readId? (task : Task) : Option FileId := task.read?.map (·.id)

def Task.fileNo? : Task → Option ℕ
  | .file i => some i
  | _ => none

theorem Task.Enters.filterMap_read {task : Task} (h : task.Enters) :
    [task].filterMap Task.read? = [] := by
  cases task with
  | file | parsed => exact h.elim
  | lazy | symbol => rfl

namespace ParsedFile

variable {F G : ParsedFile} {sym : WasmSymbol}

theorem symbol_mem_calls : .symbol G sym ∈ F.calls ↔ G = F ∧ sym ∈ F.obj.symbols := by
  unfold calls
  rw [List.mem_append, List.mem_map, List.mem_singleton]
  constructor
  · rintro (⟨sym', hmem, heq⟩ | heq)
    · cases heq
      exact ⟨rfl, hmem⟩
    · cases heq
  · rintro ⟨rfl, hmem⟩
    exact .inl ⟨sym, hmem, rfl⟩

theorem parsed_mem_calls : .parsed G ∈ F.calls ↔ G = F := by
  unfold calls
  rw [List.mem_append, List.mem_map, List.mem_singleton, Task.parsed.injEq]
  exact or_iff_right fun ⟨_, _, h⟩ => Task.noConfusion h

theorem lazy_notMem_calls {i m : ℕ} {n : String} : .lazy i n m ∉ F.calls := by
  simp [calls]

theorem filterMap_fileNo_calls : F.calls.filterMap Task.fileNo? = [] := by
  unfold calls
  rw [List.filterMap_append, List.filterMap_map]
  exact List.append_eq_nil_iff.mpr ⟨List.filterMap_eq_nil_iff.mpr fun _ _ => rfl, rfl⟩

theorem filterMap_readId_calls : F.calls.filterMap Task.readId? = [F.id] := by
  have hsymbols : (F.obj.symbols.map (Task.symbol F)).filterMap Task.readId? = [] := by
    rw [List.filterMap_map]
    exact List.filterMap_eq_nil_iff.mpr fun _ _ => rfl
  rw [calls, List.filterMap_append, hsymbols]
  rfl

end ParsedFile

namespace SymbolTable.Outcome

variable {cmd : Command} {t t' : SymbolTable} {task : Task} {calls : List Task}

/-- Either an object is read, or an index is listed, or nothing is called. -/
theorem calls_cases (h : Outcome cmd t t' task calls) :
    calls = [] ∨
    (∃ i a, task = .file i ∧ cmd.archive? i = some a ∧
      calls = a.index.map fun e => .lazy i e.1 e.2) ∨
    (∃ i F, task = .file i ∧ F.id = .object i ∧ cmd.object? F.id = some F.obj ∧
      F = t.opened F.id F.obj ∧ calls = F.calls) ∨
    ∃ id F, F.id = .member id.1 id.2 ∧ task.fetches t = some id ∧ id ∉ t.Seen ∧
      cmd.object? F.id = some F.obj ∧ F = t.opened F.id F.obj ∧ calls = F.calls := by
  cases h with
  | nowhere | parsed | kept | missing => exact .inl rfl
  | @object i obj hfile =>
      exact .inr (.inr (.inl ⟨i, t.opened (.object i) obj, rfl, rfl,
        cmd.object?_object.mpr hfile, rfl, rfl⟩))
  | @archive i a hfile =>
      exact .inr (.inl ⟨i, a, rfl, cmd.archive?_eq_some_iff.mpr hfile, rfl⟩)
  | @fetched _ id obj _ hfetch hnew hobj =>
      exact .inr (.inr (.inr ⟨id, t.opened (.member id.1 id.2) obj, rfl, hfetch, hnew, hobj, rfl,
        rfl⟩))

theorem symbol_mem (h : Outcome cmd t t' task calls) {F : ParsedFile} {sym : WasmSymbol} :
    .symbol F sym ∈ calls ↔ .parsed F ∈ calls ∧ sym ∈ F.obj.symbols := by
  obtain rfl | ⟨i, a, -, -, rfl⟩ | ⟨i, G, -, -, -, -, rfl⟩ | ⟨id, G, -, -, -, -, -, rfl⟩ :=
    h.calls_cases
  · simp
  · simp
  · rw [ParsedFile.symbol_mem_calls, ParsedFile.parsed_mem_calls]
    exact and_congr_right fun heq => heq ▸ Iff.rfl
  · rw [ParsedFile.symbol_mem_calls, ParsedFile.parsed_mem_calls]
    exact and_congr_right fun heq => heq ▸ Iff.rfl

theorem filterMap_fileNo (h : Outcome cmd t t' task calls) : calls.filterMap Task.fileNo? = [] := by
  obtain rfl | ⟨i, a, -, -, rfl⟩ | ⟨i, G, -, -, -, -, rfl⟩ | ⟨id, G, -, -, -, -, -, rfl⟩ :=
    h.calls_cases
  · rfl
  · rw [List.filterMap_map]
    exact List.filterMap_eq_nil_iff.mpr fun _ _ => rfl
  · exact ParsedFile.filterMap_fileNo_calls
  · exact ParsedFile.filterMap_fileNo_calls

theorem lazy_mem (h : Outcome cmd t t' task calls) {i m : ℕ} {n : String} :
    .lazy i n m ∈ calls ↔ task = .file i ∧ ∃ a, cmd.archive? i = some a ∧ (n, m) ∈ a.index := by
  constructor
  · intro hmem
    obtain rfl | ⟨j, a, htask, ha, rfl⟩ | ⟨j, G, -, -, -, -, rfl⟩ | ⟨id, G, -, -, -, -, -, rfl⟩ :=
      h.calls_cases
    · cases hmem
    · obtain ⟨e, he, heq⟩ := List.mem_map.mp hmem
      cases heq
      exact ⟨htask, a, ha, he⟩
    · exact absurd hmem ParsedFile.lazy_notMem_calls
    · exact absurd hmem ParsedFile.lazy_notMem_calls
  · rintro ⟨rfl, a, ha, hmem⟩
    cases h with
    | nowhere hfile | object hfile => rw [Command.archive?, hfile] at ha; cases ha
    | archive hfile =>
        rw [Command.archive?, hfile] at ha
        cases ha
        exact List.mem_map.mpr ⟨(n, m), hmem, rfl⟩
    | kept htask | missing htask | fetched htask => exact htask.elim

/-- An object is read as it is, with the groups that are new. -/
theorem parsed_mem (h : Outcome cmd t t' task calls) {F : ParsedFile} (hF : .parsed F ∈ calls) :
    cmd.object? F.id = some F.obj ∧ F = t.opened F.id F.obj := by
  obtain rfl | ⟨i, a, -, -, rfl⟩ | ⟨i, G, -, -, hobj, hopened, rfl⟩ |
    ⟨id, G, -, -, -, hobj, hopened, rfl⟩ := h.calls_cases
  · cases hF
  · simp at hF
  · rw [ParsedFile.parsed_mem_calls.mp hF]
    exact ⟨hobj, hopened⟩
  · rw [ParsedFile.parsed_mem_calls.mp hF]
    exact ⟨hobj, hopened⟩

theorem objects (h : Outcome cmd t t' task calls) :
    t'.ObjectFiles = t.ObjectFiles ++ [task].filterMap Task.read? := by
  cases h with
  | nowhere _ hsame | object _ hsame | archive _ hsame =>
      rw [hsame]
      exact (List.append_nil _).symm
  | parsed hsame =>
      rw [hsame]
      rfl
  | kept htask _ hsame =>
      rw [hsame.ObjectFiles, htask.filterMap_read, List.append_nil]
  | missing htask _ _ _ hsame | fetched htask _ _ _ _ hsame =>
      rw [hsame, htask.filterMap_read, List.append_nil]

theorem seen_subset (h : Outcome cmd t t' task calls) : t.Seen ⊆ t'.Seen := by
  cases h with
  | nowhere _ hsame | object _ hsame | archive _ hsame | parsed hsame =>
      rw [hsame]
      exact List.Subset.refl _
  | kept _ _ hsame =>
      rw [hsame.Seen]
      exact List.Subset.refl _
  | missing _ _ _ _ _ hseen | fetched _ _ _ _ _ _ hseen =>
      rw [hseen]
      exact List.subset_cons_self ..

/-- A member is marked as seen when it is fetched, and then it is read. -/
theorem of_seen (h : Outcome cmd t t' task calls) {id : ℕ × ℕ} (hid : id ∈ t'.Seen) :
    id ∈ t.Seen ∨ task.fetches t = some id ∧
      ∀ obj, cmd.object? (.member id.1 id.2) = some obj →
        ∃ F, .parsed F ∈ calls ∧ F.id = .member id.1 id.2 ∧ F.obj = obj := by
  cases h with
  | nowhere _ hsame | object _ hsame | archive _ hsame | parsed hsame =>
      rw [hsame] at hid
      exact .inl hid
  | kept _ _ hsame => exact .inl (hsame.Seen ▸ hid)
  | missing _ hfetch hobj _ _ hseen =>
      rw [hseen] at hid
      rcases List.mem_cons.mp hid with rfl | hold
      · exact .inr ⟨hfetch, fun obj hsome => by rw [hobj] at hsome; cases hsome⟩
      · exact .inl hold
  | @fetched _ _ obj _ hfetch _ hobj _ _ hseen =>
      rw [hseen] at hid
      rcases List.mem_cons.mp hid with rfl | hold
      · refine .inr ⟨hfetch, fun obj' hsome => ?_⟩
        rw [hobj] at hsome
        cases hsome
        exact ⟨_, ParsedFile.parsed_mem_calls.mpr rfl, rfl, rfl⟩
      · exact .inl hold

theorem fetches_subset (h : Outcome cmd t t' task calls) {id : ℕ × ℕ}
    (hfetch : task.fetches t = some id) : id ∈ t'.Seen := by
  cases h with
  | nowhere | object | archive | parsed => cases hfetch
  | kept _ hold hsame =>
      rw [hsame.Seen]
      exact hold id hfetch
  | missing _ hfetch' _ _ _ hseen | fetched _ hfetch' _ _ _ _ hseen =>
      rw [hfetch'] at hfetch
      cases hfetch
      rw [hseen]
      exact List.mem_cons_self

/-- What is read is an object of the command line, or a member that was not seen. -/
theorem readIds (h : Outcome cmd t t' task calls) :
    calls.filterMap Task.readId? = [] ∨
    (∃ i, task = .file i ∧ calls.filterMap Task.readId? = [.object i]) ∨
    ∃ id, id ∉ t.Seen ∧ id ∈ t'.Seen ∧
      calls.filterMap Task.readId? = [.member id.1 id.2] := by
  obtain rfl | ⟨i, a, -, -, rfl⟩ | ⟨i, G, htask, hid, -, -, rfl⟩ |
    ⟨id, G, hid, hfetch, hnew, -, -, rfl⟩ := h.calls_cases
  · exact .inl rfl
  · refine .inl ?_
    rw [List.filterMap_map]
    exact List.filterMap_eq_nil_iff.mpr fun _ _ => rfl
  · refine .inr (.inl ⟨i, htask, ?_⟩)
    rw [ParsedFile.filterMap_readId_calls, hid]
  · refine .inr (.inr ⟨id, hnew, h.fetches_subset hfetch, ?_⟩)
    rw [ParsedFile.filterMap_readId_calls, hid]

theorem reads {i : ℕ} {obj : ObjFile} (h : Outcome cmd t t' (.file i) calls)
    (hobj : cmd.Files[i]? = some (.object obj)) :
    ∃ F, .parsed F ∈ calls ∧ F.id = .object i ∧ F.obj = obj := by
  cases h with
  | nowhere hfile | archive hfile => rw [hfile] at hobj; cases hobj
  | object hfile =>
      rw [hfile] at hobj
      cases hobj
      exact ⟨_, ParsedFile.parsed_mem_calls.mpr rfl, rfl, rfl⟩
  | kept htask | missing htask | fetched htask => exact htask.elim

end SymbolTable.Outcome

/-! ## Reading comes to an end -/

namespace Command

variable (cmd : Command)

theorem lt_of_archive? {i : ℕ} {a : ArchiveFile} (ha : cmd.archive? i = some a) :
    i < cmd.Files.length := by
  by_contra hge
  rw [archive?, List.getElem?_eq_none (Nat.le_of_not_lt hge)] at ha
  cases ha

theorem mem_memberIds {id : ℕ × ℕ} {obj : ObjFile}
    (h : cmd.object? (.member id.1 id.2) = some obj) : id ∈ cmd.memberIds := by
  obtain ⟨a, ha, hmember⟩ := cmd.object?_member.mp h
  have hfile := cmd.lt_of_archive? ha
  refine List.mem_flatMap.mpr ⟨id.1, List.mem_range.mpr hfile, ?_⟩
  rw [ha]
  exact List.mem_map.mpr ⟨id.2, List.mem_range.mpr (List.getElem?_eq_some_iff.mp hmember).1, rfl⟩

theorem sum_weight_calls (F : ParsedFile) :
    (F.calls.map cmd.weight).sum = objectCalls F.obj := by
  have hsymbols : (F.obj.symbols.map fun sym => cmd.weight (.symbol F sym)).sum =
      F.obj.symbols.length :=
    (congrArg List.sum (List.map_const' ..)).trans (List.sum_replicate_nat.trans (mul_one _))
  rw [ParsedFile.calls, List.map_append, List.map_map, List.sum_append]
  exact congrArg (· + 1) hsymbols

theorem sum_weight_lazy (i : ℕ) (index : List (String × ℕ)) :
    ((index.map fun e => Task.lazy i e.1 e.2).map cmd.weight).sum = index.length := by
  rw [List.map_map]
  exact (congrArg List.sum (List.map_const' ..)).trans (List.sum_replicate_nat.trans (mul_one _))

/-- What is left when the members in `Seen` are read. -/
def unread (Seen : List (ℕ × ℕ)) : ℕ := unseen cmd.memberWeight cmd.memberIds Seen

end Command

theorem Task.Enters.weight {cmd : Command} {task : Task} (h : task.Enters) :
    cmd.weight task = 1 := by
  cases task with
  | file | parsed => exact h.elim
  | lazy | symbol => rfl

/-- The calls that a call makes weigh less than it does. -/
theorem SymbolTable.Outcome.weight_lt {cmd : Command} {t t' : SymbolTable} {task : Task}
    {calls : List Task} (h : Outcome cmd t t' task calls) :
    (calls.map cmd.weight).sum + cmd.unread t'.Seen < cmd.weight task + cmd.unread t.Seen := by
  cases h with
  | @nowhere i hfile hsame =>
      have hweight : cmd.weight (.file i) = 1 := by rw [Command.weight, hfile]
      rw [hweight, hsame]
      exact Nat.add_lt_add_right Nat.zero_lt_one _
  | @object i obj hfile hsame =>
      have hweight : cmd.weight (.file i) = Command.objectCalls obj + 1 := by
        rw [Command.weight, hfile]
      rw [hweight, hsame, cmd.sum_weight_calls]
      exact Nat.add_lt_add_right (Nat.lt_succ_self _) _
  | @archive i a hfile hsame =>
      have hweight : cmd.weight (.file i) = a.index.length + 1 := by rw [Command.weight, hfile]
      rw [hweight, hsame, cmd.sum_weight_lazy]
      exact Nat.add_lt_add_right (Nat.lt_succ_self _) _
  | parsed hsame =>
      rw [hsame]
      exact Nat.add_lt_add_right Nat.zero_lt_one _
  | kept htask _ hsame =>
      rw [htask.weight, hsame.Seen]
      exact Nat.add_lt_add_right Nat.zero_lt_one _
  | @missing _ id htask _ _ _ _ hseen =>
      have hle : cmd.unread (id :: t.Seen) ≤ cmd.unread t.Seen := unseen_cons_le ..
      rw [htask.weight, hseen, List.map_nil, List.sum_nil]
      omega
  | @fetched _ id obj htask _ hnew hobj _ _ hseen =>
      have hle : cmd.unread (id :: t.Seen) + cmd.memberWeight id ≤ cmd.unread t.Seen :=
        unseen_cons cmd.memberWeight (cmd.mem_memberIds hobj) hnew
      have hmember : cmd.memberWeight id = Command.objectCalls obj := by
        rw [Command.memberWeight, hobj]
      rw [htask.weight, hseen, cmd.sum_weight_calls]
      show Command.objectCalls obj + _ < _
      omega

namespace Loading

variable {cmd : Command} {s s' : Loading}

theorem next_eq_some_iff : s.next cmd = some s' ↔ ∃ task rest, s.agenda = task :: rest ∧
    s' = ⟨(s.table.perform cmd task).1, (s.table.perform cmd task).2 ++ rest,
      s.done ++ [task]⟩ := by
  unfold next
  cases s.agenda with
  | nil => simp
  | cons task rest =>
      constructor
      · intro h
        exact ⟨task, rest, rfl, (Option.some.inj h).symm⟩
      · rintro ⟨task', rest', hcons, rfl⟩
        cases hcons
        rfl

theorem next_eq_none_iff : s.next cmd = none ↔ s.agenda = [] := by
  unfold next
  cases s.agenda <;> simp

/-- The calls that can still be made. -/
def left (cmd : Command) (s : Loading) : ℕ :=
  (s.agenda.map cmd.weight).sum + cmd.unread s.table.Seen

theorem left_next (h : s.next cmd = some s') : s'.left cmd < s.left cmd := by
  obtain ⟨task, rest, hagenda, rfl⟩ := next_eq_some_iff.mp h
  have hlt := (@SymbolTable.outcome_perform s.table cmd task).weight_lt
  unfold left
  rw [hagenda, List.map_cons, List.sum_cons, List.map_append, List.sum_append]
  dsimp only
  omega

end Loading

/-- All calls are made in the end. -/
theorem Command.load_agenda (cmd : Command) : cmd.load.agenda = [] := by
  have hseen : cmd.unread cmd.start.table.Seen ≤ (cmd.memberIds.map cmd.memberWeight).sum :=
    unseen_le ..
  exact Loading.next_eq_none_iff.mp (exhaust_stops (·.left cmd) (fun s s' => Loading.left_next)
    (Nat.add_le_add_left hseen _))

theorem Command.load_induction (cmd : Command) {P : Loading → Prop} (hstart : P cmd.start)
    (hnext : ∀ s task rest, P s → s.agenda = task :: rest →
      P ⟨(s.table.perform cmd task).1, (s.table.perform cmd task).2 ++ rest, s.done ++ [task]⟩) :
    P cmd.load := by
  refine exhaust_induction P (fun s s' hs hstep => ?_) hstart
  obtain ⟨task, rest, hagenda, rfl⟩ := Loading.next_eq_some_iff.mp hstep
  exact hnext s task rest hs hagenda

/-! ## What has been read -/

namespace Loading

/-- The calls, made or not. -/
def tasks (s : Loading) : List Task := s.done ++ s.agenda

/-- No call that enters a symbol has a fault. -/
def Faultless (Entry n : String) : Option Symbol → List Task → Prop
  | _, [] => True
  | old, task :: tasks =>
      task.faults Entry n old = [] ∧ Faultless Entry n (task.effect n old) tasks

/-- What is under a name after some calls. -/
def after (n : String) (old : Option Symbol) (tasks : List Task) : Option Symbol :=
  tasks.foldl (fun old task => task.effect n old) old

theorem after_append (n : String) (old : Option Symbol) (xs ys : List Task) :
    after n old (xs ++ ys) = after n (after n old xs) ys := List.foldl_append

theorem faultless_append {Entry n : String} {old : Option Symbol} {xs ys : List Task} :
    Faultless Entry n old (xs ++ ys) ↔
      Faultless Entry n old xs ∧ Faultless Entry n (after n old xs) ys := by
  induction xs generalizing old with
  | nil => exact (iff_of_eq (true_and _)).symm
  | cons x xs ih =>
      rw [List.cons_append, Faultless, Faultless, ih, and_assoc]
      rfl

/-- What is kept of the files goes with the calls. -/
structure Kept (cmd : Command) (s : Loading) : Prop where
  find : ∀ n, s.table.find n = after n (cmd.startTable.find n) s.done
  faultless : s.table.errors = [] → ∀ n,
    Faultless cmd.Entry n (cmd.startTable.find n) s.done
  objects : s.table.ObjectFiles = s.done.filterMap Task.read?
  symbols : ∀ F sym, .symbol F sym ∈ s.tasks ↔ .parsed F ∈ s.tasks ∧ sym ∈ F.obj.symbols
  files : s.tasks.filterMap Task.fileNo? = List.range cmd.Files.length
  lazies : ∀ i n m, .lazy i n m ∈ s.tasks ↔
    .file i ∈ s.done ∧ ∃ a, cmd.archive? i = some a ∧ (n, m) ∈ a.index
  parsed : ∀ F, .parsed F ∈ s.tasks → cmd.object? F.id = some F.obj
  ids : (s.tasks.filterMap Task.readId?).Nodup
  object : ∀ i, .object i ∈ s.tasks.filterMap Task.readId? → .file i ∈ s.done
  member : ∀ i m, .member i m ∈ s.tasks.filterMap Task.readId? → (i, m) ∈ s.table.Seen
  members : ∀ id ∈ s.table.Seen, ∀ obj, cmd.object? (.member id.1 id.2) = some obj →
    ∃ F, .parsed F ∈ s.tasks ∧ F.id = .member id.1 id.2 ∧ F.obj = obj
  commanded : ∀ i obj, .file i ∈ s.done → cmd.Files[i]? = some (.object obj) →
    ∃ F, .parsed F ∈ s.tasks ∧ F.id = .object i ∧ F.obj = obj

end Loading

namespace SymbolTable

theorem sameFiles_foldl_addUndefinedFunction (names : List String) (flags : Flags)
    (t : SymbolTable) : t.SameFiles
      (names.foldl (fun t Name => (t.addUndefinedFunction Name flags none none).1) t) := by
  induction names generalizing t with
  | nil => exact .refl t
  | cons n names ih => exact (sameFiles_addUndefined ..).trans (ih _)

end SymbolTable

namespace Command

variable (cmd : Command)

theorem sameFiles_startTable : cmd.synthetic.SameFiles cmd.startTable :=
  SymbolTable.sameFiles_foldl_addUndefinedFunction ..

theorem readIds_start : cmd.start.tasks.filterMap Task.readId? = [] := by
  show ((List.range cmd.Files.length).map Task.file).filterMap Task.readId? = []
  rw [List.filterMap_map]
  exact List.filterMap_eq_nil_iff.mpr fun _ _ => rfl

theorem kept_start : cmd.start.Kept cmd where
  find n := rfl
  faultless _ n := trivial
  objects := cmd.sameFiles_startTable.ObjectFiles
  symbols F sym := by simp [start, Loading.tasks]
  files := by
    show ((List.range cmd.Files.length).map Task.file).filterMap Task.fileNo? = _
    rw [List.filterMap_map]
    exact List.filterMap_some
  lazies i n m := by simp [start, Loading.tasks]
  parsed F h := by simp [start, Loading.tasks] at h
  ids := by
    rw [readIds_start]
    exact .nil
  object i h := by
    rw [readIds_start] at h
    cases h
  member i m h := by
    rw [readIds_start] at h
    cases h
  members id hid := by
    rw [start, cmd.sameFiles_startTable.Seen] at hid
    cases hid
  commanded i obj h := by cases h

end Command

namespace Loading

variable {cmd : Command} {s : Loading} {task : Task} {rest : List Task}

/-- The call is made, and the calls it makes come next. -/
def call (cmd : Command) (s : Loading) (task : Task) (rest : List Task) : Loading :=
  ⟨(s.table.perform cmd task).1, (s.table.perform cmd task).2 ++ rest, s.done ++ [task]⟩

theorem mem_done_call {x : Task} : x ∈ (s.call cmd task rest).done ↔ x ∈ s.done ∨ x = task := by
  show x ∈ s.done ++ [task] ↔ _
  rw [List.mem_append, List.mem_singleton]

theorem tasks_call (hagenda : s.agenda = task :: rest) : (s.call cmd task rest).tasks.Perm
    (s.tasks ++ (s.table.perform cmd task).2) := by
  show (s.done ++ [task] ++ ((s.table.perform cmd task).2 ++ rest)).Perm _
  rw [tasks, hagenda, List.append_assoc, List.append_assoc]
  show (s.done ++ task :: (_ ++ rest)).Perm (s.done ++ task :: (rest ++ _))
  exact (List.perm_append_comm.cons task).append_left s.done

theorem mem_tasks_call (hagenda : s.agenda = task :: rest) {x : Task} :
    x ∈ (s.call cmd task rest).tasks ↔ x ∈ s.tasks ∨ x ∈ (s.table.perform cmd task).2 := by
  rw [(tasks_call hagenda).mem_iff, List.mem_append]

theorem filterMap_tasks_call {β : Type} (hagenda : s.agenda = task :: rest)
    (f : Task → Option β) : ((s.call cmd task rest).tasks.filterMap f).Perm
      (s.tasks.filterMap f ++ (s.table.perform cmd task).2.filterMap f) := by
  rw [← List.filterMap_append]
  exact (tasks_call hagenda).filterMap f

/-- A file of the command line is not taken up twice. -/
theorem Kept.file_notMem (h : s.Kept cmd) {i : ℕ} (hagenda : s.agenda = .file i :: rest) :
    .file i ∉ s.done := by
  intro hdone
  have hnodup : (s.tasks.filterMap Task.fileNo?).Nodup := by
    rw [h.files]
    exact List.nodup_range
  rw [tasks, hagenda, List.filterMap_append, List.nodup_append] at hnodup
  exact hnodup.2.2 i (List.mem_filterMap.mpr ⟨_, hdone, rfl⟩) i
    (List.mem_filterMap.mpr ⟨_, List.mem_cons_self, rfl⟩) rfl

theorem kept_call (h : s.Kept cmd) (hagenda : s.agenda = task :: rest) :
    (s.call cmd task rest).Kept cmd := by
  have houtcome := @SymbolTable.outcome_perform s.table cmd task
  have hids := @filterMap_tasks_call cmd _ _ _ _ hagenda Task.readId?
  constructor
  case find =>
    intro n
    show (s.table.perform cmd task).1.find n = after n _ (s.done ++ [task])
    rw [after_append, ← h.find n]
    exact SymbolTable.find_perform task n
  case faultless =>
    intro herrors n
    obtain ⟨hold, hnone⟩ := SymbolTable.faults_of_errors_perform herrors
    show Faultless _ _ _ (s.done ++ [task])
    rw [faultless_append, ← h.find n]
    exact ⟨h.faultless hold n, hnone n, trivial⟩
  case objects =>
    show _ = (s.done ++ [task]).filterMap _
    rw [List.filterMap_append, ← h.objects]
    exact houtcome.objects
  case symbols =>
    intro F sym
    rw [mem_tasks_call hagenda, mem_tasks_call hagenda, h.symbols F sym, houtcome.symbol_mem,
      or_and_right]
  case files =>
    rw [← h.files, tasks, tasks, hagenda]
    show (s.done ++ [task] ++ (_ ++ rest)).filterMap _ = (s.done ++ ([task] ++ rest)).filterMap _
    simp only [List.filterMap_append, houtcome.filterMap_fileNo, List.nil_append,
      List.append_assoc]
  case lazies =>
    intro i n m
    rw [mem_tasks_call hagenda, h.lazies, houtcome.lazy_mem, ← or_and_right, mem_done_call, eq_comm]
  case parsed =>
    intro F hF
    rcases (mem_tasks_call hagenda).mp hF with hold | hnew
    · exact h.parsed F hold
    · exact (houtcome.parsed_mem hnew).1
  case ids =>
    rw [hids.nodup_iff]
    rcases houtcome.readIds with hnone | ⟨i, rfl, hone⟩ | ⟨id, hnew, -, hone⟩
    · rw [hnone, List.append_nil]
      exact h.ids
    · rw [hone, ← List.concat_eq_append, List.nodup_concat]
      exact ⟨fun hmem => h.file_notMem hagenda (h.object i hmem), h.ids⟩
    · rw [hone, ← List.concat_eq_append, List.nodup_concat]
      exact ⟨fun hmem => hnew (h.member id.1 id.2 hmem), h.ids⟩
  case object =>
    intro i hi
    rw [hids.mem_iff, List.mem_append] at hi
    rw [mem_done_call]
    rcases hi with hold | hnew
    · exact .inl (h.object i hold)
    · rcases houtcome.readIds with hnone | ⟨j, rfl, hone⟩ | ⟨id, -, -, hone⟩
      · rw [hnone] at hnew
        cases hnew
      · rw [hone, List.mem_singleton] at hnew
        cases hnew
        exact .inr rfl
      · rw [hone, List.mem_singleton] at hnew
        cases hnew
  case member =>
    intro i m hi
    rw [hids.mem_iff, List.mem_append] at hi
    rcases hi with hold | hnew
    · exact houtcome.seen_subset (h.member i m hold)
    · rcases houtcome.readIds with hnone | ⟨j, rfl, hone⟩ | ⟨id, -, hseen, hone⟩
      · rw [hnone] at hnew
        cases hnew
      · rw [hone, List.mem_singleton] at hnew
        cases hnew
      · rw [hone, List.mem_singleton] at hnew
        cases hnew
        exact hseen
  case members =>
    intro id hid obj hobj
    rcases houtcome.of_seen hid with hold | ⟨-, hread⟩
    · obtain ⟨F, hF, hFid⟩ := h.members id hold obj hobj
      exact ⟨F, (mem_tasks_call hagenda).mpr (.inl hF), hFid⟩
    · obtain ⟨F, hF, hFid⟩ := hread obj hobj
      exact ⟨F, (mem_tasks_call hagenda).mpr (.inr hF), hFid⟩
  case commanded =>
    intro i obj hi hobj
    rcases mem_done_call.mp hi with hold | rfl
    · obtain ⟨F, hF, hFid⟩ := h.commanded i obj hold hobj
      exact ⟨F, (mem_tasks_call hagenda).mpr (.inl hF), hFid⟩
    · obtain ⟨F, hF, hFid⟩ := houtcome.reads hobj
      exact ⟨F, (mem_tasks_call hagenda).mpr (.inr hF), hFid⟩

end Loading

namespace Command

variable (cmd : Command)

theorem kept_load : cmd.load.Kept cmd :=
  cmd.load_induction cmd.kept_start fun _ _ _ h hagenda => Loading.kept_call h hagenda

theorem tasks_load : cmd.load.tasks = cmd.load.done := by
  rw [Loading.tasks, cmd.load_agenda, List.append_nil]

/-- The objects that have been read. -/
def ObjectFiles : List ParsedFile := cmd.load.table.ObjectFiles

theorem mem_ObjectFiles {F : ParsedFile} : F ∈ cmd.ObjectFiles ↔ .parsed F ∈ cmd.load.done := by
  rw [ObjectFiles, cmd.kept_load.objects, List.mem_filterMap]
  constructor
  · rintro ⟨task, hmem, hread⟩
    cases task with
    | file | lazy | symbol => cases hread
    | parsed G =>
        cases hread
        exact hmem
  · intro hmem
    exact ⟨_, hmem, rfl⟩

/-- In the end the symbols that have been entered are those of the objects read. -/
theorem symbol_mem_done {F : ParsedFile} {sym : WasmSymbol} :
    .symbol F sym ∈ cmd.load.done ↔ F ∈ cmd.ObjectFiles ∧ sym ∈ F.obj.symbols := by
  rw [← cmd.tasks_load, cmd.kept_load.symbols, cmd.tasks_load, mem_ObjectFiles]

theorem file_mem_done {i : ℕ} (hi : i < cmd.Files.length) : .file i ∈ cmd.load.done := by
  have hmem : i ∈ cmd.load.tasks.filterMap Task.fileNo? := by
    rw [cmd.kept_load.files]
    exact List.mem_range.mpr hi
  rw [cmd.tasks_load] at hmem
  obtain ⟨task, htask, hno⟩ := List.mem_filterMap.mp hmem
  cases task with
  | parsed | lazy | symbol => cases hno
  | file j =>
      cases hno
      exact htask

/-- In the end every index has been listed. -/
theorem lazy_mem_done {i m : ℕ} {n : String} :
    .lazy i n m ∈ cmd.load.done ↔ ∃ a, cmd.archive? i = some a ∧ (n, m) ∈ a.index := by
  rw [← cmd.tasks_load, cmd.kept_load.lazies]
  refine and_iff_right_of_imp ?_
  rintro ⟨a, ha, -⟩
  exact cmd.file_mem_done (cmd.lt_of_archive? ha)

theorem SyntheticFunctions_load : cmd.load.table.SyntheticFunctions = cmd.syntheticFunctions := by
  refine cmd.load_induction
    (P := fun s => s.table.SyntheticFunctions = cmd.syntheticFunctions) ?_ ?_
  · exact cmd.sameFiles_startTable.SyntheticFunctions
  · intro s task rest h _
    exact (SymbolTable.SyntheticFunctions_perform task).trans h

theorem ids_load : (cmd.ObjectFiles.map (·.id)).Nodup := by
  have hids := cmd.kept_load.ids
  rw [cmd.tasks_load] at hids
  rw [ObjectFiles, cmd.kept_load.objects, List.map_filterMap]
  exact hids

/-- Every object of the command line is read, and no file is read twice. -/
theorem load_reads : cmd.load.agenda = [] ∧ (cmd.ObjectFiles.map (·.id)).Nodup ∧
    (∀ F ∈ cmd.ObjectFiles, cmd.object? F.id = some F.obj) ∧
    ∀ i obj, cmd.Files[i]? = some (.object obj) →
      ∃ F ∈ cmd.ObjectFiles, F.id = .object i ∧ F.obj = obj := by
  refine ⟨cmd.load_agenda, cmd.ids_load, fun F hF => ?_, fun i obj hobj => ?_⟩
  · rw [mem_ObjectFiles, ← cmd.tasks_load] at hF
    exact cmd.kept_load.parsed F hF
  · have hdone := cmd.file_mem_done (List.getElem?_eq_some_iff.mp hobj).1
    obtain ⟨F, hF, hid⟩ := cmd.kept_load.commanded i obj hdone hobj
    rw [cmd.tasks_load, ← mem_ObjectFiles] at hF
    exact ⟨F, hF, hid⟩

theorem ObjectFiles_sample : sample.ObjectFiles =
    [⟨.object 0, sampleMain, []⟩, ⟨.member 1 0, sampleMember, [true]⟩,
      ⟨.object 2, sampleCopy, [false]⟩] := rfl

end Command

end FractalCdt.Linker
