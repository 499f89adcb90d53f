/-
# What archives are searched for

A member is read when a name that its archive lists is asked for, whether the
reference or the archive comes first.  So the order of the files does not matter
for what is found: a name that is asked for in the end is defined, unless no
archive lists it.  And no member is read without a name that is asked for.
-/

import FractalCdt.Linker.Groups

namespace FractalCdt.Linker

open FractalCdt.Math

theorem Symbol.pending_eq_some_iff {S : Symbol} {id : ℕ × ℕ} :
    S.pending = some id ↔ S.content = .lazy id.1 id.2 := by
  unfold pending
  cases S.content with
  | defined | undefined => simp
  | lazy archive member => simp [Prod.ext_iff]

theorem Symbol.pending_of_isDefined {S : Symbol} (h : S.isDefined) : S.pending = none := by
  obtain ⟨d, hd⟩ := isDefined_iff.mp h
  rw [pending, hd]

theorem Symbol.not_isUndefined_of_isDefined {S : Symbol} (h : S.isDefined) : ¬ S.isUndefined := by
  obtain ⟨d, hd⟩ := isDefined_iff.mp h
  rw [isUndefined, hd]
  exact Bool.false_ne_true

/-! ## What is asked for -/

/-- The name is forced with `--undefined`, or a symbol entered refers to it. -/
def Command.Asks (cmd : Command) (tasks : List Task) (n : String) : Prop :=
  n ∈ cmd.undefined ∨
    ∃ F sym, .symbol F sym ∈ tasks ∧ F.createDefined sym = none ∧ sym.Name = n

theorem Command.Asks.mono {cmd : Command} {xs ys : List Task} {n : String} (h : cmd.Asks xs n)
    (hsub : xs ⊆ ys) : cmd.Asks ys n :=
  h.imp_right fun ⟨F, sym, hmem, hsym⟩ => ⟨F, sym, hsub hmem, hsym⟩

namespace Loading

/-- What the symbols say about the archives. -/
structure Searched (cmd : Command) (s : Loading) : Prop where
  asked : ∀ F sym, .symbol F sym ∈ s.done → F.createDefined sym = none →
    ∃ S, s.table.find sym.Name = some S ∧ ∀ id, S.pending = some id → id ∈ s.table.Seen
  listed : ∀ i n m, .lazy i n m ∈ s.done →
    ∃ S, s.table.find n = some S ∧ (S.isUndefined → (i, m) ∈ s.table.Seen)
  pending : ∀ n S id, s.table.find n = some S → S.pending = some id →
    .lazy id.1 n id.2 ∈ s.done
  undefined : ∀ n S, s.table.find n = some S → S.isUndefined → cmd.Asks s.done n
  reason : ∀ id ∈ s.table.Seen, ∃ n, .lazy id.1 n id.2 ∈ s.done ∧ cmd.Asks s.done n

variable {cmd : Command} {s : Loading} {task : Task} {rest : List Task}

theorem find_call (n : String) :
    (s.call cmd task rest).table.find n = task.effect n (s.table.find n) :=
  SymbolTable.find_perform task n

/-- A symbol stays as it is or is defined. -/
theorem later_call (n : String) :
    Later (s.table.find n) ((s.call cmd task rest).table.find n) := by
  rw [find_call]
  exact task.later_effect n _

theorem done_subset_call : s.done ⊆ (s.call cmd task rest).done :=
  fun _ h => mem_done_call.mpr (.inl h)

theorem task_mem_call : task ∈ (s.call cmd task rest).done := mem_done_call.mpr (.inr rfl)

theorem seen_subset_call : s.table.Seen ⊆ (s.call cmd task rest).table.Seen :=
  (SymbolTable.outcome_perform task).seen_subset

theorem fetches_mem_call {id : ℕ × ℕ} (h : task.fetches s.table = some id) :
    id ∈ (s.call cmd task rest).table.Seen :=
  (SymbolTable.outcome_perform task).fetches_subset h

theorem asked_call (h : s.Searched cmd) {F : ParsedFile} {sym : WasmSymbol}
    (hmem : .symbol F sym ∈ (s.call cmd task rest).done) (hd : F.createDefined sym = none) :
    ∃ S, (s.call cmd task rest).table.find sym.Name = some S ∧
      ∀ id, S.pending = some id → id ∈ (s.call cmd task rest).table.Seen := by
  rcases mem_done_call.mp hmem with hold | rfl
  · obtain ⟨S, hS, hseen⟩ := h.asked F sym hold hd
    obtain ⟨S', hS', hcase⟩ := later_call sym.Name S hS
    refine ⟨S', hS', fun id hid => ?_⟩
    rcases hcase with hdef | ⟨hcontent, -, -⟩
    · rw [Symbol.pending_of_isDefined hdef] at hid
      cases hid
    · rw [Symbol.pending, hcontent] at hid
      exact seen_subset_call (hseen id hid)
  · have hover : (s.call cmd (.symbol F sym) rest).table.find sym.Name =
        F.over sym (s.table.find sym.Name) := (find_call ..).trans (if_pos rfl)
    rw [ParsedFile.over, hd] at hover
    refine ⟨_, hover, fun id hid => fetches_mem_call ?_⟩
    rw [SymbolTable.fetches_symbol, if_pos hd]
    cases hold : s.table.find sym.Name with
    | none =>
        rw [hold] at hid
        cases hid
    | some S =>
        rw [hold] at hid
        exact hid

theorem listed_call (h : s.Searched cmd) {i m : ℕ} {n : String}
    (hmem : .lazy i n m ∈ (s.call cmd task rest).done) :
    ∃ S, (s.call cmd task rest).table.find n = some S ∧
      (S.isUndefined → (i, m) ∈ (s.call cmd task rest).table.Seen) := by
  rcases mem_done_call.mp hmem with hold | rfl
  · obtain ⟨S, hS, hseen⟩ := h.listed i n m hold
    obtain ⟨S', hS', hcase⟩ := later_call n S hS
    refine ⟨S', hS', fun hund => ?_⟩
    rcases hcase with hdef | ⟨hcontent, -, -⟩
    · exact absurd hund (Symbol.not_isUndefined_of_isDefined hdef)
    · rw [Symbol.isUndefined, hcontent] at hund
      exact seen_subset_call (hseen hund)
  · have heffect : (s.call cmd (.lazy i n m) rest).table.find n =
        (s.table.find n).or (some (lazySymbol i m)) := (find_call ..).trans (if_pos rfl)
    cases hold : s.table.find n with
    | none =>
        rw [hold] at heffect
        exact ⟨_, heffect, fun hund => by cases hund⟩
    | some S =>
        rw [hold] at heffect
        refine ⟨S, heffect, fun hund => fetches_mem_call ?_⟩
        rw [SymbolTable.fetches_lazy, hold, Option.any_some, if_pos hund]

theorem pending_call (h : s.Searched cmd) {n : String} {S : Symbol} {id : ℕ × ℕ}
    (hS : (s.call cmd task rest).table.find n = some S) (hid : S.pending = some id) :
    .lazy id.1 n id.2 ∈ (s.call cmd task rest).done := by
  rw [find_call] at hS
  rcases Task.content_effect hS with ⟨S₀, hold, hcontent⟩ | ⟨i, m, -, rfl, rfl⟩ |
    ⟨F, sym, -, -, -, -, rfl⟩ | hdef
  · rw [Symbol.pending, hcontent] at hid
    exact done_subset_call (h.pending n S₀ id hold hid)
  · cases hid
    exact task_mem_call
  · cases hid
  · rw [Symbol.pending_of_isDefined hdef] at hid
    cases hid

theorem undefined_call (h : s.Searched cmd) {n : String} {S : Symbol}
    (hS : (s.call cmd task rest).table.find n = some S) (hund : S.isUndefined) :
    cmd.Asks (s.call cmd task rest).done n := by
  rw [find_call] at hS
  rcases Task.content_effect hS with ⟨S₀, hold, hcontent⟩ | ⟨i, m, -, rfl, rfl⟩ |
    ⟨F, sym, -, rfl, hn, hd, rfl⟩ | hdef
  · rw [Symbol.isUndefined, hcontent] at hund
    exact (h.undefined n S₀ hold hund).mono done_subset_call
  · cases hund
  · exact .inr ⟨F, sym, task_mem_call, hd, hn⟩
  · exact absurd hund (Symbol.not_isUndefined_of_isDefined hdef)

/-- A member is fetched for a name that is asked for. -/
theorem reason_of_fetches (h : s.Searched cmd) {id : ℕ × ℕ}
    (hfetch : task.fetches s.table = some id) :
    ∃ n, .lazy id.1 n id.2 ∈ (s.call cmd task rest).done ∧
      cmd.Asks (s.call cmd task rest).done n := by
  cases task with
  | file | parsed => cases hfetch
  | lazy i n m =>
      rw [SymbolTable.fetches_lazy] at hfetch
      split at hfetch
      case isFalse => cases hfetch
      case isTrue hund =>
        cases hfetch
        obtain ⟨S, hS, hund⟩ := (Option.any_eq_true _ _).mp hund
        exact ⟨n, task_mem_call, (h.undefined n S hS hund).mono done_subset_call⟩
  | symbol F sym =>
      rw [SymbolTable.fetches_symbol] at hfetch
      split at hfetch
      case isFalse => cases hfetch
      case isTrue hd =>
        obtain ⟨S, hS, hid⟩ := Option.bind_eq_some_iff.mp hfetch
        exact ⟨sym.Name, done_subset_call (h.pending sym.Name S id hS hid),
          .inr ⟨F, sym, task_mem_call, hd, rfl⟩⟩

theorem searched_call (h : s.Searched cmd) : (s.call cmd task rest).Searched cmd where
  asked _ _ := asked_call h
  listed _ _ _ := listed_call h
  pending _ _ _ := pending_call h
  undefined _ _ := undefined_call h
  reason id hid := by
    rcases (SymbolTable.outcome_perform task).of_seen hid with hold | ⟨hfetch, -⟩
    · obtain ⟨n, hlazy, hasks⟩ := h.reason id hold
      exact ⟨n, done_subset_call hlazy, hasks.mono done_subset_call⟩
    · exact reason_of_fetches h hfetch

/-- A definition that is entered stays. -/
theorem later_after (n : String) (old : Option Symbol) (tasks : List Task) :
    Later old (after n old tasks) := by
  induction tasks generalizing old with
  | nil => exact .refl old
  | cons task tasks ih => exact (task.later_effect n old).trans (ih _)

theorem isDefined_after {n : String} {old : Option Symbol} {tasks : List Task} {F : ParsedFile}
    {sym : WasmSymbol} {d : Definition} (hmem : .symbol F sym ∈ tasks) (hn : sym.Name = n)
    (hlocal : ¬ sym.isBindingLocal) (hd : F.createDefined sym = some d) :
    ∃ S, after n old tasks = some S ∧ S.isDefined := by
  obtain ⟨before, others, rfl⟩ := List.mem_iff_append.mp hmem
  have hentered : after n old (before ++ .symbol F sym :: others) =
      after n (F.over sym (after n old before)) others := by
    have heffect : (Task.symbol F sym).effect n (after n old before) =
        F.over sym (after n old before) := if_pos hn.symm
    rw [after_append, ← heffect]
    rfl
  rw [ParsedFile.over, hd] at hentered
  dsimp only at hentered
  rw [if_neg hlocal] at hentered
  rw [hentered]
  exact (later_after n _ others).isDefined rfl definedOver_isDefined

end Loading

/-! ## When everything is read -/

namespace Command

variable (cmd : Command)

theorem searched_start : cmd.start.Searched cmd := by
  have hseen : cmd.start.table.Seen = [] := cmd.sameFiles_startTable.Seen
  constructor
  case asked => exact fun F sym hmem => by cases hmem
  case listed => exact fun i n m hmem => by cases hmem
  case pending =>
    intro n S id hS hid
    rcases cmd.starts_startTable hS with ⟨flags, d, used, hmem, rfl⟩ | ⟨hforced, rfl⟩ <;>
      cases hid
  case undefined =>
    intro n S hS hund
    rcases cmd.starts_startTable hS with ⟨flags, d, used, hmem, rfl⟩ | ⟨hforced, -⟩
    · cases hund
    · exact .inl hforced
  case reason =>
    intro id hid
    rw [hseen] at hid
    cases hid

theorem searched_load : cmd.load.Searched cmd :=
  cmd.load_induction cmd.searched_start fun _ _ _ h _ => Loading.searched_call h

end Command

/-! ## Nothing is missed -/

namespace ParsedFile

variable {F : ParsedFile} {sym : WasmSymbol}

theorem createDefined_isSome_iff {C : InputChunk} (hC : F.obj.chunk? sym = some C) :
    (F.createDefined sym).isSome ↔ F.isExcludedByComdat C = false := by
  obtain ⟨Name, flags, Info⟩ := sym
  cases Info with
  | undefined w => cases hC
  | defined e =>
      cases e with
      | global => cases hC
      | function Index | data Index =>
          obtain ⟨Chunk, hChunk, rfl⟩ := Option.map_eq_some_iff.mp hC
          simp only [createDefined, hChunk, Option.bind_eq_bind, Option.bind_some]
          split <;> simp_all

theorem isExcludedByComdat_eq_false_iff {C : InputChunk} :
    F.isExcludedByComdat C = false ↔ ∀ i, C.Comdat = some i → F.UsedComdats[i]? = some true := by
  unfold isExcludedByComdat
  cases C.Comdat with
  | none => simp
  | some i => simp

/-- Of what an object defines only a copy of a group that another one keeps is left out. -/
theorem chunk_of_createDefined_eq_none (hsym : sym ∈ F.obj.symbols) (hdef : sym.isDefined)
    (h : F.createDefined sym = none) :
    ∃ C, F.obj.chunk? sym = some C ∧ F.isExcludedByComdat C = true := by
  have hvalid := F.obj.elements sym hsym
  have hchunk : ∃ C, F.obj.chunk? sym = some C := by
    obtain ⟨Name, flags, Info⟩ := sym
    cases Info with
    | undefined w => cases hdef
    | defined e =>
        cases e with
        | global => cases h
        | function Index => exact ⟨_, congrArg (Option.map _) (List.getElem?_eq_getElem hvalid)⟩
        | data Index =>
            obtain ⟨Seg, hSeg, -⟩ := hvalid
            exact ⟨_, congrArg (Option.map _) hSeg⟩
  obtain ⟨C, hC⟩ := hchunk
  refine ⟨C, hC, ?_⟩
  by_contra hkept
  have hsome := (createDefined_isSome_iff hC).mpr (Bool.eq_false_of_not_eq_true hkept)
  rw [h] at hsome
  cases hsome

/-- What is in a group that the object keeps is entered. -/
theorem Keeps.createDefined {i : ℕ} {g : String} (h : F.Keeps i g)
    (hgroup : F.obj.group? sym = some g) : (F.createDefined sym).isSome := by
  obtain ⟨C, hC, hplace⟩ := Option.bind_eq_some_iff.mp hgroup
  refine (createDefined_isSome_iff hC).mpr (isExcludedByComdat_eq_false_iff.mpr fun j hj => ?_)
  rw [hj, Option.bind_some] at hplace
  have hlt := (List.getElem?_eq_some_iff.mp h.1).1
  rw [← (List.getElem?_inj hlt F.obj.comdats).mp (h.1.trans hplace.symm)]
  exact h.2

theorem chunk_mem {C : InputChunk} (hC : F.obj.chunk? sym = some C) : C ∈ F.obj.chunks := by
  obtain ⟨Name, flags, Info⟩ := sym
  cases Info with
  | undefined w => cases hC
  | defined e =>
      cases e with
      | global => cases hC
      | function Index =>
          obtain ⟨Chunk, hChunk, rfl⟩ := Option.map_eq_some_iff.mp hC
          exact List.mem_append_left _ (List.mem_map_of_mem (List.mem_of_getElem? hChunk))
      | data Index =>
          obtain ⟨Chunk, hChunk, rfl⟩ := Option.map_eq_some_iff.mp hC
          exact List.mem_append_right _ (List.mem_map_of_mem (List.mem_of_getElem? hChunk))

end ParsedFile

/-- The index of an archive lists names that the members define. -/
def ArchiveFile.Indexed (a : ArchiveFile) : Prop :=
  ∀ e ∈ a.index, ∃ obj ∈ a.members[e.2]?, ∃ sym ∈ obj.symbols,
    sym.Name = e.1 ∧ sym.isDefined ∧ ¬ sym.isBindingLocal

instance (a : ArchiveFile) : Decidable a.Indexed := by
  unfold ArchiveFile.Indexed
  infer_instance

namespace Command

variable (cmd : Command)

/-- The archives have an index that is true. -/
def Indexed : Prop := ∀ i < cmd.Files.length, ∀ a ∈ cmd.archive? i, a.Indexed

instance : Decidable cmd.Indexed := by
  unfold Indexed
  infer_instance

theorem Indexed.of_archive {cmd : Command} (h : cmd.Indexed) {i : ℕ} {a : ArchiveFile}
    (ha : cmd.archive? i = some a) : a.Indexed :=
  h i (cmd.lt_of_archive? ha) a ha

/-- All objects that there are. -/
def objects : List ObjFile :=
  cmd.Files.flatMap fun
    | .object obj => [obj]
    | .archive a => a.members

theorem mem_objects {id : FileId} {obj : ObjFile} (h : cmd.object? id = some obj) :
    obj ∈ cmd.objects := by
  cases id with
  | object i =>
      have hfile := cmd.object?_object.mp h
      exact List.mem_flatMap.mpr ⟨_, List.mem_of_getElem? hfile, List.mem_singleton_self _⟩
  | member i m =>
      obtain ⟨a, ha, hmember⟩ := cmd.object?_member.mp h
      have hfile := cmd.archive?_eq_some_iff.mp ha
      exact List.mem_flatMap.mpr ⟨_, List.mem_of_getElem? hfile, List.mem_of_getElem? hmember⟩

/-- Two copies of a comdat group define the same names. -/
def Coherent : Prop :=
  ∀ obj ∈ cmd.objects, ∀ obj' ∈ cmd.objects, ∀ sym ∈ obj.symbols, ¬ sym.isBindingLocal →
    ∀ g ∈ obj.group? sym, g ∈ obj'.Comdats →
      ∃ sym' ∈ obj'.symbols, sym'.Name = sym.Name ∧ ¬ sym'.isBindingLocal ∧
        obj'.group? sym' = some g

instance : Decidable cmd.Coherent := by
  unfold Coherent
  infer_instance

variable {cmd}

theorem isDefined_of_createDefined {F : ParsedFile} (hF : F ∈ cmd.ObjectFiles) {sym : WasmSymbol}
    (hsym : sym ∈ F.obj.symbols) (hlocal : ¬ sym.isBindingLocal)
    (hd : (F.createDefined sym).isSome) :
    ∃ S, cmd.load.table.find sym.Name = some S ∧ S.isDefined := by
  obtain ⟨d, hd⟩ := Option.isSome_iff_exists.mp hd
  rw [cmd.kept_load.find]
  exact Loading.isDefined_after (cmd.symbol_mem_done.mpr ⟨hF, hsym⟩) rfl hlocal hd

/-- A name that an object read defines is defined in the end, also if the object's own
copy is left out. -/
theorem Coherent.isDefined (h : cmd.Coherent) {F : ParsedFile} (hF : F ∈ cmd.ObjectFiles)
    {sym : WasmSymbol} (hsym : sym ∈ F.obj.symbols) (hdef : sym.isDefined)
    (hlocal : ¬ sym.isBindingLocal) :
    ∃ S, cmd.load.table.find sym.Name = some S ∧ S.isDefined := by
  cases hd : F.createDefined sym with
  | some d => exact isDefined_of_createDefined hF hsym hlocal (by rw [hd]; rfl)
  | none =>
      obtain ⟨C, hC, hexcluded⟩ := ParsedFile.chunk_of_createDefined_eq_none hsym hdef hd
      -- the group is in the list of the object, and has an owner
      cases hi : C.Comdat with
      | none =>
          rw [ParsedFile.isExcludedByComdat, hi] at hexcluded
          cases hexcluded
      | some i =>
          have hlt := F.obj.groups C (ParsedFile.chunk_mem hC) i hi
          have hg := List.getElem?_eq_getElem hlt
          have hgroup : F.obj.group? sym = some F.obj.Comdats[i] := by
            rw [Sections.group?, hC, Option.bind_some, hi, Option.bind_some, hg]
          have hgroups := cmd.grouped_load
          have hread {G : ParsedFile} : .parsed G ∈ cmd.load.tasks ↔ G ∈ cmd.ObjectFiles := by
            rw [cmd.tasks_load, cmd.mem_ObjectFiles]
          obtain ⟨G, j, hG, hkeeps⟩ := hgroups.owned F.obj.Comdats[i]
            ((hgroups.entered _).mpr ⟨F, hread.mpr hF, List.getElem_mem hlt⟩)
          obtain ⟨sym', hsym', hname, hlocal', hgroup'⟩ := h F.obj
            (cmd.mem_objects (cmd.kept_load.parsed F (hread.mpr hF))) G.obj
            (cmd.mem_objects (cmd.kept_load.parsed G hG)) sym hsym hlocal _ hgroup
            (List.mem_of_getElem? hkeeps.1)
          rw [← hname]
          exact isDefined_of_createDefined (hread.mp hG) hsym' hlocal'
            (hkeeps.createDefined hgroup')

variable (cmd)

/-- What is asked for does not wait for a member that has not been read. -/
theorem find_of_asks {n : String} (h : cmd.Asks cmd.load.done n) :
    ∃ S, cmd.load.table.find n = some S ∧
      ∀ id, S.pending = some id → id ∈ cmd.load.table.Seen := by
  rcases h with hforced | ⟨F, sym, hmem, hd, rfl⟩
  · obtain ⟨S, hS⟩ := Option.isSome_iff_exists.mp (cmd.find_startTable_isSome hforced)
    obtain ⟨S', hS', hcase⟩ := Loading.later_after n (cmd.startTable.find n) cmd.load.done S hS
    rw [← cmd.kept_load.find] at hS'
    refine ⟨S', hS', fun id hid => ?_⟩
    have hnone : S'.pending = none := by
      rcases hcase with hdef | ⟨hcontent, -, -⟩
      · exact Symbol.pending_of_isDefined hdef
      · rw [Symbol.pending, hcontent]
        rcases cmd.starts_startTable hS with ⟨flags, d, used, hmem, rfl⟩ | ⟨-, rfl⟩ <;> rfl
    rw [hnone] at hid
    cases hid
  · exact cmd.searched_load.asked F sym hmem hd

theorem asks_load_iff {n : String} : cmd.Asks cmd.load.done n ↔
    n ∈ cmd.undefined ∨ ∃ F ∈ cmd.ObjectFiles, ∃ sym ∈ F.obj.symbols,
      F.createDefined sym = none ∧ sym.Name = n := by
  refine or_congr_right ⟨?_, ?_⟩
  · rintro ⟨F, sym, hmem, hd, hn⟩
    obtain ⟨hF, hsym⟩ := cmd.symbol_mem_done.mp hmem
    exact ⟨F, hF, sym, hsym, hd, hn⟩
  · rintro ⟨F, hF, sym, hsym, hd, hn⟩
    exact ⟨F, sym, cmd.symbol_mem_done.mpr ⟨hF, hsym⟩, hd, hn⟩

/-- A name that is asked for is defined in the end, or no archive lists it. -/
theorem defined_or_unlisted (hindexed : cmd.Indexed) (hcoherent : cmd.Coherent) {n : String}
    (hasks : cmd.Asks cmd.load.done n) :
    (∃ S, cmd.load.table.find n = some S ∧ S.isDefined) ∨
      ∀ i a, cmd.archive? i = some a → ∀ m, (n, m) ∉ a.index := by
  obtain ⟨S, hS, hpending⟩ := cmd.find_of_asks hasks
  -- a member that was read defines the names its archive lists for it
  have hread {i m : ℕ} (hseen : (i, m) ∈ cmd.load.table.Seen)
      (hlazy : .lazy i n m ∈ cmd.load.done) :
      ∃ S, cmd.load.table.find n = some S ∧ S.isDefined := by
    obtain ⟨a, ha, hentry⟩ := cmd.lazy_mem_done.mp hlazy
    obtain ⟨obj, hobj, sym, hsym, hname, hdef, hlocal⟩ := hindexed.of_archive ha _ hentry
    obtain ⟨G, hG, -, rfl⟩ := cmd.kept_load.members (i, m) hseen obj
      (cmd.object?_member.mpr ⟨a, ha, hobj⟩)
    rw [cmd.tasks_load, ← cmd.mem_ObjectFiles] at hG
    rw [← show sym.Name = n from hname]
    exact hcoherent.isDefined hG hsym hdef hlocal
  by_cases hlisted : ∀ i a, cmd.archive? i = some a → ∀ m, (n, m) ∉ a.index
  · exact .inr hlisted
  · push Not at hlisted
    obtain ⟨i, a, ha, m, hentry⟩ := hlisted
    have hlazy : .lazy i n m ∈ cmd.load.done := cmd.lazy_mem_done.mpr ⟨a, ha, hentry⟩
    refine .inl ?_
    obtain ⟨S', hS', hund⟩ := cmd.searched_load.listed i n m hlazy
    cases hS.symm.trans hS'
    cases hcontent : S.content with
    | defined d => exact ⟨S, hS, Symbol.isDefined_iff.mpr ⟨d, hcontent⟩⟩
    | undefined w => exact hread (hund (Symbol.isUndefined_iff.mpr ⟨w, hcontent⟩)) hlazy
    | lazy j k =>
        have hid : S.pending = some (j, k) := Symbol.pending_eq_some_iff.mpr hcontent
        exact hread (hpending _ hid) (cmd.searched_load.pending n S _ hS hid)

end Command

/-! ## Nothing is read for nothing -/

/-- The file is on the command line, or a member that is needed for a name: one that is
forced, or one that an object needed before refers to. -/
inductive Command.Needed (cmd : Command) : ParsedFile → Prop
  | object {F : ParsedFile} {i : ℕ} : F.id = .object i → Needed cmd F
  | forced {F : ParsedFile} {i m : ℕ} {n : String} {a : ArchiveFile} : F.id = .member i m →
      cmd.archive? i = some a → (n, m) ∈ a.index → n ∈ cmd.undefined → Needed cmd F
  | referred {F G : ParsedFile} {i m : ℕ} {a : ArchiveFile} {sym : WasmSymbol} :
      F.id = .member i m → cmd.archive? i = some a → (sym.Name, m) ∈ a.index → Needed cmd G →
      sym ∈ G.obj.symbols → G.createDefined sym = none → Needed cmd F

namespace Loading

variable {cmd : Command} {s : Loading} {task : Task} {rest : List Task}

theorem needed_call (hkept : s.Kept cmd) (hsearched : s.Searched cmd)
    (hagenda : s.agenda = task :: rest) (h : ∀ F, .parsed F ∈ s.tasks → cmd.Needed F)
    {F : ParsedFile} (hF : .parsed F ∈ (s.table.perform cmd task).2) : cmd.Needed F := by
  obtain hnone | ⟨i, a, -, -, hlazies⟩ | ⟨i, G, -, hid, -, -, hcalls⟩ |
    ⟨id, G, hid, hfetch, -, -, -, hcalls⟩ :=
    (@SymbolTable.outcome_perform s.table cmd task).calls_cases
  · rw [hnone] at hF
    cases hF
  · rw [hlazies] at hF
    simp at hF
  · rw [hcalls, ParsedFile.parsed_mem_calls] at hF
    exact .object (hF ▸ hid)
  · rw [hcalls, ParsedFile.parsed_mem_calls] at hF
    rw [← hF] at hid
    obtain ⟨n, hlazy, hasks⟩ := reason_of_fetches hsearched hfetch
    have hlisted : ∃ a, cmd.archive? id.1 = some a ∧ (n, id.2) ∈ a.index := by
      have hmem : .lazy id.1 n id.2 ∈ (s.call cmd task rest).tasks := List.mem_append_left _ hlazy
      exact (((kept_call hkept hagenda).lazies _ _ _).mp hmem).2
    obtain ⟨a, ha, hentry⟩ := hlisted
    rcases hasks with hforced | ⟨G', sym, hmem, hd, rfl⟩
    · exact .forced hid ha hentry hforced
    · have hsymbol : .symbol G' sym ∈ s.tasks := by
        rcases mem_done_call.mp hmem with hdone | hnow
        · exact List.mem_append_left _ hdone
        · rw [tasks, hagenda, hnow]
          exact List.mem_append_right _ List.mem_cons_self
      obtain ⟨hparsed, hsym⟩ := (hkept.symbols G' sym).mp hsymbol
      exact .referred hid ha hentry (h G' hparsed) hsym hd

end Loading

/-- Every object that is read is on the command line, or a member that is needed. -/
theorem Command.needed_of_read (cmd : Command) : ∀ F ∈ cmd.ObjectFiles, cmd.Needed F := by
  have hall : cmd.load.Kept cmd ∧ cmd.load.Searched cmd ∧
      ∀ F, .parsed F ∈ cmd.load.tasks → cmd.Needed F := by
    refine cmd.load_induction (P := fun s => s.Kept cmd ∧ s.Searched cmd ∧
      ∀ F, .parsed F ∈ s.tasks → cmd.Needed F) ?_ ?_
    · refine ⟨cmd.kept_start, cmd.searched_start, fun F hF => ?_⟩
      simp [start, Loading.tasks] at hF
    · rintro s task rest ⟨hkept, hsearched, hneeded⟩ hagenda
      refine ⟨Loading.kept_call hkept hagenda, Loading.searched_call hsearched, fun F hF => ?_⟩
      rcases (Loading.mem_tasks_call hagenda).mp hF with hold | hnew
      · exact hneeded F hold
      · exact Loading.needed_call hkept hsearched hagenda hneeded hnew
  intro F hF
  rw [mem_ObjectFiles, ← cmd.tasks_load] at hF
  exact hall.2.2 F hF

/-- Archives are searched for what is asked for and for nothing else: every object read is
needed, and a name that is asked for is defined or in no archive. -/
theorem Command.load_archives (cmd : Command) (hindexed : cmd.Indexed)
    (hcoherent : cmd.Coherent) :
    (∀ F ∈ cmd.ObjectFiles, cmd.Needed F) ∧
    ∀ n, (n ∈ cmd.undefined ∨ ∃ F ∈ cmd.ObjectFiles, ∃ sym ∈ F.obj.symbols,
        F.createDefined sym = none ∧ sym.Name = n) →
      (∃ S, cmd.load.table.find n = some S ∧ S.isDefined) ∨
        ∀ i a, cmd.archive? i = some a → ∀ m, (n, m) ∉ a.index :=
  ⟨cmd.needed_of_read, fun _ h =>
    cmd.defined_or_unlisted hindexed hcoherent (cmd.asks_load_iff.mpr h)⟩

theorem Command.load_archives_sample : sample.Needed ⟨.member 1 0, sampleMember, [true]⟩ :=
  (load_archives sample (by decide +kernel) (by decide +kernel)).1 _
    (ObjectFiles_sample ▸ List.mem_cons_of_mem _ List.mem_cons_self)

end FractalCdt.Linker
