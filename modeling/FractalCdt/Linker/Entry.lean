/-
# The entry

The linker defines the entry itself, weakly and with a body that stays empty.  An object
that defines it takes its place; if none does, the empty function is live and gets into
the output.
-/

import FractalCdt.Linker.Code

namespace FractalCdt.Linker

open FractalCdt.Math FractalCdt.Toolchain

/-- The linker's own functions do not come from an object. -/
theorem ParsedFile.createDefined_ne_synthetic (F : ParsedFile) (sym : WasmSymbol) (i : ℕ) :
    F.createDefined sym ≠ some (.function (.synthetic i)) := by
  intro h
  obtain ⟨Name, flags, Info⟩ := sym
  cases Info with
  | undefined w => cases h
  | defined e =>
      cases e with
      | global Index GlobalType => cases h
      | function Index =>
          obtain ⟨Func, -, hd⟩ := Option.bind_eq_some_iff.mp h
          split at hd <;> cases hd
      | data Segment Offset Size =>
          obtain ⟨Seg, -, hd⟩ := Option.bind_eq_some_iff.mp h
          split at hd <;> cases hd

theorem SymbolTable.keyOf_eq_function_iff {t : SymbolTable} {Sym : SymbolRef}
    {Function : FunctionId} :
    t.keyOf Sym = .function Function ↔
      t.content? Sym = some (.defined (.function Function)) := by
  constructor
  · intro h
    unfold keyOf at h
    split at h <;> cases h
    assumption
  · intro h
    rw [keyOf, h]

/-- Whatever is live besides the stack pointer is so for a symbol of the table or of an
object. -/
theorem SymbolTable.symbol_of_live {t : SymbolTable} {Entry : String} {key : LiveKey}
    (h : key ∈ t.live Entry) :
    key = .global .stackPointer ∨ (∃ n, key = t.keyOf (.table n)) ∨
      ∃ F ∈ t.ObjectFiles, ∃ Index Sym, F.getSymbol Index = some Sym ∧ key = t.keyOf Sym := by
  refine (mem_live_iff.mp h).imp_right fun ⟨root, hroot, hpath⟩ => ?_
  rcases Relation.ReflTransGen.cases_tail hpath with
    rfl | ⟨before, -, F, C, hchunk, Reloc, -, hfollow⟩
  · rcases List.mem_append.mp hroot with hnamed | hinit
    · rcases List.mem_append.mp hnamed with hfirst | hvisible
      · rcases List.mem_cons.mp hfirst with heq | hctors
        · exact .inl ⟨_, heq⟩
        · exact .inl ⟨_, List.mem_singleton.mp hctors⟩
      · obtain ⟨n, -, heq⟩ := List.mem_map.mp hvisible
        exact .inl ⟨n, heq.symm⟩
    · obtain ⟨F, hF, hmem⟩ := List.mem_flatMap.mp hinit
      obtain ⟨Init, -, hentry⟩ := List.mem_filterMap.mp hmem
      obtain ⟨Sym, hSym, heq⟩ := Option.map_eq_some_iff.mp hentry
      exact .inr ⟨F, hF, Init.Symbol, Sym, hSym, heq.symm⟩
  · unfold follow at hfollow
    split at hfollow
    · cases hfollow
    · obtain ⟨Sym, hSym, hkey⟩ := Option.bind_eq_some_iff.mp hfollow
      split at hkey
      · cases hkey
      · cases hkey
        exact .inr ⟨F, (mem_of_chunk? hchunk).1, Reloc.Index, Sym, hSym, rfl⟩

namespace Command

variable {cmd : Command}

/-- The names that the linker defines besides the entry. -/
def reserved : List String :=
  ["__wasm_call_ctors", "__stack_pointer", "__heap_base", "__dso_handle", "__data_end"]

/-- An object that was read defines the entry, and not weakly. -/
def DefinesEntry (cmd : Command) : Prop :=
  ∃ F ∈ cmd.ObjectFiles, ∃ sym ∈ F.obj.symbols, sym.Name = cmd.Entry ∧ ¬ sym.isBindingLocal ∧
    sym.Flags.binding ≠ .bindingWeak ∧ (F.createDefined sym).isSome

instance (cmd : Command) : Decidable cmd.DefinesEntry :=
  inferInstanceAs (Decidable (∃ F ∈ cmd.ObjectFiles, _))

theorem find_startTable_entry (hname : cmd.Entry ∉ reserved) :
    ∃ used, cmd.startTable.find cmd.Entry =
      some ⟨⟨.bindingWeak, false⟩, none, used, .defined (.function (.synthetic 1))⟩ := by
  obtain ⟨S, hS, hdef⟩ := cmd.find_synthetic_entry
  obtain ⟨S', hS', hcase⟩ := cmd.later_startTable cmd.Entry S hS
  have hdef' : S'.isDefined := by
    rcases hcase with hdef' | ⟨hcontent, -⟩
    · exact hdef'
    · rwa [Symbol.isDefined_congr hcontent]
  rcases cmd.starts_startTable hS' with ⟨flags, d, used, hmem, rfl⟩ | ⟨-, rfl⟩
  · simp only [reserved, List.mem_cons, List.not_mem_nil, or_false, not_or] at hname
    simp only [syntheticSymbols, List.mem_cons, List.not_mem_nil, or_false, Prod.mk.injEq,
      hname, false_and, false_or, true_and] at hmem
    obtain ⟨rfl, rfl⟩ := hmem
    exact ⟨used, hS'⟩
  · cases hdef'

/-- The linker's own definition is the first of the entry's, and not strong. -/
theorem offers_entry (hname : cmd.Entry ∉ reserved) : cmd.offers cmd.Entry =
    ⟨⟨.bindingWeak, false⟩, none, .function (.synthetic 1)⟩ ::
      cmd.load.done.filterMap (Task.offer? cmd.Entry) := by
  obtain ⟨used, hused⟩ := find_startTable_entry hname
  rw [offers, Loading.offers, hused]
  rfl

/-- The others are those of the objects. -/
theorem definesEntry_iff : cmd.DefinesEntry ↔
    ∃ o ∈ cmd.load.done.filterMap (Task.offer? cmd.Entry), o.isStrong := by
  constructor
  · rintro ⟨F, hF, sym, hsym, hn, hlocal, hstrong, hdefined⟩
    obtain ⟨d, hd⟩ := Option.isSome_iff_exists.mp hdefined
    exact ⟨_, List.mem_filterMap.mpr ⟨.symbol F sym, cmd.symbol_mem_done.mpr ⟨hF, hsym⟩,
      Task.offer?_eq_some_iff.mpr ⟨F, sym, d, rfl, hn, hlocal, hd, rfl⟩⟩, decide_eq_true hstrong⟩
  · rintro ⟨o, ho, hstrong⟩
    obtain ⟨task, hdone, hoffer⟩ := List.mem_filterMap.mp ho
    obtain ⟨F, sym, d, rfl, hn, hlocal, hd, rfl⟩ := Task.offer?_eq_some_iff.mp hoffer
    obtain ⟨hF, hsym⟩ := cmd.symbol_mem_done.mp hdone
    exact ⟨F, hF, sym, hsym, hn, hlocal, of_decide_eq_true hstrong, by rw [hd]; rfl⟩

/-- What a name resolves to is what it stands for in the end. -/
theorem content_of_resolution {n : String} {o : Offer} (h : cmd.resolution n = some o) :
    cmd.linked.content? (.table n) = some (.defined o.definition) := by
  obtain ⟨S, hS, hoffer⟩ := Option.bind_eq_some_iff.mp h
  have hdef : S.isDefined := Symbol.isSome_offer?.mp (by rw [hoffer]; rfl)
  obtain ⟨d, hd⟩ := Symbol.isDefined_iff.mp hdef
  have hdefinition : o.definition = d := by
    unfold Symbol.offer? at hoffer
    rw [hd] at hoffer
    cases hoffer
    rfl
  rw [linked, SymbolTable.content?_setHidden, hdefinition, ← hd]
  rcases SymbolTable.find_handleWeakUndefines (t := cmd.load.table) (n := n) with
    ⟨S', -, hS', hweak, -⟩ | ⟨-, hfind⟩
  · cases hS.symm.trans hS'
    obtain ⟨-, Sig, hund⟩ := Symbol.isWeakUndefinedFunction_iff.mp hweak
    cases hd.symm.trans hund
  · exact congrArg (Option.map _) (hfind.trans hS)

/-- Only the entry stands for the linker's own second function. -/
theorem entry_of_synthetic (hlinks : cmd.Links) {n : String}
    (h : cmd.linked.content? (.table n) = some (.defined (.function (.synthetic 1)))) :
    n = cmd.Entry := by
  rcases definition_linked hlinks h with
    ⟨F, -, sym, -, -, -, hd⟩ | ⟨flags, hmem⟩ | ⟨i, Sig, heq, hi⟩
  · exact absurd hd (F.createDefined_ne_synthetic sym 1)
  · simp only [syntheticSymbols, List.mem_cons, List.not_mem_nil, or_false, Prod.mk.injEq,
      Definition.function.injEq, FunctionId.synthetic.injEq, reduceCtorEq, and_false,
      Nat.one_ne_zero, false_or, and_true] at hmem
    exact hmem.1
  · cases heq
    obtain ⟨more, hmore⟩ := SyntheticFunctions_linked
    rw [← hmore] at hi
    cases hi

theorem entry_live : cmd.linked.keyOf (.table cmd.Entry) ∈ cmd.linked.live cmd.Entry :=
  SymbolTable.mem_live_iff.mpr (.inr ⟨_, List.mem_append_left _ (List.mem_append_left _
    List.mem_cons_self), .refl⟩)

/-- What the linker makes itself is live only if a name stands for it. -/
theorem synthetic_of_live {i : ℕ}
    (hlive : .function (.synthetic i) ∈ cmd.linked.live cmd.Entry) :
    ∃ n, cmd.linked.content? (.table n) = some (.defined (.function (.synthetic i))) := by
  rcases SymbolTable.symbol_of_live hlive with heq | ⟨n, heq⟩ | ⟨F, hF, Index, Sym, hSym, heq⟩
  · cases heq
  · exact ⟨n, SymbolTable.keyOf_eq_function_iff.mp heq.symm⟩
  · have hcontent := SymbolTable.keyOf_eq_function_iff.mp heq.symm
    obtain ⟨sym, hsym⟩ : ∃ sym, F.obj.symbols[Index]? = some sym :=
      (Option.map_eq_some_iff.mp hSym).imp fun _ h => h.1
    rcases F.getSymbol_cases hsym with ⟨d, hown, hd⟩ | ⟨htable, -⟩
    · cases hSym.symm.trans hown
      cases hcontent
      exact absurd hd (F.createDefined_ne_synthetic sym i)
    · cases hSym.symm.trans htable
      exact ⟨_, hcontent⟩

/-- The linker's own entry is live only if the name stands for it. -/
theorem synthetic_live_iff (hlinks : cmd.Links) :
    .function (.synthetic 1) ∈ cmd.linked.live cmd.Entry ↔
      cmd.linked.content? (.table cmd.Entry) = some (.defined (.function (.synthetic 1))) := by
  constructor
  · intro hlive
    obtain ⟨n, hcontent⟩ := synthetic_of_live hlive
    rwa [entry_of_synthetic hlinks hcontent] at hcontent
  · intro hcontent
    rw [← SymbolTable.keyOf_eq_function_iff.mpr hcontent]
    exact entry_live

/-- What the entry stands for. -/
theorem content_entry (hlinks : cmd.Links) (hname : cmd.Entry ∉ reserved) :
    cmd.linked.content? (.table cmd.Entry) = some (.defined (.function (.synthetic 1))) ↔
      ¬ cmd.DefinesEntry := by
  obtain ⟨hchosen, hsingle⟩ := cmd.resolution_eq_chosen hlinks.errors cmd.Entry
  rw [definesEntry_iff]
  rw [offers_entry hname] at hchosen hsingle
  constructor
  · rintro hcontent ⟨o, ho, hstrong⟩
    rw [(chosen_eq_some_iff hsingle hstrong).mpr (List.mem_cons_of_mem _ ho)] at hchosen
    obtain ⟨task, -, hoffer⟩ := List.mem_filterMap.mp ho
    obtain ⟨F, sym, d, rfl, -, -, hd, rfl⟩ := Task.offer?_eq_some_iff.mp hoffer
    cases (content_of_resolution hchosen).symm.trans hcontent
    exact F.createDefined_ne_synthetic sym 1 hd
  · intro hweak
    rw [chosen_of_weak] at hchosen
    · exact content_of_resolution hchosen
    · intro o ho hstrong
      rcases List.mem_cons.mp ho with rfl | ho
      · cases hstrong
      · exact hweak ⟨o, ho, hstrong⟩

/-- The linker's own entry has no body. -/
theorem functionBody_entry {l : Toolchain.Layout} :
    cmd.linked.functionBody cmd.Entry l (.synthetic 1) = some [] := by
  obtain ⟨more, hmore⟩ := @SyntheticFunctions_linked cmd
  show (cmd.linked.SyntheticFunctions[1]?).map _ = _
  rw [← hmore]
  rfl

/-- The linker's own entry is in the output if no object defines the entry. -/
theorem synthetic_mem_InputFunctions_iff (hlinks : cmd.Links) (hname : cmd.Entry ∉ reserved) :
    .synthetic 1 ∈ cmd.linked.InputFunctions cmd.Entry ↔ ¬ cmd.DefinesEntry := by
  have hid : .synthetic 1 ∈ cmd.linked.functionIds :=
    mem_functionIds_synthetic (lt_of_lt_of_le Nat.one_lt_two SyntheticFunctions_linked.length_le)
  rw [← content_entry hlinks hname, ← synthetic_live_iff hlinks]
  exact List.mem_filter.trans ((and_iff_right hid).trans decide_eq_true_iff)

/-- A strong definition of an object is what the entry stands for; if there is none, and only
then, the linker's own function is live and in the output, and its body is empty. -/
theorem link_entry (hlinks : cmd.Links) (hname : cmd.Entry ∉ reserved) :
    (.function (.synthetic 1) ∈ cmd.linked.live cmd.Entry ↔ ¬ cmd.DefinesEntry) ∧
    (.synthetic 1 ∈ cmd.linked.InputFunctions cmd.Entry ↔ ¬ cmd.DefinesEntry) ∧
    (∀ l, cmd.linked.functionBody cmd.Entry l (.synthetic 1) = some []) ∧
    ∀ F ∈ cmd.ObjectFiles, ∀ sym ∈ F.obj.symbols, sym.Name = cmd.Entry → ¬ sym.isBindingLocal →
      sym.Flags.binding ≠ .bindingWeak → ∀ d, F.createDefined sym = some d →
        cmd.linked.content? (.table cmd.Entry) = some (.defined d) := by
  refine ⟨(synthetic_live_iff hlinks).trans (content_entry hlinks hname),
    synthetic_mem_InputFunctions_iff hlinks hname, fun l => functionBody_entry,
    fun F hF sym hsym hn hlocal hstrong d hd => ?_⟩
  obtain ⟨hchosen, hsingle⟩ := cmd.resolution_eq_chosen hlinks.errors cmd.Entry
  have hoffer : (⟨sym.Flags, some F.id, d⟩ : Offer) ∈ cmd.offers cmd.Entry :=
    cmd.mem_offers_iff.mpr ⟨F, hF, rfl, sym, hsym, hn, hlocal, rfl, hd⟩
  rw [(chosen_eq_some_iff hsingle (decide_eq_true hstrong)).mpr hoffer] at hchosen
  exact content_of_resolution hchosen

theorem link_entry_sample : .synthetic 1 ∉ sample.linked.InputFunctions sample.Entry ∧
    sample.linked.content? (.table "apply") =
      some (.defined (.function (.input (.object 0) 0))) := by
  obtain ⟨-, houtput, -, hstands⟩ := link_entry (show sample.Links by decide +kernel) (by decide)
  refine ⟨?_, hstands _ (ObjectFiles_sample ▸ List.mem_cons_self) _ List.mem_cons_self rfl
    (by decide) (by decide) _ rfl⟩
  rw [houtput, not_not]
  decide +kernel

end Command

end FractalCdt.Linker
