/-
# Actions in the ABI and in the dispatcher

The generator names an action after its method, or by the name its attribute gives.
`FTL_DISPATCH` sees only the identifiers of the methods.  `agree_iff` says for which
translation units the two agree, for all words an action can be called by.
-/

import FractalCdt.AbiGen.Generator

namespace FractalCdt.AbiGen

open FractalCdt.Math

/-! ## The dispatcher -/

section Dispatcher

variable {D : Type} (unit : List (Decl D)) (type : ClassDecl)

/-- `&OP::elem`, where the member function can be deduced. -/
def handler (elem : String) : Option (MethodDecl D) :=
  let candidates := unit.filterMap fun
    | .method decl =>
        if decl.parent = type ∧ decl.name = elem ∧ decl.callable then some decl else none
    | .record _ => none
  match candidates with
  | [decl] => some decl
  | _ => none

/-- `FTL_DISPATCH_INTERNAL`: the label of the case, which has to be a constant, and the
handler. -/
def dispatchInternal (elem : String) : Option (BitVec 64 × MethodDecl D) :=
  match Name.ofString elem.toList with
  | .ok value => (handler unit type elem).map fun decl => (value, decl)
  | .error _ => none

/-- `FTL_DISPATCH`, if it compiles: the cases of the switch, no label twice. -/
def ftlDispatch (members : List String) : Option (List (BitVec 64 × MethodDecl D)) := do
  let cases ← members.mapM (dispatchInternal unit type)
  if (cases.map Prod.fst).Nodup then some cases else none

/-- The handler `apply` runs. -/
def applyHandler (cases : List (BitVec 64 × MethodDecl D)) (action : BitVec 64) :
    Option (MethodDecl D) :=
  (cases.find? fun c => c.1 == action).map Prod.snd

/-- The members that are dispatched are the annotated methods of the class. -/
def MembersExact (members : List String) : Prop :=
  ∀ elem, elem ∈ members ↔
    ∃ decl, Decl.method decl ∈ unit ∧ decl.parent = type ∧ decl.ftlAction.isSome ∧ decl.name = elem

end Dispatcher

namespace Declarations

variable {D : Type} (Γ : Declarations D)

/-- The struct of `add_struct(const clang::CXXMethodDecl *)`. -/
def paramStruct (decl : MethodDecl D) : AbiStruct :=
  ⟨decl.name, "", decl.parameters.map fun param => ⟨param.1, Γ.translateType param.2⟩⟩

/-- The dispatcher and the ABI agree on the word: it has a handler exactly when an action
of the ABI has it, no two cases have it, and the struct of the action is the one made of
the parameters of the handler. -/
structure AgreeOn (cases : List (BitVec 64 × MethodDecl D)) (json : AbiJson) (a : BitVec 64) :
    Prop where
  runs_iff : (applyHandler cases a).isSome ↔ ∃ e ∈ json.actions, stringToName e.name.toList = a
  unique : ∀ c ∈ cases, ∀ c' ∈ cases, c.1 = a → c'.1 = a → c = c'
  built : ∀ decl, applyHandler cases a = some decl → ∀ e ∈ json.actions,
    stringToName e.name.toList = a → ∃ s ∈ json.structs, s.name = e.type ∧ s = Γ.paramStruct decl

def Agree (cases : List (BitVec 64 × MethodDecl D)) (json : AbiJson) : Prop :=
  ∀ a, Γ.AgreeOn cases json a

/-- Every action that is the first of its name belongs to a handler, by its type and by
the word of its name, every handler has such an action, and the first struct that is inserted
under the identifier of a handler, no builtin, is the one made of its parameters. -/
structure Dispatchable (cn : String) (unit : List (Decl D))
    (cases : List (BitVec 64 × MethodDecl D)) : Prop where
  named : ∀ e, (Γ.enteredActions cn unit).find? (·.name = e.name) = some e →
    ∃ c ∈ cases, c.2.name = e.type ∧ stringToName e.name.toList = c.1
  listed : ∀ c ∈ cases, ∃ e, (Γ.enteredActions cn unit).find? (·.name = e.name) = some e ∧
    e.type = c.2.name
  described : ∀ c ∈ cases, ¬ isBuiltinType c.2.name = true ∧
    Γ.IsFirst (Γ.unitMentions cn unit) (Γ.paramStruct c.2)

end Declarations


/-! ## Agreement -/

section Cases

variable {D : Type} {unit : List (Decl D)} {type : ClassDecl} {members : List String}
  {cases : List (BitVec 64 × MethodDecl D)} {c c' : BitVec 64 × MethodDecl D}

theorem name_of_handler {elem : String} {decl : MethodDecl D}
    (h : handler unit type elem = some decl) : decl.name = elem := by
  rw [handler] at h
  split at h
  case h_1 candidate hcandidates =>
    cases h
    have hmem : decl ∈ [decl] := List.mem_singleton_self decl
    rw [← hcandidates] at hmem
    obtain ⟨d, -, hd⟩ := List.mem_filterMap.mp hmem
    cases d with
    | record _ => cases hd
    | method d =>
        simp only [Option.ite_none_right_eq_some, Option.some.injEq] at hd
        obtain ⟨⟨-, hname, -⟩, rfl⟩ := hd
        exact hname
  case h_2 => cases h

theorem exists_of_mem_mapM {α β : Type} {f : α → Option β} {xs : List α} {ys : List β}
    (h : xs.mapM f = some ys) {y : β} (hy : y ∈ ys) : ∃ x ∈ xs, f x = some y := by
  induction xs generalizing ys with
  | nil =>
      cases h
      cases hy
  | cons x xs ih =>
      rw [List.mapM_cons] at h
      obtain ⟨first, hfirst, hrest⟩ := Option.bind_eq_some_iff.mp h
      obtain ⟨rest, hmap, hjoin⟩ := Option.bind_eq_some_iff.mp hrest
      cases hjoin
      rcases List.mem_cons.mp hy with rfl | hy
      · exact ⟨x, List.mem_cons_self, hfirst⟩
      · obtain ⟨z, hz, hfz⟩ := ih hmap hy
        exact ⟨z, List.mem_cons_of_mem x hz, hfz⟩

theorem ftlDispatch_eq_some_iff : ftlDispatch unit type members = some cases ↔
    members.mapM (dispatchInternal unit type) = some cases ∧ (cases.map Prod.fst).Nodup := by
  rw [ftlDispatch]
  constructor
  · intro h
    obtain ⟨found, hfound, hcases⟩ := Option.bind_eq_some_iff.mp h
    split at hcases
    case isTrue hnodup =>
      cases hcases
      exact ⟨hfound, hnodup⟩
    case isFalse => cases hcases
  · rintro ⟨hfound, hnodup⟩
    rw [hfound]
    exact if_pos hnodup

/-- The label of a case is the word of the handler's identifier. -/
theorem ofString_of_mem (h : ftlDispatch unit type members = some cases) (hc : c ∈ cases) :
    Name.ofString c.2.name.toList = .ok c.1 := by
  obtain ⟨elem, -, helem⟩ := exists_of_mem_mapM (ftlDispatch_eq_some_iff.mp h).1 hc
  rw [dispatchInternal] at helem
  split at helem
  case h_1 value hvalue =>
    obtain ⟨decl, hdecl, rfl⟩ := Option.map_eq_some_iff.mp helem
    rw [name_of_handler hdecl]
    exact hvalue
  case h_2 => cases helem

/-- No two cases share a label, hence none share an identifier. -/
theorem eq_of_label (h : ftlDispatch unit type members = some cases) (hc : c ∈ cases)
    (hc' : c' ∈ cases) (hlabel : c.1 = c'.1) : c = c' :=
  List.inj_on_of_nodup_map (ftlDispatch_eq_some_iff.mp h).2 hc hc' hlabel

theorem eq_of_name (h : ftlDispatch unit type members = some cases) (hc : c ∈ cases)
    (hc' : c' ∈ cases) (hname : c.2.name = c'.2.name) : c = c' := by
  have hvalue := ofString_of_mem h hc
  rw [hname, ofString_of_mem h hc'] at hvalue
  exact eq_of_label h hc hc' (Except.ok.inj hvalue).symm

theorem applyHandler_eq_some_iff (h : ftlDispatch unit type members = some cases) {a : BitVec 64}
    {decl : MethodDecl D} : applyHandler cases a = some decl ↔ (a, decl) ∈ cases := by
  rw [applyHandler, Option.map_eq_some_iff]
  constructor
  · rintro ⟨c, hfind, rfl⟩
    have hlabel := List.find?_some hfind
    rw [beq_iff_eq] at hlabel
    rw [← hlabel]
    exact List.mem_of_find?_eq_some hfind
  · intro hmem
    cases hfind : cases.find? fun c => c.1 == a with
    | none => exact absurd (List.find?_eq_none.mp hfind _ hmem) (by simp)
    | some c =>
        have hlabel := List.find?_some hfind
        rw [beq_iff_eq] at hlabel
        refine ⟨c, rfl, ?_⟩
        rw [eq_of_label h (List.mem_of_find?_eq_some hfind) hmem hlabel]

end Cases

namespace Declarations

variable {D : Type} {Γ : Declarations D} {n : ℕ} {cn : String} {unit : List (Decl D)}
  {type : ClassDecl} {members : List String} {cases : List (BitVec 64 × MethodDecl D)}
  {json : AbiJson} {c : BitVec 64 × MethodDecl D}

/-- Where all words agree, every handler is listed with its parameters. -/
theorem Agree.listed (h : Γ.Agree cases json)
    (hdispatch : ftlDispatch unit type members = some cases) (hc : c ∈ cases) :
    ∃ e ∈ json.actions, stringToName e.name.toList = c.1 ∧
      ∃ s ∈ json.structs, s.name = e.type ∧ s = Γ.paramStruct c.2 := by
  have hrun := (applyHandler_eq_some_iff hdispatch).mpr hc
  have hsome : (applyHandler cases c.1).isSome := by rw [hrun]; rfl
  obtain ⟨e, he, hword⟩ := (h c.1).runs_iff.mp hsome
  exact ⟨e, he, hword, (h c.1).built c.2 hrun e he hword⟩

theorem Agree.dispatchable (h : Γ.Agree cases (Γ.collectedAbi n cn unit).toJson)
    (hreturns : (Γ.collect n cn unit).Returns)
    (hdispatch : ftlDispatch unit type members = some cases) : Γ.Dispatchable cn unit cases := by
  constructor
  · intro e he
    have haction : e ∈ (Γ.collectedAbi n cn unit).toJson.actions :=
      (mem_actions_collect hreturns).mpr he
    obtain ⟨decl, hrun⟩ := Option.isSome_iff_exists.mp
      ((h (stringToName e.name.toList)).runs_iff.mpr ⟨e, haction, rfl⟩)
    obtain ⟨s, -, hname, rfl⟩ := (h _).built decl hrun e haction rfl
    exact ⟨_, (applyHandler_eq_some_iff hdispatch).mp hrun, hname, rfl⟩
  · intro c hc
    obtain ⟨e, he, -, s, -, hname, rfl⟩ := h.listed hdispatch hc
    exact ⟨e, (mem_actions_collect hreturns).mp he, hname.symm⟩
  · intro c hc
    obtain ⟨e, -, -, s, hs, -, rfl⟩ := h.listed hdispatch hc
    obtain ⟨hmem, hvalid⟩ := List.mem_filter.mp hs
    exact ⟨(Abi.validateStruct_iff.mp hvalid).1, (mem_structs_collect hreturns).mp hmem⟩

/-- The handler of an action is the one that is found under the action's word. -/
theorem Dispatchable.eq_of_word (h : Γ.Dispatchable cn unit cases)
    (hdispatch : ftlDispatch unit type members = some cases) (hc : c ∈ cases) {e : AbiAction}
    (he : (Γ.enteredActions cn unit).find? (·.name = e.name) = some e)
    (hword : stringToName e.name.toList = c.1) : c.2.name = e.type := by
  obtain ⟨c', hc', hname, hword'⟩ := h.named e he
  obtain rfl := eq_of_label hdispatch hc' hc (hword'.symm.trans hword)
  exact hname

theorem Dispatchable.agree (h : Γ.Dispatchable cn unit cases)
    (hreturns : (Γ.collect n cn unit).Returns)
    (hdispatch : ftlDispatch unit type members = some cases) :
    Γ.Agree cases (Γ.collectedAbi n cn unit).toJson := by
  have haction : ∀ e, e ∈ (Γ.collectedAbi n cn unit).toJson.actions ↔
      (Γ.enteredActions cn unit).find? (·.name = e.name) = some e :=
    fun e => mem_actions_collect hreturns
  intro a
  constructor
  · constructor
    · intro hsome
      obtain ⟨decl, hrun⟩ := Option.isSome_iff_exists.mp hsome
      have hc := (applyHandler_eq_some_iff hdispatch).mp hrun
      obtain ⟨e, he, htype⟩ := h.listed _ hc
      obtain ⟨c, hc', hname, hword⟩ := h.named e he
      obtain rfl := eq_of_name hdispatch hc' hc (hname.trans htype)
      exact ⟨e, (haction e).mpr he, hword⟩
    · rintro ⟨e, he, rfl⟩
      obtain ⟨c, hc, -, hword⟩ := h.named e ((haction e).mp he)
      rw [hword, (applyHandler_eq_some_iff hdispatch).mpr hc]
      rfl
  · rintro c hc c' hc' rfl hlabel
    exact (eq_of_label hdispatch hc' hc hlabel).symm
  · intro decl hrun e he hword
    have hc := (applyHandler_eq_some_iff hdispatch).mp hrun
    have hname := h.eq_of_word hdispatch hc ((haction e).mp he) hword
    obtain ⟨hbuiltin, hfind⟩ := h.described _ hc
    refine ⟨Γ.paramStruct decl, List.mem_filter.mpr ⟨?_, ?_⟩, hname, rfl⟩
    · exact (mem_structs_collect hreturns).mpr hfind
    · rw [Abi.validateStruct_iff]
      exact ⟨hbuiltin, .inr (.inl ⟨e, he, hname.symm⟩)⟩

end Declarations

/-- The ABI and the dispatcher agree on all words exactly when every action and every
struct is the handler's own. -/
theorem agree_iff {D : Type} {Γ : Declarations D} {n : ℕ} {cn : String} {unit : List (Decl D)}
    {type : ClassDecl} {members : List String} {cases : List (BitVec 64 × MethodDecl D)}
    (hreturns : (Γ.collect n cn unit).Returns)
    (hdispatch : ftlDispatch unit type members = some cases) :
    Γ.Agree cases (Γ.collectedAbi n cn unit).toJson ↔ Γ.Dispatchable cn unit cases := by
  constructor
  · intro h
    exact h.dispatchable hreturns hdispatch
  · intro h
    exact h.agree hreturns hdispatch

/-- Where the handlers are all that is annotated, only the explicit names can keep the
actions apart from the handlers: each has to have the word of the identifier. -/
theorem named_and_listed_iff {D : Type} {Γ : Declarations D} {cn : String} {unit : List (Decl D)}
    {type : ClassDecl} {members : List String} {cases : List (BitVec 64 × MethodDecl D)}
    (hdispatch : ftlDispatch unit type members = some cases)
    (hactions : ∀ e, e ∈ Γ.enteredActions cn unit ↔
      ∃ c ∈ cases, abiAction (c.2.ftlAction.getD "") c.2.name = e) :
    ((∀ e, (Γ.enteredActions cn unit).find? (·.name = e.name) = some e →
        ∃ c ∈ cases, c.2.name = e.type ∧ stringToName e.name.toList = c.1) ∧
      ∀ c ∈ cases, ∃ e, (Γ.enteredActions cn unit).find? (·.name = e.name) = some e ∧
        e.type = c.2.name) ↔
    ∀ c ∈ cases,
      stringToName (abiAction (c.2.ftlAction.getD "") c.2.name).name.toList = c.1 := by
  constructor
  · rintro ⟨hnamed, hlisted⟩ c hc
    obtain ⟨e, he, htype⟩ := hlisted c hc
    obtain ⟨c', hc', hown⟩ := (hactions e).mp (List.mem_of_find?_eq_some he)
    obtain rfl := eq_of_name hdispatch hc' hc ((congrArg AbiAction.type hown).trans htype)
    obtain ⟨d, hd, hname, hword⟩ := hnamed e he
    obtain rfl := eq_of_name hdispatch hd hc (hname.trans htype)
    rw [hown, hword]
  · intro hwords
    constructor
    · intro e he
      obtain ⟨c, hc, rfl⟩ := (hactions e).mp (List.mem_of_find?_eq_some he)
      exact ⟨c, hc, rfl, hwords c hc⟩
    · intro c hc
      have hentered := (hactions _).mpr ⟨c, hc, rfl⟩
      cases hfind : (Γ.enteredActions cn unit).find?
          (·.name = (abiAction (c.2.ftlAction.getD "") c.2.name).name) with
      | none => exact absurd (List.find?_eq_none.mp hfind _ hentered) (by simp)
      | some e =>
          have hname : e.name = (abiAction (c.2.ftlAction.getD "") c.2.name).name := by
            simpa using List.find?_some hfind
          obtain ⟨c', hc', hown⟩ := (hactions e).mp (List.mem_of_find?_eq_some hfind)
          have hlabel : c'.1 = c.1 := by
            rw [← hwords c' hc', ← hwords c hc, hown, hname]
          obtain rfl := eq_of_label hdispatch hc' hc hlabel
          exact ⟨e, by rw [hname, hfind], (congrArg AbiAction.type hown).symm⟩

def helloClass : ClassDecl := ⟨0, "hello", some "hello"⟩

/-- An action `void methodName(uint32_t count)`. -/
def helloMethod (methodName actionName : String) : MethodDecl Empty where
  name := methodName
  ftlAction := some actionName
  ftlContract := none
  parent := helloClass
  parameters := [("count", .scalar ⟨none, []⟩ .uint32_t)]
  callable := true

/-- An action without a name in its attribute, and one whose name there has a dot more than its
identifier, which is the same word. -/
def helloUnit : List (Decl Empty) :=
  [.method (helloMethod "hi" ""), .method (helloMethod "greet" "greet.")]

theorem agree_iff_hi : ∃ cases, (noDeclarations.collect 0 "hello" helloUnit).Returns ∧
    ftlDispatch helloUnit helloClass ["hi", "greet"] = some cases ∧
    (noDeclarations.Agree cases (noDeclarations.collectedAbi 0 "hello" helloUnit).toJson ↔
      noDeclarations.Dispatchable "hello" helloUnit cases) :=
  ⟨_, rfl, rfl,
    @agree_iff _ noDeclarations 0 "hello" helloUnit helloClass ["hi", "greet"] _ rfl rfl⟩

/-- The ABI has the explicit name `greet`, the dispatcher the identifier `hi`. -/
theorem not_agree_greet : ¬ ∀ (D : Type) (Γ : Declarations D) (n : ℕ) (cn : String)
    (unit : List (Decl D)) (type : ClassDecl) (members : List String)
    (cases : List (BitVec 64 × MethodDecl D)), MembersExact unit type members →
    (Γ.collect n cn unit).Returns → ftlDispatch unit type members = some cases →
    Γ.Agree cases (Γ.collectedAbi n cn unit).toJson := by
  intro hall
  have hexact : MembersExact [.method (helloMethod "hi" "greet")] helloClass ["hi"] := by
    intro elem
    rw [List.mem_singleton]
    constructor
    · rintro rfl
      exact ⟨helloMethod "hi" "greet", List.mem_singleton_self _, rfl, rfl, rfl⟩
    · rintro ⟨decl, hmem, -, -, rfl⟩
      cases List.mem_singleton.mp hmem
      rfl
  have hagree := hall Empty noDeclarations 0 "hello" _ helloClass ["hi"] _ hexact rfl rfl
  obtain ⟨e, he, hword⟩ := (hagree (stringToName "hi".toList)).runs_iff.mp (by decide)
  have hactions : (noDeclarations.collectedAbi 0 "hello"
      [.method (helloMethod "hi" "greet")]).toJson.actions = [⟨"greet", "hi"⟩] := rfl
  rw [hactions, List.mem_singleton] at he
  subst he
  exact absurd hword (by decide)

end FractalCdt.AbiGen
