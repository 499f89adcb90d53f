/-
# Action names that are refused

An invalid action name ends the generation when a record has it; when a method has it,
`add_action` reports it and goes on.  `checked_iff` says for which translation units
every action name that is written has been accepted.
-/

import FractalCdt.AbiGen.Dispatch

namespace FractalCdt.AbiGen

open FractalCdt.Math

/-- The method is an action of the contract. -/
def MethodDecl.IsAction {D : Type} (cn : String) (decl : MethodDecl D) : Prop :=
  decl.ftlAction.isSome = true ∧ decl.isFtlContract cn = true

/-- The name of the action. -/
def MethodDecl.actionName {D : Type} (decl : MethodDecl D) : String :=
  (abiAction (decl.ftlAction.getD "") decl.name).name

/-- Every method that is an action has a valid name. -/
def MethodsValid {D : Type} (cn : String) (unit : List (Decl D)) : Prop :=
  ∀ decl, Decl.method decl ∈ unit → decl.IsAction cn → validateName decl.actionName.toList = true

namespace Declarations

variable {D : Type} (Γ : Declarations D)

def IsAction (cn : String) (decl : RecordDecl D) : Prop :=
  decl.ftlAction.isSome = true ∧ Γ.isFtlContract decl cn = true

def actionName (decl : RecordDecl D) : String :=
  (abiAction (decl.ftlAction.getD "") (Γ.name decl.record).val).name

def IsTable (cn : String) (decl : RecordDecl D) : Prop :=
  decl.ftlTable = true ∧ Γ.isFtlContract decl cn = true

/-- The walk of each type ends. -/
def TypesEnd (ts : List (QualType D)) : Prop := ∀ t ∈ ts, Γ.Ends (Γ.mentions t)

/-- What the visit of the declaration walks comes to an end, and the name of a record that is an
action is valid. -/
def Passes (cn : String) : Decl D → Prop
  | .method decl => decl.IsAction cn → Γ.TypesEnd decl.types
  | .record decl =>
      (Γ.IsAction cn decl → Γ.Ends (Γ.inside decl.record) ∧
        validateName (Γ.actionName decl).toList = true ∧ Γ.TypesEnd (Γ.fieldTypes decl.record)) ∧
      (Γ.IsTable cn decl → Γ.TypesEnd (Γ.fieldTypes decl.record))

/-- An ABI that is written has valid action names, which denote words of their own, and if a name
is not valid, the matchers do not return and nothing is written.  They end with an error then,
with that of an overflow of the stack where a walk has no end. -/
structure Checked (cn : String) (unit : List (Decl D)) : Prop where
  valid : ∀ n json, Γ.generate n cn unit = some json →
    ∀ e ∈ json.actions, validateName e.name.toList = true
  distinct : ∀ n json, Γ.generate n cn unit = some json → ∀ e ∈ json.actions,
    ∀ e' ∈ json.actions, stringToName e.name.toList = stringToName e'.name.toList → e = e'
  refused : (∃ e ∈ Γ.enteredActions cn unit, ¬ validateName e.name.toList = true) →
    ∀ n, ¬ (Γ.collect n cn unit).Returns ∧ Γ.generate n cn unit = none

variable {Γ} {n : ℕ} {cn : String} {unit : List (Decl D)} {json : AbiJson} {e : AbiAction}

/-! ## Visits that return -/

theorem complete_action_iff {action : AbiAction} :
    Complete Insertion.decl? Γ.inside
      (if validateName action.name.toList then some (.action action) else none) ↔
      validateName action.name.toList = true := by
  split
  case isTrue hvalid => exact iff_of_true (complete_of_leaf rfl) hvalid
  case isFalse hvalid => exact iff_of_false not_complete_none hvalid

theorem ends_visitMentions_iff {decl : Decl D} :
    Γ.Ends (Γ.visitMentions cn decl) ↔ Γ.Passes cn decl := by
  cases decl with
  | method decl =>
      have hparams : Complete Insertion.decl? Γ.inside
          (some (.params decl.name decl.parameters)) := complete_of_leaf rfl
      have haction : ∀ action, Complete Insertion.decl? Γ.inside (some (.action action)) :=
        fun action => complete_of_leaf rfl
      rw [visitMentions, Passes, MethodDecl.IsAction, TypesEnd, ← ends_mentionsAll_iff]
      cases decl.ftlAction with
      | none => simp [ends_nil]
      | some actionName =>
          cases decl.isFtlContract cn with
          | false => simp [ends_nil]
          | true => simp [ends_append, ends_cons, hparams, haction]
  | record decl =>
      have htable : Complete Insertion.decl? Γ.inside (some (.table (Γ.abiTable decl))) :=
        complete_of_leaf rfl
      rw [visitMentions, Passes, ends_append, TypesEnd, ← ends_mentionsAll_iff]
      apply and_congr
      · rw [IsAction, actionName]
        cases decl.ftlAction with
        | none => simp [ends_nil]
        | some name =>
            cases Γ.isFtlContract decl cn with
            | false => simp [ends_nil]
            | true =>
                simp [ends_cons, complete_struct_iff, complete_action_iff]
      · rw [IsTable]
        split
        case isTrue h => simp [h, ends_cons, htable]
        case isFalse h => exact iff_of_true ends_nil fun hall => absurd hall h

/-- The matchers return when every declaration passes. -/
theorem exists_collect_returns_iff :
    (∃ n, (Γ.collect n cn unit).Returns) ↔ ∀ decl ∈ unit, Γ.Passes cn decl := by
  simp only [collect_eq, ← ends_visitMentions_iff, exists_walk_returns_iff, unitMentions, Ends]
  constructor
  · intro h decl hdecl x hx
    exact h x (List.mem_flatMap.mpr ⟨decl, hdecl, hx⟩)
  · intro h x hx
    obtain ⟨decl, hdecl, hx⟩ := List.mem_flatMap.mp hx
    exact h decl hdecl x hx

/-! ## What is written -/

theorem mem_visitActions_method {decl : MethodDecl D} : e ∈ Γ.visitActions cn (.method decl) ↔
    decl.IsAction cn ∧ e = ⟨decl.actionName, decl.name⟩ := by
  rw [visitActions, MethodDecl.IsAction, MethodDecl.actionName]
  cases decl.ftlAction with
  | none => simp
  | some actionName =>
      cases decl.isFtlContract cn with
      | false => simp
      | true => simp [abiAction]

theorem mem_visitActions_record {decl : RecordDecl D} : e ∈ Γ.visitActions cn (.record decl) ↔
    Γ.IsAction cn decl ∧ e = ⟨Γ.actionName decl, (Γ.name decl.record).val⟩ := by
  rw [visitActions, IsAction, actionName]
  cases decl.ftlAction with
  | none => simp
  | some name =>
      cases Γ.isFtlContract decl cn with
      | false => simp
      | true => simp [abiAction]

/-- The action of a record that passes has a valid name. -/
theorem validateName_of_mem (hmethods : MethodsValid cn unit)
    (hpasses : ∀ decl ∈ unit, Γ.Passes cn decl) (he : e ∈ Γ.enteredActions cn unit) :
    validateName e.name.toList = true := by
  obtain ⟨decl, hdecl, he⟩ := List.mem_flatMap.mp he
  cases decl with
  | method decl =>
      obtain ⟨haction, rfl⟩ := mem_visitActions_method.mp he
      exact hmethods decl hdecl haction
  | record decl =>
      obtain ⟨haction, rfl⟩ := mem_visitActions_record.mp he
      exact ((hpasses _ hdecl).1 haction).2.1

theorem stringToName_injective {str str' : List Char} (h : validateName str = true)
    (h' : validateName str' = true) (hword : stringToName str = stringToName str') :
    str = str' := by
  rw [← (validateName_iff_eq.mp h).2, hword, (validateName_iff_eq.mp h').2]

/-- What is written are the first actions of their names. -/
theorem find?_of_generate (h : Γ.generate n cn unit = some json) (he : e ∈ json.actions) :
    (Γ.collect n cn unit).Returns ∧
      (Γ.enteredActions cn unit).find? (·.name = e.name) = some e := by
  obtain ⟨hreturns, -, rfl⟩ := generate_eq_some_iff.mp h
  exact ⟨hreturns, (mem_actions_collect hreturns).mp he⟩

theorem generate_eq_none (h : ¬ (Γ.collect n cn unit).Returns) : Γ.generate n cn unit = none :=
  if_neg h

/-- Nothing is written when the matchers do not return. -/
theorem checked_of_not_returns (hnone : ∀ n, ¬ (Γ.collect n cn unit).Returns) :
    Γ.Checked cn unit := by
  constructor
  · intro n json hjson
    cases (generate_eq_none (hnone n)).symm.trans hjson
  · intro n json hjson
    cases (generate_eq_none (hnone n)).symm.trans hjson
  · intro _ n
    exact ⟨hnone n, generate_eq_none (hnone n)⟩

theorem checked_of_methodsValid (hmethods : MethodsValid cn unit) : Γ.Checked cn unit := by
  have hvalid : ∀ n json, Γ.generate n cn unit = some json → ∀ e ∈ json.actions,
      validateName e.name.toList = true := by
    intro n json hjson e he
    obtain ⟨hreturns, hfind⟩ := find?_of_generate hjson he
    exact validateName_of_mem hmethods (exists_collect_returns_iff.mp ⟨n, hreturns⟩)
      (List.mem_of_find?_eq_some hfind)
  constructor
  · exact hvalid
  · intro n json hjson e he e' he' hword
    have hname : e.name = e'.name := String.toList_injective
      (stringToName_injective (hvalid n json hjson e he) (hvalid n json hjson e' he') hword)
    have hfind := (find?_of_generate hjson he).2
    rw [hname, (find?_of_generate hjson he').2] at hfind
    exact (Option.some.inj hfind).symm
  · rintro ⟨e, he, hinvalid⟩ n
    have hnone : ¬ (Γ.collect n cn unit).Returns := fun hreturns =>
      hinvalid (validateName_of_mem hmethods (exists_collect_returns_iff.mp ⟨n, hreturns⟩) he)
    exact ⟨hnone, generate_eq_none hnone⟩

/-- The names are checked when no method has an invalid name, or when something else keeps the
matchers from returning. -/
theorem checked_iff (Γ : Declarations D) (cn : String) (unit : List (Decl D)) :
    Γ.Checked cn unit ↔ MethodsValid cn unit ∨ ∃ decl ∈ unit, ¬ Γ.Passes cn decl := by
  constructor
  · intro h
    by_cases hmethods : MethodsValid cn unit
    · exact .inl hmethods
    · right
      simp only [MethodsValid, not_forall] at hmethods
      obtain ⟨decl, hdecl, haction, hinvalid⟩ := hmethods
      have hentered : ⟨decl.actionName, decl.name⟩ ∈ Γ.enteredActions cn unit :=
        List.mem_flatMap.mpr ⟨_, hdecl, mem_visitActions_method.mpr ⟨haction, rfl⟩⟩
      have hnone := h.refused ⟨_, hentered, hinvalid⟩
      by_contra hpasses
      simp only [not_exists, not_and, not_not] at hpasses
      obtain ⟨n, hreturns⟩ := exists_collect_returns_iff.mpr hpasses
      exact (hnone n).1 hreturns
  · rintro (hmethods | ⟨decl, hdecl, hfails⟩)
    · exact checked_of_methodsValid hmethods
    · apply checked_of_not_returns
      intro n hreturns
      exact hfails (exists_collect_returns_iff.mp ⟨n, hreturns⟩ decl hdecl)

end Declarations

/-- A method with the explicit name `Hi`, which has a capital letter, is written all the same. -/
theorem not_forall_checked : ¬ ∀ (D : Type) (Γ : Declarations D) (cn : String)
    (unit : List (Decl D)), Γ.Checked cn unit := by
  intro hall
  have hentered : (⟨"Hi", "hi"⟩ : AbiAction) ∈
      noDeclarations.enteredActions "hello" [.method (helloMethod "hi" "Hi")] := by
    decide
  have hinvalid : ¬ validateName "Hi".toList = true := by decide
  have hnone := (hall Empty noDeclarations "hello" [.method (helloMethod "hi" "Hi")]).refused
    ⟨_, hentered, hinvalid⟩
  exact (hnone 0).1 rfl

end FractalCdt.AbiGen
