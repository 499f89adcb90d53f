/-
# The generator

The matchers hand every method and every record of a translation unit to the generator,
which inserts what belongs to the contract.  `generate` writes what has been collected, if
all declarations have been visited; `collect_eq` says that visiting them is a walk of what
they mention.
-/

import FractalCdt.AbiGen.TypeGraph
import FractalCdt.AbiGen.ValidateName

namespace FractalCdt.AbiGen

open FractalCdt.Math

/-! ## Declarations -/

/-- A contract class; an attribute without a name carries the empty string. -/
structure ClassDecl where
  tag : ℕ
  name : String
  ftlContract : Option String
  deriving DecidableEq

/-- A method; `callable` if it converts to `RT (T::*)(Args...)`, so that it is neither
static nor qualified.  Parameter types are those without reference and qualifiers. -/
structure MethodDecl (D : Type) where
  name : String
  ftlAction : Option String
  ftlContract : Option String
  parent : ClassDecl
  parameters : List (String × QualType D)
  callable : Bool

structure RecordDecl (D : Type) where
  record : D
  ftlAction : Option String
  ftlTable : Bool
  ftlContract : Option String
  parent : Option ClassDecl

inductive Decl (D : Type)
  | method (decl : MethodDecl D)
  | record (decl : RecordDecl D)

/-- `is_ftl_contract(const clang::CXXMethodDecl *, ...)`. -/
def MethodDecl.isFtlContract {D : Type} (decl : MethodDecl D) (cn : String) : Bool :=
  let name := match decl.ftlContract, decl.parent.ftlContract with
    | some name, _ => name
    | none, some name => name
    | none, none => ""
  (if name = "" then decl.parent.name else name) == cn

def MethodDecl.types {D : Type} (decl : MethodDecl D) : List (QualType D) :=
  decl.parameters.map Prod.snd

/-- The entry of `add_action`: the explicit name, if there is one. -/
def abiAction (actionName declName : String) : AbiAction :=
  ⟨if actionName = "" then declName else actionName, declName⟩

namespace Declarations

variable {D : Type} (Γ : Declarations D)

/-- `is_ftl_contract(const clang::CXXRecordDecl *, ...)`. -/
def isFtlContract (decl : RecordDecl D) (cn : String) : Bool :=
  let name := match decl.ftlContract, decl.parent with
    | some nm, _ => if nm = "" then (Γ.name decl.record).val else nm
    | none, some pd =>
        match pd.ftlContract with
        | some nm => if nm = "" then pd.name else nm
        | none => ""
    | none, none => ""
  cn == name

def fieldTypes (d : D) : List (QualType D) := (Γ.fields d).map Prod.snd

/-- The type of the last field of that name. -/
def typeOf (d : D) (name : String) : String :=
  (((Γ.fields d).filter (·.1 = name)).getLast?.map fun field => Γ.translateType field.2).getD ""

/-! ## Visiting -/

/-- `add_action(const clang::CXXRecordDecl *)`, where an invalid name is fatal. -/
def addAction (action : AbiAction) : Walk (Insertion D) :=
  if validateName action.name.toList then .one (.action action) else .failed

/-- `FtlMethodMatcher::run`.  Here `add_action` reports an invalid name and goes on; the types of
the parameters are collected once more at the end. -/
def visitMethod (n : ℕ) (cn : String) (decl : MethodDecl D) : Walk (Insertion D) :=
  match decl.ftlAction with
  | some actionName =>
      if decl.isFtlContract cn then
        Walk.inOrder
          [Γ.addTypes n decl.types, .one (.params decl.name decl.parameters),
            .one (.action (abiAction actionName decl.name)), Γ.addTypes n decl.types]
      else .nil
  | none => .nil

/-- The first part of `FtlRecordMatcher::run`. -/
def visitAction (n : ℕ) (cn : String) (decl : RecordDecl D) : Walk (Insertion D) :=
  match decl.ftlAction with
  | some actionName =>
      if Γ.isFtlContract decl cn then
        Walk.inOrder
          [Γ.addStruct n decl.record "", addAction (abiAction actionName (Γ.name decl.record).val),
            Γ.addTypes n (Γ.fieldTypes decl.record)]
      else .nil
  | none => .nil

/-- `add_table`. -/
def abiTable (decl : RecordDecl D) : AbiTable :=
  ⟨(Γ.name decl.record).val, Γ.typeOf decl.record "key", Γ.typeOf decl.record "value"⟩

/-- The second part of `FtlRecordMatcher::run`. -/
def visitTable (n : ℕ) (cn : String) (decl : RecordDecl D) : Walk (Insertion D) :=
  if decl.ftlTable ∧ Γ.isFtlContract decl cn then
    Walk.inOrder [.one (.table (Γ.abiTable decl)), Γ.addTypes n (Γ.fieldTypes decl.record)]
  else .nil

def visit (n : ℕ) (cn : String) : Decl D → Walk (Insertion D)
  | .method decl => Γ.visitMethod n cn decl
  | .record decl => (Γ.visitAction n cn decl).andThen (Γ.visitTable n cn decl)

/-- The declarations of a translation unit, in the order in which they are matched. -/
def collect (n : ℕ) (cn : String) (unit : List (Decl D)) : Walk (Insertion D) :=
  Walk.inOrder (unit.map (Γ.visit n cn))

/-- `_abi` after the insertions. -/
def abiOf (xs : List (Insertion D)) : Abi := Abi.empty.registerAll (xs.map Γ.entry)

def collectedAbi (n : ℕ) (cn : String) (unit : List (Decl D)) : Abi :=
  Γ.abiOf (Γ.collect n cn unit).items

/-- `generate`: the ABI that is written, if one is.  Nothing is written unless the matchers
return. -/
def generate (n : ℕ) (cn : String) (unit : List (Decl D)) : Option AbiJson :=
  if (Γ.collect n cn unit).Returns then
    let abi := Γ.collectedAbi n cn unit
    if abi.isEmpty then none else some abi.toJson
  else none

/-! ## What the declarations mention -/

/-- What a declaration inserts, without what is inside of the classes. -/
def visitMentions (cn : String) : Decl D → List (Option (Insertion D))
  | .method decl =>
      match decl.ftlAction with
      | some actionName =>
          if decl.isFtlContract cn then
            Γ.mentionsAll decl.types ++ ([some (.params decl.name decl.parameters)] ++
              ([some (.action (abiAction actionName decl.name))] ++ Γ.mentionsAll decl.types))
          else []
      | none => []
  | .record decl =>
      (match decl.ftlAction with
        | some actionName =>
            if Γ.isFtlContract decl cn then
              let action := abiAction actionName (Γ.name decl.record).val
              [some (.struct decl.record "")] ++
                ([if validateName action.name.toList then some (.action action) else none] ++
                  Γ.mentionsAll (Γ.fieldTypes decl.record))
            else []
        | none => []) ++
      if decl.ftlTable ∧ Γ.isFtlContract decl cn then
        [some (.table (Γ.abiTable decl))] ++ Γ.mentionsAll (Γ.fieldTypes decl.record)
      else []

def unitMentions (cn : String) (unit : List (Decl D)) : List (Option (Insertion D)) :=
  unit.flatMap (Γ.visitMentions cn)

variable {Γ} {n : ℕ} {cn : String} {unit : List (Decl D)}

theorem walk_append {xs ys : List (Option (Insertion D))} :
    Γ.walk n (xs ++ ys) = (Γ.walk n xs).andThen (Γ.walk n ys) :=
  expand_append

theorem walk_cons {x : Option (Insertion D)} {xs : List (Option (Insertion D))} :
    Γ.walk n (x :: xs) = (Γ.walk n [x]).andThen (Γ.walk n xs) :=
  @walk_append _ _ _ [x] xs

theorem walk_single {x : Insertion D} (hx : x.decl? = none) : Γ.walk n [some x] = .one x :=
  expand_single _ hx

theorem walk_action (action : AbiAction) :
    Γ.walk n [if validateName action.name.toList then some (.action action) else none] =
      addAction action := by
  rw [addAction]
  split
  · exact walk_single rfl
  · rfl

theorem walk_params (name : String) (parameters : List (String × QualType D)) :
    Γ.walk n [some (.params name parameters)] = .one (.params name parameters) := walk_single rfl

theorem walk_entered (action : AbiAction) :
    Γ.walk n [some (.action action)] = .one (.action action) := walk_single rfl

theorem walk_table (table : AbiTable) : Γ.walk n [some (.table table)] = .one (.table table) :=
  walk_single rfl

theorem visit_eq (decl : Decl D) : Γ.visit n cn decl = Γ.walk n (Γ.visitMentions cn decl) := by
  cases decl with
  | method decl =>
      rw [visit, visitMethod, visitMentions]
      cases decl.ftlAction with
      | none => rfl
      | some actionName =>
          dsimp only
          split
          · simp only [walk_append, walk_params, walk_entered, ← addTypes_eq, Walk.inOrder_cons,
              Walk.inOrder_nil, Walk.andThen_nil]
          · rfl
  | record decl =>
      rw [visit, visitAction, visitTable, visitMentions, walk_append]
      congr 1
      · cases decl.ftlAction with
        | none => rfl
        | some actionName =>
            dsimp only
            split
            · simp only [walk_append, walk_action, ← addStruct_eq, ← addTypes_eq,
                Walk.inOrder_cons, Walk.inOrder_nil, Walk.andThen_nil]
            · rfl
      · split
        · simp only [walk_append, walk_table, ← addTypes_eq, Walk.inOrder_cons, Walk.inOrder_nil,
            Walk.andThen_nil]
        · rfl

/-- Visiting the declarations is a walk of what they mention. -/
theorem collect_eq : Γ.collect n cn unit = Γ.walk n (Γ.unitMentions cn unit) := by
  induction unit with
  | nil => rfl
  | cons decl unit ih =>
      rw [collect, List.map_cons, Walk.inOrder_cons, visit_eq, unitMentions, List.flatMap_cons,
        walk_append]
      exact congrArg _ ih

theorem generate_eq_some_iff {json : AbiJson} : Γ.generate n cn unit = some json ↔
    (Γ.collect n cn unit).Returns ∧ (Γ.collectedAbi n cn unit).isEmpty = false ∧
      json = (Γ.collectedAbi n cn unit).toJson := by
  rw [generate]
  split
  case isTrue h =>
    rw [Option.ite_none_left_eq_some, Bool.not_eq_true, and_iff_right h, Option.some.injEq]
    exact and_congr_right fun _ => eq_comm
  case isFalse h => exact iff_of_false nofun fun hall => h hall.1

/-! ## The sets of the ABI -/

theorem structs_abiOf {xs : List (Insertion D)} : (Γ.abiOf xs).structs = Γ.stored xs := by
  rw [abiOf, Abi.registerAll_structs, List.filterMap_map]
  rfl

/-- The actions a declaration inserts. -/
def visitActions (Γ : Declarations D) (cn : String) : Decl D → List AbiAction
  | .method decl =>
      if decl.isFtlContract cn then (decl.ftlAction.map (abiAction · decl.name)).toList else []
  | .record decl =>
      if Γ.isFtlContract decl cn then
        (decl.ftlAction.map (abiAction · (Γ.name decl.record).val)).toList
      else []

/-- The actions of the contract, in order. -/
def enteredActions (Γ : Declarations D) (cn : String) (unit : List (Decl D)) : List AbiAction :=
  unit.flatMap (Γ.visitActions cn)

/-! ### Actions -/

section Actions

variable {x : Insertion D} {xs ys : List (Option (Insertion D))}

/-- No action is among the insertions. -/
def NoAction (xs : List (Option (Insertion D))) : Prop := ∀ x, some x ∈ xs → x.action? = none

theorem noAction_nil : NoAction ([] : List (Option (Insertion D))) := nofun

theorem noAction_append : NoAction (xs ++ ys) ↔ NoAction xs ∧ NoAction ys := by
  simp only [NoAction, List.mem_append, or_imp, forall_and]

theorem noAction_singleton : NoAction [some x] ↔ x.action? = none := by
  simp [NoAction]

theorem noAction_structsOf (d? : Option D) : NoAction (structsOf d?) := by
  cases d? with
  | none => exact noAction_nil
  | some d => exact noAction_singleton.mpr rfl

theorem NoAction.ite {c : Prop} [Decidable c] (h : NoAction xs) (h' : NoAction ys) :
    NoAction (if c then xs else ys) := by
  split
  · exact h
  · exact h'

theorem NoAction.twice (h : NoAction xs) (h' : NoAction ys) (hx : x.action? = none) :
    NoAction (xs ++ (ys ++ (xs ++ (ys ++ [some x])))) := by
  simp only [noAction_append, noAction_singleton]
  exact ⟨h, h', h, h', hx⟩

mutual

theorem noAction_mentions : (t : QualType D) → NoAction (Γ.mentions t)
  | .scalar q s => noAction_nil.ite (noAction_structsOf _)
  | .record q d => noAction_nil.ite (noAction_structsOf _)
  | .template q name d args => noAction_nil.ite (noAction_singleton.mpr rfl)
  | .written q d args => noAction_nil.ite (noAction_structsOf _)
  | .alias q name target => by
      rw [mentions]
      refine noAction_nil.ite (NoAction.ite (noAction_append.mpr ⟨?_, ?_⟩) (noAction_structsOf _))
      · exact noAction_nil.ite (noAction_mentions target)
      · exact noAction_singleton.mpr rfl
  | .sequence q c t => noAction_nil.ite (noAction_mentions t)
  | .optional q t => noAction_nil.ite (noAction_mentions t)
  | .map q k v => noAction_nil.ite ((noAction_mentions k).twice (noAction_mentions v) rfl)
  | .pair q a b => noAction_nil.ite ((noAction_mentions a).twice (noAction_mentions b) rfl)
  | .tuple q args => by
      rw [mentions]
      refine noAction_nil.ite (NoAction.ite ?_ (by simp [NoAction]))
      exact noAction_append.mpr ⟨noAction_mentionsAll args, noAction_singleton.mpr rfl⟩

theorem noAction_mentionsAll : (ts : List (QualType D)) → NoAction (Γ.mentionsAll ts)
  | [] => noAction_nil
  | t :: ts => noAction_append.mpr ⟨noAction_mentions t, noAction_mentionsAll ts⟩

end

theorem noAction_inside (d : D) : NoAction (Γ.inside d) := by
  refine noAction_append.mpr ⟨?_, ?_⟩
  · match Γ.bases d with
    | [] => exact noAction_nil
    | [(_, d)] => exact noAction_singleton.mpr rfl
    | _ :: _ :: _ => exact noAction_nil
  · intro x hx
    obtain ⟨field, -, hx⟩ := List.mem_flatMap.mp hx
    rw [fieldMentions] at hx
    split at hx
    · exact noAction_singleton.mpr rfl x hx
    · exact noAction_mentions field.2 x hx

/-- Following the declarations inserts no action. -/
theorem actions_walk_of_noAction (h : NoAction xs) :
    (Γ.walk n xs).items.filterMap Insertion.action? = [] := by
  have hup : ∀ x, ComesUp Insertion.decl? Γ.inside xs x → ∀ y, x = some y → y.action? = none := by
    intro x hx
    induction hx with
    | listed hx =>
        rintro y rfl
        exact h y hx
    | inside _ hd hx =>
        rintro y rfl
        exact noAction_inside _ y hx
  rw [List.filterMap_eq_nil_iff]
  intro x hx
  exact hup _ (handedOut_iff.mpr ⟨n, hx⟩).1.comesUp x rfl

def actionsOf (xs : List (Option (Insertion D))) : List AbiAction :=
  xs.filterMap fun x => x.bind Insertion.action?

theorem actionsOf_append : actionsOf (xs ++ ys) = actionsOf xs ++ actionsOf ys :=
  List.filterMap_append

theorem actionsOf_eq_nil (h : NoAction xs) : actionsOf xs = [] := by
  rw [actionsOf, List.filterMap_eq_nil_iff]
  intro x hx
  cases x with
  | none => rfl
  | some x => exact h x hx

/-- A walk that returns inserts the actions that are listed. -/
theorem actions_walk (h : (Γ.walk n xs).Returns) :
    (Γ.walk n xs).items.filterMap Insertion.action? = actionsOf xs := by
  induction xs with
  | nil => rfl
  | cons x xs ih =>
      rw [walk_cons] at h ⊢
      obtain ⟨hx, hxs⟩ := Walk.andThen_returns_iff.mp h
      have hfirst : (Γ.walk n [x]).items.filterMap Insertion.action? = actionsOf [x] := by
        cases x with
        | none => exact absurd hx Walk.not_returns_failed
        | some y =>
            cases y with
            | action action => rw [walk_entered]; rfl
            | _ => exact actions_walk_of_noAction (noAction_singleton.mpr rfl)
      rw [Walk.andThen_of_returns hx, List.filterMap_append, hfirst, ih hxs, ← actionsOf_append]
      rfl

theorem actionsOf_visitMentions {decl : Decl D} (h : none ∉ Γ.visitMentions cn decl) :
    actionsOf (Γ.visitMentions cn decl) = Γ.visitActions cn decl := by
  have htypes : ∀ ts, actionsOf (Γ.mentionsAll ts) = [] := fun ts =>
    actionsOf_eq_nil (noAction_mentionsAll ts)
  cases decl with
  | method decl =>
      rw [visitMentions, visitActions]
      cases decl.ftlAction with
      | none => simp [actionsOf]
      | some actionName =>
          dsimp only
          split
          · simp only [actionsOf_append, htypes]
            rfl
          · rfl
  | record decl =>
      have htable : actionsOf (if decl.ftlTable ∧ Γ.isFtlContract decl cn then
          [some (.table (Γ.abiTable decl))] ++ Γ.mentionsAll (Γ.fieldTypes decl.record)
          else []) = [] := by
        split
        · rw [actionsOf_append, htypes]
          rfl
        · rfl
      rw [visitMentions] at h ⊢
      rw [actionsOf_append, htable, List.append_nil, visitActions]
      cases haction : decl.ftlAction with
      | none => simp [actionsOf]
      | some actionName =>
          rw [haction] at h
          dsimp only at h ⊢
          split
          case isTrue hcontract =>
            rw [if_pos hcontract] at h
            have hvalid : validateName
                (abiAction actionName (Γ.name decl.record).val).name.toList = true := by
              by_contra hinvalid
              simp [hinvalid] at h
            rw [if_pos hvalid]
            simp only [actionsOf_append, htypes]
            rfl
          case isFalse => rfl

/-- Declarations whose visits return have inserted the actions of the contract. -/
theorem actions_collect (h : (Γ.collect n cn unit).Returns) :
    (Γ.collect n cn unit).items.filterMap Insertion.action? = Γ.enteredActions cn unit := by
  rw [collect_eq] at h ⊢
  rw [actions_walk h]
  have hends : ∀ decl ∈ unit, none ∉ Γ.visitMentions cn decl := by
    intro decl hdecl hnone
    have hmem : none ∈ Γ.unitMentions cn unit := List.mem_flatMap.mpr ⟨decl, hdecl, hnone⟩
    exact not_complete_none (exists_walk_returns_iff.mp ⟨n, h⟩ none hmem)
  clear h
  induction unit with
  | nil => rfl
  | cons decl unit ih =>
      obtain ⟨hdecl, hunit⟩ := List.forall_mem_cons.mp hends
      rw [unitMentions, List.flatMap_cons, actionsOf_append, actionsOf_visitMentions hdecl,
        enteredActions, List.flatMap_cons]
      exact congrArg _ (ih hunit)

theorem mem_actions_collect (h : (Γ.collect n cn unit).Returns) {e : AbiAction} :
    e ∈ (Γ.collectedAbi n cn unit).actions.elems ↔
      (Γ.enteredActions cn unit).find? (·.name = e.name) = some e := by
  have hentries : ∀ xs : List (Insertion D), (xs.map Γ.entry).filterMap Entry.action? =
      xs.filterMap Insertion.action? := by
    intro xs
    rw [List.filterMap_map]
    congr 1
    funext x
    cases x <;> rfl
  rw [collectedAbi, abiOf, Abi.registerAll_actions, hentries, actions_collect h]
  exact NameSet.mem_foldl_insert_empty

/-- The structs of the ABI are the first of their names. -/
theorem mem_structs_collect (h : (Γ.collect n cn unit).Returns) {s : AbiStruct} :
    s ∈ (Γ.collectedAbi n cn unit).structs.elems ↔
      Γ.IsFirst (Γ.unitMentions cn unit) s := by
  rw [collectedAbi, structs_abiOf]
  rw [collect_eq] at h ⊢
  exact mem_stored_walk_iff h

end Actions

end Declarations

end FractalCdt.AbiGen
