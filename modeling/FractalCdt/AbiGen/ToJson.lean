/-
# The emitted ABI

`to_json` leaves out the structs and typedefs that nothing seems to need.  The
two filters look for a name in some of the places it can occur in, and strip the
suffixes of an array or an optional in fewer.  `closed_toJson_iff` says for which
collected values nothing is left out that the rest refers to.
-/

import FractalCdt.AbiGen.TypeName
import FractalCdt.Math.SortedList

namespace FractalCdt.AbiGen

open FractalCdt.Math

structure AbiTypedef where
  newTypeName : String
  type : String
  deriving DecidableEq

structure AbiField where
  name : String
  type : String
  deriving DecidableEq

structure AbiStruct where
  name : String
  base : String
  fields : List AbiField
  deriving DecidableEq

structure AbiAction where
  name : String
  type : String
  deriving DecidableEq

structure AbiTable where
  name : String
  keyType : String
  valueType : String
  deriving DecidableEq

/-- `std::set`, with the `operator<` of the element, which compares names. -/
structure NameSet (α : Type) (name : α → String) where
  elems : List α
  sorted : Sorted (fun a b => decide (a < b)) name elems

structure Abi where
  version : String
  structs : NameSet AbiStruct AbiStruct.name
  typedefs : NameSet AbiTypedef AbiTypedef.newTypeName
  actions : NameSet AbiAction AbiAction.name
  tables : NameSet AbiTable AbiTable.name

/-- The members of the JSON object. -/
structure AbiJson where
  comment : String
  version : String
  structs : List AbiStruct
  types : List AbiTypedef
  actions : List AbiAction
  tables : List AbiTable

namespace Abi

variable (abi : Abi)

def generateJsonComment : String := "This file was generated automatically. DO NOT EDIT "

/-- `validate_struct`. -/
def validateStruct (as : AbiStruct) : Bool :=
  if isBuiltinType (translateTypeName as.name) then false
  else
    (abi.structs.elems.any fun s =>
      (s.fields.any fun f => as.name = translateTypeName (removeSuffix f.type)) ∨
        s.base = as.name) ∨
    (abi.actions.elems.any fun a => as.name = translateTypeName a.type) ∨
    (abi.tables.elems.any fun t =>
      as.name = translateTypeName t.keyType ∨ as.name = translateTypeName t.valueType) ∨
    (abi.typedefs.elems.any fun td => as.name = translateTypeName (removeSuffix td.type))

/-- `validate_types`. -/
def validateTypes (td : AbiTypedef) : Bool :=
  (abi.structs.elems.any fun as =>
    abi.validateStruct as ∧ as.fields.any fun f => removeSuffix f.type = td.newTypeName) ∨
  (abi.tables.elems.any fun t => t.valueType = td.newTypeName) ∨
  (abi.actions.elems.any fun a => a.type = td.newTypeName) ∨
  (abi.typedefs.elems.any fun _td => removeSuffix _td.type = td.newTypeName)

/-- `to_json`. -/
def toJson : AbiJson where
  comment := generateJsonComment
  version := abi.version
  structs := abi.structs.elems.filter abi.validateStruct
  types := abi.typedefs.elems.filter abi.validateTypes
  actions := abi.actions.elems
  tables := abi.tables.elems

end Abi

/-! ## References -/

/-- A struct without a base refers to none. -/
def AbiStruct.baseRefs (s : AbiStruct) : List String := if s.base = "" then [] else [s.base]

/-- Every type name that is referenced. -/
def refs (structs : List AbiStruct) (typedefs : List AbiTypedef) (actions : List AbiAction)
    (tables : List AbiTable) : List String :=
  structs.flatMap (fun s => s.baseRefs ++ s.fields.map AbiField.type) ++
    typedefs.map AbiTypedef.type ++ actions.map AbiAction.type ++
      tables.flatMap fun t => [t.keyType, t.valueType]

/-- The name is, without its suffix, a builtin or declared. -/
def Resolves (structs : List AbiStruct) (typedefs : List AbiTypedef) (r : String) : Prop :=
  isBuiltinType (removeSuffix r) = true ∨
    (∃ s ∈ structs, s.name = translateTypeName (removeSuffix r)) ∨
      ∃ td ∈ typedefs, td.newTypeName = translateTypeName (removeSuffix r)

/-- No collected reference dangles. -/
def Abi.Closed (abi : Abi) : Prop :=
  ∀ r ∈ refs abi.structs.elems abi.typedefs.elems abi.actions.elems abi.tables.elems,
    Resolves abi.structs.elems abi.typedefs.elems r

/-- No emitted reference dangles. -/
def AbiJson.Closed (o : AbiJson) : Prop :=
  ∀ r ∈ refs o.structs o.types o.actions o.tables, Resolves o.structs o.types r

instance (structs : List AbiStruct) (typedefs : List AbiTypedef) (r : String) :
    Decidable (Resolves structs typedefs r) := inferInstanceAs (Decidable (_ ∨ _ ∨ _))

instance (abi : Abi) : Decidable abi.Closed := inferInstanceAs (Decidable (∀ r ∈ _, _))

instance (o : AbiJson) : Decidable o.Closed := inferInstanceAs (Decidable (∀ r ∈ _, _))

/-! ## Where the filters look -/

namespace Abi

variable (abi : Abi)

/-- The name occurs in a place that keeps a struct. -/
def Mentioned (n : String) : Prop :=
  (∃ s ∈ abi.structs.elems, (∃ f ∈ s.fields, removeSuffix f.type = n) ∨ s.base = n) ∨
  (∃ a ∈ abi.actions.elems, a.type = n) ∨
  (∃ t ∈ abi.tables.elems, t.keyType = n ∨ t.valueType = n) ∨
  ∃ td ∈ abi.typedefs.elems, removeSuffix td.type = n

/-- A struct with this name is kept. -/
def Kept (n : String) : Prop := ¬ isBuiltinType n = true ∧ abi.Mentioned n

/-- The name occurs in a place that keeps a typedef. -/
def TypeMentioned (n : String) : Prop :=
  (∃ s ∈ abi.structs.elems, abi.Kept s.name ∧ ∃ f ∈ s.fields, removeSuffix f.type = n) ∨
  (∃ t ∈ abi.tables.elems, t.valueType = n) ∨
  (∃ a ∈ abi.actions.elems, a.type = n) ∨
  ∃ td ∈ abi.typedefs.elems, removeSuffix td.type = n

/-- The reference stands where a suffix is not stripped. -/
def LooseRef (r : String) : Prop :=
  (∃ s ∈ abi.structs.elems, abi.Kept s.name ∧ r ∈ s.baseRefs) ∨
  (∃ a ∈ abi.actions.elems, r = a.type) ∨
  ∃ t ∈ abi.tables.elems, r = t.keyType ∨ r = t.valueType

/-- Without its suffix, the reference is a builtin, or the name of a struct or a
typedef that a filter meets elsewhere. -/
def Anchored (r : String) : Prop :=
  isBuiltinType (removeSuffix r) = true ∨
  ((∃ s ∈ abi.structs.elems, s.name = removeSuffix r) ∧ abi.Mentioned (removeSuffix r)) ∨
  ((∃ td ∈ abi.typedefs.elems, td.newTypeName = removeSuffix r) ∧
    abi.TypeMentioned (removeSuffix r))

section Filters

variable {abi} {n r : String}

theorem eq_translateTypeName_iff (h : ¬ isBuiltinType n = true) {t : String} :
    n = translateTypeName t ↔ t = n := by
  constructor
  · rintro rfl
    rw [isBuiltinType_translateTypeName] at h
    exact (translateTypeName_of_not_builtin h).symm
  · rintro rfl
    exact (translateTypeName_of_not_builtin h).symm

theorem validateStruct_iff {s : AbiStruct} : abi.validateStruct s = true ↔ abi.Kept s.name := by
  rw [validateStruct, isBuiltinType_translateTypeName, Kept]
  by_cases hbuiltin : isBuiltinType s.name = true
  · simp [hbuiltin]
  · rw [if_neg hbuiltin]
    simp only [Mentioned, eq_translateTypeName_iff hbuiltin, hbuiltin, decide_eq_true_eq,
      List.any_eq_true, not_false_eq_true, true_and, Bool.false_eq_true]

theorem validateTypes_iff {td : AbiTypedef} :
    abi.validateTypes td = true ↔ abi.TypeMentioned td.newTypeName := by
  simp only [validateTypes, TypeMentioned, validateStruct_iff, decide_eq_true_eq, List.any_eq_true]

/-- What a reference finds among the structs and typedefs that are emitted. -/
theorem resolves_toJson_iff :
    Resolves abi.toJson.structs abi.toJson.types r ↔ abi.Anchored r := by
  by_cases hbuiltin : isBuiltinType (removeSuffix r) = true
  · exact iff_of_true (.inl hbuiltin) (.inl hbuiltin)
  · rw [Resolves, Anchored, translateTypeName_of_not_builtin hbuiltin]
    have hstruct : (∃ s ∈ abi.toJson.structs, s.name = removeSuffix r) ↔
        (∃ s ∈ abi.structs.elems, s.name = removeSuffix r) ∧ abi.Mentioned (removeSuffix r) := by
      constructor
      · rintro ⟨s, hs, hname⟩
        obtain ⟨hmem, hvalid⟩ := List.mem_filter.mp hs
        rw [validateStruct_iff, hname] at hvalid
        exact ⟨⟨s, hmem, hname⟩, hvalid.2⟩
      · rintro ⟨⟨s, hmem, hname⟩, hmentioned⟩
        refine ⟨s, List.mem_filter.mpr ⟨hmem, ?_⟩, hname⟩
        rw [validateStruct_iff, hname]
        exact ⟨hbuiltin, hmentioned⟩
    have htypedef : (∃ td ∈ abi.toJson.types, td.newTypeName = removeSuffix r) ↔
        (∃ td ∈ abi.typedefs.elems, td.newTypeName = removeSuffix r) ∧
          abi.TypeMentioned (removeSuffix r) := by
      constructor
      · rintro ⟨td, htd, hname⟩
        obtain ⟨hmem, hvalid⟩ := List.mem_filter.mp htd
        rw [validateTypes_iff, hname] at hvalid
        exact ⟨⟨td, hmem, hname⟩, hvalid⟩
      · rintro ⟨⟨td, hmem, hname⟩, hmentioned⟩
        refine ⟨td, List.mem_filter.mpr ⟨hmem, ?_⟩, hname⟩
        rw [validateTypes_iff, hname]
        exact hmentioned
    rw [hstruct, htypedef]

/-- Fields of the structs that are kept, and the targets of typedefs, are looked
at by both filters. -/
theorem anchored_of_resolves (h : Resolves abi.structs.elems abi.typedefs.elems r)
    (hmentioned : abi.Mentioned (removeSuffix r))
    (htype : abi.TypeMentioned (removeSuffix r)) : abi.Anchored r := by
  by_cases hbuiltin : isBuiltinType (removeSuffix r) = true
  · exact .inl hbuiltin
  · rw [Resolves, translateTypeName_of_not_builtin hbuiltin] at h
    rcases h with hbuiltin' | hstruct | htypedef
    · exact absurd hbuiltin' hbuiltin
    · exact .inr (.inl ⟨hstruct, hmentioned⟩)
    · exact .inr (.inr ⟨htypedef, htype⟩)

end Filters

end Abi

section Closed

variable {structs : List AbiStruct} {typedefs : List AbiTypedef} {actions : List AbiAction}
  {tables : List AbiTable} {r : String}

theorem mem_refs :
    r ∈ refs structs typedefs actions tables ↔
      (∃ s ∈ structs, r ∈ s.baseRefs) ∨ (∃ s ∈ structs, ∃ f ∈ s.fields, f.type = r) ∨
      (∃ td ∈ typedefs, td.type = r) ∨ (∃ a ∈ actions, r = a.type) ∨
      ∃ t ∈ tables, r = t.keyType ∨ r = t.valueType := by
  simp only [refs, List.mem_append, List.mem_flatMap, List.mem_map, List.mem_cons,
    List.not_mem_nil, or_false, and_or_left, exists_or, or_assoc, eq_comm]

/-- Nothing that is emitted refers to what is left out, exactly when every base,
action type, key type and value type is anchored. -/
theorem closed_toJson_iff (abi : Abi) (hclosed : abi.Closed) :
    abi.toJson.Closed ↔ ∀ r, abi.LooseRef r → abi.Anchored r := by
  constructor
  · intro h r hr
    rw [← Abi.resolves_toJson_iff]
    apply h r
    rw [mem_refs]
    rcases hr with ⟨s, hs, hkept, hbase⟩ | haction | htable
    · exact .inl ⟨s, List.mem_filter.mpr ⟨hs, Abi.validateStruct_iff.mpr hkept⟩, hbase⟩
    · exact .inr (.inr (.inr (.inl haction)))
    · exact .inr (.inr (.inr (.inr htable)))
  · intro h r hr
    rw [Abi.resolves_toJson_iff]
    rcases mem_refs.mp hr with ⟨s, hs, hbase⟩ | ⟨s, hs, f, hf, rfl⟩ |
      ⟨td, htd, rfl⟩ | haction | htable
    · obtain ⟨hmem, hvalid⟩ := List.mem_filter.mp hs
      exact h r (.inl ⟨s, hmem, Abi.validateStruct_iff.mp hvalid, hbase⟩)
    · obtain ⟨hmem, hvalid⟩ := List.mem_filter.mp hs
      apply Abi.anchored_of_resolves
      · exact hclosed _ (mem_refs.mpr (.inr (.inl ⟨s, hmem, f, hf, rfl⟩)))
      · exact .inl ⟨s, hmem, .inl ⟨f, hf, rfl⟩⟩
      · exact .inl ⟨s, hmem, Abi.validateStruct_iff.mp hvalid, f, hf, rfl⟩
    · obtain ⟨hmem, -⟩ := List.mem_filter.mp htd
      apply Abi.anchored_of_resolves
      · exact hclosed _ (mem_refs.mpr (.inr (.inr (.inl ⟨td, hmem, rfl⟩))))
      · exact .inr (.inr (.inr ⟨td, hmem, rfl⟩))
      · exact .inr (.inr (.inr ⟨td, hmem, rfl⟩))
    · exact h r (.inr (.inl haction))
    · exact h r (.inr (.inr htable))

end Closed

/-- A table of arrays of persons. -/
def personsTable : Abi where
  version := "ftl::abi/0.3.0"
  structs := ⟨[⟨"person", "", [⟨"age", "uint8"⟩]⟩], .cons nofun .nil⟩
  typedefs := ⟨[], .nil⟩
  actions := ⟨[], .nil⟩
  tables := ⟨[⟨"persons", "uint64", "person[]"⟩], .cons nofun .nil⟩

theorem closed_toJson_iff_persons :
    personsTable.Closed ∧
      (personsTable.toJson.Closed ↔ ∀ r, personsTable.LooseRef r → personsTable.Anchored r) :=
  ⟨by decide, closed_toJson_iff personsTable (by decide)⟩

/-- The struct of the array's elements is left out. -/
theorem not_closed_persons : ¬ ∀ abi : Abi, abi.Closed → abi.toJson.Closed := by
  intro hall
  have hdangling : ¬ personsTable.toJson.Closed := by decide
  exact hdangling (hall personsTable (by decide))

end FractalCdt.AbiGen
