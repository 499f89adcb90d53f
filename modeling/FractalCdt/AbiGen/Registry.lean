/-
# What has been entered

The generator collects structs, typedefs, actions and tables in sets that are ordered by
name and keep the first entry of a name.  `registerAll_of_register` says what is in each of
them after any number of entries.
-/

import FractalCdt.AbiGen.ToJson
import Mathlib.Data.String.Basic

namespace FractalCdt.AbiGen

open FractalCdt.Math

/-! ## Sets ordered by name -/

theorem strictTotal_string : StrictTotal fun a b : String => decide (a < b) where
  irrefl _ := decide_eq_false (lt_irrefl _)
  trans _ _ _ hab hbc := decide_eq_true (lt_trans (of_decide_eq_true hab) (of_decide_eq_true hbc))
  total _ _ hne := (lt_or_gt_of_ne hne).imp decide_eq_true decide_eq_true

namespace NameSet

variable {α : Type} {name : α → String} {x y : α}

def empty : NameSet α name := ⟨[], .nil⟩

/-- `std::set::insert`. -/
def insert (s : NameSet α name) (x : α) : NameSet α name :=
  ⟨emplace (fun a b => decide (a < b)) name x s.elems, sorted_emplace strictTotal_string s.sorted⟩

theorem mem_insert {s : NameSet α name} :
    y ∈ (s.insert x).elems ↔ y ∈ s.elems ∨ (y = x ∧ ∀ z ∈ s.elems, name z ≠ name x) :=
  mem_emplace strictTotal_string s.sorted

/-- The first element of each name stays. -/
theorem mem_foldl_insert {xs : List α} {s : NameSet α name} :
    y ∈ (xs.foldl insert s).elems ↔
      y ∈ s.elems ∨ ((∀ z ∈ s.elems, name z ≠ name y) ∧ xs.find? (name · = name y) = some y) := by
  induction xs generalizing s with
  | nil => simp
  | cons x xs ih =>
      rw [List.foldl_cons, ih, mem_insert]
      by_cases hname : name x = name y
      · rw [List.find?_cons_of_pos (by simpa using hname), Option.some.injEq]
        constructor
        · rintro ((hmem | ⟨rfl, hnew⟩) | ⟨hnew, -⟩)
          · exact .inl hmem
          · exact .inr ⟨hnew, rfl⟩
          · by_cases hold : ∃ z ∈ s.elems, name z = name x
            · obtain ⟨z, hz, hzx⟩ := hold
              exact absurd (hzx.trans hname) (hnew z (mem_insert.mpr (.inl hz)))
            · have hfresh : ∀ z ∈ s.elems, name z ≠ name x := fun z hz hzx => hold ⟨z, hz, hzx⟩
              exact absurd hname (hnew x (mem_insert.mpr (.inr ⟨rfl, hfresh⟩)))
        · rintro (hmem | ⟨hnew, rfl⟩)
          · exact .inl (.inl hmem)
          · exact .inl (.inr ⟨rfl, hnew⟩)
      · rw [List.find?_cons_of_neg (by simpa using hname)]
        constructor
        · rintro ((hmem | ⟨rfl, -⟩) | ⟨hnew, hfind⟩)
          · exact .inl hmem
          · exact absurd rfl hname
          · exact .inr ⟨fun z hz => hnew z (mem_insert.mpr (.inl hz)), hfind⟩
        · rintro (hmem | ⟨hnew, hfind⟩)
          · exact .inl (.inl hmem)
          · refine .inr ⟨?_, hfind⟩
            intro z hz
            rcases mem_insert.mp hz with hz | ⟨rfl, -⟩
            · exact hnew z hz
            · exact hname

theorem mem_foldl_insert_empty {xs : List α} :
    y ∈ (xs.foldl insert (empty : NameSet α name)).elems ↔ xs.find? (name · = name y) = some y := by
  rw [mem_foldl_insert]
  simp [empty]

end NameSet

/-- Something of the name is found, if the name occurs. -/
theorem exists_find?_name {α : Type} {name : α → String} {xs : List α} {x : α} (hx : x ∈ xs) :
    ∃ y, xs.find? (name · = name y) = some y ∧ name y = name x := by
  cases hfind : xs.find? (name · = name x) with
  | none => exact absurd (List.find?_eq_none.mp hfind x hx) (by simp)
  | some y =>
      have hname : name y = name x := by simpa using List.find?_some hfind
      rw [← hname] at hfind
      exact ⟨y, hfind, hname⟩

/-! ## Entries -/

/-- What is inserted into the sets of the ABI. -/
inductive Entry
  | struct (s : AbiStruct)
  | typedef (td : AbiTypedef)
  | action (a : AbiAction)
  | table (t : AbiTable)
  deriving DecidableEq

namespace Entry

def name : Entry → String
  | struct s => s.name
  | typedef td => td.newTypeName
  | action a => a.name
  | table t => t.name

def struct? : Entry → Option AbiStruct
  | struct s => some s
  | _ => none

def action? : Entry → Option AbiAction
  | action a => some a
  | _ => none

variable {e : Entry}

end Entry

namespace Abi

def empty : Abi := ⟨"ftl::abi/0.3.0", .empty, .empty, .empty, .empty⟩

/-- The `insert` of the set that the entry belongs to. -/
def register (abi : Abi) : Entry → Abi
  | .struct s => { abi with structs := abi.structs.insert s }
  | .typedef td => { abi with typedefs := abi.typedefs.insert td }
  | .action a => { abi with actions := abi.actions.insert a }
  | .table t => { abi with tables := abi.tables.insert t }

def registerAll (abi : Abi) (es : List Entry) : Abi := es.foldl register abi

def isEmpty (abi : Abi) : Bool :=
  abi.structs.elems.isEmpty && abi.typedefs.elems.isEmpty && abi.actions.elems.isEmpty &&
    abi.tables.elems.isEmpty

variable {abi : Abi} {es : List Entry}

/-- Each set takes the entries of its own kind, in their order. -/
theorem registerAll_of_register {α : Type} {name : α → String} {kind : Entry → Option α}
    {set : Abi → NameSet α name}
    (h : ∀ abi e, set (abi.register e) = (kind e).toList.foldl NameSet.insert (set abi)) :
    set (abi.registerAll es) = (es.filterMap kind).foldl NameSet.insert (set abi) := by
  induction es generalizing abi with
  | nil => rfl
  | cons e es ih =>
      have hrest : abi.registerAll (e :: es) = (abi.register e).registerAll es := rfl
      rw [hrest, ih, h, List.filterMap_cons]
      cases kind e <;> rfl

theorem registerAll_structs :
    (abi.registerAll es).structs =
      (es.filterMap Entry.struct?).foldl NameSet.insert abi.structs :=
  registerAll_of_register fun _ e => by cases e <;> rfl

theorem registerAll_actions :
    (abi.registerAll es).actions =
      (es.filterMap Entry.action?).foldl NameSet.insert abi.actions :=
  registerAll_of_register fun _ e => by cases e <;> rfl

end Abi

end FractalCdt.AbiGen
