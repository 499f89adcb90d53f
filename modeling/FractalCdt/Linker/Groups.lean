/-
# Comdat groups

Objects may hold copies of the same functions and data, put into a group under a
name.  The first object read with a group of a name keeps its copy, and what others
have in their groups of that name is left out.
-/

import FractalCdt.Linker.Reading

namespace FractalCdt.Linker

/-! ## Entering the groups of an object -/

section Comdats

variable {Comdats names : List String}

theorem mem_addComdats {g : String} :
    g ∈ (addComdats Comdats names).1 ↔ g ∈ Comdats ∨ g ∈ names := by
  induction names generalizing Comdats with
  | nil => simp [addComdats]
  | cons Name Names ih =>
      rw [addComdats]
      dsimp only
      rw [ih]
      split
      case isTrue hmem =>
        rw [List.mem_cons]
        constructor
        · tauto
        · rintro (hold | rfl | hnew)
          · exact .inl hold
          · exact .inl hmem
          · exact .inr hnew
      case isFalse =>
        rw [List.mem_append, List.mem_singleton, List.mem_cons, or_assoc]

/-- Names that differ are new if they were not there before. -/
theorem getElem?_addComdats (hnodup : names.Nodup) {i : ℕ} {g : String}
    (hg : names[i]? = some g) : (addComdats Comdats names).2[i]? = some (decide (g ∉ Comdats)) := by
  induction names generalizing Comdats i with
  | nil => cases hg
  | cons Name Names ih =>
      rw [addComdats]
      dsimp only
      rw [List.nodup_cons] at hnodup
      cases i with
      | zero =>
          cases hg
          rfl
      | succ i =>
          have hmem : g ∈ Names := List.mem_of_getElem? hg
          have hne : g ≠ Name := by
            rintro rfl
            exact hnodup.1 hmem
          rw [List.getElem?_cons_succ, ih hnodup.2 hg]
          split
          · rfl
          · simp [hne]

end Comdats

namespace ParsedFile

/-- The object keeps the group at a place of its list. -/
def Keeps (F : ParsedFile) (i : ℕ) (g : String) : Prop :=
  F.obj.Comdats[i]? = some g ∧ F.UsedComdats[i]? = some true

theorem opened_keeps {t : SymbolTable} {id : FileId} {obj : ObjFile} {i : ℕ} {g : String} :
    (t.opened id obj).Keeps i g ↔ obj.Comdats[i]? = some g ∧ g ∉ t.Comdats := by
  refine and_congr_right fun hg => ?_
  show (addComdats t.Comdats obj.Comdats).2[i]? = some true ↔ _
  rw [getElem?_addComdats obj.comdats hg]
  simp

end ParsedFile

/-! ## One object for each group -/

namespace Loading

/-- The groups that have been entered are those of the objects read, and each has
one owner. -/
structure Grouped (s : Loading) : Prop where
  entered : ∀ g, g ∈ s.table.Comdats ↔ ∃ F, .parsed F ∈ s.tasks ∧ g ∈ F.obj.Comdats
  owned : ∀ g ∈ s.table.Comdats, ∃ F i, .parsed F ∈ s.tasks ∧ F.Keeps i g
  sole : ∀ F G i j g, .parsed F ∈ s.tasks → .parsed G ∈ s.tasks → F.Keeps i g → G.Keeps j g →
    F = G ∧ i = j

end Loading

namespace SymbolTable.Outcome

variable {cmd : Command} {t t' : SymbolTable} {task : Task} {calls : List Task}

/-- The groups change when an object is read. -/
theorem Comdats (h : Outcome cmd t t' task calls) :
    (t'.Comdats = t.Comdats ∧ ∀ F, .parsed F ∉ calls) ∨
    ∃ F, (∀ G, .parsed G ∈ calls ↔ G = F) ∧ F = t.opened F.id F.obj ∧
      t'.Comdats = (addComdats t.Comdats F.obj.Comdats).1 := by
  cases h with
  | nowhere _ hsame | archive _ hsame | parsed hsame =>
      rw [hsame]
      exact .inl ⟨rfl, fun F hF => by simp at hF⟩
  | kept _ _ hsame => exact .inl ⟨hsame.Comdats, fun F => List.not_mem_nil⟩
  | missing _ _ _ hsame => exact .inl ⟨hsame, fun F => List.not_mem_nil⟩
  | object _ hsame =>
      rw [hsame]
      exact .inr ⟨_, fun G => ParsedFile.parsed_mem_calls, rfl, rfl⟩
  | fetched _ _ _ _ hComdats =>
      exact .inr ⟨_, fun G => ParsedFile.parsed_mem_calls, rfl, hComdats⟩

end SymbolTable.Outcome

namespace Loading

variable {cmd : Command} {s : Loading} {task : Task} {rest : List Task}

theorem grouped_call (h : s.Grouped) (hagenda : s.agenda = task :: rest) :
    (s.call cmd task rest).Grouped := by
  have hmem (F : ParsedFile) : .parsed F ∈ (s.call cmd task rest).tasks ↔
      .parsed F ∈ s.tasks ∨ .parsed F ∈ (s.table.perform cmd task).2 := mem_tasks_call hagenda
  rcases (@SymbolTable.outcome_perform s.table cmd task).Comdats with
    ⟨hsame, hnone⟩ | ⟨F, hF, hopened, hnew⟩
  · have hold (F : ParsedFile) :
        .parsed F ∈ (s.call cmd task rest).tasks ↔ .parsed F ∈ s.tasks := by
      rw [hmem, or_iff_left (hnone F)]
    have hComdats : (s.call cmd task rest).table.Comdats = s.table.Comdats := hsame
    constructor
    case entered => simpa only [hold, hComdats] using h.entered
    case owned => simpa only [hold, hComdats] using h.owned
    case sole => simpa only [hold] using h.sole
  · have hComdats (g : String) : g ∈ (s.call cmd task rest).table.Comdats ↔
        g ∈ s.table.Comdats ∨ g ∈ F.obj.Comdats := by
      show g ∈ (s.table.perform cmd task).1.Comdats ↔ _
      rw [hnew, mem_addComdats]
    have hkeeps {i : ℕ} {g : String} : F.Keeps i g ↔
        F.obj.Comdats[i]? = some g ∧ g ∉ s.table.Comdats := by
      conv_lhs => rw [hopened]
      exact ParsedFile.opened_keeps
    -- what an object read before keeps is no new group
    have hbefore {G : ParsedFile} {j : ℕ} {g : String} (hG : .parsed G ∈ s.tasks)
        (hj : G.Keeps j g) : g ∈ s.table.Comdats :=
      (h.entered g).mpr ⟨G, hG, List.mem_of_getElem? hj.1⟩
    constructor
    case entered =>
      intro g
      rw [hComdats, h.entered]
      simp only [hmem, hF, or_and_right, exists_or, exists_eq_left]
    case owned =>
      intro g hg
      by_cases hold : g ∈ s.table.Comdats
      · obtain ⟨G, i, hG, hi⟩ := h.owned g hold
        exact ⟨G, i, (hmem G).mpr (.inl hG), hi⟩
      · obtain ⟨i, hi⟩ := List.getElem?_of_mem (((hComdats g).mp hg).resolve_left hold)
        exact ⟨F, i, (hmem F).mpr (.inr ((hF F).mpr rfl)), hkeeps.mpr ⟨hi, hold⟩⟩
    case sole =>
      intro G G' i j g hG hG' hi hj
      rw [hmem, hF] at hG hG'
      rcases hG with hG | rfl
      · rcases hG' with hG' | rfl
        · exact h.sole G G' i j g hG hG' hi hj
        · exact absurd (hbefore hG hi) (hkeeps.mp hj).2
      · rcases hG' with hG' | rfl
        · exact absurd (hbefore hG' hj) (hkeeps.mp hi).2
        · have hlt := (List.getElem?_eq_some_iff.mp hi.1).1
          exact ⟨rfl, (List.getElem?_inj hlt (ObjFile.comdats _)).mp (hi.1.trans hj.1.symm)⟩

end Loading

namespace Command

variable (cmd : Command)

theorem grouped_load : cmd.load.Grouped := by
  refine cmd.load_induction ?_ fun _ _ _ h hagenda => Loading.grouped_call h hagenda
  have hComdats : cmd.start.table.Comdats = [] := cmd.sameFiles_startTable.Comdats
  have hnone (F : ParsedFile) : .parsed F ∉ cmd.start.tasks := by simp [start, Loading.tasks]
  constructor
  case entered =>
    intro g
    rw [hComdats]
    refine iff_of_false List.not_mem_nil ?_
    rintro ⟨F, hF, -⟩
    exact hnone F hF
  case owned =>
    intro g hg
    rw [hComdats] at hg
    cases hg
  case sole => exact fun F _ _ _ _ hF => absurd hF (hnone F)

/-- Of the objects that are read and have a group of some name, one keeps its copy. -/
theorem load_groups {F : ParsedFile} (hF : F ∈ cmd.ObjectFiles) {g : String}
    (hg : g ∈ F.obj.Comdats) : ∃! owner : ParsedFile × ℕ,
      owner.1 ∈ cmd.ObjectFiles ∧ owner.1.Keeps owner.2 g := by
  have hgroups := cmd.grouped_load
  have hread (G : ParsedFile) : .parsed G ∈ cmd.load.tasks ↔ G ∈ cmd.ObjectFiles := by
    rw [cmd.tasks_load, cmd.mem_ObjectFiles]
  obtain ⟨G, i, hG, hi⟩ :=
    hgroups.owned g ((hgroups.entered g).mpr ⟨F, (hread F).mpr hF, hg⟩)
  refine ⟨(G, i), ⟨(hread G).mp hG, hi⟩, ?_⟩
  rintro ⟨G', j⟩ ⟨hG', hj⟩
  obtain ⟨rfl, rfl⟩ := hgroups.sole G' G j i g ((hread G').mpr hG') hG hj hi
  rfl

/-- Two objects have the group. -/
theorem load_groups_sample : ∃! owner : ParsedFile × ℕ,
    owner.1 ∈ sample.ObjectFiles ∧ owner.1.Keeps owner.2 "f" :=
  @load_groups sample ⟨.object 2, sampleCopy, [false]⟩
    (ObjectFiles_sample ▸ List.mem_of_getElem? (show _[2]? = _ from rfl)) "f" List.mem_cons_self

end Command

end FractalCdt.Linker
