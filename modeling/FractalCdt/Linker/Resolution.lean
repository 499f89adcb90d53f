/-
# Which definition a name resolves to

Every object that is read offers its definitions under their names.  A definition
that is not weak wins over all weak ones, and of weak ones the first stays; two
that are not weak end the link.  So in a link without an error a name resolves to
the one definition that is not weak, or to the first one.
-/

import FractalCdt.Linker.Reading
import Mathlib.Data.List.Induction

namespace FractalCdt.Linker

open FractalCdt.Math

/-- A definition with its flags and the file it is from. -/
structure Offer where
  Flags : Flags
  File : Option FileId
  definition : Definition
  deriving DecidableEq, Repr

def Offer.isStrong (o : Offer) : Bool := o.Flags.binding ≠ .bindingWeak

/-- The definition that a symbol is. -/
def Symbol.offer? (S : Symbol) : Option Offer :=
  match S.content with
  | .defined d => some ⟨S.Flags, S.File, d⟩
  | _ => none

/-- The definition that a symbol of an object offers to others. -/
def ParsedFile.offer? (F : ParsedFile) (sym : WasmSymbol) : Option Offer :=
  if sym.isBindingLocal then none
  else (F.createDefined sym).map fun d => ⟨sym.Flags, some F.id, d⟩

def Task.offer? (n : String) : Task → Option Offer
  | .symbol F sym => if n = sym.Name then F.offer? sym else none
  | _ => none

/-- The one that wins: the first that is not weak, or else the first. -/
def chosen (offers : List Offer) : Option Offer :=
  (offers.find? (·.isStrong)).or offers.head?

theorem Task.offer?_eq_some_iff {n : String} {task : Task} {o : Offer} :
    task.offer? n = some o ↔ ∃ F sym d, task = .symbol F sym ∧ sym.Name = n ∧
      ¬ sym.isBindingLocal ∧ F.createDefined sym = some d ∧ o = ⟨sym.Flags, some F.id, d⟩ := by
  cases task with
  | file | parsed | lazy => simp [offer?]
  | symbol F sym =>
      show (if n = sym.Name then F.offer? sym else none) = some o ↔ _
      unfold ParsedFile.offer?
      constructor
      · intro h
        split at h
        case isFalse => cases h
        case isTrue hn =>
          split at h
          · cases h
          case isFalse hlocal =>
            obtain ⟨d, hd, rfl⟩ := Option.map_eq_some_iff.mp h
            exact ⟨F, sym, d, rfl, hn.symm, hlocal, hd, rfl⟩
      · rintro ⟨F', sym', d, heq, hn, hlocal, hd, rfl⟩
        cases heq
        rw [if_pos hn.symm, if_neg hlocal, hd]
        rfl

section Effects

variable {Entry n : String} {task : Task} {old : Option Symbol} {o p : Offer}

theorem offer_askedOver (flags : Flags) (file : Option FileId) (w : Wanted) (used : Bool) :
    (askedOver old flags file w used).offer? = old.bind (·.offer?) := by
  cases old <;> rfl

theorem offer_definedOver (flags : Flags) (file : Option FileId) (d : Definition) :
    (definedOver old flags file d).offer? =
      match old.bind (·.offer?) with
      | none => some ⟨flags, file, d⟩
      | some p => if flags.binding ≠ .bindingWeak then some ⟨flags, file, d⟩ else some p := by
  cases old with
  | none => rfl
  | some S =>
      obtain ⟨oldFlags, oldFile, oldUsed, content⟩ := S
      cases content with
      | undefined _ | lazy _ _ => rfl
      | defined e =>
          by_cases hweak : flags.binding = .bindingWeak
          · simp [definedOver, Symbol.isDefined, Symbol.offer?, hweak]
          · simp [definedOver, Symbol.isDefined, Symbol.offer?, hweak]

/-- A call that offers nothing under a name leaves its definition. -/
theorem offer_effect_of_none (h : task.offer? n = none) :
    (task.effect n old).bind (·.offer?) = old.bind (·.offer?) := by
  cases task with
  | file | parsed => rfl
  | lazy archive Name member =>
      show (if n = Name then _ else old : Option Symbol).bind _ = _
      split
      · cases old <;> rfl
      · rfl
  | symbol F sym =>
      show (if n = sym.Name then F.over sym old else old).bind _ = _
      split
      case isFalse => rfl
      case isTrue hn =>
        have hnone : F.offer? sym = none := (if_pos hn).symm.trans h
        unfold ParsedFile.offer? at hnone
        unfold ParsedFile.over
        cases hd : F.createDefined sym with
        | none => exact offer_askedOver ..
        | some d =>
            rw [hd] at hnone
            dsimp only
            split
            · rfl
            case isFalse hlocal => rw [if_neg hlocal] at hnone; cases hnone

theorem offer_effect_of_some (h : task.offer? n = some o) :
    (task.effect n old).bind (·.offer?) =
      match old.bind (·.offer?) with
      | none => some o
      | some p => if o.isStrong then some o else some p := by
  obtain ⟨F, sym, d, rfl, hn, hlocal, hd, rfl⟩ := Task.offer?_eq_some_iff.mp h
  show (if n = sym.Name then F.over sym old else old).bind _ = _
  rw [if_pos hn.symm, ParsedFile.over, hd]
  dsimp only
  rw [if_neg hlocal, Option.bind_some, offer_definedOver]
  simp only [Offer.isStrong, decide_eq_true_eq]

/-- Two definitions that are not weak are a fault. -/
theorem faults_of_strong (hold : old.bind (·.offer?) = some p) (hp : p.isStrong)
    (h : task.offer? n = some o) (ho : o.isStrong) : task.faults Entry n old ≠ [] := by
  obtain ⟨F, sym, d, rfl, hn, hlocal, hd, rfl⟩ := Task.offer?_eq_some_iff.mp h
  obtain ⟨S, rfl, hS⟩ := Option.bind_eq_some_iff.mp hold
  obtain ⟨oldFlags, oldFile, oldUsed, content⟩ := S
  cases content with
  | undefined _ | lazy _ _ => cases hS
  | defined e =>
      cases hS
      have hfaults :
          Task.faults Entry n (.symbol F sym) (some ⟨oldFlags, oldFile, oldUsed, .defined e⟩) =
            d.check Entry sym.Name ⟨oldFlags, oldFile, oldUsed, .defined e⟩ ++
              [.duplicateSymbol sym.Name] := by
        simp_all [Task.faults, ParsedFile.faults, shouldReplace, Symbol.isLazy, Symbol.isDefined,
          Symbol.isWeak, Offer.isStrong]
      rw [hfaults]
      exact List.append_ne_nil_of_right_ne_nil _ (List.cons_ne_nil _ _)

end Effects

/-! ## After all calls -/

/-- At most one of the definitions is not weak. -/
def SingleStrong (offers : List Offer) : Prop := (offers.filter (·.isStrong)).length ≤ 1

theorem chosen_toList (o : Option Offer) : chosen o.toList = o := by
  cases o with
  | none => rfl
  | some o => cases ho : o.isStrong <;> simp [chosen, ho]

/-- The only definition that is not weak is the one that wins. -/
theorem chosen_eq_some_iff {L : List Offer} {o : Offer} (h : SingleStrong L) (ho : o.isStrong) :
    chosen L = some o ↔ o ∈ L := by
  unfold chosen
  constructor
  · intro hchosen
    rcases Option.or_eq_some_iff.mp hchosen with hfind | ⟨-, hhead⟩
    · exact List.mem_of_find?_eq_some hfind
    · exact List.mem_of_head? hhead
  · intro hmem
    have hfilter : o ∈ L.filter (·.isStrong) := List.mem_filter.mpr ⟨hmem, ho⟩
    have hone : L.filter (·.isStrong) = [o] := by
      unfold SingleStrong at h
      cases hL : L.filter (·.isStrong) with
      | nil =>
          rw [hL] at hfilter
          cases hfilter
      | cons p ps =>
          rw [hL] at h hfilter
          cases ps with
          | nil => rw [List.mem_singleton.mp hfilter]
          | cons q qs => exact absurd h (by simp)
    rw [← List.head?_filter, hone]
    rfl

theorem chosen_of_weak {L : List Offer} (h : ∀ p ∈ L, ¬ p.isStrong) : chosen L = L.head? := by
  rw [chosen, List.find?_eq_none.mpr h, Option.none_or]

theorem singleStrong_concat {L : List Offer} {o : Offer} (h : SingleStrong L)
    (hnew : o.isStrong → L.find? (·.isStrong) = none) : SingleStrong (L ++ [o]) := by
  unfold SingleStrong at h ⊢
  rw [List.filter_append]
  by_cases ho : o.isStrong
  · rw [List.filter_eq_nil_iff.mpr (List.find?_eq_none.mp (hnew ho))]
    exact List.length_filter_le ..
  · rw [List.filter_eq_nil_iff (l := [o]).mpr (by simpa using ho), List.append_nil]
    exact h

theorem chosen_concat {L : List Offer} {o : Offer}
    (hnew : o.isStrong → L.find? (·.isStrong) = none) :
    chosen (L ++ [o]) =
      match chosen L with
      | none => some o
      | some p => if o.isStrong then some o else some p := by
  unfold chosen
  rw [List.find?_append, List.head?_append]
  cases hstrong : L.find? (·.isStrong) with
  | some p =>
      have ho : ¬ o.isStrong := by
        intro ho
        rw [hnew ho] at hstrong
        cases hstrong
      simp [ho]
  | none =>
      cases hhead : L.head? with
      | none => cases ho : o.isStrong <;> simp [ho]
      | some p => cases ho : o.isStrong <;> simp [ho]

namespace Loading

variable {Entry n : String} {old : Option Symbol}

/-- The definitions of a name, in the order in which they are entered. -/
def offers (n : String) (old : Option Symbol) (tasks : List Task) : List Offer :=
  (old.bind (·.offer?)).toList ++ tasks.filterMap (·.offer? n)

theorem offers_append (tasks : List Task) (task : Task) :
    offers n old (tasks ++ [task]) = offers n old tasks ++ (task.offer? n).toList := by
  unfold offers
  rw [List.filterMap_append, List.append_assoc]
  cases htask : task.offer? n <;> simp [htask]

theorem offer_after {tasks : List Task} (h : Faultless Entry n old tasks) :
    (after n old tasks).bind (·.offer?) = chosen (offers n old tasks) ∧
      SingleStrong (offers n old tasks) := by
  induction tasks using List.reverseRecOn with
  | nil =>
      show old.bind _ = chosen ((old.bind (·.offer?)).toList ++ []) ∧
        SingleStrong ((old.bind (·.offer?)).toList ++ [])
      rw [List.append_nil, chosen_toList]
      exact ⟨rfl, (List.length_filter_le ..).trans Option.length_toList_le⟩
  | append_singleton tasks task ih =>
      obtain ⟨hbefore, hfault, -⟩ := faultless_append.mp h
      obtain ⟨hchosen, hsingle⟩ := ih hbefore
      have hafter : after n old (tasks ++ [task]) = task.effect n (after n old tasks) :=
        after_append ..
      rw [hafter, offers_append]
      cases hoffer : task.offer? n with
      | none =>
          rw [offer_effect_of_none hoffer, Option.toList_none, List.append_nil]
          exact ⟨hchosen, hsingle⟩
      | some o =>
          -- a definition that is not weak over one that is not would have been a fault
          have hnew : o.isStrong → (offers n old tasks).find? (·.isStrong) = none := by
            intro ho
            cases hstrong : (offers n old tasks).find? (·.isStrong) with
            | none => rfl
            | some p =>
                have hold : (after n old tasks).bind (·.offer?) = some p := by
                  rw [hchosen, chosen, hstrong]
                  rfl
                exact absurd hfault
                  (faults_of_strong hold (List.find?_some hstrong) hoffer ho)
          rw [offer_effect_of_some hoffer, hchosen]
          exact ⟨(chosen_concat hnew).symm, singleStrong_concat hsingle hnew⟩

/-- A name is defined if it has definitions. -/
theorem isSome_offer_after {tasks : List Task} :
    ((after n old tasks).bind (·.offer?)).isSome ↔ offers n old tasks ≠ [] := by
  induction tasks using List.reverseRecOn with
  | nil =>
      show (old.bind _).isSome ↔ (old.bind (·.offer?)).toList ++ [] ≠ []
      cases old.bind (·.offer?) <;> simp
  | append_singleton tasks task ih =>
      have hafter : after n old (tasks ++ [task]) = task.effect n (after n old tasks) :=
        after_append ..
      rw [hafter, offers_append]
      cases hoffer : task.offer? n with
      | none => rw [offer_effect_of_none hoffer, ih, Option.toList_none, List.append_nil]
      | some o =>
          rw [offer_effect_of_some hoffer]
          refine iff_of_true ?_ (List.append_ne_nil_of_right_ne_nil _ (List.cons_ne_nil _ _))
          cases (after n old tasks).bind (·.offer?) with
          | none => rfl
          | some p => dsimp only; split <;> rfl

end Loading

theorem Symbol.isSome_offer? {S : Symbol} : S.offer?.isSome ↔ S.isDefined := by
  unfold Symbol.offer? Symbol.isDefined
  cases S.content <;> simp

namespace Command

variable (cmd : Command)

/-- The definitions of a name: the linker's own, and those of the objects read. -/
def offers (n : String) : List Offer :=
  Loading.offers n (cmd.startTable.find n) cmd.load.done

/-- The definition that a name resolves to. -/
def resolution (n : String) : Option Offer := (cmd.load.table.find n).bind (·.offer?)

theorem mem_offers_iff {n : String} {flags : Flags} {id : FileId} {d : Definition} :
    ⟨flags, some id, d⟩ ∈ cmd.offers n ↔ ∃ F ∈ cmd.ObjectFiles, F.id = id ∧
      ∃ sym ∈ F.obj.symbols, sym.Name = n ∧ ¬ sym.isBindingLocal ∧ sym.Flags = flags ∧
        F.createDefined sym = some d := by
  unfold offers Loading.offers
  rw [List.mem_append, Option.mem_toList, List.mem_filterMap]
  constructor
  · rintro (hstart | ⟨task, hdone, hoffer⟩)
    · obtain ⟨S, hS, hoffer⟩ := Option.bind_eq_some_iff.mp hstart
      rcases cmd.starts_startTable hS with ⟨oldFlags, e, used, hmem, rfl⟩ | ⟨hforced, rfl⟩ <;>
        cases hoffer
    · obtain ⟨F, sym, d', rfl, hn, hlocal, hd, heq⟩ := Task.offer?_eq_some_iff.mp hoffer
      cases heq
      obtain ⟨hF, hsym⟩ := cmd.symbol_mem_done.mp hdone
      exact ⟨F, hF, rfl, sym, hsym, hn, hlocal, rfl, hd⟩
  · rintro ⟨F, hF, rfl, sym, hsym, hn, hlocal, rfl, hd⟩
    exact .inr ⟨_, cmd.symbol_mem_done.mpr ⟨hF, hsym⟩,
      Task.offer?_eq_some_iff.mpr ⟨F, sym, d, rfl, hn, hlocal, hd, rfl⟩⟩

theorem isDefined_iff_offers {n : String} :
    (∃ S, cmd.load.table.find n = some S ∧ S.isDefined) ↔ cmd.offers n ≠ [] := by
  rw [offers, ← Loading.isSome_offer_after, ← cmd.kept_load.find]
  cases cmd.load.table.find n with
  | none => simp
  | some S => simp [Symbol.isSome_offer?]

theorem resolution_eq_chosen (h : cmd.load.table.errors = []) (n : String) :
    cmd.resolution n = chosen (cmd.offers n) ∧ SingleStrong (cmd.offers n) := by
  rw [resolution, cmd.kept_load.find]
  exact Loading.offer_after (cmd.kept_load.faultless h n)

/-- When the files are read without an error, a definition that is not weak is what its
name resolves to, whatever the order of the files; if all of them are weak it is the first. -/
theorem load_resolves (h : cmd.load.table.errors = []) (n : String) :
    (∀ F ∈ cmd.ObjectFiles, ∀ sym ∈ F.obj.symbols, sym.Name = n → ¬ sym.isBindingLocal →
      sym.Flags.binding ≠ .bindingWeak → ∀ d, F.createDefined sym = some d →
        cmd.resolution n = some ⟨sym.Flags, some F.id, d⟩) ∧
    ((∀ o ∈ cmd.offers n, ¬ o.isStrong) → cmd.resolution n = (cmd.offers n).head?) := by
  obtain ⟨hchosen, hsingle⟩ := cmd.resolution_eq_chosen h n
  rw [hchosen]
  refine ⟨fun F hF sym hsym hn hlocal hstrong d hd => ?_, chosen_of_weak⟩
  rw [chosen_eq_some_iff hsingle (decide_eq_true hstrong), mem_offers_iff]
  exact ⟨F, hF, rfl, sym, hsym, hn, hlocal, rfl, hd⟩

/-- There is a weak definition besides. -/
theorem load_resolves_sample : (sample.offers "word").length = 2 ∧ sample.resolution "word" =
    some ⟨visible, some (.object 0), .data (some ⟨.object 0, 0⟩) 0 4⟩ :=
  ⟨by decide +kernel, (load_resolves sample (by decide +kernel) "word").1
    ⟨.object 0, sampleMain, []⟩ (ObjectFiles_sample ▸ List.mem_cons_self) _
    (List.mem_of_getElem? (show _[2]? = _ from rfl)) rfl (by decide) (by decide) _ rfl⟩

end Command

end FractalCdt.Linker
