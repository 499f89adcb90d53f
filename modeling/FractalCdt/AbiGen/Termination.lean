/-
# Where the walk comes to an end

`add_type` follows the fields and the base of every class it comes to, whether or not the
class has been entered before.  It comes to an end when no class leads back to itself,
and then it has inserted the classes it has come to, of which the set keeps the first of a
name; `settles_iff` compares these with all that a value of the type is made of.
-/

import FractalCdt.AbiGen.TypeGraph

namespace FractalCdt.AbiGen

open Relation FractalCdt.Math FractalCdt.Codec

namespace Declarations

variable {D : Type} (Γ : Declarations D)

/-! ## Classes of a type -/

mutual

/-- The classes whose values a value of the type has. -/
def classes : QualType D → List D
  | .scalar _ _ => []
  | .record _ d => [d]
  | .template _ _ d _ => [d]
  | .written _ d _ => [d]
  | .alias _ _ target => classes target
  | .sequence _ _ t => classes t
  | .optional _ t => classes t
  | .map _ k v => classes k ++ classes v
  | .pair _ a b => classes a ++ classes b
  | .tuple _ args => classesAll args

def classesAll : List (QualType D) → List D
  | [] => []
  | t :: ts => classes t ++ classesAll ts

end

/-- A class has the classes of its bases and fields. -/
def Contains (d d' : D) : Prop :=
  (∃ base ∈ Γ.bases d, d' = base.2) ∨ ∃ field ∈ Γ.fields d, d' ∈ classes field.2

/-- The records that are reachable from a type. -/
def Reaches (t : QualType D) (d : D) : Prop := ∃ d₀ ∈ classes t, ReflTransGen Γ.Contains d₀ d

/-- `add_type` makes finitely many calls, and then every reachable record has been registered: the
set of structs has one that `add_struct` made of it. -/
def Settles (t : QualType D) : Prop :=
  ∃ n, (Γ.addType n t).Returns ∧ ∀ d, Γ.Reaches t d → ∃ rname,
    .struct d rname ∈ (Γ.addType n t).items ∧
      Γ.structOf d rname ∈ (Γ.stored (Γ.addType n t).items).elems

/-! ## What the walk comes to -/

mutual

/-- The classes of a type that nothing hides.  A builtin's name hides what it is a name of, and an
alias that is no new name hides all but a class that it is the name of. -/
def visible : QualType D → List D
  | .scalar q s => if Γ.isBuiltin (.scalar q s) then [] else (Γ.decl? (.scalar q s)).toList
  | .record q d => if Γ.isBuiltin (.record q d) then [] else [d]
  | .template q name d args => if Γ.isBuiltin (.template q name d args) then [] else [d]
  | .written q d args => if Γ.isBuiltin (.written q d args) then [] else [d]
  | .alias q name target =>
      if Γ.isBuiltin (.alias q name target) then []
      else if Γ.isAliasing q name target then visible target
      else (Γ.decl? target).toList
  | .sequence q c t => if Γ.isBuiltin (.sequence q c t) then [] else visible t
  | .optional q t => if Γ.isBuiltin (.optional q t) then [] else visible t
  | .map q k v => if Γ.isBuiltin (.map q k v) then [] else visible k ++ visible v
  | .pair q a b => if Γ.isBuiltin (.pair q a b) then [] else visible a ++ visible b
  | .tuple q args =>
      if Γ.isBuiltin (.tuple q args) then [] else if q.isElaborated then visibleAll args else []

def visibleAll : List (QualType D) → List D
  | [] => []
  | t :: ts => visible t ++ visibleAll ts

end

/-- The walk goes from a class to the next.  Of several bases it takes none, and one field is
described without its type. -/
def GoesTo (d d' : D) : Prop :=
  (∃ type, Γ.bases d = [(type, d')]) ∨
    ∃ field ∈ Γ.fields d, field.1 ≠ "transaction_extensions" ∧ d' ∈ Γ.visible field.2

def ComesTo (t : QualType D) (d : D) : Prop := ∃ d₀ ∈ Γ.visible t, ReflTransGen Γ.GoesTo d₀ d

mutual

/-- Every tuple that `add_type` comes to, without those inside of the declarations, is spelled
with a qualifier. -/
def spelled : QualType D → Bool
  | .scalar _ _ | .record _ _ | .template _ _ _ _ | .written _ _ _ => true
  | .alias q name target =>
      Γ.isBuiltin (.alias q name target) || !Γ.isAliasing q name target || Γ.isBuiltin target ||
        spelled target
  | .sequence q c t => Γ.isBuiltin (.sequence q c t) || spelled t
  | .optional q t => Γ.isBuiltin (.optional q t) || spelled t
  | .map q k v => Γ.isBuiltin (.map q k v) || spelled k && spelled v
  | .pair q a b => Γ.isBuiltin (.pair q a b) || spelled a && spelled b
  | .tuple q args => Γ.isBuiltin (.tuple q args) || q.isElaborated && spelledAll args

def spelledAll : List (QualType D) → Bool
  | [] => true
  | t :: ts => spelled t && spelledAll ts

end

/-- The tuples among the fields are spelled with a qualifier. -/
def fieldsSpelled (d : D) : Bool :=
  (Γ.fields d).all fun field => field.1 = "transaction_extensions" || Γ.spelled field.2

/-- No class that the walk comes to leads back to itself, and every tuple it comes to is spelled
with a qualifier. -/
structure Finishes (t : QualType D) : Prop where
  acyclic : ∀ d, Γ.ComesTo t d → ¬ TransGen Γ.GoesTo d d
  spelled : Γ.spelled t = true ∧ ∀ d, Γ.ComesTo t d → Γ.fieldsSpelled d = true

/-- The walk returns and comes to every reachable record: none of them has the name of a builtin
or is hidden behind such a name, behind an alias that is spelled with a qualifier, among several
bases or in the field that is described without its type.  Nothing else has taken the record's
name before, unless it looks the same. -/
structure Walkable (t : QualType D) : Prop where
  finishes : Γ.Finishes t
  unshared : ∀ d, Γ.Reaches t d → ∃ rname,
    Γ.Inserts (Γ.mentions t) (.struct d rname) ∧
    Γ.IsFirst (Γ.mentions t) (Γ.structOf d rname)

variable {Γ} {t : QualType D} {d d' : D} {n : ℕ}

/-! ## Classes and crashes among the insertions -/

section Labels

variable {xs ys : List (Option (Insertion D))} {x : Insertion D}

/-- A struct of the class is among the insertions. -/
def Labels (xs : List (Option (Insertion D))) (d : D) : Prop :=
  ∃ x, some x ∈ xs ∧ x.decl? = some d

theorem not_labels_nil : ¬ Labels [] d := nofun

theorem not_labels_none : ¬ Labels [none] d := by
  rintro ⟨x, hx, -⟩
  cases List.mem_singleton.mp hx

theorem labels_append : Labels (xs ++ ys) d ↔ Labels xs d ∨ Labels ys d := by
  simp only [Labels, List.mem_append, or_and_right, exists_or]

theorem labels_singleton : Labels [some x] d ↔ x.decl? = some d := by
  simp [Labels]

theorem labels_struct (e : D) (rname : String) :
    Labels [some (.struct e rname)] d ↔ d ∈ [e] := by
  rw [labels_singleton, List.mem_singleton, Insertion.decl?, Option.some.injEq, eq_comm]

theorem labels_structsOf {d? : Option D} : Labels (structsOf d?) d ↔ d ∈ d?.toList := by
  cases d? with
  | none => exact iff_of_false not_labels_nil (by simp)
  | some e => exact labels_struct e ""

theorem labels_twice (hx : x.decl? = none) :
    Labels (xs ++ (ys ++ (xs ++ (ys ++ [some x])))) d ↔ Labels xs d ∨ Labels ys d := by
  simp only [labels_append, labels_singleton, hx, reduceCtorEq, or_false]
  tauto

theorem labels_if {c : Prop} [Decidable c] {ds : List D} (h : ¬ c → (d ∈ ds ↔ Labels xs d)) :
    d ∈ (if c then [] else ds) ↔ Labels (if c then [] else xs) d := by
  split
  case isTrue => exact iff_of_false List.not_mem_nil not_labels_nil
  case isFalse hc => exact h hc

mutual

/-- The classes that are visible are those of the structs that are mentioned. -/
theorem mem_visible_iff : (t : QualType D) → (d ∈ Γ.visible t ↔ Labels (Γ.mentions t) d)
  | .scalar q s => labels_if fun _ => labels_structsOf.symm
  | .record q e => labels_if fun _ => (labels_struct e "").symm
  | .template q name e args => labels_if fun _ => (labels_struct e _).symm
  | .written q e args => labels_if fun _ => (labels_struct e "").symm
  | .alias q name target => by
      rw [visible, mentions]
      apply labels_if
      intro _
      split
      · have hsame : (if Γ.isBuiltin target then [] else Γ.mentions target) = Γ.mentions target :=
          ite_eq_right_iff.mpr fun hbuiltin => (mentions_of_builtin hbuiltin).symm
        rw [hsame, mem_visible_iff target, labels_append, labels_singleton]
        simp [Insertion.decl?]
      · exact labels_structsOf.symm
  | .sequence q c t => labels_if fun _ => mem_visible_iff t
  | .optional q t => labels_if fun _ => mem_visible_iff t
  | .map q k v => by
      rw [visible, mentions]
      apply labels_if
      intro _
      rw [labels_twice rfl, List.mem_append, mem_visible_iff k, mem_visible_iff v]
  | .pair q a b => by
      rw [visible, mentions]
      apply labels_if
      intro _
      rw [labels_twice rfl, List.mem_append, mem_visible_iff a, mem_visible_iff b]
  | .tuple q args => by
      rw [visible, mentions]
      apply labels_if
      intro _
      split
      · rw [mem_visibleAll_iff args, labels_append, labels_singleton]
        simp [Insertion.decl?]
      · exact iff_of_false List.not_mem_nil not_labels_none

theorem mem_visibleAll_iff : (ts : List (QualType D)) →
    (d ∈ Γ.visibleAll ts ↔ Labels (Γ.mentionsAll ts) d)
  | [] => iff_of_false List.not_mem_nil not_labels_nil
  | t :: ts => by
      rw [visibleAll, mentionsAll, List.mem_append, mem_visible_iff t, mem_visibleAll_iff ts,
        labels_append]

end

theorem none_notMem_if {b c : Bool} (h : none ∉ xs ↔ c = true) :
    none ∉ (if b then [] else xs) ↔ (b || c) = true := by
  cases b with
  | false => exact h
  | true => exact iff_of_true List.not_mem_nil rfl

theorem none_notMem_append :
    (none : Option (Insertion D)) ∉ xs ++ ys ↔ none ∉ xs ∧ none ∉ ys := by
  rw [List.mem_append, not_or]

theorem none_notMem_structsOf (d? : Option D) : none ∉ structsOf d? := by
  cases d? <;> simp [structsOf]

theorem none_notMem_of_struct {b : Bool} (h : none ∉ xs) :
    none ∉ (if b then [] else xs) ↔ true = true :=
  iff_of_true (by cases b <;> simp [h]) rfl

mutual

/-- Where the tuples are spelled with a qualifier, nothing crashes. -/
theorem none_notMem_mentions_iff : (t : QualType D) →
    (none ∉ Γ.mentions t ↔ Γ.spelled t = true)
  | .scalar q s => none_notMem_of_struct (none_notMem_structsOf (Γ.decl? (.scalar q s)))
  | .record q e => none_notMem_of_struct (none_notMem_structsOf (some e))
  | .template q name e args => none_notMem_of_struct (by simp)
  | .written q e args => none_notMem_of_struct (none_notMem_structsOf (some e))
  | .alias q name target => by
      rw [mentions, spelled, Bool.or_assoc, Bool.or_assoc]
      apply none_notMem_if
      cases Γ.isAliasing q name target with
      | false => exact iff_of_true (none_notMem_structsOf (Γ.decl? (.alias q name target))) rfl
      | true =>
          have hend : (none : Option (Insertion D)) ∉ [some (.typedef name target)] := by simp
          rw [if_pos rfl, none_notMem_append, and_iff_left hend]
          exact none_notMem_if (none_notMem_mentions_iff target)
  | .sequence q c t => none_notMem_if (none_notMem_mentions_iff t)
  | .optional q t => none_notMem_if (none_notMem_mentions_iff t)
  | .map q k v => by
      apply none_notMem_if
      simp only [none_notMem_append, none_notMem_mentions_iff k, none_notMem_mentions_iff v]
      simp
      tauto
  | .pair q a b => by
      apply none_notMem_if
      simp only [none_notMem_append, none_notMem_mentions_iff a, none_notMem_mentions_iff b]
      simp
      tauto
  | .tuple q args => by
      apply none_notMem_if
      cases q.isElaborated with
      | false => simp
      | true => simp [none_notMem_mentionsAll_iff args]

theorem none_notMem_mentionsAll_iff : (ts : List (QualType D)) →
    (none ∉ Γ.mentionsAll ts ↔ Γ.spelledAll ts = true)
  | [] => iff_of_true List.not_mem_nil rfl
  | t :: ts => by
      rw [mentionsAll, spelledAll, none_notMem_append, none_notMem_mentions_iff t,
        none_notMem_mentionsAll_iff ts, Bool.and_eq_true]

end

theorem labels_baseMentions {bases : List (QualType D × D)} :
    Labels (baseMentions bases) d ↔ ∃ type, bases = [(type, d)] := by
  match bases with
  | [] => exact iff_of_false not_labels_nil (by simp)
  | [(type, e)] =>
      rw [baseMentions, labels_struct, List.mem_singleton]
      simp [eq_comm]
  | _ :: _ :: _ => exact iff_of_false not_labels_nil (by simp)

theorem labels_fieldMentions {field : String × QualType D} :
    Labels (Γ.fieldMentions field) d ↔
      field.1 ≠ "transaction_extensions" ∧ d ∈ Γ.visible field.2 := by
  rw [fieldMentions, mem_visible_iff]
  split
  case isTrue hname =>
    rw [labels_singleton]
    simp [hname, Insertion.decl?]
  case isFalse hname => exact (and_iff_right hname).symm

theorem leadsTo_eq : LeadsTo Insertion.decl? Γ.inside = Γ.GoesTo := by
  funext d d'
  have hfields : Labels ((Γ.fields d).flatMap Γ.fieldMentions) d' ↔ ∃ field ∈ Γ.fields d,
      field.1 ≠ "transaction_extensions" ∧ d' ∈ Γ.visible field.2 := by
    simp only [← labels_fieldMentions, Labels, List.mem_flatMap]
    constructor
    · rintro ⟨x, ⟨field, hfield, hx⟩, hd⟩
      exact ⟨field, hfield, x, hx, hd⟩
    · rintro ⟨field, hfield, x, hx, hd⟩
      exact ⟨x, ⟨field, hfield, hx⟩, hd⟩
  have hinside : LeadsTo Insertion.decl? Γ.inside d d' ↔ Γ.GoesTo d d' := by
    rw [GoesTo, ← labels_baseMentions, ← hfields, ← labels_append]
    rfl
  exact propext hinside

/-- The classes of the insertions are those the walk comes to. -/
theorem exists_inserts_iff :
    (∃ x, Γ.Inserts (Γ.mentions t) x ∧ x.decl? = some d) ↔ Γ.ComesTo t d := by
  have hpath := @comesUp_iff_reflTransGen _ _ Insertion.decl? Γ.inside d (Γ.mentions t)
  rw [leadsTo_eq] at hpath
  simp only [Inserts]
  rw [hpath]
  constructor
  · rintro ⟨x, hx, d₀, hd, hpath⟩
    exact ⟨d₀, (mem_visible_iff t).mpr ⟨x, hx, hd⟩, hpath⟩
  · rintro ⟨d₀, hd, hpath⟩
    obtain ⟨x, hx, hd⟩ := (mem_visible_iff t).mp hd
    exact ⟨x, hx, d₀, hd, hpath⟩

theorem none_notMem_inside_iff : none ∉ Γ.inside d ↔ Γ.fieldsSpelled d = true := by
  have hbases : none ∉ baseMentions (Γ.bases d) := by
    match Γ.bases d with
    | [] | [_] | _ :: _ :: _ => simp [baseMentions]
  rw [inside, none_notMem_append, and_iff_right hbases, fieldsSpelled, List.all_eq_true,
    List.mem_flatMap, not_exists]
  apply forall_congr'
  intro field
  rw [not_and, Bool.or_eq_true, decide_eq_true_iff, ← none_notMem_mentions_iff, fieldMentions]
  apply imp_congr_right
  intro _
  split
  case isTrue hname => simp [hname]
  case isFalse hname => simp [hname]

end Labels

/-! ## Coming to an end -/

/-- The walk comes to an end unless a class leads back to itself or a tuple is spelled without
a qualifier. -/
theorem ends_iff_finishes [Finite D] : Γ.Ends (Γ.mentions t) ↔ Γ.Finishes t := by
  have hclasses : (∀ d, Γ.ComesTo t d → Γ.fieldsSpelled d = true ∧ ¬ TransGen Γ.GoesTo d d) ↔
      ∀ d, (∃ x, ComesUp Insertion.decl? Γ.inside (Γ.mentions t) (some x) ∧ x.decl? = some d) →
        none ∉ Γ.inside d ∧ ¬ TransGen (LeadsTo Insertion.decl? Γ.inside) d d := by
    simp only [← exists_inserts_iff, none_notMem_inside_iff, leadsTo_eq, Inserts]
  rw [Ends, complete_iff_acyclic, none_notMem_mentions_iff, ← hclasses]
  constructor
  · rintro ⟨hspelled, h⟩
    exact ⟨fun d hd => (h d hd).2, hspelled, fun d hd => (h d hd).1⟩
  · rintro ⟨hacyclic, hspelled, hfields⟩
    exact ⟨hspelled, fun d hd => ⟨hfields d hd, hacyclic d hd⟩⟩

theorem settles_iff [Finite D] (Γ : Declarations D) (t : QualType D) :
    Γ.Settles t ↔ Γ.Walkable t := by
  simp only [Settles, addType_eq]
  constructor
  · rintro ⟨n, hreturns, hall⟩
    refine ⟨ends_iff_finishes.mp (exists_walk_returns_iff.mp ⟨n, hreturns⟩), ?_⟩
    intro d hd
    obtain ⟨rname, hmem, hstored⟩ := hall d hd
    exact ⟨rname, (mem_items_walk_iff hreturns).mp hmem, (mem_stored_walk_iff hreturns).mp hstored⟩
  · intro h
    obtain ⟨n, hreturns⟩ := exists_walk_returns_iff.mpr (ends_iff_finishes.mpr h.finishes)
    refine ⟨n, hreturns, ?_⟩
    intro d hd
    obtain ⟨rname, hinserts, hfirst⟩ := h.unshared d hd
    exact ⟨rname, (mem_items_walk_iff hreturns).mpr hinserts,
      (mem_stored_walk_iff hreturns).mpr hfirst⟩

end Declarations

/-! ## A record with a list of itself -/

/-- `struct node { std::vector<node> children; }`. -/
def nodeDeclarations : Declarations Unit where
  name _ := ⟨"node", by decide⟩
  bases _ := []
  fields _ := [("children", .sequence ⟨none, ["std"]⟩ .vector (.record ⟨none, []⟩ ()))]
  library _ := none
  library_name := nofun

theorem settles_iff_node : nodeDeclarations.Settles (.record ⟨none, []⟩ ()) ↔
    nodeDeclarations.Walkable (.record ⟨none, []⟩ ()) :=
  Declarations.settles_iff nodeDeclarations (.record ⟨none, []⟩ ())

theorem not_forall_settles : ¬ ∀ (D : Type) (_ : Finite D) (Γ : Declarations D) (t : QualType D),
    Γ.Settles t := by
  intro hall
  obtain ⟨n, hreturns, -⟩ := hall Unit inferInstance nodeDeclarations (.record ⟨none, []⟩ ())
  have hvisible : () ∈ nodeDeclarations.visible (.record ⟨none, []⟩ ()) := by decide
  have hback : nodeDeclarations.GoesTo () () :=
    .inr ⟨_, List.mem_singleton_self _, by decide, by decide⟩
  rw [Declarations.addType_eq] at hreturns
  have hends := Declarations.exists_walk_returns_iff.mp ⟨n, hreturns⟩
  have hfinishes := Declarations.ends_iff_finishes.mp hends
  exact hfinishes.acyclic () ⟨(), hvisible, .refl⟩ (.single hback)

end FractalCdt.AbiGen
