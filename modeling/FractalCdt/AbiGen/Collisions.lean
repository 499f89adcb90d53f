/-
# Structs of one name

The sets of the ABI keep the first struct of a name and drop the others without a word.
Every struct that is inserted is kept, in whatever order the declarations are visited,
exactly when no two that can come together under one name look different; `OneName` lists
the ways in which they can get one.
-/

import FractalCdt.AbiGen.Generator

namespace FractalCdt.AbiGen

open FractalCdt.Math

namespace Declarations

variable {D : Type} (Γ : Declarations D)

/-- In every order of the declarations and at every moment, each struct that has been inserted is
stored with its base and its fields, and if the generator gets through, the order makes no
difference. -/
structure Keeps (cn : String) (unit : List (Decl D)) : Prop where
  kept : ∀ order, order.Perm unit → ∀ n front, front <+: (Γ.collect n cn order).items →
    ∀ s ∈ Γ.structs front, ∃ s' ∈ (Γ.stored front).elems,
      s'.name = s.name ∧ s'.base = s.base ∧ s'.fields = s.fields
  unordered : ∀ order order', order.Perm unit → order'.Perm unit → ∀ n n',
    (Γ.collect n cn order).Returns → (Γ.collect n' cn order').Returns →
    ∀ s, s ∈ (Γ.stored (Γ.collect n cn order).items).elems ↔
      s ∈ (Γ.stored (Γ.collect n' cn order').items).elems

/-! ## Ways to one name -/

/-- The name of a class, of a class template with an underscore, of a method, or `extension`. -/
def declaredName : Insertion D → Option String
  | .extension => some "extension"
  | .struct d rname => some (if rname = "" then (Γ.name d).val else rname)
  | .params name _ => some name
  | _ => none

/-- The parts of a pair or of a map's entry. -/
def parts? : Insertion D → Option (QualType D × QualType D)
  | .pair a b => some (a, b)
  | .keyValue k v => some (k, v)
  | _ => none

/-- What a pair's name is made of. -/
def joined (a b : QualType D) : String :=
  replaceInName (Γ.translateType a ++ "_" ++ Γ.translateType b)

def joinedAll (args : List (QualType D)) : String :=
  replaceInName ("_".intercalate (args.map Γ.translateText))

/-- The ways in which two structs get one name.  Classes of one name are declared in two scopes, or
are instances of one class template, a method is called like another one or like a class, and
the names that are made of parts can join to one text, or be the name of a declaration. -/
inductive OneName : Insertion D → Insertion D → Prop
  | declared {x y : Insertion D} {name : String} (hx : Γ.declaredName x = some name)
      (hy : Γ.declaredName y = some name) : OneName x y
  | joined {x y : Insertion D} {a b a' b' : QualType D} (hx : parts? x = some (a, b))
      (hy : parts? y = some (a', b')) (hjoined : Γ.joined a b = Γ.joined a' b') : OneName x y
  | tuples {args args' : List (QualType D)} (hjoined : Γ.joinedAll args = Γ.joinedAll args') :
      OneName (.tuple args) (.tuple args')
  | declaredPair {x y : Insertion D} {a b : QualType D}
      (hx : Γ.declaredName x = some ("pair_" ++ Γ.joined a b)) (hy : parts? y = some (a, b)) :
      OneName x y
  | declaredTuple {x : Insertion D} {args : List (QualType D)}
      (hx : Γ.declaredName x = some ("tuple_" ++ Γ.joinedAll args)) : OneName x (.tuple args)
  | symm {x y : Insertion D} (h : OneName x y) : OneName y x

/-- The two have the same base and the same fields. -/
def Alike (x y : Insertion D) : Prop :=
  ∀ s s', (Γ.entry x).struct? = some s → (Γ.entry y).struct? = some s' →
    s.base = s'.base ∧ s.fields = s'.fields

/-- The visit inserts this, be it that it returns later or not. -/
def VisitInserts (cn : String) (decl : Decl D) (x : Insertion D) : Prop :=
  HandedOut Insertion.decl? Γ.inside (Γ.visitMentions cn decl) x

/-- Structs of one name look the same, if one visit inserts them both, or if one of two visits
returns, so that the other can come after it. -/
def Coherent (cn : String) (unit : List (Decl D)) : Prop :=
  ∀ v ∈ unit, ∀ w ∈ unit, v = w ∨ Γ.Ends (Γ.visitMentions cn v) ∨ Γ.Ends (Γ.visitMentions cn w) →
    ∀ x y, Γ.VisitInserts cn v x → Γ.VisitInserts cn w y → Γ.OneName x y → Γ.Alike x y

variable {Γ} {n : ℕ} {cn : String} {unit order : List (Decl D)} {v w : Decl D}
  {x y : Insertion D} {s s' : AbiStruct}

/-! ## The names -/

theorem translateType_pair (a b : QualType D) :
    Γ.translateType (.pair ⟨none, []⟩ a b) = "pair_" ++ Γ.joined a b := by
  have hpair : replaceInName "pair_" = "pair_" := by decide
  rw [translateType, joined, String.append_assoc, String.append_assoc, replaceInName_append, hpair,
    String.append_assoc]

theorem keyValueName_joined (k v : QualType D) :
    Γ.keyValueName k v = "pair_" ++ Γ.joined k v :=
  (keyValueName_eq ⟨none, []⟩ k v).trans (translateType_pair k v)

theorem translateType_tuple (args : List (QualType D)) :
    Γ.translateType (.tuple ⟨none, []⟩ args) = "tuple_" ++ Γ.joinedAll args := by
  have htuple : replaceInName "tuple_" = "tuple_" := by decide
  rw [translateType, joinedAll, replaceInName_append, htuple]

/-- The name of the struct, by how it is made. -/
theorem name_of_declaredName {name : String} (h : Γ.declaredName x = some name) :
    ∃ s, (Γ.entry x).struct? = some s ∧ s.name = name := by
  cases x <;> cases h <;> exact ⟨_, rfl, rfl⟩

theorem name_of_parts {a b : QualType D} (h : parts? x = some (a, b)) :
    ∃ s, (Γ.entry x).struct? = some s ∧ s.name = "pair_" ++ Γ.joined a b := by
  cases x with
  | pair a b =>
      cases h
      exact ⟨_, rfl, translateType_pair a b⟩
  | keyValue k v =>
      cases h
      exact ⟨_, rfl, keyValueName_joined _ _⟩
  | _ => cases h

theorem name_of_tuple (args : List (QualType D)) :
    ∃ s, (Γ.entry (.tuple args)).struct? = some s ∧ s.name = "tuple_" ++ Γ.joinedAll args :=
  ⟨_, rfl, translateType_tuple args⟩

/-- What is inserted as a struct has a declared name or one made of its parts. -/
theorem struct_cases (h : (Γ.entry x).struct? = some s) :
    Γ.declaredName x = some s.name ∨
      (∃ a b, parts? x = some (a, b) ∧ s.name = "pair_" ++ Γ.joined a b) ∨
      ∃ args, x = .tuple args ∧ s.name = "tuple_" ++ Γ.joinedAll args := by
  cases x with
  | extension | struct | params =>
      cases h
      exact .inl rfl
  | pair a b =>
      cases h
      exact .inr (.inl ⟨a, b, rfl, translateType_pair a b⟩)
  | keyValue k v =>
      obtain rfl := Option.some.inj h
      exact .inr (.inl ⟨k, v, rfl, keyValueName_joined k v⟩)
  | tuple args =>
      cases h
      exact .inr (.inr ⟨args, rfl, translateType_tuple args⟩)
  | typedef | action | table => cases h

theorem pair_ne_tuple (m m' : String) : "pair_" ++ m ≠ "tuple_" ++ m' := by
  intro h
  have hfirst := congrArg (fun n : String => n.toList.head?) h
  simp [String.toList_append] at hfirst

theorem OneName.name_eq (h : Γ.OneName x y) :
    ∀ s s', (Γ.entry x).struct? = some s → (Γ.entry y).struct? = some s' → s.name = s'.name := by
  have hsame : ∀ {x y : Insertion D} {name : String},
      (∃ s, (Γ.entry x).struct? = some s ∧ s.name = name) →
      (∃ s, (Γ.entry y).struct? = some s ∧ s.name = name) →
      ∀ s s', (Γ.entry x).struct? = some s → (Γ.entry y).struct? = some s' → s.name = s'.name := by
    rintro x y _ ⟨t, ht, rfl⟩ ⟨t', ht', hname⟩ s s' hs hs'
    cases ht.symm.trans hs
    cases ht'.symm.trans hs'
    exact hname.symm
  induction h with
  | declared hx hy => exact hsame (name_of_declaredName hx) (name_of_declaredName hy)
  | joined hx hy hjoined =>
      have hname := name_of_parts (Γ := Γ) hy
      rw [← hjoined] at hname
      exact hsame (name_of_parts hx) hname
  | @tuples args args' hjoined =>
      have hname := name_of_tuple (Γ := Γ) args'
      rw [← hjoined] at hname
      exact hsame (name_of_tuple args) hname
  | declaredPair hx hy => exact hsame (name_of_declaredName hx) (name_of_parts hy)
  | declaredTuple hx => exact hsame (name_of_declaredName hx) (name_of_tuple _)
  | symm _ ih =>
      intro s s' hs hs'
      exact (ih s' s hs' hs).symm

/-- There are no other ways to one name. -/
theorem oneName_of_name_eq (hx : (Γ.entry x).struct? = some s)
    (hy : (Γ.entry y).struct? = some s') (hname : s.name = s'.name) : Γ.OneName x y := by
  rcases struct_cases hx with hx | ⟨a, b, hx, hxname⟩ | ⟨args, rfl, hxname⟩
  · rcases struct_cases hy with hy | ⟨a, b, hy, hyname⟩ | ⟨args, rfl, hyname⟩
    · rw [← hname] at hy
      exact .declared hx hy
    · rw [hname, hyname] at hx
      exact .declaredPair hx hy
    · rw [hname, hyname] at hx
      exact .declaredTuple hx
  · rcases struct_cases hy with hy | ⟨a', b', hy, hyname⟩ | ⟨args, rfl, hyname⟩
    · rw [← hname, hxname] at hy
      exact .symm (.declaredPair hy hx)
    · rw [hxname, hyname] at hname
      exact .joined hx hy ((String.append_right_inj _).mp hname)
    · rw [hxname, hyname] at hname
      exact absurd hname (pair_ne_tuple _ _)
  · rcases struct_cases hy with hy | ⟨a, b, hy, hyname⟩ | ⟨args', rfl, hyname⟩
    · rw [← hname, hxname] at hy
      exact .symm (.declaredTuple hy)
    · rw [hxname, hyname] at hname
      exact absurd hname.symm (pair_ne_tuple _ _)
    · rw [hxname, hyname] at hname
      exact .tuples ((String.append_right_inj _).mp hname)

/-! ## What comes together -/

theorem visit_extends {m : ℕ} (hle : n ≤ m) (v : Decl D) :
    (Γ.visit n cn v).Extends (Γ.visit m cn v) := by
  rw [visit_eq, visit_eq]
  exact expand_extends (unfold_extends hle)

theorem exists_visit_returns_iff :
    (∃ n, (Γ.visit n cn v).Returns) ↔ Γ.Ends (Γ.visitMentions cn v) := by
  simp only [visit_eq]
  exact exists_walk_returns_iff

theorem visitInserts_iff : Γ.VisitInserts cn v x ↔ ∃ n, x ∈ (Γ.visit n cn v).items := by
  simp only [visit_eq]
  exact handedOut_iff

/-- Two insertions of one run come from one visit, or the visit of the earlier one returns. -/
theorem exists_visits_of_mem (hperm : order.Perm unit) (hx : x ∈ (Γ.collect n cn order).items)
    (hy : y ∈ (Γ.collect n cn order).items) : ∃ v ∈ unit, ∃ w ∈ unit,
      (v = w ∨ Γ.Ends (Γ.visitMentions cn v) ∨ Γ.Ends (Γ.visitMentions cn w)) ∧
        Γ.VisitInserts cn v x ∧ Γ.VisitInserts cn w y := by
  obtain ⟨front, v, back, horder, hfront, hx⟩ := Walk.mem_items_inOrder.mp hx
  obtain ⟨front', w, back', horder', hfront', hy⟩ := Walk.mem_items_inOrder.mp hy
  have hv : v ∈ unit := hperm.mem_iff.mp (by simp [horder])
  have hw : w ∈ unit := hperm.mem_iff.mp (by simp [horder'])
  refine ⟨v, hv, w, hw, ?_, visitInserts_iff.mpr ⟨n, hx⟩, visitInserts_iff.mpr ⟨n, hy⟩⟩
  rcases List.append_eq_append_iff.mp (horder.symm.trans horder') with
    ⟨between, rfl, hback⟩ | ⟨between, rfl, hback⟩
  · cases between with
    | nil => exact .inl (List.cons.inj hback).1
    | cons u between =>
        obtain ⟨rfl, -⟩ := List.cons.inj hback
        exact .inr (.inl (exists_visit_returns_iff.mp ⟨n, hfront' v (by simp)⟩))
  · cases between with
    | nil => exact .inl (List.cons.inj hback).1.symm
    | cons u between =>
        obtain ⟨rfl, -⟩ := List.cons.inj hback
        exact .inr (.inr (exists_visit_returns_iff.mp ⟨n, hfront w (by simp)⟩))

theorem mem_collect_cons {v : Decl D} {rest : List (Decl D)} :
    x ∈ (Γ.collect n cn (v :: rest)).items ↔
      x ∈ (Γ.visit n cn v).items ∨
        (Γ.visit n cn v).Returns ∧ x ∈ (Γ.collect n cn rest).items :=
  Walk.mem_items_andThen

theorem exists_perm_cons {α : Type} {a : α} {as : List α} (ha : a ∈ as) :
    ∃ rest, (a :: rest).Perm as := by
  obtain ⟨front, back, rfl⟩ := List.append_of_mem ha
  exact ⟨front ++ back, List.perm_middle.symm⟩

/-- What one of two visits inserts comes together with what the other one does, if it returns. -/
theorem exists_collect_of_ends (hv : v ∈ unit) (hw : w ∈ unit) (hne : v ≠ w)
    (hends : Γ.Ends (Γ.visitMentions cn v)) (hx : Γ.VisitInserts cn v x)
    (hy : Γ.VisitInserts cn w y) : ∃ order, order.Perm unit ∧ ∃ n,
      x ∈ (Γ.collect n cn order).items ∧ y ∈ (Γ.collect n cn order).items := by
  obtain ⟨rest, hrest⟩ := exists_perm_cons hv
  have hmem : w ∈ rest := by
    have hcons : w ∈ v :: rest := hrest.mem_iff.mpr hw
    exact (List.mem_cons.mp hcons).resolve_left (Ne.symm hne)
  obtain ⟨rest', hrest'⟩ := exists_perm_cons hmem
  obtain ⟨n₁, hx⟩ := visitInserts_iff.mp hx
  obtain ⟨n₂, hy⟩ := visitInserts_iff.mp hy
  obtain ⟨n₃, hreturns⟩ := exists_visit_returns_iff.mpr hends
  have hle₁ : n₁ ≤ max n₁ (max n₂ n₃) := by omega
  have hle₂ : n₂ ≤ max n₁ (max n₂ n₃) := by omega
  have hle₃ : n₃ ≤ max n₁ (max n₂ n₃) := by omega
  refine ⟨v :: w :: rest', (hrest'.cons v).trans hrest, max n₁ (max n₂ n₃), ?_, ?_⟩
  · exact mem_collect_cons.mpr (.inl ((visit_extends hle₁ v).isPrefix.subset hx))
  · refine mem_collect_cons.mpr (.inr ⟨?_, ?_⟩)
    · rwa [(visit_extends hle₃ v).eq_of_returns hreturns]
    · exact mem_collect_cons.mpr (.inl ((visit_extends hle₂ w).isPrefix.subset hy))

theorem exists_collect_of_visits (hv : v ∈ unit) (hw : w ∈ unit)
    (htogether : v = w ∨ Γ.Ends (Γ.visitMentions cn v) ∨ Γ.Ends (Γ.visitMentions cn w))
    (hx : Γ.VisitInserts cn v x) (hy : Γ.VisitInserts cn w y) : ∃ order, order.Perm unit ∧ ∃ n,
      x ∈ (Γ.collect n cn order).items ∧ y ∈ (Γ.collect n cn order).items := by
  by_cases hvw : v = w
  · subst hvw
    obtain ⟨rest, hrest⟩ := exists_perm_cons hv
    obtain ⟨n₁, hx⟩ := visitInserts_iff.mp hx
    obtain ⟨n₂, hy⟩ := visitInserts_iff.mp hy
    refine ⟨v :: rest, hrest, max n₁ n₂, ?_, ?_⟩
    · have hmore := (visit_extends (le_max_left n₁ n₂) v).isPrefix.subset hx
      exact mem_collect_cons.mpr (.inl hmore)
    · have hmore := (visit_extends (le_max_right n₁ n₂) v).isPrefix.subset hy
      exact mem_collect_cons.mpr (.inl hmore)
  · rcases htogether.resolve_left hvw with hends | hends
    · exact exists_collect_of_ends hv hw hvw hends hx hy
    · obtain ⟨order, hperm, n, hy, hx⟩ :=
        exists_collect_of_ends hw hv (Ne.symm hvw) hends hy hx
      exact ⟨order, hperm, n, hx, hy⟩

/-! ## Keeping the structs -/

/-- Structs that one run inserts under one name look the same. -/
theorem Coherent.alike (h : Γ.Coherent cn unit) (hperm : order.Perm unit)
    (hs : s ∈ Γ.structs (Γ.collect n cn order).items)
    (hs' : s' ∈ Γ.structs (Γ.collect n cn order).items) (hname : s.name = s'.name) :
    s.base = s'.base ∧ s.fields = s'.fields := by
  obtain ⟨x, hx, hstruct⟩ := mem_structs_iff.mp hs
  obtain ⟨y, hy, hstruct'⟩ := mem_structs_iff.mp hs'
  obtain ⟨v, hv, w, hw, htogether, hvx, hwy⟩ := exists_visits_of_mem hperm hx hy
  have hone := oneName_of_name_eq hstruct hstruct' hname
  exact h v hv w hw htogether x y hvx hwy hone s s' hstruct hstruct'

/-- What a run that gets through inserts is no matter of the order. -/
theorem mem_collect_of_perm {order' : List (Decl D)} {n' : ℕ} (hperm : order.Perm order')
    (h : (Γ.collect n cn order).Returns) (h' : (Γ.collect n' cn order').Returns)
    (hx : x ∈ (Γ.collect n cn order).items) : x ∈ (Γ.collect n' cn order').items := by
  rw [collect_eq] at h h' hx ⊢
  rw [mem_items_walk_iff h] at hx
  rw [mem_items_walk_iff h']
  refine hx.mono fun z hz => ?_
  obtain ⟨decl, hdecl, hz⟩ := List.mem_flatMap.mp hz
  exact List.mem_flatMap.mpr ⟨decl, hperm.mem_iff.mp hdecl, hz⟩

theorem Coherent.stored_subset (h : Γ.Coherent cn unit) {order' : List (Decl D)} {n' : ℕ}
    (hperm : order.Perm unit) (hperm' : order'.Perm unit)
    (hreturns : (Γ.collect n cn order).Returns) (hreturns' : (Γ.collect n' cn order').Returns)
    (hs : s ∈ (Γ.stored (Γ.collect n cn order).items).elems) :
    s ∈ (Γ.stored (Γ.collect n' cn order').items).elems := by
  have horders := hperm.trans hperm'.symm
  have hmem := mem_structs_of_stored hs
  obtain ⟨x, hx, hstruct⟩ := mem_structs_iff.mp hmem
  have hmem' : s ∈ Γ.structs (Γ.collect n' cn order').items :=
    mem_structs_iff.mpr ⟨x, mem_collect_of_perm horders hreturns hreturns' hx, hstruct⟩
  obtain ⟨s', hs', hname⟩ := exists_stored hmem'
  obtain ⟨hbase, hfields⟩ := h.alike hperm' (mem_structs_of_stored hs') hmem' hname
  obtain rfl : s' = s := by
    cases s'
    cases s
    simp_all
  exact hs'

/-- Every struct is kept exactly when those that can come together under one name look the
same. -/
theorem keeps_iff (Γ : Declarations D) (cn : String) (unit : List (Decl D)) :
    Γ.Keeps cn unit ↔ Γ.Coherent cn unit := by
  constructor
  · intro h v hv w hw htogether x y hx hy hone s s' hstruct hstruct'
    obtain ⟨order, hperm, n, hx, hy⟩ := exists_collect_of_visits hv hw htogether hx hy
    obtain ⟨t, ht, htname, htbase, htfields⟩ := h.kept order hperm n _ (List.prefix_refl _) s
      (mem_structs_iff.mpr ⟨x, hx, hstruct⟩)
    obtain ⟨t', ht', htname', htbase', htfields'⟩ := h.kept order hperm n _ (List.prefix_refl _) s'
      (mem_structs_iff.mpr ⟨y, hy, hstruct'⟩)
    have hsame : t.name = t'.name := by
      rw [htname, htname', hone.name_eq s s' hstruct hstruct']
    obtain rfl := eq_of_mem_stored ht ht' hsame
    exact ⟨htbase.symm.trans htbase', htfields.symm.trans htfields'⟩
  · intro h
    constructor
    · intro order hperm n front hfront s hs
      obtain ⟨s', hs', hname⟩ := exists_stored hs
      have hsub : ∀ s ∈ Γ.structs front, s ∈ Γ.structs (Γ.collect n cn order).items :=
        (hfront.filterMap _).subset
      obtain ⟨hbase, hfields⟩ :=
        h.alike hperm (hsub s' (mem_structs_of_stored hs')) (hsub s hs) hname
      exact ⟨s', hs', hname, hbase, hfields⟩
    · intro order order' hperm hperm' n n' hreturns hreturns' s
      constructor
      · exact h.stored_subset hperm hperm' hreturns hreturns'
      · exact h.stored_subset hperm' hperm hreturns' hreturns

end Declarations

/-! ## Two records of one name -/

/-- `struct item { uint32_t count; }` in one namespace and `struct item { uint32_t price; }` in
another. -/
def itemDeclarations : Declarations Bool where
  name _ := ⟨"item", by decide⟩
  bases _ := []
  fields d := [(if d then "count" else "price", .scalar ⟨none, []⟩ .uint32_t)]
  library _ := none
  library_name := nofun

/-- The action `void put(stock::item x, shop::item y)`. -/
def putMethod : MethodDecl Bool where
  name := "put"
  ftlAction := some ""
  ftlContract := none
  parent := ⟨0, "store", some "store"⟩
  parameters := [("x", .record ⟨none, ["stock"]⟩ true), ("y", .record ⟨none, ["shop"]⟩ false)]
  callable := true

theorem not_forall_keeps : ¬ ∀ (D : Type) (Γ : Declarations D) (cn : String)
    (unit : List (Decl D)), Γ.Keeps cn unit := by
  intro hall
  have hitems : (itemDeclarations.collect 1 "store" [.method putMethod]).items =
      [.struct true "", .struct false ""] ++
        [.params "put" putMethod.parameters, .action ⟨"put", "put"⟩,
          .struct true "", .struct false ""] := rfl
  obtain ⟨s, hs, -, -, hfields⟩ :=
    (hall Bool itemDeclarations "store" [.method putMethod]).kept _ (.refl _) 1
      [.struct true "", .struct false ""] (by rw [hitems]; exact List.prefix_append _ _)
      ⟨"item", "", [⟨"price", "uint32"⟩]⟩ (by decide)
  have hstored : ∀ s ∈ (itemDeclarations.stored [.struct true "", .struct false ""]).elems,
      s.fields = [⟨"count", "uint32"⟩] := by decide
  rw [hstored s hs] at hfields
  exact absurd hfields (by decide)

end FractalCdt.AbiGen
