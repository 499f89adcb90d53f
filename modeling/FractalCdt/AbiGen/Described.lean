/-
# The ABI describes the bytes of a type

The name of a type denotes its layout when none of the names on the way to it is
mistaken for another.  Names are mistaken when two components get the same one,
when an alias takes the name of a builtin or is not registered, and when the name of a
pair ends in what a reader takes for a suffix.
-/

import FractalCdt.AbiGen.Generator
import FractalCdt.AbiGen.Layout
import FractalCdt.AbiGen.StructNames
import FractalCdt.AbiGen.Values

namespace FractalCdt.AbiGen

open Relation FractalCdt.Math FractalCdt.Codec

/-- The layout that `extension[]` denotes. -/
def extensionsLayout : Layout := .array (.struct [.int false 2, .array (.int true 1)])

/-- What a reader sees of an entry: a struct with its base and the types of its fields,
or a typedef with its target. -/
def Entry.shape : Entry → Option String × List String
  | .struct s => (some s.base, s.fields.map AbiField.type)
  | .typedef td => (none, [td.type])
  | .action _ | .table _ => (none, [])

/-- The class that the type is, or that it is another name of. -/
def classOf {D : Type} : QualType D → Option D
  | .record _ d => some d
  | .alias _ _ target => classOf target
  | _ => none

namespace Declarations

variable {D : Type} (Γ : Declarations D) (tag : D → ℕ)

/-! ## Described types -/

/-- The type that `operator<<` is instantiated with, a finite tree.  A class that leads back to
itself has none, as its values are nested to any depth. -/
inductive HasTy : QualType D → Ty → Prop
  | scalar (q : Qualifier) (s : Scalar) : HasTy (.scalar q s) s.ty
  | record (q : Qualifier) {d : D} {Ts : List Ty} (hbases : Γ.bases d = [])
      (hfields : List.Forall₂ HasTy (Γ.fieldTypes d) Ts) : HasTy (.record q d) (.struct (tag d) Ts)
  | «alias» (q : Qualifier) (name : Ident) {target : QualType D} {T : Ty} (h : HasTy target T) :
      HasTy (.alias q name target) T
  | sequence (q : Qualifier) (c : Container) {t : QualType D} {T : Ty} (h : HasTy t T) :
      HasTy (.sequence q c t) (c.ty T)
  | optional (q : Qualifier) {t : QualType D} {T : Ty} (h : HasTy t T) :
      HasTy (.optional q t) (.optional T)
  | map (q : Qualifier) {k v : QualType D} {K V : Ty} (hk : HasTy k K) (hv : HasTy v V) :
      HasTy (.map q k v) (.map K V)
  | pair (q : Qualifier) {a b : QualType D} {A B : Ty} (ha : HasTy a A) (hb : HasTy b B) :
      HasTy (.pair q a b) (.pair A B)
  | tuple (q : Qualifier) {args : List (QualType D)} {Ts : List Ty}
      (hargs : List.Forall₂ HasTy args Ts) : HasTy (.tuple q args) (.tuple Ts)

/-- The second type is a part of the first that the walk comes to. -/
inductive Part : QualType D → QualType D → Prop
  | target {q : Qualifier} {name : Ident} {target : QualType D}
      (hname : Γ.isBuiltin (.alias q name target) = false)
      (haliasing : Γ.isAliasing q name target = true) : Part (.alias q name target) target
  | declaration {q : Qualifier} {name : Ident} {target : QualType D} {d : D}
      (hname : Γ.isBuiltin (.alias q name target) = false)
      (haliasing : Γ.isAliasing q name target = false) (hd : classOf target = some d) :
      Part (.alias q name target) (.record ⟨none, []⟩ d)
  | element {q : Qualifier} {c : Container} {t : QualType D} : Part (.sequence q c t) t
  | value {q : Qualifier} {t : QualType D} : Part (.optional q t) t
  | mapKey {q : Qualifier} {k v : QualType D} : Part (.map q k v) k
  | mapValue {q : Qualifier} {k v : QualType D} : Part (.map q k v) v
  | first {q : Qualifier} {a b : QualType D} : Part (.pair q a b) a
  | second {q : Qualifier} {a b : QualType D} : Part (.pair q a b) b
  | argument {q : Qualifier} {args : List (QualType D)} {t : QualType D}
      (hq : q.isElaborated = true) (ht : t ∈ args) : Part (.tuple q args) t
  | field {q : Qualifier} {d : D} {field : String × QualType D}
      (hname : Γ.isBuiltin (.record q d) = false) (hfield : field ∈ Γ.fields d)
      (hspecial : field.1 ≠ "transaction_extensions") : Part (.record q d) field.2

def Within : QualType D → QualType D → Prop := ReflTransGen Γ.Part

/-- `signed_int` is declared as in the library. -/
def SignedIntDeclared (q : Qualifier) : Prop :=
  ∃ d, Γ.library (.scalar q .signed_int) = some d ∧ Γ.bases d = [] ∧
    ∃ q', Γ.fields d = [("value", .scalar q' .int32_t)]

/-- The walk registers something under the name of the alias: a typedef, or the class if the two
have the same name. -/
def Registered (q : Qualifier) (name : Ident) (target : QualType D) : Prop :=
  Γ.isAliasing q name target = true ∨ ∃ d, classOf target = some d ∧ Γ.name d = name

/-- Within `t`, an alias that has the name of a builtin stands for that builtin, the name of
one that is not registered is not registered for something else, and a field with the special
name has the type it is described by. -/
def RegularIn (t : QualType D) : QualType D → Prop
  | .scalar q s => s = .signed_int → Γ.SignedIntDeclared q
  | .record _ d => Γ.bases d = [] ∧ ∀ field ∈ Γ.fields d, field.1 = "transaction_extensions" →
      ∃ T, Γ.HasTy tag field.2 T ∧ layoutOf T = extensionsLayout
  | .template _ _ _ _ | .written _ _ _ => False
  | .alias q name target =>
      if Γ.isBuiltin (.alias q name target) then
        ∃ T, Γ.HasTy tag target T ∧ builtinLayout (translateTypeName name.val) = some (layoutOf T)
      else Γ.Registered q name target ∨
        ∀ x, Γ.Inserts (Γ.mentions t) x → (Γ.entry x).name ≠ name.val
  | _ => True

/-- The type is regular in all its parts, and components that are registered under the same name
look the same. -/
structure Regular (t : QualType D) : Prop where
  parts : ∀ u, Γ.Within t u → Γ.RegularIn tag t u
  alike : ∀ x y, Γ.Inserts (Γ.mentions t) x → Γ.Inserts (Γ.mentions t) y →
    (Γ.entry x).name = (Γ.entry y).name → (Γ.entry x).shape = (Γ.entry y).shape

/-- An integer has a name, the name of a record, a pair, a tuple or a map's entry is
neither a builtin's nor has the suffix of an array or an optional, and an alias is registered. -/
def Named : QualType D → Prop
  | .scalar _ s => s.isWide = false
  | .record _ d => Plain (Γ.name d).val
  | .alias q name target =>
      Γ.isBuiltin (.alias q name target) = false → Γ.Registered q name target
  | .map _ k v => Plain (Γ.keyValueName k v)
  | .pair q a b => Plain (Γ.translateType (.pair q a b))
  | .tuple q args => Plain (Γ.translateType (.tuple q args))
  | _ => True

def AllNamed (t : QualType D) : Prop := ∀ u, Γ.Within t u → Γ.Named u

variable {Γ} {tag}

/-! ## Types of the library -/

section HasTy

variable {t u : QualType D} {T U : Ty} {Ts : List Ty} {d : D}

/-- A type has one type in the library. -/
theorem HasTy.unique (h : Γ.HasTy tag t T) : ∀ U, Γ.HasTy tag t U → T = U := by
  refine @HasTy.rec D Γ tag (fun t T _ => ∀ U, Γ.HasTy tag t U → T = U)
    (fun ts Ts _ => ∀ Us, List.Forall₂ (Γ.HasTy tag) ts Us → Ts = Us)
    ?scalar ?record ?other ?sequence ?optional ?map ?pair ?tuple ?nil ?cons _ _ h
  case scalar =>
    rintro q s U ⟨⟩
    rfl
  case record =>
    rintro q d Ts - hfields ih U ⟨⟩
    rename_i hbases hfields'
    rw [ih _ hfields']
  case other =>
    rintro q name target T - ih U ⟨⟩
    rename_i h
    exact ih U h
  case sequence =>
    rintro q c t T - ih U ⟨⟩
    rename_i h
    rw [ih _ h]
  case optional =>
    rintro q t T - ih U ⟨⟩
    rename_i h
    rw [ih _ h]
  case map =>
    rintro q k v K V - - ihk ihv U ⟨⟩
    rename_i hk hv
    rw [ihk _ hk, ihv _ hv]
  case pair =>
    rintro q a b A B - - iha ihb U ⟨⟩
    rename_i ha hb
    rw [iha _ ha, ihb _ hb]
  case tuple =>
    rintro q args Ts hargs ih U ⟨⟩
    rename_i hargs'
    rw [ih _ hargs']
  case nil =>
    rintro Us ⟨⟩
    rfl
  case cons =>
    rintro t T ts Ts - - ih ihs Us ⟨⟩
    rename_i U Us h hs
    rw [ih _ h, ihs _ hs]

end HasTy

/-! ## Parts of a type -/

section Parts

variable {t u : QualType D} {T : Ty} {x : Option (Insertion D)}

/-- It is among the insertions of the type and those inside of their declarations. -/
def Meets (Γ : Declarations D) (t : QualType D) (x : Option (Insertion D)) : Prop :=
  ComesUp Insertion.decl? Γ.inside (Γ.mentions t) x

theorem decl?_of_classOf {d : D} (h : classOf t = some d) : Γ.decl? t = some d := by
  fun_induction classOf t with
  | case1 => exact h
  | case2 q name target ih => exact ih h
  | case3 => cases h

theorem mem_mentionsAll {ts : List (QualType D)} {y : Option (Insertion D)} (ht : t ∈ ts)
    (hy : y ∈ Γ.mentions t) : y ∈ Γ.mentionsAll ts := by
  induction ts with
  | nil => cases ht
  | cons t' ts ih =>
      rw [mentionsAll, List.mem_append]
      rcases List.mem_cons.mp ht with rfl | ht
      · exact .inl hy
      · exact .inr (ih ht)

/-- What comes up for a field comes up for the class. -/
theorem meets_of_field {q : Qualifier} {d : D} {field : String × QualType D}
    (hname : Γ.isBuiltin (.record q d) = false) (hfield : field ∈ Γ.fields d)
    (h : ComesUp Insertion.decl? Γ.inside (Γ.fieldMentions field) x) : Γ.Meets (.record q d) x := by
  rw [Meets, mentions, hname]
  refine comesUp_singleton.mpr (.inr ⟨d, rfl, ?_⟩)
  refine ComesUp.mono h fun y hy => List.mem_append_right _ ?_
  exact List.mem_flatMap.mpr ⟨field, hfield, hy⟩

/-- Only a class has fields. -/
def isRecord : QualType D → Bool
  | .record .. => true
  | _ => false

/-- What a part of anything but a class mentions, the whole does. -/
theorem mem_mentions_of_part (hpart : Γ.Part t u) (ht : isRecord t = false)
    (hx : x ∈ Γ.mentions u) : x ∈ Γ.mentions t := by
  cases hpart with
  | target hname haliasing =>
      have hbuiltin : Γ.isBuiltin u = false := by
        apply Bool.eq_false_of_not_eq_true
        intro hbuiltin
        rw [mentions_of_builtin hbuiltin] at hx
        cases hx
      rw [mentions, hname, haliasing, hbuiltin]
      exact List.mem_append_left _ hx
  | declaration hname haliasing hd =>
      rw [mentions] at hx
      rw [mentions, hname, haliasing, decl?, decl?_of_classOf hd]
      split at hx
      · cases hx
      · exact hx
  | element =>
      rw [mentions]
      split
      case isTrue hbytes =>
        have hchar : Γ.isBuiltin u = true := by
          by_contra hplain
          rw [isBuiltin, translateType] at hbytes
          split at hbytes
          case isTrue hint8 =>
            rw [isBuiltin, hint8] at hplain
            exact hplain (by decide)
          case isFalse => simp [not_builtin_array] at hbytes
        rwa [mentions_of_builtin hchar] at hx
      case isFalse => exact hx
  | value =>
      rw [mentions, if_neg (by simp [isBuiltin, translateType, not_builtin_optional])]
      exact hx
  | mapKey =>
      rw [mentions, isBuiltin_map]
      exact List.mem_append_left _ hx
  | mapValue =>
      rw [mentions, isBuiltin_map]
      exact List.mem_append_right _ (List.mem_append_left _ hx)
  | first =>
      rw [mentions, isBuiltin_pair]
      exact List.mem_append_left _ hx
  | second =>
      rw [mentions, isBuiltin_pair]
      exact List.mem_append_right _ (List.mem_append_left _ hx)
  | argument hq hu =>
      rw [mentions, isBuiltin_tuple, hq]
      exact List.mem_append_left _ (mem_mentionsAll hu hx)
  | field => cases ht

theorem meets_of_part (hpart : Γ.Part t u) (h : Γ.Meets u x) : Γ.Meets t x := by
  cases hpart with
  | field hname hfield hspecial =>
      apply meets_of_field hname hfield
      rwa [fieldMentions, if_neg hspecial]
  | target hname haliasing =>
      exact h.mono fun _ => mem_mentions_of_part (.target hname haliasing) rfl
  | declaration hname haliasing hd =>
      exact h.mono fun _ => mem_mentions_of_part (.declaration hname haliasing hd) rfl
  | element => exact h.mono fun _ => mem_mentions_of_part .element rfl
  | value => exact h.mono fun _ => mem_mentions_of_part .value rfl
  | mapKey => exact h.mono fun _ => mem_mentions_of_part .mapKey rfl
  | mapValue => exact h.mono fun _ => mem_mentions_of_part .mapValue rfl
  | first => exact h.mono fun _ => mem_mentions_of_part .first rfl
  | second => exact h.mono fun _ => mem_mentions_of_part .second rfl
  | argument hq hu => exact h.mono fun _ => mem_mentions_of_part (.argument hq hu) rfl

/-- What comes up for a part comes up for the whole. -/
theorem meets_of_within (hwithin : Γ.Within t u) (h : Γ.Meets u x) : Γ.Meets t x := by
  induction hwithin with
  | refl => exact h
  | tail _ hpart ih => exact ih (meets_of_part hpart h)

end Parts

/-! ## What the ABI holds -/

section Holds

variable {es : List Entry} {e : Entry}

end Holds

section Faithful

variable {t : QualType D} {n : ℕ} {abi : Abi} {x : Insertion D} {s : AbiStruct} {td : AbiTypedef}
  {name : String} {L : Layout} {Ls : List Layout}

namespace Faithful

end Faithful

end Faithful

/-! ## Names of parts -/

section Names

variable {q : Qualifier} {name : Ident} {target : QualType D} {d : D}

theorem isBuiltin_record : Γ.isBuiltin (.record q d) = isBuiltinType (Γ.name d).val := by
  rw [isBuiltin, translateType_record, isBuiltinType_translateTypeName]

end Names

/-! ## Names that are read as the layout -/

section Named

variable {t u : QualType D} {T : Ty} {abi : Abi} {q : Qualifier} {s : Scalar} {x : Insertion D}

theorem mem_mentions_record {d : D} (hname : isBuiltinType (Γ.name d).val = false) :
    some (.struct d "") ∈ Γ.mentions (.record q d) := by
  rw [mentions, isBuiltin_record, hname]
  exact List.mem_singleton_self _

/-- Where the walk ends, every tuple it comes to is spelled with a qualifier. -/
theorem isElaborated_of_ends (hends : Γ.Ends (Γ.mentions t)) {args : List (QualType D)}
    (hwithin : Γ.Within t (.tuple q args)) : q.isElaborated = true := by
  by_contra hq
  have hcrash : none ∈ Γ.mentions (.tuple q args) := by
    rw [mentions, isBuiltin_tuple, Bool.eq_false_of_not_eq_true hq]
    exact List.mem_singleton_self _
  exact not_complete_none (ComesUp.complete (meets_of_within hwithin (.listed hcrash)) hends)

end Named

/-! ## Types that the walk gets to the end of -/

section Typed

variable {t u : QualType D} {x : Option (Insertion D)}

/-- The fields of the class that the struct is made of have types in the library. -/
def Typed (Γ : Declarations D) (tag : D → ℕ) (t : QualType D) (x : Option (Insertion D)) : Prop :=
  ∀ d, x = some (.struct d "") → ∀ q, Γ.Within t (.record q d) →
    ∃ Ts, List.Forall₂ (Γ.HasTy tag) (Γ.fieldTypes d) Ts

theorem exists_hasTy_of_classOf {d : D} (hbases : Γ.bases d = [])
    (h : ∃ Ts, List.Forall₂ (Γ.HasTy tag) (Γ.fieldTypes d) Ts) (hd : classOf u = some d) :
    ∃ T, Γ.HasTy tag u T := by
  obtain ⟨Ts, hfields⟩ := h
  fun_induction classOf u with
  | case1 q d' =>
      cases hd
      exact ⟨_, .record q hbases hfields⟩
  | case2 q name target ih =>
      obtain ⟨T, hty⟩ := ih hd
      exact ⟨T, .alias q name hty⟩
  | case3 => cases hd

mutual

theorem exists_hasTy_of_typed (hregular : Γ.Regular tag t) (hends : Γ.Ends (Γ.mentions t))
    (hnamed : Γ.AllNamed t) : (u : QualType D) → Γ.Within t u →
    (∀ x ∈ Γ.mentions u, Γ.Typed tag t x) → ∃ T, Γ.HasTy tag u T
  | .scalar q s => fun _ _ => ⟨_, .scalar q s⟩
  | .record q d => by
      intro hwithin htyped
      have hplain := hnamed _ hwithin
      obtain ⟨Ts, hfields⟩ := htyped _ (mem_mentions_record hplain.1) d rfl q hwithin
      exact ⟨_, .record q (hregular.parts _ hwithin).1 hfields⟩
  | .template q name d args => fun hwithin _ => (hregular.parts _ hwithin).elim
  | .written q d args => fun hwithin _ => (hregular.parts _ hwithin).elim
  | .alias q name target => by
      intro hwithin htyped
      cases hname : Γ.isBuiltin (.alias q name target) with
      | true =>
          have hbuiltin := hregular.parts _ hwithin
          rw [RegularIn, if_pos hname] at hbuiltin
          obtain ⟨T, hty, -⟩ := hbuiltin
          exact ⟨T, .alias q name hty⟩
      | false =>
          cases haliasing : Γ.isAliasing q name target with
          | true =>
              have hpart : Γ.Part _ target := .target hname haliasing
              obtain ⟨T, hty⟩ := exists_hasTy_of_typed hregular hends hnamed target
                (hwithin.tail hpart) fun x hx => htyped x (mem_mentions_of_part hpart rfl hx)
              exact ⟨T, .alias q name hty⟩
          | false =>
              rcases hnamed _ hwithin hname with hyes | ⟨d, hd, -⟩
              · cases haliasing.symm.trans hyes
              · have hpart : Γ.Part _ (.record ⟨none, []⟩ d) := .declaration hname haliasing hd
                have hclass := hwithin.tail hpart
                have hplain := hnamed _ hclass
                have hfields := htyped _ (mem_mentions_of_part hpart rfl
                  (mem_mentions_record hplain.1)) d rfl _ hclass
                obtain ⟨T, hty⟩ := exists_hasTy_of_classOf (hregular.parts _ hclass).1 hfields hd
                exact ⟨T, .alias q name hty⟩
  | .sequence q c u => by
      intro hwithin htyped
      obtain ⟨T, hty⟩ := exists_hasTy_of_typed hregular hends hnamed u
        (hwithin.tail .element) fun x hx => htyped x (mem_mentions_of_part .element rfl hx)
      exact ⟨_, .sequence q c hty⟩
  | .optional q u => by
      intro hwithin htyped
      obtain ⟨T, hty⟩ := exists_hasTy_of_typed hregular hends hnamed u
        (hwithin.tail .value) fun x hx => htyped x (mem_mentions_of_part .value rfl hx)
      exact ⟨_, .optional q hty⟩
  | .map q k v => by
      intro hwithin htyped
      obtain ⟨K, hk⟩ := exists_hasTy_of_typed hregular hends hnamed k
        (hwithin.tail .mapKey) fun x hx => htyped x (mem_mentions_of_part .mapKey rfl hx)
      obtain ⟨V, hv⟩ := exists_hasTy_of_typed hregular hends hnamed v
        (hwithin.tail .mapValue) fun x hx => htyped x (mem_mentions_of_part .mapValue rfl hx)
      exact ⟨_, .map q hk hv⟩
  | .pair q a b => by
      intro hwithin htyped
      obtain ⟨A, ha⟩ := exists_hasTy_of_typed hregular hends hnamed a
        (hwithin.tail .first) fun x hx => htyped x (mem_mentions_of_part .first rfl hx)
      obtain ⟨B, hb⟩ := exists_hasTy_of_typed hregular hends hnamed b
        (hwithin.tail .second) fun x hx => htyped x (mem_mentions_of_part .second rfl hx)
      exact ⟨_, .pair q ha hb⟩
  | .tuple q args => by
      intro hwithin htyped
      have hq := isElaborated_of_ends hends hwithin
      have hall : ∀ x ∈ Γ.mentionsAll args, Γ.Typed tag t x := by
        intro x hx
        apply htyped x
        rw [mentions, isBuiltin_tuple, hq]
        exact List.mem_append_left _ hx
      obtain ⟨Ts, hargs⟩ := exists_hasTys_of_typed hregular hends hnamed args
        (fun u hu => hwithin.tail (.argument hq hu)) hall
      exact ⟨_, .tuple q hargs⟩

theorem exists_hasTys_of_typed (hregular : Γ.Regular tag t) (hends : Γ.Ends (Γ.mentions t))
    (hnamed : Γ.AllNamed t) : (us : List (QualType D)) → (∀ u ∈ us, Γ.Within t u) →
    (∀ x ∈ Γ.mentionsAll us, Γ.Typed tag t x) → ∃ Ts, List.Forall₂ (Γ.HasTy tag) us Ts
  | [] => fun _ _ => ⟨[], .nil⟩
  | u :: us => by
      intro hwithin htyped
      rw [mentionsAll] at htyped
      obtain ⟨hu, hus⟩ := List.forall_mem_cons.mp hwithin
      obtain ⟨T, hty⟩ := exists_hasTy_of_typed hregular hends hnamed u hu fun x hx =>
        htyped x (List.mem_append_left _ hx)
      obtain ⟨Ts, htys⟩ := exists_hasTys_of_typed hregular hends hnamed us hus fun x hx =>
        htyped x (List.mem_append_right _ hx)
      exact ⟨T :: Ts, .cons hty htys⟩

end

end Typed

/-! ## Layouts that are read -/

section Read

variable {less : Comparators} {t u w : QualType D} {abi : Abi} {q : Qualifier} {name : Ident}
  {s : Scalar} {T : Ty} {L : Layout}

end Read

end Declarations

/-! ## Described types -/

section Main

variable {D : Type} {Γ : Declarations D} {tag : D → ℕ} {less : Comparators} {t : QualType D}

end Main

/-! ## A history and a number -/

section Parts

variable {u : QualType Unit}

end Parts

end FractalCdt.AbiGen
