/-
# The two names of a struct

`add_type` enters a struct under one name, and the fields of that type carry another
that a reader strips of its suffixes.  `namesAgree_iff` says for which types the reader
finds the struct.
-/

import FractalCdt.AbiGen.Layout
import FractalCdt.AbiGen.Termination
import FractalCdt.Math.Trailing

namespace FractalCdt.AbiGen

open FractalCdt.Math FractalCdt.Codec

/-! ## Suffixes -/

/-- What `remove_suffix` strips. -/
def IsSuffixChar (c : Char) : Prop := c = '[' ∨ c = ']' ∨ c = '?' ∨ c = '$'

instance (c : Char) : Decidable (IsSuffixChar c) := inferInstanceAs (Decidable (_ ∨ _))

/-- What `replace_in_name` makes of a character. -/
def replaced (c : Char) : Char :=
  if c = '<' ∨ c = '>' ∨ c = ',' ∨ c = ' ' ∨ c = ':' then '_' else c

/-- Something is left of the name. -/
def HasStem (n : String) : Prop := ∃ c ∈ n.toList, ¬ IsSuffixChar c

section Suffix

variable {m n : String} {c : Char}

theorem removeSuffix_eq_self_of_getLast? (h : n.toList.getLast? = some c) (hc : ¬ IsSuffixChar c) :
    removeSuffix n = n := by
  rw [removeSuffix_eq_self_iff, h]
  rintro d hd
  cases hd
  exact hc

theorem getLast?_append (hn : n ≠ "") : (m ++ n).toList.getLast? = n.toList.getLast? := by
  have hne : n.toList ≠ [] := by simpa using hn
  rw [String.toList_append, List.getLast?_append, List.getLast?_eq_some_getLast hne]
  rfl

/-- The suffix of a name depends on what it ends in. -/
theorem removeSuffix_append_eq_self_iff (hn : n ≠ "") :
    removeSuffix (m ++ n) = m ++ n ↔ removeSuffix n = n := by
  rw [removeSuffix_eq_self_iff, removeSuffix_eq_self_iff, getLast?_append hn]

/-- After an underscore, the end may be empty. -/
theorem removeSuffix_join_eq_self_iff :
    removeSuffix (m ++ "_" ++ n) = m ++ "_" ++ n ↔ removeSuffix n = n := by
  by_cases hn : n = ""
  · subst hn
    rw [String.append_empty, removeSuffix_append_eq_self_iff (by decide)]
    decide
  · exact removeSuffix_append_eq_self_iff hn

theorem removeSuffix_intercalate {xs : List String} (h : ∀ x ∈ xs, removeSuffix x = x) :
    removeSuffix ("_".intercalate xs) = "_".intercalate xs := by
  induction xs with
  | nil => decide
  | cons x xs ih =>
      cases xs with
      | nil =>
          rw [String.intercalate_singleton]
          exact h x List.mem_cons_self
      | cons y xs =>
          rw [String.intercalate_cons_cons, removeSuffix_join_eq_self_iff]
          exact ih fun z hz => h z (List.mem_cons_of_mem x hz)

theorem removeSuffix_translateTypeName_eq_self_iff :
    removeSuffix (translateTypeName n) = translateTypeName n ↔ removeSuffix n = n := by
  by_cases hbuiltin : isBuiltinType n = true
  · have htranslated : isBuiltinType (translateTypeName n) = true := by
      rw [isBuiltinType_translateTypeName, hbuiltin]
    rw [removeSuffix_of_builtin hbuiltin, removeSuffix_of_builtin htranslated]
    simp
  · rw [translateTypeName_of_not_builtin hbuiltin]

theorem replaceInName_eq : replaceInName n = String.ofList (n.toList.map replaced) := rfl

/-- `replace_in_name` makes no suffix and removes none. -/
theorem isSuffixChar_replaced : IsSuffixChar (replaced c) ↔ IsSuffixChar c := by
  rw [replaced]
  split
  case isTrue h => rcases h with rfl | rfl | rfl | rfl | rfl <;> decide
  case isFalse => rfl

theorem removeSuffix_replaceInName_eq_self_iff :
    removeSuffix (replaceInName n) = replaceInName n ↔ removeSuffix n = n := by
  rw [removeSuffix_eq_self_iff, removeSuffix_eq_self_iff, replaceInName_eq, String.toList_ofList,
    List.getLast?_map]
  cases n.toList.getLast? with
  | none => rfl
  | some c =>
      simp only [Option.map_some, Option.mem_def, Option.some.injEq, forall_eq']
      exact not_congr isSuffixChar_replaced

theorem hasStem_append : HasStem (m ++ n) ↔ HasStem m ∨ HasStem n := by
  simp only [HasStem, String.toList_append, List.mem_append, or_and_right, exists_or]

theorem hasStem_replaceInName : HasStem (replaceInName n) ↔ HasStem n := by
  simp only [HasStem, replaceInName_eq, String.toList_ofList, List.mem_map]
  constructor
  · rintro ⟨_, ⟨c, hc, rfl⟩, hstem⟩
    exact ⟨c, hc, fun h => hstem (isSuffixChar_replaced.mpr h)⟩
  · rintro ⟨c, hc, hstem⟩
    exact ⟨_, ⟨c, hc, rfl⟩, fun h => hstem (isSuffixChar_replaced.mp h)⟩

theorem hasStem_pair : HasStem "pair_" := ⟨'p', by decide, by decide⟩

theorem HasStem.translateTypeName (h : HasStem n) : HasStem (translateTypeName n) := by
  rw [AbiGen.translateTypeName]
  cases hlookup : translationTable.lookup n with
  | none => exact h
  | some r =>
      have hall : ∀ r ∈ translationTable.map Prod.snd,
          r.toList.any fun c => !decide (IsSuffixChar c) := by
        decide
      obtain ⟨c, hc, hstem⟩ := List.any_eq_true.mp
        (hall r (List.mem_map_of_mem (mem_of_lookup hlookup)))
      exact ⟨c, hc, by simpa using hstem⟩

/-- Of an appended name with a stem, something is left. -/
theorem removeSuffix_append_ne (h : HasStem n) : removeSuffix (m ++ n) ≠ m := by
  obtain ⟨c, hc, hstem⟩ := h
  intro heq
  have hlist := congrArg String.toList heq
  rw [removeSuffix, String.toList_ofList, String.toList_append,
    rdropWhile_append ⟨c, hc, decide_eq_false hstem⟩] at hlist
  have hnil := List.append_right_eq_self.mp hlist
  exact hstem (of_decide_eq_true (List.rdropWhile_eq_nil_iff.mp hnil c hc))

theorem removeSuffix_array : removeSuffix (n ++ "[]") = removeSuffix n := by
  have happend : (n ++ "[]").toList = n.toList ++ ['['] ++ [']'] := by simp [String.toList_append]
  rw [removeSuffix, removeSuffix, happend, List.rdropWhile_concat_pos, List.rdropWhile_concat_pos]
  · decide
  · decide

/-- A name is no builtin when it differs from all of them in some respect. -/
theorem not_builtin_of_forall {P : String → Prop}
    (hall : ∀ name ∈ translationTable.map Prod.fst ++ builtins, P name) (hn : ¬ P n) :
    isBuiltinType n = false := by
  apply Bool.eq_false_of_not_eq_true
  intro hbuiltin
  exact hn (hall n (mem_of_builtin hbuiltin))

/-- No builtin ends in an underscore or a bracket. -/
theorem not_builtin_of_getLast? (h : n.toList.getLast? = some c) (hc : c = '_' ∨ c = '>') :
    isBuiltinType n = false := by
  have hall : ∀ name ∈ translationTable.map Prod.fst ++ builtins,
      name.toList.getLast? ≠ some '_' ∧ name.toList.getLast? ≠ some '>' := by decide
  apply not_builtin_of_forall hall
  rintro ⟨hline, hbracket⟩
  rcases hc with rfl | rfl
  · exact hline h
  · exact hbracket h

theorem not_builtin_of_front {front : String}
    (hfront : ∀ name ∈ translationTable.map Prod.fst ++ builtins,
      ¬ front.toList.isPrefixOf name.toList = true) (n : String) :
    isBuiltinType (front ++ n) = false := by
  apply not_builtin_of_forall hfront
  rw [not_not, List.isPrefixOf_iff_prefix, String.toList_append]
  exact List.prefix_append _ n.toList

theorem not_builtin_pair (n : String) : isBuiltinType ("pair_" ++ n) = false :=
  not_builtin_of_front (by decide) n

theorem not_builtin_tuple (n : String) : isBuiltinType ("tuple_" ++ n) = false :=
  not_builtin_of_front (by decide) n

theorem Ident.replaceInName (name : Ident) : replaceInName name.val = name.val := by
  have hsame : ∀ c ∈ name.val.toList, replaced c = c := by
    intro c hc
    have hchar := name.property.2.1 c hc
    rw [replaced, if_neg]
    rintro (rfl | rfl | rfl | rfl | rfl) <;> revert hchar <;> decide
  rw [replaceInName_eq, List.map_congr_left hsame, List.map_id']
  exact String.ofList_toList

theorem Ident.not_isSuffixChar (name : Ident) : ∀ c ∈ name.val.toList, ¬ IsSuffixChar c := by
  intro c hc hsuffix
  have hchar := name.property.2.1 c hc
  rcases hsuffix with rfl | rfl | rfl | rfl <;> revert hchar <;> decide

theorem Ident.removeSuffix_eq_self (name : Ident) : removeSuffix name.val = name.val := by
  rw [removeSuffix_eq_self_iff]
  intro c hc
  exact name.not_isSuffixChar c (List.mem_of_getLast? hc)

theorem Ident.hasStem (name : Ident) : HasStem name.val := by
  obtain ⟨c, hc⟩ := List.exists_mem_of_ne_nil _ name.property.1
  exact ⟨c, hc, name.not_isSuffixChar c hc⟩

end Suffix

/-! ## Where a text ends -/

/-- The scan keeps what it has seen. -/
theorem suffix_of_scanBase {before seen name : List Char} {skip : ℕ} {nested : ℤ}
    (h : scanBase before skip nested seen = some name) : seen <:+ name := by
  fun_induction scanBase before skip nested seen with
  | case1 => cases h
  | case2 c before skip nested seen ih => exact (List.suffix_cons c seen).trans (ih h)
  | case3 => cases h
  | case4 =>
      cases h
      exact List.suffix_refl _
  | case5 c before nested seen _ _ _ _ _ _ ih => exact (List.suffix_cons c seen).trans (ih h)
  | case6 =>
      cases h
      exact List.suffix_refl _
  | case7 c before nested seen _ _ _ _ ih => exact (List.suffix_cons c seen).trans (ih h)

/-- Dropping what qualifies a name does not change its end. -/
theorem getLast?_baseTypeName {text : String} {c : Char} (h : text.toList.getLast? = some c)
    (hspace : c ≠ ' ') (hcolon : c ≠ ':') : (baseTypeName text).toList.getLast? = some c := by
  obtain ⟨front, hfront⟩ := List.getLast?_eq_some_iff.mp h
  have hreverse : text.toList.reverse = c :: front.reverse := by simp [hfront]
  rw [baseTypeName, hreverse, scanBase]
  split
  case h_1 name hname =>
    split at hname
    case isTrue => cases hname
    case isFalse =>
      simp only [hspace, hcolon, false_and, if_false] at hname
      obtain ⟨rest, hrest⟩ := suffix_of_scanBase hname
      rw [String.toList_ofList, ← hrest]
      simp
  case h_2 => exact h

theorem getLast?_templateText (q : Qualifier) (name : String) (args : List String) :
    (templateText q name args).toList.getLast? = some '>' := by
  rw [templateText]
  split
  · exact getLast?_append (by decide)
  · exact getLast?_append (by decide)

/-- The character ends a name, and no suffix. -/
def EndsName (c : Char) : Prop := ¬ IsSuffixChar c ∧ c ≠ ' ' ∧ c ≠ ':'

instance (c : Char) : Decidable (EndsName c) := inferInstanceAs (Decidable (_ ∧ _))

theorem Scalar.exists_getLast? (s : Scalar) :
    ∃ c, s.spelling.toList.getLast? = some c ∧ EndsName c := by
  cases s <;> exact ⟨_, rfl, by decide⟩

theorem Ident.exists_getLast? (name : Ident) :
    ∃ c, name.val.toList.getLast? = some c ∧ EndsName c := by
  have hlast := List.getLast?_eq_some_getLast name.property.1
  have hmem := List.mem_of_getLast? hlast
  obtain ⟨hspace, hcolon, -⟩ := name.isWordChar _ hmem
  exact ⟨_, hlast, name.not_isSuffixChar _ hmem, hspace, hcolon⟩

/-- What a qualified text ends in. -/
theorem exists_getLast?_append {q name : String}
    (h : ∃ c, name.toList.getLast? = some c ∧ EndsName c) :
    ∃ c, (q ++ name).toList.getLast? = some c ∧ EndsName c := by
  obtain ⟨c, hc, hends⟩ := h
  have hne : name ≠ "" := by
    rintro rfl
    cases hc
  exact ⟨c, (getLast?_append hne).trans hc, hends⟩

namespace Declarations

variable {D : Type} (Γ : Declarations D)

/-! ## Names of types -/

theorem exists_getLast?_text (t : QualType D) :
    ∃ c, (Γ.text t).toList.getLast? = some c ∧ EndsName c := by
  have htemplate : ∀ q name args, ∃ c,
      (templateText q name args).toList.getLast? = some c ∧ EndsName c := fun q name args =>
    ⟨'>', getLast?_templateText q name args, by decide⟩
  cases t with
  | scalar q s =>
      rw [text]
      split
      · exact s.exists_getLast?
      · exact exists_getLast?_append s.exists_getLast?
  | record q d =>
      rw [text]
      exact exists_getLast?_append (Γ.name d).exists_getLast?
  | «alias» q name target =>
      rw [text]
      exact exists_getLast?_append name.exists_getLast?
  | _ =>
      rw [text]
      apply htemplate

/-- No spelled name has a suffix. -/
theorem removeSuffix_translateText (t : QualType D) :
    removeSuffix (Γ.translateText t) = Γ.translateText t := by
  obtain ⟨c, hc, hsuffix, hspace, hcolon⟩ := Γ.exists_getLast?_text t
  rw [translateText, removeSuffix_translateTypeName_eq_self_iff]
  exact removeSuffix_eq_self_of_getLast? (getLast?_baseTypeName hc hspace hcolon) hsuffix

theorem hasStem_translateText (t : QualType D) : HasStem (Γ.translateText t) := by
  obtain ⟨c, hc, hsuffix, hspace, hcolon⟩ := Γ.exists_getLast?_text t
  apply HasStem.translateTypeName
  exact ⟨c, List.mem_of_getLast? (getLast?_baseTypeName hc hspace hcolon), hsuffix⟩

theorem hasStem_translateType : (t : QualType D) → HasStem (Γ.translateType t)
  | .scalar q s => Γ.hasStem_translateText (.scalar q s)
  | .record q d => Γ.hasStem_translateText (.record q d)
  | .written q d args => Γ.hasStem_translateText (.written q d args)
  | .alias q name target => Γ.hasStem_translateText (.alias q name target)
  | .template q name d args => by
      rw [translateType]
      apply HasStem.translateTypeName
      rw [hasStem_replaceInName, hasStem_append]
      exact .inl (hasStem_append.mpr (.inl name.val.hasStem))
  | .sequence q c t => by
      rw [translateType]
      split
      · exact ⟨'b', by decide, by decide⟩
      · exact hasStem_append.mpr (.inl (hasStem_translateType t))
  | .optional q t => by
      rw [translateType]
      exact hasStem_append.mpr (.inl (hasStem_translateType t))
  | .map q k v => by
      rw [translateType, hasStem_replaceInName]
      simp [hasStem_append, hasStem_pair]
  | .pair q a b => by
      rw [translateType, hasStem_replaceInName]
      simp [hasStem_append, hasStem_pair]
  | .tuple q args => by
      have htuple : HasStem "tuple_" := ⟨'t', by decide, by decide⟩
      rw [translateType, hasStem_replaceInName]
      exact hasStem_append.mpr (.inl htuple)

mutual

/-- The name of the type ends in a suffix: an optional, a map, a container of anything but bytes,
and what is named after its last part. -/
def endsInSuffix : QualType D → Bool
  | .sequence _ _ t => Γ.translateType t ≠ "int8"
  | .optional _ _ | .map _ _ _ => true
  | .pair _ _ b => endsInSuffix b
  | .template _ _ _ args => lastEndsInSuffix args
  | _ => false

def lastEndsInSuffix : List (QualType D) → Bool
  | [] => false
  | [t] => endsInSuffix t
  | _ :: t :: ts => lastEndsInSuffix (t :: ts)

end

mutual

theorem removeSuffix_translateType_iff : (t : QualType D) →
    (removeSuffix (Γ.translateType t) = Γ.translateType t ↔ Γ.endsInSuffix t = false)
  | .scalar q s => iff_of_true (Γ.removeSuffix_translateText (.scalar q s)) rfl
  | .record q d => iff_of_true (Γ.removeSuffix_translateText (.record q d)) rfl
  | .written q d args => iff_of_true (Γ.removeSuffix_translateText (.written q d args)) rfl
  | .alias q name target => iff_of_true (Γ.removeSuffix_translateText (.alias q name target)) rfl
  | .template q name d args => by
      rw [translateType, endsInSuffix, removeSuffix_translateTypeName_eq_self_iff,
        removeSuffix_replaceInName_eq_self_iff, removeSuffix_join_eq_self_iff]
      exact removeSuffix_translateTypes_iff args
  | .sequence q c t => by
      rw [translateType, endsInSuffix]
      by_cases hbytes : Γ.translateType t = "int8"
      · simp only [hbytes, if_true]
        decide
      · simp [hbytes, removeSuffix_array_ne]
  | .optional q t => by
      rw [translateType, endsInSuffix]
      simp [removeSuffix_optional_ne]
  | .map q k v => by
      rw [translateType, endsInSuffix, removeSuffix_replaceInName_eq_self_iff]
      simp [removeSuffix_array_ne]
  | .pair q a b => by
      rw [translateType, endsInSuffix, removeSuffix_replaceInName_eq_self_iff,
        removeSuffix_join_eq_self_iff]
      exact removeSuffix_translateType_iff b
  | .tuple q args => by
      rw [translateType, removeSuffix_replaceInName_eq_self_iff]
      have hargs : removeSuffix ("_".intercalate (args.map Γ.translateText)) =
          "_".intercalate (args.map Γ.translateText) := by
        apply removeSuffix_intercalate
        intro x hx
        obtain ⟨t, -, rfl⟩ := List.mem_map.mp hx
        exact Γ.removeSuffix_translateText t
      exact iff_of_true (removeSuffix_join_eq_self_iff (m := "tuple").mpr hargs) rfl

theorem removeSuffix_translateTypes_iff : (ts : List (QualType D)) →
    (removeSuffix ("_".intercalate (Γ.translateTypes ts)) = "_".intercalate (Γ.translateTypes ts) ↔
      Γ.lastEndsInSuffix ts = false)
  | [] => iff_of_true (removeSuffix_intercalate nofun) rfl
  | [t] => by
      rw [translateTypes, translateTypes, String.intercalate_singleton, lastEndsInSuffix]
      exact removeSuffix_translateType_iff t
  | t :: u :: ts => by
      rw [translateTypes, translateTypes, String.intercalate_cons_cons, lastEndsInSuffix,
        removeSuffix_join_eq_self_iff]
      exact removeSuffix_translateTypes_iff (u :: ts)

end

/-! ## The struct of a type -/

/-- What a branch of `add_type` inserts for the type itself. -/
def branchStruct : QualType D → Option (Insertion D)
  | .scalar q s => (Γ.library (.scalar q s)).map fun d => .struct d ""
  | .record _ d => some (.struct d "")
  | .template _ name d args => some (.struct d (templateName name args))
  | .written _ d _ => some (.struct d "")
  | .map _ k v => some (.keyValue k v)
  | .pair _ a b => some (.pair a b)
  | .tuple q args => if q.isElaborated then some (.tuple args) else none
  | .alias q name target =>
      if Γ.isAliasing q name target then none else (Γ.decl? target).map fun d => .struct d ""
  | .sequence _ _ _ | .optional _ _ => none

/-- The struct that `add_type` inserts for the type itself, by what it is made of. -/
def own (t : QualType D) : Option (Insertion D) :=
  if Γ.isBuiltin t then none else Γ.branchStruct t

/-- The struct that is registered for the type has the name that is left of the type's. -/
def NamesAgree (t : QualType D) : Prop :=
  ∀ x, Γ.own t = some x → ∀ s, (Γ.entry x).struct? = some s →
    s.name = removeSuffix (Γ.translateType t)

/-- A pair or a map whose second part ends in a suffix, which is lost, an instance of a class
template, which is registered without its arguments, one that comes in for a template
parameter, which is registered as a class, and an alias whose class is registered under the
class's own name. -/
def Misnamed : QualType D → Prop
  | .pair _ _ b => Γ.endsInSuffix b = true
  | .map _ _ v => Γ.endsInSuffix v = true
  | .template q name d args => args ≠ [] ∧ Γ.isBuiltin (.template q name d args) = false
  | .written _ _ _ => True
  | .alias q name target =>
      Γ.isBuiltin (.alias q name target) = false ∧ Γ.isAliasing q name target = false ∧
        ∃ d ∈ Γ.decl? target, (Γ.name d).val ≠ name.val
  | _ => False

variable {Γ} {t : QualType D} {x : Insertion D} {s : AbiStruct} {n : ℕ}

/-- What is called the struct of the type is what the walk inserts last. -/
theorem exists_mentions_eq (hx : Γ.own t = some x) :
    ∃ front, Γ.mentions t = front ++ [some x] := by
  have hrecord : ∀ d?, (d? : Option D).map (fun d => Insertion.struct d "") = some x →
      structsOf d? = [] ++ [some x] := by
    intro d? hd
    obtain ⟨d, rfl, rfl⟩ := Option.map_eq_some_iff.mp hd
    rfl
  rw [own] at hx
  split at hx
  case isTrue => cases hx
  case isFalse hbuiltin =>
    cases t with
    | scalar q s =>
        rw [mentions, if_neg hbuiltin]
        exact ⟨[], hrecord (Γ.library (.scalar q s)) hx⟩
    | «alias» q name target =>
        rw [mentions, if_neg hbuiltin]
        rw [branchStruct] at hx
        split at hx
        case isTrue => cases hx
        case isFalse haliasing =>
          rw [if_neg haliasing]
          exact ⟨[], hrecord (Γ.decl? target) hx⟩
    | sequence | optional => cases hx
    | map q k v =>
        cases hx
        rw [mentions, if_neg hbuiltin]
        simp only [← List.append_assoc]
        exact ⟨_, rfl⟩
    | pair q a b =>
        cases hx
        rw [mentions, if_neg hbuiltin]
        simp only [← List.append_assoc]
        exact ⟨_, rfl⟩
    | tuple q args =>
        obtain ⟨hq, hx⟩ := Option.ite_none_right_eq_some.mp hx
        cases hx
        rw [mentions, if_neg hbuiltin, if_pos hq]
        exact ⟨_, rfl⟩
    | record | template | written =>
        cases hx
        rw [mentions, if_neg hbuiltin]
        exact ⟨[], rfl⟩

theorem namesAgree_of_own (hx : Γ.own t = some x) (hs : (Γ.entry x).struct? = some s) :
    Γ.NamesAgree t ↔ s.name = removeSuffix (Γ.translateType t) := by
  constructor
  · intro h
    exact h x hx s hs
  · intro h x' hx' s' hs'
    obtain rfl := Option.some.inj (hx.symm.trans hx')
    obtain rfl := Option.some.inj (hs.symm.trans hs')
    exact h

theorem namesAgree_of_builtin (h : Γ.isBuiltin t = true) : Γ.NamesAgree t := by
  intro x hx
  rw [own, if_pos h] at hx
  cases hx

/-! ## Names of structs -/

/-- Nothing is appended for the arguments. -/
theorem templateName_eq (name : TemplateName) (args : List (QualType D)) :
    templateName name args = name.val.val ++ "_" := by
  have hjoin : String.join (args.map templateArgument) = "" := by
    rw [← String.toList_inj, String.toList_join]
    simp [templateArgument]
  have hlast : (name.val.val ++ "_").toList.getLast? = some '_' := getLast?_append (by decide)
  have hbuiltin := not_builtin_of_getLast? hlast (.inl rfl)
  have hsame : replaceInName (name.val.val ++ "_") = name.val.val ++ "_" := by
    rw [replaceInName_append, name.val.replaceInName]
    rfl
  rw [templateName, hjoin, String.append_empty, hsame,
    translateTypeName_of_not_builtin (by simp [hbuiltin])]

theorem translateType_template (q : Qualifier) (name : TemplateName) (d : D)
    (args : List (QualType D)) :
    Γ.translateType (.template q name d args) = translateTypeName (name.val.val ++ "_" ++
      replaceInName ("_".intercalate (Γ.translateTypes args))) := by
  have hline : replaceInName "_" = "_" := by decide
  rw [translateType, replaceInName_append, replaceInName_append, name.val.replaceInName, hline]

theorem isBuiltin_pair (q : Qualifier) (a b : QualType D) : Γ.isBuiltin (.pair q a b) = false := by
  have hpair : replaceInName "pair_" = "pair_" := by decide
  rw [isBuiltin, translateType, replaceInName_append, replaceInName_append, replaceInName_append,
    hpair, String.append_assoc, String.append_assoc]
  exact not_builtin_pair _

theorem isBuiltin_map (q : Qualifier) (k v : QualType D) : Γ.isBuiltin (.map q k v) = false := by
  rw [isBuiltin, translateType_map]
  exact not_builtin_array _

theorem isBuiltin_tuple (q : Qualifier) (args : List (QualType D)) :
    Γ.isBuiltin (.tuple q args) = false := by
  have htuple : replaceInName "tuple_" = "tuple_" := by decide
  rw [isBuiltin, translateType, replaceInName_append, htuple]
  exact not_builtin_tuple _

theorem getLast?_translateText_written (q : Qualifier) (d : D) (args : List (QualType D)) :
    (Γ.translateText (.written q d args)).toList.getLast? = some '>' := by
  have hbase : (baseTypeName (Γ.text (.written q d args))).toList.getLast? = some '>' := by
    rw [text]
    exact getLast?_baseTypeName (getLast?_templateText _ _ _) (by decide) (by decide)
  have hbuiltin := not_builtin_of_getLast? hbase (.inr rfl)
  rw [translateText, translateTypeName_of_not_builtin (by simp [hbuiltin])]
  exact hbase

/-! ## Agreement -/

theorem hasStem_intercalate {ts : List (QualType D)} (h : ts ≠ []) :
    HasStem ("_".intercalate (Γ.translateTypes ts)) := by
  match ts with
  | [] => exact absurd rfl h
  | [t] =>
      rw [translateTypes, translateTypes, String.intercalate_singleton]
      exact Γ.hasStem_translateType t
  | t :: u :: ts =>
      rw [translateTypes, translateTypes, String.intercalate_cons_cons, hasStem_append,
        hasStem_append]
      exact .inl (.inl (Γ.hasStem_translateType t))

theorem namesAgree_scalar (q : Qualifier) (s : Scalar) : Γ.NamesAgree (.scalar q s) := by
  by_cases hbuiltin : Γ.isBuiltin (.scalar q s) = true
  · exact namesAgree_of_builtin hbuiltin
  · intro x hx s' hs'
    rw [own, if_neg hbuiltin] at hx
    obtain ⟨d, hd, rfl⟩ := Option.map_eq_some_iff.mp hx
    cases hs'
    have hstring : s ≠ .string := by
      rintro rfl
      apply hbuiltin
      rw [isBuiltin, translateType_scalar]
      decide
    have hname : ¬ isBuiltinType s.spelling = true := by
      rwa [isBuiltin, translateType_scalar, isBuiltinType_translateTypeName] at hbuiltin
    obtain ⟨c, hc, hends⟩ := s.exists_getLast?
    rw [translateType_scalar, translateTypeName_of_not_builtin hname,
      removeSuffix_eq_self_of_getLast? hc hends.1]
    exact Γ.library_name q s d hd hstring

theorem namesAgree_record (q : Qualifier) (d : D) : Γ.NamesAgree (.record q d) := by
  by_cases hbuiltin : Γ.isBuiltin (.record q d) = true
  · exact namesAgree_of_builtin hbuiltin
  · have hown : Γ.own (.record q d) = some (.struct d "") := by rw [own, if_neg hbuiltin]; rfl
    rw [namesAgree_of_own hown rfl]
    have htext : Γ.translateType (.record q d) = translateTypeName (Γ.name d).val := by
      show translateTypeName (baseTypeName _) = _
      rw [text, baseTypeName_qualified q (Γ.name d).isWordChar]
    have hname : ¬ isBuiltinType (Γ.name d).val = true := by
      rwa [isBuiltin, htext, isBuiltinType_translateTypeName] at hbuiltin
    rw [htext, translateTypeName_of_not_builtin hname]
    exact (Γ.name d).removeSuffix_eq_self.symm

/-- An instance is registered without its arguments. -/
theorem namesAgree_template_iff (q : Qualifier) (name : TemplateName) (d : D)
    (args : List (QualType D)) : Γ.NamesAgree (.template q name d args) ↔
      ¬ Γ.Misnamed (.template q name d args) := by
  by_cases hbuiltin : Γ.isBuiltin (.template q name d args) = true
  · apply iff_of_true (namesAgree_of_builtin hbuiltin)
    rintro ⟨-, hno⟩
    rw [hbuiltin] at hno
    cases hno
  · have hown : Γ.own (.template q name d args) = some (.struct d (name.val.val ++ "_")) := by
      rw [own, if_neg hbuiltin, branchStruct, templateName_eq]
    have hstruct : (Γ.entry (.struct d (name.val.val ++ "_"))).struct? =
        some ⟨name.val.val ++ "_", Γ.baseName d, Γ.abiFields d⟩ := by
      rw [entry, structOf, if_neg (by simp), Entry.struct?]
    have hraw : ¬ isBuiltinType (name.val.val ++ "_" ++
        replaceInName ("_".intercalate (Γ.translateTypes args))) = true := by
      rwa [isBuiltin, translateType_template, isBuiltinType_translateTypeName] at hbuiltin
    rw [namesAgree_of_own hown hstruct, translateType_template,
      translateTypeName_of_not_builtin hraw]
    by_cases hargs : args = []
    · subst hargs
      apply iff_of_true
      · have hempty : replaceInName ("_".intercalate (Γ.translateTypes [])) = "" := rfl
        rw [hempty, String.append_empty]
        exact (removeSuffix_eq_self_of_getLast? (getLast?_append (by decide)) (by decide)).symm
      · intro h
        exact h.1 rfl
    · apply iff_of_false
      · intro h
        exact removeSuffix_append_ne (hasStem_replaceInName.mpr (hasStem_intercalate hargs)) h.symm
      · intro h
        exact h ⟨hargs, Bool.eq_false_of_not_eq_true hbuiltin⟩

theorem not_namesAgree_written (q : Qualifier) (d : D) (args : List (QualType D)) :
    ¬ Γ.NamesAgree (.written q d args) := by
  have hlast : (Γ.translateType (.written q d args)).toList.getLast? = some '>' :=
    Γ.getLast?_translateText_written q d args
  have hbuiltin : ¬ Γ.isBuiltin (.written q d args) = true := by
    rw [isBuiltin, not_builtin_of_getLast? hlast (.inr rfl)]
    decide
  have hown : Γ.own (.written q d args) = some (.struct d "") := by rw [own, if_neg hbuiltin]; rfl
  rw [namesAgree_of_own hown rfl, removeSuffix_eq_self_of_getLast? hlast (by decide)]
  intro hname
  rw [← hname] at hlast
  exact ((Γ.name d).isWordChar '>' (List.mem_of_getLast? hlast)).2.2.2 rfl

theorem namesAgree_map_iff (q : Qualifier) (k v : QualType D) :
    Γ.NamesAgree (.map q k v) ↔ Γ.endsInSuffix v = false := by
  have hown : Γ.own (.map q k v) = some (.keyValue k v) := by
    rw [own, isBuiltin_map]
    rfl
  have hname := Γ.removeSuffix_translateType_iff (.pair q k v)
  rw [← keyValueName_eq] at hname
  rw [namesAgree_of_own hown rfl, translateType_map, removeSuffix_array, eq_comm]
  exact hname

theorem namesAgree_pair_iff (q : Qualifier) (a b : QualType D) :
    Γ.NamesAgree (.pair q a b) ↔ Γ.endsInSuffix b = false := by
  have hown : Γ.own (.pair q a b) = some (.pair a b) := by
    rw [own, isBuiltin_pair]
    rfl
  rw [namesAgree_of_own hown rfl, eq_comm]
  exact Γ.removeSuffix_translateType_iff (.pair q a b)

theorem namesAgree_tuple (q : Qualifier) (args : List (QualType D)) :
    Γ.NamesAgree (.tuple q args) := by
  intro x hx s hs
  rw [own, branchStruct] at hx
  split at hx
  case isTrue => cases hx
  case isFalse =>
    obtain ⟨-, hx⟩ := Option.ite_none_right_eq_some.mp hx
    cases hx
    cases hs
    exact ((Γ.removeSuffix_translateType_iff (.tuple q args)).mpr rfl).symm

/-- A class that is registered for an alias has its own name. -/
theorem namesAgree_alias_iff (q : Qualifier) (name : Ident) (target : QualType D) :
    Γ.NamesAgree (.alias q name target) ↔ ¬ Γ.Misnamed (.alias q name target) := by
  rw [Misnamed]
  cases hbuiltin : Γ.isBuiltin (.alias q name target) with
  | true => exact iff_of_true (namesAgree_of_builtin hbuiltin) (by simp)
  | false =>
      have hplain : ¬ isBuiltinType name.val = true := by
        rw [isBuiltin, translateType_alias, isBuiltinType_translateTypeName] at hbuiltin
        simp [hbuiltin]
      have hname : removeSuffix (Γ.translateType (.alias q name target)) = name.val := by
        rw [translateType_alias, translateTypeName_of_not_builtin hplain]
        exact name.removeSuffix_eq_self
      cases haliasing : Γ.isAliasing q name target with
      | true =>
          refine iff_of_true (fun x hx => ?_) (by simp)
          rw [own, hbuiltin, branchStruct, haliasing] at hx
          cases hx
      | false =>
          have hown : Γ.own (.alias q name target) =
              (Γ.decl? target).map fun d => .struct d "" := by
            rw [own, hbuiltin, branchStruct, haliasing]
            rfl
          cases hd : Γ.decl? target with
          | none =>
              rw [hd] at hown
              refine iff_of_true (fun x hx => ?_) (by simp)
              cases hown.symm.trans hx
          | some d =>
              rw [hd] at hown
              rw [namesAgree_of_own hown rfl, hname]
              simp [structOf]

theorem exists_struct_of_own (hx : Γ.own t = some x) : ∃ s, (Γ.entry x).struct? = some s := by
  have hbranch : Γ.branchStruct t = some x := by
    rw [own] at hx
    exact (Option.ite_none_left_eq_some.mp hx).2
  cases t with
  | scalar q s =>
      obtain ⟨d, -, rfl⟩ := Option.map_eq_some_iff.mp hbranch
      exact ⟨_, rfl⟩
  | «alias» q name target =>
      obtain ⟨d, -, rfl⟩ := Option.map_eq_some_iff.mp (Option.ite_none_left_eq_some.mp hbranch).2
      exact ⟨_, rfl⟩
  | tuple q args =>
      obtain ⟨-, hx⟩ := Option.ite_none_right_eq_some.mp hbranch
      cases hx
      exact ⟨_, rfl⟩
  | sequence | optional => cases hbranch
  | _ =>
      cases hbranch
      exact ⟨_, rfl⟩

/-- Where the names agree, a reader who follows the name of the type finds a struct. -/
theorem exists_stored_of_namesAgree (h : Γ.NamesAgree t) (hreturns : (Γ.addType n t).Returns)
    (hx : Γ.own t = some x) : ∃ s ∈ (Γ.stored (Γ.addType n t).items).elems,
      s.name = removeSuffix (Γ.translateType t) := by
  obtain ⟨s, hs⟩ := exists_struct_of_own hx
  obtain ⟨front, hfront⟩ := exists_mentions_eq hx
  have hinserts : Γ.Inserts (Γ.mentions t) x := .listed (by simp [hfront])
  rw [addType_eq] at hreturns ⊢
  have hmem : s ∈ Γ.structs (Γ.walk n (Γ.mentions t)).items :=
    mem_structs_iff.mpr ⟨x, (mem_items_walk_iff hreturns).mpr hinserts, hs⟩
  obtain ⟨s', hs', hname⟩ := exists_stored hmem
  exact ⟨s', hs', hname.trans (h x hx s hs)⟩

/-- The names agree for every type that is not misnamed. -/
theorem namesAgree_iff (Γ : Declarations D) (t : QualType D) : Γ.NamesAgree t ↔ ¬ Γ.Misnamed t := by
  have hnone : Γ.branchStruct t = none → Γ.NamesAgree t := by
    intro hbranch x hx
    rw [own, hbranch] at hx
    split at hx <;> cases hx
  cases t with
  | scalar q s => exact iff_of_true (namesAgree_scalar q s) id
  | record q d => exact iff_of_true (namesAgree_record q d) id
  | template q name d args => exact namesAgree_template_iff q name d args
  | written q d args => exact iff_of_false (not_namesAgree_written q d args) fun h => h trivial
  | «alias» q name target => exact namesAgree_alias_iff q name target
  | sequence q c t => exact iff_of_true (hnone rfl) id
  | optional q t => exact iff_of_true (hnone rfl) id
  | map q k v => rw [namesAgree_map_iff, Misnamed, Bool.not_eq_true]
  | pair q a b => rw [namesAgree_pair_iff, Misnamed, Bool.not_eq_true]
  | tuple q args => exact iff_of_true (namesAgree_tuple q args) id

end Declarations

/-- A pair of a number and a vector is registered as `pair_int32_uint32[]`, and its fields refer to
`pair_int32_uint32`. -/
theorem not_forall_namesAgree : ¬ ∀ (D : Type) (Γ : Declarations D) (t : QualType D),
    Γ.NamesAgree t := by
  intro hall
  have hagree := hall Empty noDeclarations (.pair ⟨none, ["std"]⟩ (.scalar ⟨none, []⟩ .int32_t)
    (.sequence ⟨none, ["std"]⟩ .vector (.scalar ⟨none, []⟩ .uint32_t)))
  have hname := hagree (.pair (.scalar ⟨none, []⟩ .int32_t)
    (.sequence ⟨none, ["std"]⟩ .vector (.scalar ⟨none, []⟩ .uint32_t))) rfl _ rfl
  exact absurd hname (by decide)

end FractalCdt.AbiGen
