/-
# Names as they are spelled

clang prints a type as it was spelled.  The generator drops what qualifies the name and
looks the rest up in its table.  `baseTypeName_qualified` says what is left of a name that
is no template's.
-/

import FractalCdt.AbiGen.TypeName
import FractalCdt.Codec.Universe
import FractalCdt.Contract.Name
import Mathlib.Data.Bool.AllAny

namespace FractalCdt.AbiGen

open FractalCdt.Codec

/-! ## Spelled types -/

inductive ClassKey
  | structKey
  | classKey
  deriving DecidableEq

/-- What is printed in front of a name. -/
structure Qualifier where
  key : Option ClassKey
  scopes : List String
  deriving DecidableEq

def Qualifier.text (q : Qualifier) : String :=
  (match q.key with
    | none => ""
    | some .structKey => "struct "
    | some .classKey => "class ") ++ String.join (q.scopes.map (· ++ "::"))

/-- The type is an `ElaboratedType` to clang. -/
def Qualifier.isElaborated (q : Qualifier) : Bool := q.key.isSome || !q.scopes.isEmpty

/-- The name of a declaration. -/
def Ident : Type := { s : String // Name.IsIdentifier s.toList }

/-- The library's own scalar types. -/
inductive Scalar
  | bool
  | char
  | signedChar
  | unsignedChar
  | short
  | unsignedShort
  | int
  | unsignedInt
  | long
  | unsignedLong
  | longLong
  | unsignedLongLong
  | int128
  | unsignedInt128
  | int8_t
  | uint8_t
  | int16_t
  | uint16_t
  | int32_t
  | uint32_t
  | int64_t
  | uint64_t
  | unsigned_int
  | signed_int
  | name
  | address
  | checksum256
  | string
  deriving DecidableEq

namespace Scalar

/-- The name without what qualifies it. -/
def spelling : Scalar → String
  | bool => "_Bool"
  | char => "char"
  | signedChar => "signed char"
  | unsignedChar => "unsigned char"
  | short => "short"
  | unsignedShort => "unsigned short"
  | int => "int"
  | unsignedInt => "unsigned int"
  | long => "long"
  | unsignedLong => "unsigned long"
  | longLong => "long long"
  | unsignedLongLong => "unsigned long long"
  | int128 => "__int128"
  | unsignedInt128 => "unsigned __int128"
  | int8_t => "int8_t"
  | uint8_t => "uint8_t"
  | int16_t => "int16_t"
  | uint16_t => "uint16_t"
  | int32_t => "int32_t"
  | uint32_t => "uint32_t"
  | int64_t => "int64_t"
  | uint64_t => "uint64_t"
  | unsigned_int => "unsigned_int"
  | signed_int => "signed_int"
  | name => "name"
  | address => "address"
  | checksum256 => "checksum256"
  | string => "string"

/-- The types the language has keywords for, which nothing qualifies. -/
def isKeyword : Scalar → Bool
  | bool | char | signedChar | unsignedChar | short | unsignedShort | int | unsignedInt | long
  | unsignedLong | longLong | unsignedLongLong | int128 | unsignedInt128 => true
  | _ => false

/-- On the target, `int` and `long` have 32 bits. -/
def ty : Scalar → Ty
  | bool => .prim .bool
  | char => .prim .char
  | signedChar | int8_t => .prim (.int true .w8)
  | unsignedChar | uint8_t => .prim (.int false .w8)
  | short | int16_t => .prim (.int true .w16)
  | unsignedShort | uint16_t => .prim (.int false .w16)
  | int | long | int32_t => .prim (.int true .w32)
  | unsignedInt | unsignedLong | uint32_t => .prim (.int false .w32)
  | longLong | int64_t => .prim (.int true .w64)
  | unsignedLongLong | uint64_t => .prim (.int false .w64)
  | int128 => .prim (.int true .w128)
  | unsignedInt128 => .prim (.int false .w128)
  | unsigned_int => .unsignedInt
  | signed_int => .signedInt
  | name => .name
  | address => .address
  | checksum256 => .checksum256
  | string => .string

/-- The 128-bit integers, for which the generator has no name. -/
def isWide : Scalar → Bool
  | int128 | unsignedInt128 => true
  | _ => false

end Scalar

/-- The containers whose elements follow a count. -/
inductive Container
  | vector
  | list
  | deque
  | set
  deriving DecidableEq

def Container.text : Container → String
  | vector => "vector"
  | list => "list"
  | deque => "deque"
  | set => "set"

/-- A template with its arguments; two closing brackets are kept apart. -/
def templateText (q : Qualifier) (name : String) (args : List String) : String :=
  let front := q.text ++ name ++ "<" ++ ", ".intercalate args
  front ++ if front.toList.getLast? = some '>' then " >" else ">"

/-! ## Names -/

def validPrefixs : List String := ["long", "signed", "unsigned"]

/-- The length of the word of `valid_prefixs` that ends here; the text is given from
its end. -/
def prefixLength (before : List Char) : Option ℕ :=
  (validPrefixs.find? fun s => s.toList.reverse.isPrefixOf before ∧
    ((before.drop s.length).head?.all fun c => c = ' ')).map String.length

/-- The loop of `get_base_type_name`, from the end of the text; `skip` characters are
passed over.  It stops before the first character of the text. -/
def scanBase : List Char → ℕ → ℤ → List Char → Option (List Char)
  | [], _, _, _ => none
  | c :: before, skip + 1, nested, seen => scanBase before skip nested (c :: seen)
  | c :: before, 0, nested, seen =>
      if before = [] then none
      else
        let nested := if c = '>' then nested + 1 else if c = '<' then nested - 1 else nested
        if c = ':' ∧ nested = 0 then some seen
        else if c = ' ' ∧ nested = 0 then
          match prefixLength before with
          | some length => scanBase before length nested (c :: seen)
          | none => some seen
        else scanBase before 0 nested (c :: seen)

/-- `get_base_type_name`. -/
def baseTypeName (typeStr : String) : String :=
  match scanBase typeStr.toList.reverse 0 0 [] with
  | some name => String.ofList name
  | none => typeStr

/-- `replace_in_name`. -/
def replaceInName (name : String) : String :=
  String.ofList (name.toList.map fun c =>
    if c = '<' ∨ c = '>' ∨ c = ',' ∨ c = ' ' ∨ c = ':' then '_' else c)

/-! ## What is left of a qualified name -/

/-- A character that does not end a name. -/
def IsWordChar (c : Char) : Prop := c ≠ ' ' ∧ c ≠ ':' ∧ c ≠ '<' ∧ c ≠ '>'

instance (c : Char) : Decidable (IsWordChar c) := inferInstanceAs (Decidable (_ ∧ _))

theorem scanBase_word {word before seen : List Char} (hword : ∀ c ∈ word, IsWordChar c)
    (hbefore : before ≠ []) :
    scanBase (word ++ before) 0 0 seen = scanBase before 0 0 (word.reverse ++ seen) := by
  induction word generalizing seen with
  | nil => rfl
  | cons c word ih =>
      obtain ⟨hspace, hcolon, hopen, hclose⟩ := hword c List.mem_cons_self
      have hne : word ++ before ≠ [] := by simp [hbefore]
      rw [List.cons_append, scanBase, if_neg hne]
      simp only [hspace, hcolon, hopen, hclose, if_false, false_and]
      rw [ih fun d hd => hword d (List.mem_cons_of_mem c hd), List.reverse_cons, List.append_assoc,
        List.singleton_append]

theorem scanBase_word_nil {word seen : List Char} (hword : ∀ c ∈ word, IsWordChar c) :
    scanBase word 0 0 seen = none := by
  induction word generalizing seen with
  | nil => rfl
  | cons c word ih =>
      obtain ⟨hspace, hcolon, hopen, hclose⟩ := hword c List.mem_cons_self
      by_cases hlast : word = []
      · rw [scanBase, if_pos hlast]
      · rw [scanBase, if_neg hlast]
        simp only [hspace, hcolon, hopen, hclose, if_false, false_and]
        exact ih fun d hd => hword d (List.mem_cons_of_mem c hd)

/-- A qualifier is empty or ends where the scan stops. -/
theorem Qualifier.scanBase_text (q : Qualifier) :
    q.text = "" ∨ q.text ≠ "" ∧ ∀ seen, scanBase q.text.toList.reverse 0 0 seen = some seen := by
  obtain ⟨key, scopes⟩ := q
  rcases List.eq_nil_or_concat' scopes with rfl | ⟨outer, scope, rfl⟩
  · cases key with
    | none => exact .inl rfl
    | some key =>
        cases key with
        | structKey => exact .inr ⟨by decide, fun _ => rfl⟩
        | classKey => exact .inr ⟨by decide, fun _ => rfl⟩
  · obtain ⟨front, hfront⟩ : ∃ front, (Qualifier.text ⟨key, outer ++ [scope]⟩).toList =
        front ++ [':', ':'] := by
      simp only [Qualifier.text, String.toList_append, String.toList_join, List.map_append,
        List.flatMap_append, List.map_singleton, List.flatMap_singleton, ← List.append_assoc]
      exact ⟨_, rfl⟩
    refine .inr ⟨?_, ?_⟩
    · intro hempty
      rw [hempty] at hfront
      exact absurd hfront (by simp)
    · intro seen
      rw [hfront, List.reverse_append]
      rfl

theorem baseTypeName_qualified (q : Qualifier) {name : String}
    (hname : ∀ c ∈ name.toList, IsWordChar c) : baseTypeName (q.text ++ name) = name := by
  have hword : ∀ c ∈ name.toList.reverse, IsWordChar c := fun c hc =>
    hname c (List.mem_reverse.mp hc)
  rcases q.scanBase_text with hempty | ⟨hne, hscan⟩
  · rw [hempty, String.empty_append, baseTypeName, scanBase_word_nil hword]
  · have hbefore : q.text.toList.reverse ≠ [] := by simp [hne]
    rw [baseTypeName, String.toList_append, List.reverse_append, scanBase_word hword hbefore, hscan,
      List.reverse_reverse, List.append_nil]
    exact String.ofList_toList

theorem Ident.isWordChar (name : Ident) : ∀ c ∈ name.val.toList, IsWordChar c := by
  intro c hc
  have hchar := name.property.2.1 c hc
  refine ⟨?_, ?_, ?_, ?_⟩ <;> rintro rfl <;> revert hchar <;> decide

theorem replaceInName_append (s t : String) :
    replaceInName (s ++ t) = replaceInName s ++ replaceInName t := by
  simp [replaceInName]

end FractalCdt.AbiGen
