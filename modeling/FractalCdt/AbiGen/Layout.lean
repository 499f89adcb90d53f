/-
# Reading type names as layouts

A client of a contract knows the bytes of a value by the type names and the structs
of the ABI.  `Layout` is what a name denotes, `Layout.encode` writes an untyped value
in it, and `Reads` takes a name apart: builtins first, then the suffixes of arrays
and optionals, then the names of structs and typedefs.
-/

import FractalCdt.AbiGen.Registry
import FractalCdt.Math.Leb128
import Mathlib.Algebra.Order.Ring.Int

namespace FractalCdt.AbiGen

open FractalCdt.Math

inductive Layout
  | bool
  | int (signed : Bool) (size : ℕ)
  | varuint32
  | raw (length : ℕ)
  | array (element : Layout)
  | optional (value : Layout)
  | struct (fields : List Layout)

/-- A value as a client writes it down. -/
inductive Variant
  | num (n : ℤ)
  | seq (xs : List Variant)
  | opt (x : Option Variant)
  | record (fields : List Variant)

/-! ## Writing values -/

/-- A two's complement number, little-endian. -/
def encodeInt (signed : Bool) (size : ℕ) : Variant → Option (List Byte)
  | .num n =>
      if if signed then -2 ^ (8 * size - 1) ≤ n ∧ n < 2 ^ (8 * size - 1)
        else 0 ≤ n ∧ n < 2 ^ (8 * size)
      then some (leBytes size (BitVec.ofInt (8 * size) n).toNat)
      else none
  | _ => none

/-- The encodings of the values, one after another. -/
def encodeEach (each : Variant → Option (List Byte)) (xs : List Variant) : Option (List Byte) :=
  (xs.mapM each).map List.flatten

mutual

def Layout.encode : Layout → Variant → Option (List Byte)
  | .bool, .num n => if n = 0 ∨ n = 1 then some [BitVec.ofInt 8 n] else none
  | .int signed size, x => encodeInt signed size x
  | .varuint32, .num n => if 0 ≤ n ∧ n < 2 ^ 32 then some (uleb n.toNat) else none
  | .raw length, .seq xs => if xs.length = length then encodeEach (encodeInt false 1) xs else none
  | .array element, .seq xs =>
      if xs.length < 2 ^ 32 then
        (encodeEach (fun x => element.encode x) xs).map fun bytes => uleb xs.length ++ bytes
      else none
  | .optional _, .opt none => some [0]
  | .optional value, .opt (some x) => (value.encode x).map fun bytes => 1 :: bytes
  | .struct fields, .record xs => encodeFields fields xs
  | _, _ => none

def encodeFields : List Layout → List Variant → Option (List Byte)
  | [], [] => some []
  | L :: Ls, x :: xs => (L.encode x).bind fun bytes =>
    (encodeFields Ls xs).map fun rest => bytes ++ rest
  | _, _ => none

end

section Encode

variable {L : Layout} {Ls : List Layout} {x : Variant} {xs : List Variant}

theorem encodeFields_cons_isSome {L : Layout} {Ls : List Layout} {x : Variant} {xs : List Variant} :
    (encodeFields (L :: Ls) (x :: xs)).isSome ↔
      (L.encode x).isSome ∧ (encodeFields Ls xs).isSome := by
  rw [encodeFields]
  cases L.encode x with
  | none => simp
  | some bytes => simp

theorem encodeEach_map {α : Type} {each : Variant → Option (List Byte)} {view : α → Variant}
    {bytes : α → List Byte} {vs : List α} (h : ∀ v ∈ vs, each (view v) = some (bytes v)) :
    encodeEach each (vs.map view) = some (vs.flatMap bytes) := by
  rw [encodeEach, List.mapM_map]
  induction vs with
  | nil => rfl
  | cons v vs ih =>
      have hrest := ih fun w hw => h w (List.mem_cons_of_mem v hw)
      obtain ⟨blocks, hblocks, hflat⟩ := Option.map_eq_some_iff.mp hrest
      have hfirst : (each ∘ view) v = some (bytes v) := h v List.mem_cons_self
      rw [List.mapM_cons, hfirst, hblocks, List.flatMap_cons, ← hflat]
      rfl

end Encode

/-! ## Reading names -/

def builtinLayouts : List (String × Layout) :=
  [("bool", .bool), ("int8", .int true 1), ("uint8", .int false 1), ("int16", .int true 2),
   ("uint16", .int false 2), ("int32", .int true 4), ("uint32", .int false 4),
   ("int64", .int true 8),
   ("uint64", .int false 8), ("varuint32", .varuint32), ("name", .int false 8),
   ("bytes", .array (.int true 1)), ("string", .array (.int true 1)), ("address", .raw 20),
   ("checksum256", .raw 32)]

/-- The encodings of the builtins; keys and signatures have none here. -/
def builtinLayout (n : String) : Option Layout := builtinLayouts.lookup n

/-- The name of a struct or a typedef, and of nothing else. -/
def Plain (n : String) : Prop := isBuiltinType n = false ∧ removeSuffix n = n

instance (n : String) : Decidable (Plain n) := inferInstanceAs (Decidable (_ ∧ _))

/-- The name denotes the layout. -/
inductive Reads (abi : Abi) : String → Layout → Prop
  | builtin {n : String} {L : Layout} : builtinLayout n = some L → Reads abi n L
  | array {n : String} {L : Layout} : Reads abi n L → Reads abi (n ++ "[]") (.array L)
  | optional {n : String} {L : Layout} : Reads abi n L → Reads abi (n ++ "?") (.optional L)
  | struct {s : AbiStruct} {Ls : List Layout} : Plain s.name → s ∈ abi.structs.elems → s.base = "" →
      List.Forall₂ (Reads abi) (s.fields.map AbiField.type) Ls → Reads abi s.name (.struct Ls)
  | typedef {td : AbiTypedef} {L : Layout} : Plain td.newTypeName → td ∈ abi.typedefs.elems →
      Reads abi td.type L → Reads abi td.newTypeName L

section Reads

variable {abi : Abi} {n : String} {L : Layout}

theorem removeSuffix_eq_self_iff : removeSuffix n = n ↔
    ∀ c ∈ n.toList.getLast?, ¬ (c = '[' ∨ c = ']' ∨ c = '?' ∨ c = '$') := by
  rw [← String.toList_inj, removeSuffix, String.toList_ofList, List.rdropWhile_eq_self_iff]
  simp only [Bool.not_eq_true, decide_eq_false_iff_not]
  constructor
  · intro h c hc
    obtain ⟨hne, rfl⟩ := List.mem_getLast?_eq_getLast hc
    exact h hne
  · intro h hne
    exact h _ (List.getLast_mem_getLast? hne)

theorem removeSuffix_array_ne : removeSuffix (n ++ "[]") ≠ n ++ "[]" := by
  rw [Ne, removeSuffix_eq_self_iff, String.toList_append]
  simp

theorem removeSuffix_optional_ne : removeSuffix (n ++ "?") ≠ n ++ "?" := by
  rw [Ne, removeSuffix_eq_self_iff, String.toList_append]
  simp

theorem not_builtin_array (n : String) : isBuiltinType (n ++ "[]") = false := by
  apply Bool.eq_false_of_not_eq_true
  intro h
  exact removeSuffix_array_ne (removeSuffix_of_builtin h)

theorem not_builtin_optional (n : String) : isBuiltinType (n ++ "?") = false := by
  apply Bool.eq_false_of_not_eq_true
  intro h
  exact removeSuffix_optional_ne (removeSuffix_of_builtin h)

end Reads

end FractalCdt.AbiGen
