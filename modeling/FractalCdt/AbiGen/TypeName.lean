/-
# Type names

The generator knows a type by the text clang prints for it.  `translateTypeName`
gives the name the ABI uses for a scalar; a name it does not know stays as it is.
-/

import Mathlib.Data.List.DropRight
import Mathlib.Data.Nat.Notation

namespace FractalCdt.AbiGen

/-- `translation_table`. -/
def translationTable : List (String × String) :=
  [("unsigned long long", "uint64"),
   ("long long", "int64"),
   ("uint64_t", "uint64"),
   ("int64_t", "int64"),
   ("unsigned long", "uint32"),
   ("long", "int32"),
   ("unsigned int", "uint32"),
   ("int", "int32"),
   ("uint32_t", "uint32"),
   ("int32_t", "int32"),
   ("unsigned short", "uint16"),
   ("short", "int16"),
   ("uint16_t", "uint16"),
   ("int16_t", "int16"),
   ("unsigned char", "uint8"),
   ("signed char", "int8"),
   ("char", "int8"),
   ("uint8_t", "uint8"),
   ("int8_t", "int8"),
   ("_Bool", "bool"),
   ("unsigned_int", "varuint32"),
   ("capi_name", "name"),
   ("capi_public_key", "public_key"),
   ("capi_signature", "signature"),
   ("capi_checksum256", "checksum256")]

/-- `_translate_type(const std::string &t)`. -/
def translateTypeName (t : String) : String := (translationTable.lookup t).getD t

def builtins : List String :=
  ["bool", "int8", "uint8", "int16", "uint16", "int32", "uint32", "int64", "uint64", "varuint32",
   "name", "bytes", "string", "address", "checksum256", "public_key", "signature"]

/-- `is_builtin_type(const std::string &t)`. -/
def isBuiltinType (t : String) : Bool := builtins.contains (translateTypeName t)

/-- `remove_suffix`. -/
def removeSuffix (name : String) : String :=
  String.ofList (name.toList.rdropWhile fun c => c = '[' ∨ c = ']' ∨ c = '?' ∨ c = '$')

section Translate

variable {t : String}

theorem mem_of_lookup {β : Type} {table : List (String × β)} {key : String} {value : β}
    (h : table.lookup key = some value) : (key, value) ∈ table := by
  obtain ⟨front, rest, rfl, -⟩ := List.lookup_eq_some_iff.mp h
  simp

/-- What the table gives is a builtin, and the table leaves it alone. -/
theorem translationTable_sound :
    ∀ r ∈ translationTable.map Prod.snd, builtins.contains r ∧ translateTypeName r = r := by
  decide

theorem translateTypeName_eq_or (t : String) :
    translateTypeName t = t ∨ isBuiltinType t = true := by
  rw [isBuiltinType, translateTypeName]
  cases hlookup : translationTable.lookup t with
  | none => exact .inl rfl
  | some r => exact .inr (translationTable_sound r (List.mem_map_of_mem (mem_of_lookup hlookup))).1

theorem translateTypeName_translateTypeName (t : String) :
    translateTypeName (translateTypeName t) = translateTypeName t := by
  cases hlookup : translationTable.lookup t with
  | none =>
      have hself : translateTypeName t = t := by
        rw [translateTypeName, hlookup]
        rfl
      rw [hself, hself]
  | some r =>
      have hentry : translateTypeName t = r := by
        rw [translateTypeName, hlookup]
        rfl
      rw [hentry, (translationTable_sound r (List.mem_map_of_mem (mem_of_lookup hlookup))).2]

/-- A name that is not a builtin is its own translation. -/
theorem translateTypeName_of_not_builtin (h : ¬ isBuiltinType t = true) :
    translateTypeName t = t := (translateTypeName_eq_or t).resolve_right h

theorem isBuiltinType_translateTypeName (t : String) :
    isBuiltinType (translateTypeName t) = isBuiltinType t := by
  rw [isBuiltinType, translateTypeName_translateTypeName, isBuiltinType]

end Translate

/-- A builtin is one, or is translated to one. -/
theorem mem_of_builtin {t : String} (h : isBuiltinType t = true) :
    t ∈ translationTable.map Prod.fst ++ builtins := by
  apply List.mem_append.mpr
  rw [isBuiltinType, translateTypeName] at h
  cases hlookup : translationTable.lookup t with
  | none =>
      rw [hlookup] at h
      exact .inr (List.contains_iff_mem.mp h)
  | some r => exact .inl (List.mem_map_of_mem (mem_of_lookup hlookup))

/-- No builtin and no name that is translated has a suffix. -/
theorem removeSuffix_of_builtin {t : String} (h : isBuiltinType t = true) : removeSuffix t = t := by
  have hall : ∀ name ∈ translationTable.map Prod.fst ++ builtins, removeSuffix name = name :=
    by decide
  exact hall t (mem_of_builtin h)

end FractalCdt.AbiGen
