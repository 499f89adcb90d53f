/-
# The types a contract can serialize

The overloads of `operator<<` and `operator>>` cover a closed universe of C++
types.  `Ty` names its members, `Val` gives the values of each.  Containers are
lists of their elements in iteration order; a set or a map is one whose keys the
type's comparator orders strictly, which `WellFormed` asks for together with the
bound that `size_t` puts on every length.
-/

import FractalCdt.Math.Bytes
import FractalCdt.Math.SortedList
import Mathlib.Data.Vector.Basic

namespace FractalCdt.Codec

open FractalCdt.Math

/-- The widths of the fixed-width integers. -/
inductive Width
  | w8
  | w16
  | w32
  | w64
  | w128
  deriving DecidableEq, Repr

/-- `sizeof` an integer of the width. -/
def Width.bytes : Width → ℕ
  | .w8 => 1
  | .w16 => 2
  | .w32 => 4
  | .w64 => 8
  | .w128 => 16

/-- The types `_datastream_detail::is_primitive` accepts, floating point apart.
An enumeration is known by its declaration and its underlying width. -/
inductive Prim
  | bool
  | char
  | int (signed : Bool) (w : Width)
  | enum (tag : ℕ) (w : Width)
  deriving DecidableEq, Repr

/-- The width of the object representation. -/
def Prim.width : Prim → Width
  | .bool | .char => .w8
  | .int _ w | .enum _ w => w

/-- `sizeof(T)`. -/
def Prim.size (p : Prim) : ℕ := p.width.bytes

def Prim.Val : Prim → Type
  | .bool => Bool
  | .char => BitVec (8 * Prim.char.size)
  | .int s w => BitVec (8 * (Prim.int s w).size)
  | .enum tag w => BitVec (8 * (Prim.enum tag w).size)

/-- The serialisable types. A variant has a first alternative; a struct is known
by its declaration. -/
inductive Ty
  | prim (p : Prim)
  | unsignedInt
  | signedInt
  | name
  | address
  | checksum256
  | string
  | vector (t : Ty)
  | list (t : Ty)
  | deque (t : Ty)
  | set (t : Ty)
  | map (k v : Ty)
  | pair (a b : Ty)
  | tuple (ts : List Ty)
  | optional (t : Ty)
  | variant (t : Ty) (ts : List Ty)
  | array (t : Ty) (n : ℕ)
  | carray (t : Ty) (n : ℕ)
  | struct (tag : ℕ) (ts : List Ty)

mutual

/-- The values of a type. -/
def Val : Ty → Type
  | .prim p => p.Val
  | .unsignedInt => BitVec 32
  | .signedInt => BitVec 32
  | .name => BitVec 64
  | .address => List.Vector Byte 20
  | .checksum256 => List.Vector Byte 32
  | .string => List Byte
  | .vector t => List (Val t)
  | .list t => List (Val t)
  | .deque t => List (Val t)
  | .set t => List (Val t)
  | .map k v => List (Val k × Val v)
  | .pair a b => Val a × Val b
  | .tuple ts => Vals ts
  | .optional t => Option (Val t)
  | .variant t ts => Val t ⊕ Alts ts
  | .array t n => List.Vector (Val t) n
  | .carray t n => List.Vector (Val t) n
  | .struct _ ts => Vals ts

/-- The values of the fields of a tuple or a struct. -/
def Vals : List Ty → Type
  | [] => Unit
  | t :: ts => Val t × Vals ts

/-- The alternatives of a variant after its first. -/
def Alts : List Ty → Type
  | [] => Empty
  | t :: ts => Val t ⊕ Alts ts

end

/-- Zero of a primitive type. -/
def Prim.zero : (p : Prim) → p.Val
  | .bool => false
  | .char => BitVec.ofNat _ 0
  | .int _ _ => BitVec.ofNat _ 0
  | .enum _ _ => BitVec.ofNat _ 0

mutual

/-- The value-initialised object of a type. -/
def init : (t : Ty) → Val t
  | .prim p => p.zero
  | .unsignedInt => BitVec.ofNat 32 0
  | .signedInt => BitVec.ofNat 32 0
  | .name => BitVec.ofNat 64 0
  | .address => List.Vector.replicate 20 (BitVec.ofNat 8 0)
  | .checksum256 => List.Vector.replicate 32 (BitVec.ofNat 8 0)
  | .string => []
  | .vector _ => []
  | .list _ => []
  | .deque _ => []
  | .set _ => []
  | .map _ _ => []
  | .pair a b => (init a, init b)
  | .tuple ts => inits ts
  | .optional _ => none
  | .variant t _ => .inl (init t)
  | .array t n => List.Vector.replicate n (init t)
  | .carray t n => List.Vector.replicate n (init t)
  | .struct _ ts => inits ts

def inits : (ts : List Ty) → Vals ts
  | [] => ()
  | t :: ts => (init t, inits ts)

end

mutual

/-- The type can be written and read back: every variant's alternatives are
pairwise distinct and their indices fit an `int`, no vector is the packed
`vector<bool>`, whose elements have no address to read into, and no array is
larger than the address space. -/
def Ty.Serialisable : Ty → Prop
  | .vector t => t ≠ .prim .bool ∧ t.Serialisable
  | .list t => t.Serialisable
  | .deque t => t.Serialisable
  | .set t => t.Serialisable
  | .map k v => k.Serialisable ∧ v.Serialisable
  | .pair a b => a.Serialisable ∧ b.Serialisable
  | .tuple ts => AllSerialisable ts
  | .optional t => t.Serialisable
  | .variant t ts =>
      (t :: ts).Nodup ∧ (t :: ts).length < 2 ^ 31 ∧ t.Serialisable ∧ AllSerialisable ts
  | .array t _ => t.Serialisable
  | .carray t n => n < 2 ^ 32 ∧ (∀ p, t = .prim p → n * p.size < 2 ^ 32) ∧ t.Serialisable
  | .struct _ ts => AllSerialisable ts
  | _ => True

def AllSerialisable : List Ty → Prop
  | [] => True
  | t :: ts => t.Serialisable ∧ AllSerialisable ts

end

/-- The comparators of the set and map key types. -/
abbrev Comparators := (t : Ty) → Val t → Val t → Bool

mutual

/-- The comparators of all key types that occur in the type are strict total
orders. -/
def Ordered (less : Comparators) : Ty → Prop
  | .vector t => Ordered less t
  | .list t => Ordered less t
  | .deque t => Ordered less t
  | .set t => StrictTotal (less t) ∧ Ordered less t
  | .map k v => StrictTotal (less k) ∧ Ordered less k ∧ Ordered less v
  | .pair a b => Ordered less a ∧ Ordered less b
  | .tuple ts => AllOrdered less ts
  | .optional t => Ordered less t
  | .variant t ts => Ordered less t ∧ AllOrdered less ts
  | .array t _ => Ordered less t
  | .carray t _ => Ordered less t
  | .struct _ ts => AllOrdered less ts
  | _ => True

def AllOrdered (less : Comparators) : List Ty → Prop
  | [] => True
  | t :: ts => Ordered less t ∧ AllOrdered less ts

end

/-- The length of a container fits the 32-bit `size_t`. -/
def SizeFits {α : Type} (xs : List α) : Prop := xs.length < 2 ^ 32

mutual

/-- The value is one its C++ type can hold: every length fits, sets and maps are
in the order of their comparators. -/
def WellFormed (less : Comparators) : (t : Ty) → Val t → Prop
  | .string, (v : List Byte) => SizeFits v
  | .vector t, (v : List (Val t)) => SizeFits v ∧ ∀ x ∈ v, WellFormed less t x
  | .list t, (v : List (Val t)) => SizeFits v ∧ ∀ x ∈ v, WellFormed less t x
  | .deque t, (v : List (Val t)) => SizeFits v ∧ ∀ x ∈ v, WellFormed less t x
  | .set t, (v : List (Val t)) => SizeFits v ∧ Sorted (less t) id v ∧ ∀ x ∈ v, WellFormed less t x
  | .map k t, (v : List (Val k × Val t)) =>
      SizeFits v ∧ Sorted (less k) Prod.fst v ∧
        ∀ x ∈ v, WellFormed less k x.1 ∧ WellFormed less t x.2
  | .pair a b, (v : Val a × Val b) => WellFormed less a v.1 ∧ WellFormed less b v.2
  | .tuple ts, v => AllWellFormed less ts v
  | .optional t, (v : Option (Val t)) => ∀ x ∈ v, WellFormed less t x
  | .variant t ts, (v : Val t ⊕ Alts ts) =>
      v.elim (WellFormed less t) (AltWellFormed less ts)
  | .array t _, (v : List.Vector (Val t) _) => ∀ x ∈ v.toList, WellFormed less t x
  | .carray t _, (v : List.Vector (Val t) _) => ∀ x ∈ v.toList, WellFormed less t x
  | .struct _ ts, v => AllWellFormed less ts v
  | _, _ => True

def AllWellFormed (less : Comparators) : (ts : List Ty) → Vals ts → Prop
  | [], _ => True
  | t :: ts, (v : Val t × Vals ts) => WellFormed less t v.1 ∧ AllWellFormed less ts v.2

def AltWellFormed (less : Comparators) : (ts : List Ty) → Alts ts → Prop
  | [], _ => True
  | t :: ts, (v : Val t ⊕ Alts ts) => v.elim (WellFormed less t) (AltWellFormed less ts)

end

end FractalCdt.Codec
