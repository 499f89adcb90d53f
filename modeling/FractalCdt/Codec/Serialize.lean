/-
# `operator<<`

`serialize` has one branch for each overload.  The overloads that differ only in
the container type they are declared for share a definition; a vector of `char`
and a C array of a primitive type have overloads of their own that copy the
elements as one block.  `encode` is the byte string that results, and
`emits_serialize` proves it is what `serialize` writes on every stream.
-/

import FractalCdt.Codec.Universe
import FractalCdt.Codec.Varint

namespace FractalCdt.Codec

open FractalCdt.Math

/-- The object representation of a primitive value, on a little-endian machine. -/
def Prim.bytes : (p : Prim) → p.Val → List Byte
  | .bool, (v : Bool) => [if v then 1 else 0]
  | .char, (v : BitVec _) => leBytes Prim.char.size v.toNat
  | .int s w, (v : BitVec _) => leBytes (Prim.int s w).size v.toNat
  | .enum tag w, (v : BitVec _) => leBytes (Prim.enum tag w).size v.toNat

theorem Prim.length_bytes (p : Prim) (v : p.Val) : (p.bytes v).length = p.size := by
  cases p with
  | bool => rfl
  | char => exact length_leBytes _ _
  | int s w => exact length_leBytes _ _
  | enum tag w => exact length_leBytes _ _

theorem Prim.size_le (p : Prim) : p.size ≤ 16 := by
  rw [Prim.size]
  cases p.width <;> decide

theorem Prim.length_bytes_le (p : Prim) (v : p.Val) : (p.bytes v).length ≤ 16 :=
  (p.length_bytes v).trans_le p.size_le

theorem Prim.length_flatMap_bytes (p : Prim) (vs : List p.Val) :
    (vs.flatMap p.bytes).length = vs.length * p.size := by
  induction vs with
  | nil => exact (Nat.zero_mul _).symm
  | cons v vs ih =>
      rw [List.flatMap_cons, List.length_append, ih, p.length_bytes, List.length_cons, Nat.succ_mul,
        Nat.add_comm]

/-- `ds << unsigned_int(v.size())`. -/
def writeSize (n : ℕ) : WriteProgram Fault := writeUnsignedInt (BitVec.ofNat 32 n)

/-- `for (const auto &elem : l) ds << elem`. -/
def writeEach {α : Type} (each : α → WriteProgram Fault) (v : List α) : WriteProgram Fault :=
  fun σ _ => v.forM fun x => each x σ

/-- The overloads for `list`, `deque`, `set` and `map`. -/
def writeSequence {α : Type} (each : α → WriteProgram Fault) (v : List α) : WriteProgram Fault :=
  fun σ _ => do
    writeSize v.length σ
    writeEach each v σ

/-- The two overloads for `vector`. -/
def writeVector : (t : Ty) → (Val t → WriteProgram Fault) → List (Val t) → WriteProgram Fault
  | .prim .char, _, v => fun σ _ => do
      writeSize v.length σ
      ByteSink.write (v : List Byte)
  | _, each, v => writeSequence each v

/-- The two overloads for C arrays. -/
def writeCArray : (t : Ty) → (Val t → WriteProgram Fault) → List (Val t) → WriteProgram Fault
  | .prim p, _, v => fun σ _ => do
      writeSize v.length σ
      ByteSink.write (v.flatMap p.bytes)
  | _, each, v => writeSequence each v

/-- `operator<<(DataStream &ds, const std::string &v)`. -/
def writeString (v : List Byte) : WriteProgram Fault := fun σ _ => do
  writeSize v.length σ
  if v.length ≠ 0 then ByteSink.write v

/-- `var.index()`, counted among the alternatives after the first. -/
def altIndex : (ts : List Ty) → Alts ts → ℕ
  | [], v => v.elim
  | _ :: ts, v => Sum.elim (fun _ => 0) (fun alt => altIndex ts alt + 1) v

mutual

/-- `operator<<`. -/
def serialize : (t : Ty) → Val t → WriteProgram Fault
  | .prim p, v => fun _ _ => ByteSink.write (p.bytes v)
  | .unsignedInt, v => writeUnsignedInt v
  | .signedInt, v => writeSignedInt v
  | .name, (v : BitVec 64) => fun _ _ => ByteSink.write (leBytes 8 v.toNat)
  | .address, (v : List.Vector Byte 20) =>
      writeEach (fun b => fun _ _ => ByteSink.write [b]) v.toList
  | .checksum256, (v : List.Vector Byte 32) =>
      writeEach (fun b => fun _ _ => ByteSink.write [b]) v.toList
  | .string, v => writeString v
  | .vector t, v => writeVector t (serialize t) v
  | .list t, v => writeSequence (serialize t) v
  | .deque t, v => writeSequence (serialize t) v
  | .set t, v => writeSequence (serialize t) v
  | .map k t, v => writeSequence (fun i => fun σ _ => do serialize k i.1 σ; serialize t i.2 σ) v
  | .pair a b, (v : Val a × Val b) => fun σ _ => do serialize a v.1 σ; serialize b v.2 σ
  | .tuple ts, v => serializeFields ts v
  | .optional t, (v : Option (Val t)) => fun σ _ => do
      ByteSink.write [if v.isSome then 1 else 0]
      v.elim (pure ()) fun x => serialize t x σ
  | .variant t ts, (v : Val t ⊕ Alts ts) => fun σ _ => do
      writeUnsignedInt (BitVec.ofNat 32 (v.elim (fun _ => 0) fun alt => altIndex ts alt + 1)) σ
      v.elim (fun x => serialize t x σ) fun alt => serializeAlt ts alt σ
  | .array t _, (v : List.Vector (Val t) _) => writeEach (serialize t) v.toList
  | .carray t _, (v : List.Vector (Val t) _) => writeCArray t (serialize t) v.toList
  | .struct _ ts, v => serializeFields ts v

/-- `for_each` and `for_each_field`, which visit the fields in order. -/
def serializeFields : (ts : List Ty) → Vals ts → WriteProgram Fault
  | [], _ => fun _ _ => pure ()
  | t :: ts, (v : Val t × Vals ts) => fun σ _ => do serialize t v.1 σ; serializeFields ts v.2 σ

/-- `std::visit` on the alternatives after the first. -/
def serializeAlt : (ts : List Ty) → Alts ts → WriteProgram Fault
  | [], v => v.elim
  | t :: ts, (v : Val t ⊕ Alts ts) => v.elim (serialize t) (serializeAlt ts)

end

/-- A length-prefixed sequence. -/
def encodeSequence {α : Type} (each : α → List Byte) (v : List α) : List Byte :=
  uleb (v.length % 2 ^ 32) ++ v.flatMap each

mutual

/-- The bytes of a value. -/
def encode : (t : Ty) → Val t → List Byte
  | .prim p, v => p.bytes v
  | .unsignedInt, (v : BitVec 32) => uleb v.toNat
  | .signedInt, (v : BitVec 32) => uleb (zigzag v).toNat
  | .name, (v : BitVec 64) => leBytes 8 v.toNat
  | .address, (v : List.Vector Byte 20) => v.toList
  | .checksum256, (v : List.Vector Byte 32) => v.toList
  | .string, (v : List Byte) => encodeSequence (fun b => [b]) v
  | .vector t, v => encodeSequence (encode t) v
  | .list t, v => encodeSequence (encode t) v
  | .deque t, v => encodeSequence (encode t) v
  | .set t, v => encodeSequence (encode t) v
  | .map k t, v => encodeSequence (fun i : Val k × Val t => encode k i.1 ++ encode t i.2) v
  | .pair a b, (v : Val a × Val b) => encode a v.1 ++ encode b v.2
  | .tuple ts, v => encodeFields ts v
  | .optional t, (v : Option (Val t)) => v.elim [0] fun x => 1 :: encode t x
  | .variant t ts, (v : Val t ⊕ Alts ts) =>
      v.elim (fun x => uleb 0 ++ encode t x) fun alt =>
        uleb ((altIndex ts alt + 1) % 2 ^ 32) ++ encodeAlt ts alt
  | .array t _, (v : List.Vector (Val t) _) => v.toList.flatMap (encode t)
  | .carray t _, (v : List.Vector (Val t) _) => encodeSequence (encode t) v.toList
  | .struct _ ts, v => encodeFields ts v

def encodeFields : (ts : List Ty) → Vals ts → List Byte
  | [], _ => []
  | t :: ts, (v : Val t × Vals ts) => encode t v.1 ++ encodeFields ts v.2

def encodeAlt : (ts : List Ty) → Alts ts → List Byte
  | [], v => v.elim
  | t :: ts, (v : Val t ⊕ Alts ts) => v.elim (encode t) (encodeAlt ts)

end

/-! ## What `serialize` writes -/

theorem emits_writeSize (n : ℕ) : Emits (writeSize n) (uleb (n % 2 ^ 32)) :=
  emits_writeUnsignedInt (BitVec.ofNat 32 n)

section Containers

variable {α : Type} {each : α → WriteProgram Fault} {bytes : α → List Byte}

theorem emits_writeEach (h : ∀ x, Emits (each x) (bytes x)) (v : List α) :
    Emits (writeEach each v) (v.flatMap bytes) := Emits.forM fun x _ => h x

theorem emits_writeSequence (h : ∀ x, Emits (each x) (bytes x)) (v : List α) :
    Emits (writeSequence each v) (encodeSequence bytes v) :=
  (emits_writeSize v.length).bind (emits_writeEach h v)

end Containers

theorem emits_writeString (v : List Byte) :
    Emits (writeString v) (encodeSequence (fun b => [b]) v) := by
  rw [encodeSequence, List.flatMap_singleton']
  refine (emits_writeSize v.length).bind ?_
  by_cases hempty : v = []
  · subst hempty
    exact emits_pure
  · have hlength : v.length ≠ 0 := fun h => hempty (List.length_eq_zero_iff.mp h)
    simp only [if_pos hlength]
    exact emits_write v

theorem bytes_char (c : Byte) : Prim.char.bytes c = [c] := by
  show [BitVec.ofNat 8 c.toNat] = [c]
  rw [BitVec.ofNat_toNat, BitVec.setWidth_eq]

/-- Copying the characters as one block writes what writing each would. -/
theorem emits_writeVector {t : Ty} {each : Val t → WriteProgram Fault}
    (h : ∀ x, Emits (each x) (encode t x)) (v : List (Val t)) :
    Emits (writeVector t each v) (encodeSequence (encode t) v) := by
  unfold writeVector
  split
  case h_1 v =>
    have hbytes : v.flatMap (encode (.prim .char)) = v := by
      have heach : (encode (.prim .char)) = fun c : Byte => [c] := funext bytes_char
      rw [heach]
      exact List.flatMap_singleton' v
    rw [encodeSequence, hbytes]
    exact (emits_writeSize _).bind (emits_write _)
  case h_2 => exact emits_writeSequence h _

theorem emits_writeCArray {t : Ty} {each : Val t → WriteProgram Fault}
    (h : ∀ x, Emits (each x) (encode t x)) (v : List (Val t)) :
    Emits (writeCArray t each v) (encodeSequence (encode t) v) := by
  unfold writeCArray
  split
  case h_1 p v => exact (emits_writeSize _).bind (emits_write _)
  case h_2 => exact emits_writeSequence h _

mutual

/-- On every stream, `operator<<` writes the bytes of the value. -/
theorem emits_serialize : (t : Ty) → (v : Val t) → Emits (serialize t v) (encode t v)
  | .prim p, v => emits_write (p.bytes v)
  | .unsignedInt, v => emits_writeUnsignedInt v
  | .signedInt, v => emits_writeSignedInt v
  | .name, (v : BitVec 64) => emits_write (leBytes 8 v.toNat)
  | .address, (v : List.Vector Byte 20) => by
      rw [encode, ← List.flatMap_singleton' v.toList]
      exact emits_writeEach (fun b => emits_write [b]) v.toList
  | .checksum256, (v : List.Vector Byte 32) => by
      rw [encode, ← List.flatMap_singleton' v.toList]
      exact emits_writeEach (fun b => emits_write [b]) v.toList
  | .string, v => emits_writeString v
  | .vector t, v => emits_writeVector (emits_serialize t) v
  | .list t, v => emits_writeSequence (emits_serialize t) v
  | .deque t, v => emits_writeSequence (emits_serialize t) v
  | .set t, v => emits_writeSequence (emits_serialize t) v
  | .map k t, v =>
      emits_writeSequence
        (fun i : Val k × Val t => (emits_serialize k i.1).bind (emits_serialize t i.2)) v
  | .pair a b, (v : Val a × Val b) => (emits_serialize a v.1).bind (emits_serialize b v.2)
  | .tuple ts, v => emits_serializeFields ts v
  | .optional t, (v : Option (Val t)) => by
      cases v with
      | none => exact (emits_write [0]).bind emits_pure
      | some x => exact (emits_write [1]).bind (emits_serialize t x)
  | .variant t ts, (v : Val t ⊕ Alts ts) => by
      cases v with
      | inl x => exact (emits_writeSize 0).bind (emits_serialize t x)
      | inr alt => exact (emits_writeSize (altIndex ts alt + 1)).bind (emits_serializeAlt ts alt)
  | .array t _, (v : List.Vector (Val t) _) => emits_writeEach (emits_serialize t) v.toList
  | .carray t _, (v : List.Vector (Val t) _) => emits_writeCArray (emits_serialize t) v.toList
  | .struct _ ts, v => emits_serializeFields ts v

theorem emits_serializeFields :
    (ts : List Ty) → (v : Vals ts) → Emits (serializeFields ts v) (encodeFields ts v)
  | [], _ => emits_pure
  | t :: ts, (v : Val t × Vals ts) =>
      (emits_serialize t v.1).bind (emits_serializeFields ts v.2)

theorem emits_serializeAlt :
    (ts : List Ty) → (v : Alts ts) → Emits (serializeAlt ts v) (encodeAlt ts v)
  | [], v => nomatch v
  | t :: ts, (v : Val t ⊕ Alts ts) => by
      cases v with
      | inl x => exact emits_serialize t x
      | inr alt => exact emits_serializeAlt ts alt

end

end FractalCdt.Codec
