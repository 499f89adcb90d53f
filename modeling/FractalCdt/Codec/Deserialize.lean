/-
# `operator>>`

`deserialize` has one branch for each overload and takes the object that is read
into.  Which part of that object survives depends on the overload: the sequence
containers are resized and read element by element in place, sets and maps are
cleared, pairs and variants are assigned from temporaries, and an optional whose
flag byte is zero keeps what it held.
-/

import FractalCdt.Codec.Serialize
import FractalCdt.Stream.Pending

namespace FractalCdt.Codec

open FractalCdt.Math

/-- The value an object representation stands for. -/
def Prim.ofBytes : (p : Prim) → List Byte → p.Val
  | .bool, bs => decide (ofLeBytes bs ≠ 0)
  | .char, bs => BitVec.ofNat _ (ofLeBytes bs)
  | .int _ _, bs => BitVec.ofNat _ (ofLeBytes bs)
  | .enum _ _, bs => BitVec.ofNat _ (ofLeBytes bs)

/-- The elements a block of object representations stands for. -/
def Prim.ofBlock (p : Prim) : (n : ℕ) → List Byte → List.Vector p.Val n
  | 0, _ => .nil
  | n + 1, bs => p.ofBytes (bs.take p.size) ::ᵥ p.ofBlock n (bs.drop p.size)

/-- `v.resize(n)`. -/
def resize (t : Ty) (v : List (Val t)) (n : ℕ) : List (Val t) :=
  v.take n ++ List.replicate (n - v.length) (init t)

section Overloads

variable {σ : Type} [ByteSource σ Fault]

/-- `ds.read((char *) &v, sizeof(T))`. -/
def readPrim (p : Prim) : StateT σ (Except Fault) p.Val := do
  let bs ← ByteSource.read (BitVec.ofNat 32 p.size)
  return p.ofBytes bs

/-- `ds >> b` for a `uint8_t` or a `char`. -/
def readByte : StateT σ (Except Fault) Byte := do
  let bs ← ByteSource.read 1
  return BitVec.ofNat 8 (ofLeBytes bs)

/-- `operator>>(DataStream &ds, std::string &v)`. -/
def readString : StateT σ (Except Fault) (List Byte) := do
  let s ← readUnsignedInt
  ByteSource.read s

/-- The overloads for `list` and `deque`. -/
def readSequence (t : Ty) (each : Val t → StateT σ (Except Fault) (Val t)) (dst : List (Val t)) :
    StateT σ (Except Fault) (List (Val t)) := do
  let s ← readUnsignedInt
  (resize t dst s.toNat).mapM each

/-- The two overloads for `vector`. -/
def readVector : (t : Ty) → (Val t → StateT σ (Except Fault) (Val t)) → List (Val t) →
    StateT σ (Except Fault) (List (Val t))
  | .prim .char, _, _ => readString
  | t, each, dst => readSequence t each dst

/-- The overloads for `set` and `map`: `clear`, then `emplace` every element. -/
def readOrdered {α κ : Type} (less : κ → κ → Bool) (key : α → κ)
    (each : StateT σ (Except Fault) α) : StateT σ (Except Fault) (List α) := do
  let s ← readUnsignedInt
  iterateM (fun xs => do return emplace less key (← each) xs) s.toNat []

/-- The two overloads for C arrays. -/
def readCArray (n : ℕ) : (t : Ty) → (Val t → StateT σ (Except Fault) (Val t)) →
    List.Vector (Val t) n → StateT σ (Except Fault) (List.Vector (Val t) n)
  | .prim p, _, _ => do
      let s ← readUnsignedInt
      check (n == s.toNat) "T[] size and unpacked size don't match"
      let bs ← ByteSource.read (BitVec.ofNat 32 (n * p.size))
      return p.ofBlock n bs
  | _, each, dst => do
      let s ← readUnsignedInt
      check (n == s.toNat) "T[] size and unpacked size don't match"
      dst.mmap each

/-- `operator>>(datastream<Stream> &ds, std::optional<T> &opt)`: a zero flag
assigns nothing. -/
def readOptional {α : Type} (each : StateT σ (Except Fault) α) (dst : Option α) :
    StateT σ (Except Fault) (Option α) := do
  let valid ← readByte
  if valid ≠ 0 then some <$> each else pure dst

/-- The two branches of `deserialize<I>(ds, var, i)`. -/
def readAlternative {α β : Type} (here : Bool) (this : StateT σ (Except Fault) α)
    (others : StateT σ (Except Fault) β) : StateT σ (Except Fault) (α ⊕ β) :=
  if here then Sum.inl <$> this else Sum.inr <$> others

mutual

/-- `operator>>`, reading into `dst`. -/
def deserialize (less : Comparators) : (t : Ty) → Val t → StateT σ (Except Fault) (Val t)
  | .prim p, _ => readPrim p
  | .unsignedInt, _ => readUnsignedInt
  | .signedInt, _ => readSignedInt
  | .name, _ => do
      let bs ← ByteSource.read 8
      return BitVec.ofNat 64 (ofLeBytes bs)
  | .address, (dst : List.Vector Byte 20) => dst.mmap fun _ => readByte
  | .checksum256, (dst : List.Vector Byte 32) => dst.mmap fun _ => readByte
  | .string, _ => readString
  | .vector t, dst => readVector t (deserialize less t) dst
  | .list t, dst => readSequence t (deserialize less t) dst
  | .deque t, dst => readSequence t (deserialize less t) dst
  | .set t, _ => readOrdered (less t) id (deserialize less t (init t))
  | .map k t, _ => readOrdered (less k) Prod.fst do
      let key ← deserialize less k (init k)
      let value ← deserialize less t (init t)
      return (key, value)
  | .pair a b, _ => do
      let t1 ← deserialize less a (init a)
      let t2 ← deserialize less b (init b)
      return (t1, t2)
  | .tuple ts, dst => deserializeFields less ts dst
  | .optional t, dst => readOptional (deserialize less t (init t)) dst
  | .variant t ts, _ => do
      let index ← readUnsignedInt
      readAlternative (index.toInt == 0) (deserialize less t (init t))
        (deserializeAlt less ts 1 index.toInt)
  | .array t _, (dst : List.Vector (Val t) _) => dst.mmap (deserialize less t)
  | .carray t n, dst => readCArray n t (deserialize less t) dst
  | .struct _ ts, dst => deserializeFields less ts dst

def deserializeFields (less : Comparators) :
    (ts : List Ty) → Vals ts → StateT σ (Except Fault) (Vals ts)
  | [], _ => pure ()
  | t :: ts, (dst : Val t × Vals ts) => do
      let field ← deserialize less t dst.1
      let fields ← deserializeFields less ts dst.2
      return (field, fields)

/-- `deserialize<I>(ds, var, i)`, for the alternatives from index `I` on. -/
def deserializeAlt (less : Comparators) :
    (ts : List Ty) → (I : ℕ) → (i : ℤ) → StateT σ (Except Fault) (Alts ts)
  | [], _, _ => throw (.check "invalid variant index")
  | t :: ts, I, i =>
      readAlternative (i == I) (deserialize less t (init t)) (deserializeAlt less ts (I + 1) i)

end

end Overloads

end FractalCdt.Codec
