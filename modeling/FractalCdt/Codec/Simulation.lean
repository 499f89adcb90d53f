/-
# Deserializing from related streams

`operator>>` looks at a stream only through `read` and `get`.  What holds of
these two and passes from the steps of a program to the program holds of
`operator>>`, for every type.  In particular two streams that answer alike give
the same value or fail the same way.
-/

import FractalCdt.Codec.Deserialize

namespace FractalCdt.Codec

open FractalCdt.Math

variable {σ τ : Type} [ByteSource σ Fault] [ByteSource τ Fault]
  {P : (α : Type) → StateT σ (Except Fault) α → StateT τ (Except Fault) α → Prop}

/-- The relation passes from `read` and `get` to programs that use them. -/
structure Reads (P : (α : Type) → StateT σ (Except Fault) α → StateT τ (Except Fault) α → Prop) :
    Prop extends Composes P where
  read : ∀ s, P _ (ByteSource.read s) (ByteSource.read s)
  get : P _ ByteSource.get ByteSource.get

section Overloads

variable (h : Reads P)

include h

theorem Reads.check (pred : Bool) (msg : String) : P Unit (check pred msg) (check pred msg) := by
  cases pred with
  | true => exact h.pure ()
  | false => exact h.throw _

theorem Reads.readGroups {w : ℕ} (turns : ℕ) (v : BitVec w) (shift : ℕ) :
    P _ (readGroups turns v shift) (readGroups turns v shift) := by
  induction turns generalizing v shift with
  | zero => exact h.bind h.get fun _ => h.throw _
  | succ turns ih =>
      refine h.bind h.get fun b => ?_
      by_cases hmore : b &&& 0x80#8 ≠ 0#8
      · simp only [if_pos hmore]
        exact ih _ _
      · simp only [if_neg hmore]
        exact h.pure _

theorem Reads.readUnsignedInt : P _ readUnsignedInt readUnsignedInt :=
  h.bind (h.readGroups 5 _ 0) fun _ => h.pure _

theorem Reads.readByte : P _ readByte readByte := h.bind (h.read 1) fun _ => h.pure _

theorem Reads.readString : P _ readString readString := h.bind h.readUnsignedInt h.read

variable {t : Ty} {f : Val t → StateT σ (Except Fault) (Val t)}
  {g : Val t → StateT τ (Except Fault) (Val t)} (hfg : ∀ d, P _ (f d) (g d))

include hfg

theorem Reads.readSequence (dst : List (Val t)) :
    P _ (readSequence t f dst) (readSequence t g dst) :=
  h.bind h.readUnsignedInt fun _ => h.mapM hfg _

theorem Reads.readVector (dst : List (Val t)) : P _ (readVector t f dst) (readVector t g dst) := by
  cases t with
  | prim p =>
      cases p with
      | char => exact h.readString
      | _ => exact h.readSequence hfg dst
  | _ => exact h.readSequence hfg dst

theorem Reads.readCArray {n : ℕ} (dst : List.Vector (Val t) n) :
    P _ (readCArray n t f dst) (readCArray n t g dst) := by
  cases t with
  | prim p =>
      exact h.bind h.readUnsignedInt fun _ => h.bind (h.check _ _) fun _ =>
        h.bind (h.read _) fun _ => h.pure _
  | _ =>
      exact h.bind h.readUnsignedInt fun _ => h.bind (h.check _ _) fun _ => h.mmap hfg dst

end Overloads

section Ordered

variable {α β κ : Type} {f : StateT σ (Except Fault) α} {g : StateT τ (Except Fault) α}
  {f' : StateT σ (Except Fault) β} {g' : StateT τ (Except Fault) β}

theorem Reads.readOrdered (h : Reads P) (less : κ → κ → Bool) (key : α → κ) (hfg : P α f g) :
    P _ (readOrdered less key f) (readOrdered less key g) :=
  h.bind h.readUnsignedInt fun _ => h.iterateM (fun _ => h.bind hfg fun _ => h.pure _) _ _

theorem Reads.readOptional (h : Reads P) (hfg : P α f g) (dst : Option α) :
    P _ (readOptional f dst) (readOptional g dst) := by
  refine h.bind h.readByte fun valid => ?_
  by_cases hvalid : valid ≠ 0
  · rw [if_pos hvalid, if_pos hvalid]
    exact h.map hfg some
  · rw [if_neg hvalid, if_neg hvalid]
    exact h.pure dst

theorem Reads.readAlternative (h : Reads P) (here : Bool) (hfg : P α f g) (hfg' : P β f' g') :
    P _ (readAlternative here f f') (readAlternative here g g') := by
  cases here with
  | true => exact h.map hfg Sum.inl
  | false => exact h.map hfg' Sum.inr

end Ordered

variable {less : Comparators}

mutual

/-- What passes from `read` and `get` to programs holds of `operator>>`. -/
theorem Reads.deserialize (h : Reads P) : (t : Ty) → (dst : Val t) →
    P _ (deserialize less t dst) (deserialize less t dst)
  | .prim _, _ => h.bind (h.read _) fun _ => h.pure _
  | .unsignedInt, _ => h.readUnsignedInt
  | .signedInt, _ => h.bind (h.readGroups 5 _ 0) fun _ => h.pure _
  | .name, _ => h.bind (h.read 8) fun _ => h.pure _
  | .address, dst => h.mmap (fun _ => h.readByte) dst
  | .checksum256, dst => h.mmap (fun _ => h.readByte) dst
  | .string, _ => h.readString
  | .vector t, dst => h.readVector (h.deserialize t) dst
  | .list t, dst => h.readSequence (h.deserialize t) dst
  | .deque t, dst => h.readSequence (h.deserialize t) dst
  | .set t, _ => h.readOrdered _ _ (h.deserialize t _)
  | .map k t, _ => h.readOrdered _ _ <| h.bind (h.deserialize k _) fun _ =>
      h.bind (h.deserialize t _) fun _ => h.pure _
  | .pair a b, _ => h.bind (h.deserialize a _) fun _ => h.bind (h.deserialize b _) fun _ =>
      h.pure _
  | .tuple ts, dst => h.deserializeFields ts dst
  | .optional t, dst => h.readOptional (h.deserialize t _) dst
  | .variant t ts, _ => h.bind h.readUnsignedInt fun _ =>
      h.readAlternative _ (h.deserialize t _) (h.deserializeAlt ts _ _)
  | .array t _, dst => h.mmap (h.deserialize t) dst
  | .carray t _, dst => h.readCArray (h.deserialize t) dst
  | .struct _ ts, dst => h.deserializeFields ts dst

theorem Reads.deserializeFields (h : Reads P) : (ts : List Ty) → (dst : Vals ts) →
    P _ (deserializeFields less ts dst) (deserializeFields less ts dst)
  | [], _ => h.pure ()
  | t :: ts, dst => h.bind (h.deserialize t dst.1) fun _ =>
      h.bind (h.deserializeFields ts dst.2) fun _ => h.pure _

theorem Reads.deserializeAlt (h : Reads P) : (ts : List Ty) → (I : ℕ) → (i : ℤ) →
    P _ (deserializeAlt less ts I i) (deserializeAlt less ts I i)
  | [], _, _ => h.throw _
  | t :: ts, _, _ => h.readAlternative _ (h.deserialize t _) (h.deserializeAlt ts _ _)

end

variable {R : σ → τ → Prop}

/-- The two streams answer alike. -/
structure Alike (R : σ → τ → Prop) : Prop where
  read : ∀ s, Simulates R (ByteSource.read s) (ByteSource.read s)
  get : Simulates R ByteSource.get ByteSource.get

theorem Alike.reads (h : Alike R) : Reads fun α => Simulates (α := α) R :=
  { composes_simulates R with read := h.read, get := h.get }

/-- `operator>>` cannot tell the two streams apart. -/
theorem simulates_deserialize (h : Alike R) (t : Ty) (dst : Val t) :
    Simulates R (deserialize less t dst) (deserialize less t dst) :=
  h.reads.deserialize t dst

end FractalCdt.Codec
