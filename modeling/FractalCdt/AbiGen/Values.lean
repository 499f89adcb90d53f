/-
# Values in the layout of their type

`layoutOf` is the layout the generator means a type to have.  The library writes a
value in it, unless the type has a `signed_int` somewhere: that is four bytes in the
layout and a zigzag varint in the library.
-/

import FractalCdt.AbiGen.Layout
import FractalCdt.AbiGen.Spelling
import FractalCdt.Codec.Independence

namespace FractalCdt.AbiGen

open FractalCdt.Math FractalCdt.Codec

/-! ## Values and layouts of a type -/

def Container.ty : Container → Ty → Ty
  | .vector => .vector
  | .list => .list
  | .deque => .deque
  | .set => .set

/-- The number a primitive value stands for. -/
def primNum : (p : Prim) → p.Val → ℤ
  | .bool, (v : Bool) => if v then 1 else 0
  | .char, (v : BitVec _) => v.toInt
  | .int true _, (v : BitVec _) => v.toInt
  | .int false _, (v : BitVec _) => v.toNat
  | .enum _ _, (v : BitVec _) => v.toNat

mutual

/-- A value as a client writes it down. -/
def view : (t : Ty) → Val t → Variant
  | .prim p, v => .num (primNum p v)
  | .unsignedInt, (v : BitVec 32) => .num v.toNat
  | .signedInt, (v : BitVec 32) => .record [.num v.toInt]
  | .name, (v : BitVec 64) => .num v.toNat
  | .address, (v : List.Vector Byte 20) => .seq (v.toList.map fun b => .num b.toNat)
  | .checksum256, (v : List.Vector Byte 32) => .seq (v.toList.map fun b => .num b.toNat)
  | .string, (v : List Byte) => .seq (v.map fun c => .num c.toInt)
  | .vector t, (v : List (Val t)) => .seq (v.map fun x => view t x)
  | .list t, (v : List (Val t)) => .seq (v.map fun x => view t x)
  | .deque t, (v : List (Val t)) => .seq (v.map fun x => view t x)
  | .set t, (v : List (Val t)) => .seq (v.map fun x => view t x)
  | .map k t, (v : List (Val k × Val t)) => .seq (v.map fun i => .record [view k i.1, view t i.2])
  | .pair a b, (v : Val a × Val b) => .record [view a v.1, view b v.2]
  | .tuple ts, v => .record (viewFields ts v)
  | .optional t, (v : Option (Val t)) => .opt (v.map fun x => view t x)
  | .variant t ts, (v : Val t ⊕ Alts ts) => v.elim (view t) (viewAlt ts)
  | .array t _, (v : List.Vector (Val t) _) => .seq (v.toList.map fun x => view t x)
  | .carray t _, (v : List.Vector (Val t) _) => .seq (v.toList.map fun x => view t x)
  | .struct _ ts, v => .record (viewFields ts v)

def viewFields : (ts : List Ty) → Vals ts → List Variant
  | [], _ => []
  | t :: ts, (v : Val t × Vals ts) => view t v.1 :: viewFields ts v.2

def viewAlt : (ts : List Ty) → Alts ts → Variant
  | [], v => v.elim
  | t :: ts, (v : Val t ⊕ Alts ts) => v.elim (view t) (viewAlt ts)

end

mutual

/-- The ABI has a notation for the type: it has none for enumerations, variants and arrays of
a fixed length. -/
def InAbi : Ty → Prop
  | .prim (.enum _ _) | .variant _ _ | .array _ _ | .carray _ _ => False
  | .vector t | .list t | .deque t | .set t | .optional t => InAbi t
  | .map a b | .pair a b => InAbi a ∧ InAbi b
  | .tuple ts => AllInAbi ts
  | .struct _ ts => AllInAbi ts
  | _ => True

def AllInAbi : List Ty → Prop
  | [] => True
  | t :: ts => InAbi t ∧ AllInAbi ts

end

mutual

/-- The layout a type is meant to have in the ABI, if there is a notation for it. -/
def layoutOf : Ty → Layout
  | .prim .bool => .bool
  | .prim .char => .int true 1
  | .prim (.int signed w) => .int signed w.bytes
  | .unsignedInt => .varuint32
  | .signedInt => .struct [.int true 4]
  | .name => .int false 8
  | .address => .raw 20
  | .checksum256 => .raw 32
  | .string => .array (.int true 1)
  | .vector t => .array (layoutOf t)
  | .list t => .array (layoutOf t)
  | .deque t => .array (layoutOf t)
  | .set t => .array (layoutOf t)
  | .map k t => .array (.struct [layoutOf k, layoutOf t])
  | .pair a b => .struct [layoutOf a, layoutOf b]
  | .tuple ts => .struct (layoutsOf ts)
  | .optional t => .optional (layoutOf t)
  | .struct _ ts => .struct (layoutsOf ts)
  | .prim (.enum _ _) | .variant _ _ | .array _ _ | .carray _ _ => .struct []

def layoutsOf : List Ty → List Layout
  | [] => []
  | t :: ts => layoutOf t :: layoutsOf ts

end

mutual

/-- How often `signed_int` occurs in the type. -/
def signedInts : Ty → ℕ
  | .signedInt => 1
  | .vector t | .list t | .deque t | .set t | .optional t => signedInts t
  | .map a b | .pair a b => signedInts a + signedInts b
  | .tuple ts => signedIntsAll ts
  | .struct _ ts => signedIntsAll ts
  | _ => 0

def signedIntsAll : List Ty → ℕ
  | [] => 0
  | t :: ts => signedInts t + signedIntsAll ts

end

section Leaves

variable {less : Comparators}

theorem encodeInt_unsigned {size : ℕ} (v : BitVec (8 * size)) :
    encodeInt false size (.num v.toNat) = some (leBytes size v.toNat) := by
  have hlt : (v.toNat : ℤ) < 2 ^ (8 * size) := by exact_mod_cast v.isLt
  simp only [encodeInt, Bool.false_eq_true, if_false]
  rw [if_pos ⟨Int.natCast_nonneg _, hlt⟩, BitVec.ofInt_natCast, BitVec.ofNat_toNat,
    BitVec.setWidth_eq]

theorem encodeInt_signed {size : ℕ} (v : BitVec (8 * size)) :
    encodeInt true size (.num v.toInt) = some (leBytes size v.toNat) := by
  simp only [encodeInt, if_true]
  rw [if_pos ⟨BitVec.le_toInt v, BitVec.toInt_lt⟩, BitVec.ofInt_toInt]

theorem leBytes_one (b : Byte) : leBytes 1 b.toNat = [b] := by
  show [BitVec.ofNat 8 b.toNat] = [b]
  rw [BitVec.ofNat_toNat, BitVec.setWidth_eq]

theorem encode_prim_int (signed : Bool) (w : Width) (v : (Prim.int signed w).Val) :
    (Layout.int signed w.bytes).encode (.num (primNum (.int signed w) v)) =
      some ((Prim.int signed w).bytes v) := by
  cases signed with
  | false => exact @encodeInt_unsigned w.bytes v
  | true => exact @encodeInt_signed w.bytes v

/-- An array of characters or bytes. -/
theorem encodeEach_bytes (signed : Bool) {num : Byte → ℤ}
    (hnum : ∀ b, encodeInt signed 1 (.num (num b)) = some [b]) (bs : List Byte) :
    encodeEach (encodeInt signed 1) (bs.map fun b => .num (num b)) = some bs := by
  rw [encodeEach_map fun b _ => hnum b, List.flatMap_singleton']

theorem encodeInt_byte (b : Byte) : encodeInt false 1 (.num b.toNat) = some [b] :=
  (@encodeInt_unsigned 1 b).trans (congrArg some (leBytes_one b))

theorem encodeInt_char (c : Byte) : encodeInt true 1 (.num c.toInt) = some [c] :=
  (@encodeInt_signed 1 c).trans (congrArg some (leBytes_one c))

theorem encode_raw {n : ℕ} (v : List.Vector Byte n) :
    (Layout.raw n).encode (.seq (v.toList.map fun b => .num b.toNat)) = some v.toList := by
  have hlength : (v.toList.map fun b => Variant.num b.toNat).length = n := by simp
  rw [Layout.encode, if_pos hlength, encodeEach_bytes false encodeInt_byte]

/-- An array is written as `encodeSequence` writes it. -/
theorem encode_array_map {α : Type} {L : Layout} {view : α → Variant} {bytes : α → List Byte}
    {vs : List α} (hsize : SizeFits vs) (h : ∀ v ∈ vs, L.encode (view v) = some (bytes v)) :
    (Layout.array L).encode (.seq (vs.map view)) = some (encodeSequence bytes vs) := by
  have hlength : (vs.map view).length < 2 ^ 32 := (List.length_map view).trans_lt hsize
  have heach : encodeEach (fun x => L.encode x) (vs.map view) = some (vs.flatMap bytes) :=
    encodeEach_map h
  rw [Layout.encode, if_pos hlength, heach, encodeSequence, List.length_map, Nat.mod_eq_of_lt hsize]
  rfl

end Leaves

section Types

variable {less : Comparators}

theorem encode_struct_pair {L L' : Layout} {x x' : Variant} {bytes bytes' : List Byte}
    (h : L.encode x = some bytes) (h' : L'.encode x' = some bytes') :
    (Layout.struct [L, L']).encode (.record [x, x']) = some (bytes ++ bytes') := by
  simp [Layout.encode, encodeFields, h, h']

theorem encodeFields_cons {L : Layout} {Ls : List Layout} {x : Variant} {xs : List Variant}
    {bytes rest : List Byte} (h : L.encode x = some bytes)
    (hrest : encodeFields Ls xs = some rest) :
    encodeFields (L :: Ls) (x :: xs) = some (bytes ++ rest) := by
  simp [encodeFields, h, hrest]

mutual

/-- Without a `signed_int`, the layout of the type is what the library writes. -/
theorem encode_view : (t : Ty) → InAbi t → signedInts t = 0 → (v : Val t) → WellFormed less t v →
    (layoutOf t).encode (view t v) = some (Codec.encode t v)
  | .prim .bool, _, _, (v : Bool), _ => by
      cases v
      · rfl
      · rfl
  | .prim .char, _, _, v, _ => encode_prim_int true .w8 v
  | .prim (.int signed w), _, _, v, _ => encode_prim_int signed w v
  | .unsignedInt, _, _, v, _ => by
      have hlt : ((v : BitVec 32).toNat : ℤ) < 2 ^ 32 := by exact_mod_cast BitVec.isLt v
      exact if_pos ⟨Int.natCast_nonneg _, hlt⟩
  | .signedInt, _, hsigned, _, _ => absurd hsigned one_ne_zero
  | .name, _, _, v, _ => @encodeInt_unsigned 8 v
  | .address, _, _, v, _ => encode_raw v
  | .checksum256, _, _, v, _ => encode_raw v
  | .string, _, _, v, hv =>
      have hchar : ∀ c : Byte, (Layout.int true 1).encode (.num c.toInt) = some [c] :=
        encodeInt_char
      encode_array_map (α := Byte) hv fun c _ => hchar c
  | .vector t, ht, hsigned, v, hv =>
      encode_array_map hv.1 fun x hx => encode_view t ht hsigned x (hv.2 x hx)
  | .list t, ht, hsigned, v, hv =>
      encode_array_map hv.1 fun x hx => encode_view t ht hsigned x (hv.2 x hx)
  | .deque t, ht, hsigned, v, hv =>
      encode_array_map hv.1 fun x hx => encode_view t ht hsigned x (hv.2 x hx)
  | .set t, ht, hsigned, v, hv =>
      encode_array_map hv.1 fun x hx => encode_view t ht hsigned x (hv.2.2 x hx)
  | .map k t, ht, hsigned, v, hv =>
      have hk := Nat.eq_zero_of_add_eq_zero_right hsigned
      have ht' := Nat.eq_zero_of_add_eq_zero_left hsigned
      encode_array_map hv.1 fun i hi => encode_struct_pair
        (encode_view k ht.1 hk i.1 (hv.2.2 i hi).1) (encode_view t ht.2 ht' i.2 (hv.2.2 i hi).2)
  | .pair a b, ht, hsigned, v, hv =>
      have ha := Nat.eq_zero_of_add_eq_zero_right hsigned
      have hb := Nat.eq_zero_of_add_eq_zero_left hsigned
      encode_struct_pair (encode_view a ht.1 ha v.1 hv.1) (encode_view b ht.2 hb v.2 hv.2)
  | .tuple ts, ht, hsigned, v, hv => encode_viewFields ts ht hsigned v hv
  | .optional t, ht, hsigned, (v : Option (Val t)), hv => by
      cases v with
      | none => rfl
      | some x =>
          have hx := encode_view t ht hsigned x (hv x rfl)
          exact congrArg (Option.map _) hx
  | .struct _ ts, ht, hsigned, v, hv => encode_viewFields ts ht hsigned v hv

theorem encode_viewFields : (ts : List Ty) → AllInAbi ts → signedIntsAll ts = 0 → (v : Vals ts) →
    AllWellFormed less ts v →
    encodeFields (layoutsOf ts) (viewFields ts v) = some (Codec.encodeFields ts v)
  | [], _, _, _, _ => rfl
  | t :: ts, ht, hsigned, v, hv =>
      have hfirst := Nat.eq_zero_of_add_eq_zero_right hsigned
      have hrest := Nat.eq_zero_of_add_eq_zero_left hsigned
      encodeFields_cons (encode_view t ht.1 hfirst v.1 hv.1)
        (encode_viewFields ts ht.2 hrest v.2 hv.2)

end

end Types

/-! ## A value with everything in it -/

mutual

/-- Every container holds one element and every scalar is zero. -/
def sample : (t : Ty) → Val t
  | .vector t => ([sample t] : List (Val t))
  | .list t => ([sample t] : List (Val t))
  | .deque t => ([sample t] : List (Val t))
  | .set t => ([sample t] : List (Val t))
  | .map k t => ([(sample k, sample t)] : List (Val k × Val t))
  | .pair a b => (sample a, sample b)
  | .tuple ts => samples ts
  | .optional t => some (sample t)
  | .struct _ ts => samples ts
  | t => init t

def samples : (ts : List Ty) → Vals ts
  | [] => ()
  | t :: ts => (sample t, samples ts)

end

section Sample

variable {less : Comparators}

theorem sizeFits_singleton {α : Type} (x : α) : SizeFits [x] := by
  show 1 < 2 ^ 32
  decide

theorem sorted_singleton {α β : Type} (lt : β → β → Bool) (key : α → β) (x : α) :
    Sorted lt key [x] := List.pairwise_singleton _ _

mutual

theorem wellFormed_sample : (t : Ty) → WellFormed less t (sample t)
  | .vector t => ⟨sizeFits_singleton _, List.forall_mem_singleton.mpr (wellFormed_sample t)⟩
  | .list t => ⟨sizeFits_singleton _, List.forall_mem_singleton.mpr (wellFormed_sample t)⟩
  | .deque t => ⟨sizeFits_singleton _, List.forall_mem_singleton.mpr (wellFormed_sample t)⟩
  | .set t =>
      ⟨sizeFits_singleton _, sorted_singleton _ _ _,
        List.forall_mem_singleton.mpr (wellFormed_sample t)⟩
  | .map k t =>
      ⟨sizeFits_singleton _, sorted_singleton _ _ _,
        List.forall_mem_singleton.mpr ⟨wellFormed_sample k, wellFormed_sample t⟩⟩
  | .pair a b => ⟨wellFormed_sample a, wellFormed_sample b⟩
  | .tuple ts => allWellFormed_samples ts
  | .optional t => by
      rintro x ⟨⟩
      exact wellFormed_sample t
  | .struct _ ts => allWellFormed_samples ts
  | .prim p => wellFormed_init (.prim p)
  | .unsignedInt => wellFormed_init .unsignedInt
  | .signedInt => wellFormed_init .signedInt
  | .name => wellFormed_init .name
  | .address => wellFormed_init .address
  | .checksum256 => wellFormed_init .checksum256
  | .string => wellFormed_init .string
  | .variant t ts => wellFormed_init (.variant t ts)
  | .array t n => wellFormed_init (.array t n)
  | .carray t n => wellFormed_init (.carray t n)

theorem allWellFormed_samples : (ts : List Ty) → AllWellFormed less ts (samples ts)
  | [] => trivial
  | t :: ts => ⟨wellFormed_sample t, allWellFormed_samples ts⟩

end

end Sample

/-- In the layout the value takes this many bytes more than the library writes. -/
def Longer (written : Option (List Byte)) (bytes : List Byte) (more : ℕ) : Prop :=
  ∃ out, written = some out ∧ out.length = bytes.length + more

theorem Longer.append {written written' : Option (List Byte)} {bytes bytes' : List Byte}
    {more more' : ℕ} (h : Longer written bytes more) (h' : Longer written' bytes' more') :
    Longer (written.bind fun out => written'.map fun out' => out ++ out') (bytes ++ bytes')
      (more + more') := by
  obtain ⟨out, rfl, hlength⟩ := h
  obtain ⟨out', rfl, hlength'⟩ := h'
  refine ⟨out ++ out', rfl, ?_⟩
  rw [List.length_append, List.length_append]
  omega

theorem Longer.front {written : Option (List Byte)} {bytes : List Byte} {more : ℕ}
    (h : Longer written bytes more) (front : List Byte) :
    Longer (written.map fun out => front ++ out) (front ++ bytes) more := by
  obtain ⟨out, rfl, hlength⟩ := h
  refine ⟨front ++ out, rfl, ?_⟩
  rw [List.length_append, List.length_append]
  omega

theorem Longer.pair {L L' : Layout} {x x' : Variant} {bytes bytes' : List Byte} {more more' : ℕ}
    (h : Longer (L.encode x) bytes more) (h' : Longer (L'.encode x') bytes' more') :
    Longer ((Layout.struct [L, L']).encode (.record [x, x'])) (bytes ++ bytes') (more + more') := by
  obtain ⟨out, hout, hlength⟩ := h
  obtain ⟨out', hout', hlength'⟩ := h'
  refine ⟨out ++ out', encode_struct_pair hout hout', ?_⟩
  rw [List.length_append, List.length_append]
  omega

/-- An array of one element. -/
theorem Longer.array {α : Type} {L : Layout} {x : Variant} {v : α} {each : α → List Byte} {more : ℕ}
    (h : Longer (L.encode x) (each v) more) :
    Longer ((Layout.array L).encode (.seq [x])) (encodeSequence each [v]) more := by
  obtain ⟨out, hout, hlength⟩ := h
  refine ⟨uleb 1 ++ out, ?_, ?_⟩
  · simp [Layout.encode, encodeEach, hout]
  · simp [encodeSequence, hlength, Nat.add_assoc]

theorem longer_signedInt :
    Longer ((layoutOf .signedInt).encode (view .signedInt (init .signedInt)))
      (Codec.encode .signedInt (init .signedInt)) 3 :=
  ⟨[0, 0, 0, 0], by decide +kernel, by decide +kernel⟩

theorem longer_of_encode {t : Ty} {v : Val t}
    (h : (layoutOf t).encode (view t v) = some (Codec.encode t v)) :
    Longer ((layoutOf t).encode (view t v)) (Codec.encode t v) 0 :=
  ⟨_, h, rfl⟩

/-- What has no parts is written in its layout, unless it is a `signed_int`. -/
theorem longer_leaf {t : Ty} (ht : InAbi t) (hsigned : signedInts t = 0)
    (hsample : sample t = init t) :
    Longer ((layoutOf t).encode (view t (sample t))) (Codec.encode t (sample t))
      (3 * signedInts t) := by
  rw [hsample, hsigned]
  exact longer_of_encode (@encode_view (fun _ _ _ => false) t ht hsigned _ (wellFormed_init t))

mutual

/-- A `signed_int` takes three bytes more than its zero is written in. -/
theorem longer_sample : (t : Ty) → InAbi t →
    Longer ((layoutOf t).encode (view t (sample t))) (Codec.encode t (sample t))
      (3 * signedInts t)
  | .prim .bool, h => longer_leaf h rfl rfl
  | .prim .char, h => longer_leaf h rfl rfl
  | .prim (.int _ _), h => longer_leaf h rfl rfl
  | .unsignedInt, h => longer_leaf h rfl rfl
  | .signedInt, _ => longer_signedInt
  | .name, h => longer_leaf h rfl rfl
  | .address, h => longer_leaf h rfl rfl
  | .checksum256, h => longer_leaf h rfl rfl
  | .string, h => longer_leaf h rfl rfl
  | .vector t, h => (longer_sample t h).array
  | .list t, h => (longer_sample t h).array
  | .deque t, h => (longer_sample t h).array
  | .set t, h => (longer_sample t h).array
  | .map k t, h => by
      have hentry := (longer_sample k h.1).pair (longer_sample t h.2)
      rw [← Nat.mul_add] at hentry
      exact @Longer.array (Val k × Val t) _ _ _ _ _ hentry
  | .pair a b, h => by
      have hboth := (longer_sample a h.1).pair (longer_sample b h.2)
      rwa [← Nat.mul_add] at hboth
  | .tuple ts, h => longer_samples ts h
  | .optional t, h => (longer_sample t h).front [1]
  | .struct _ ts, h => longer_samples ts h

theorem longer_samples : (ts : List Ty) → AllInAbi ts →
    Longer (encodeFields (layoutsOf ts) (viewFields ts (samples ts)))
      (Codec.encodeFields ts (samples ts)) (3 * signedIntsAll ts)
  | [], _ => ⟨[], rfl, rfl⟩
  | t :: ts, h => by
      have hcons := (longer_sample t h.1).append (longer_samples ts h.2)
      rwa [← Nat.mul_add] at hcons

end

/-! ## Layouts that take every value -/

/-- The layout has an encoding of every value of the type. -/
def Accepts (less : Comparators) (L : Layout) (t : Ty) : Prop :=
  ∀ v, WellFormed less t v → (L.encode (view t v)).isSome

def AcceptsFields (less : Comparators) (Ls : List Layout) (ts : List Ty) : Prop :=
  ∀ vs, AllWellFormed less ts vs → (encodeFields Ls (viewFields ts vs)).isSome

section Accepts

variable {less : Comparators} {L : Layout} {Ls : List Layout} {c : Container} {t k a b : Ty}
  {ts : List Ty}

/-- The other fields stay as they are in the sample. -/
theorem AcceptsFields.cons (h : AcceptsFields less (L :: Ls) (t :: ts)) :
    Accepts less L t ∧ AcceptsFields less Ls ts := by
  refine ⟨?_, ?_⟩
  · intro x hx
    exact (encodeFields_cons_isSome.mp (h (x, samples ts) ⟨hx, allWellFormed_samples ts⟩)).1
  · intro vs hvs
    exact (encodeFields_cons_isSome.mp (h (sample t, vs) ⟨wellFormed_sample t, hvs⟩)).2

end Accepts

end FractalCdt.AbiGen
