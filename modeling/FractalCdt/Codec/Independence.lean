/-
# How far decoding depends on the object that is read into

Every overload of `operator>>` builds its result from the stream, except that an
optional with a zero flag stays as it was.  Reading the same bytes into two
objects gives the same result, whatever the bytes, exactly when the two objects
hold the same optionals wherever one is read in place.
-/

import FractalCdt.Codec.RoundTrip
import Mathlib.Data.List.GetD
import Mathlib.Data.Vector.Mem

namespace FractalCdt.Codec

open FractalCdt.Math

variable {less : Comparators}

mutual

/-- The objects hold the same optionals where these are read in place.  Beyond
its end a container counts as value-initialised, as `resize` fills it up. -/
def SameKept : (t : Ty) → Val t → Val t → Prop
  | .vector t, (x : List (Val t)), (y : List (Val t)) =>
      ∀ i, SameKept t (x.getD i (init t)) (y.getD i (init t))
  | .list t, (x : List (Val t)), (y : List (Val t)) =>
      ∀ i, SameKept t (x.getD i (init t)) (y.getD i (init t))
  | .deque t, (x : List (Val t)), (y : List (Val t)) =>
      ∀ i, SameKept t (x.getD i (init t)) (y.getD i (init t))
  | .tuple ts, x, y => SameFieldsKept ts x y
  | .optional _, x, y => x = y
  | .array t _, (x : List.Vector (Val t) _), (y : List.Vector (Val t) _) =>
      ∀ i, SameKept t (x.get i) (y.get i)
  | .carray t _, (x : List.Vector (Val t) _), (y : List.Vector (Val t) _) =>
      ∀ i, SameKept t (x.get i) (y.get i)
  | .struct _ ts, x, y => SameFieldsKept ts x y
  | _, _, _ => True

def SameFieldsKept : (ts : List Ty) → Vals ts → Vals ts → Prop
  | [], _, _ => True
  | t :: ts, (x : Val t × Vals ts), (y : Val t × Vals ts) =>
      SameKept t x.1 y.1 ∧ SameFieldsKept ts x.2 y.2

end

theorem resize_eq_map (t : Ty) (x : List (Val t)) (n : ℕ) :
    resize t x n = (List.range n).map fun i => x.getD i (init t) := by
  apply List.ext_getElem
  · rw [length_resize, List.length_map, List.length_range]
  · intro i hi _
    rw [length_resize] at hi
    rw [List.getElem_map, List.getElem_range, List.getD_eq_getElem?_getD]
    by_cases hx : i < x.length
    · simp [resize, hx, hi]
    · simp [resize, List.getElem_append, hx]

section Monadic

variable {m : Type → Type} [Monad m] {α β : Type} {f : α → m β}

theorem mapM_map_congr [LawfulMonad m] {x y : ℕ → α} (h : ∀ i, f (x i) = f (y i)) (is : List ℕ) :
    (is.map x).mapM f = (is.map y).mapM f := by
  induction is with
  | nil => rfl
  | cons i is ih => rw [List.map_cons, List.map_cons, List.mapM_cons, List.mapM_cons, h, ih]

theorem mmap_congr {n : ℕ} {x y : List.Vector α n} (h : ∀ i, f (x.get i) = f (y.get i)) :
    x.mmap f = y.mmap f := by
  induction x, y using List.Vector.inductionOn₂ with
  | nil => rfl
  | cons ih =>
      rename_i a b x y
      have hhead : f a = f b := h 0
      have htail : x.mmap f = y.mmap f := ih fun i => h i.succ
      rw [List.Vector.mmap_cons, List.Vector.mmap_cons, hhead, htail]

end Monadic

section Overloads

variable {σ : Type} [ByteSource σ Fault] {t : Ty} {each : Val t → StateT σ (Except Fault) (Val t)}

theorem readSequence_congr {x y : List (Val t)}
    (h : ∀ i, each (x.getD i (init t)) = each (y.getD i (init t))) :
    readSequence t each x = readSequence t each y := by
  unfold readSequence
  congr 1
  funext s
  rw [resize_eq_map, resize_eq_map]
  exact mapM_map_congr h _

theorem readVector_congr {x y : List (Val t)}
    (h : ∀ i, each (x.getD i (init t)) = each (y.getD i (init t))) :
    readVector t each x = readVector t each y := by
  cases t with
  | prim p =>
      cases p with
      | char => rfl
      | _ => exact readSequence_congr h
  | _ => exact readSequence_congr h

theorem readCArray_congr {n : ℕ} {x y : List.Vector (Val t) n}
    (h : ∀ i, each (x.get i) = each (y.get i)) :
    readCArray n t each x = readCArray n t each y := by
  have hloop := mmap_congr h
  cases t with
  | prim p => rfl
  | _ => rw [readCArray.eq_def, readCArray.eq_def]; simp only [hloop]

end Overloads

section Congruence

variable {σ : Type} [ByteSource σ Fault]

mutual

/-- On any stream the two objects make `operator>>` the same program. -/
theorem SameKept.deserialize_eq : (t : Ty) → (x y : Val t) → SameKept t x y →
    deserialize (σ := σ) less t x = deserialize less t y
  | .vector t, x, y, h => readVector_congr fun i => SameKept.deserialize_eq t _ _ (h i)
  | .list t, x, y, h => readSequence_congr fun i => SameKept.deserialize_eq t _ _ (h i)
  | .deque t, x, y, h => readSequence_congr fun i => SameKept.deserialize_eq t _ _ (h i)
  | .tuple ts, x, y, h => SameFieldsKept.deserialize_eq ts x y h
  | .optional _, x, y, h => by rw [show x = y from h]
  | .array t _, x, y, h => mmap_congr fun i => SameKept.deserialize_eq t _ _ (h i)
  | .carray t _, x, y, h => readCArray_congr fun i => SameKept.deserialize_eq t _ _ (h i)
  | .struct _ ts, x, y, h => SameFieldsKept.deserialize_eq ts x y h
  | .prim _, _, _, _ => rfl
  | .unsignedInt, _, _, _ => rfl
  | .signedInt, _, _, _ => rfl
  | .name, _, _, _ => rfl
  | .address, _, _, _ => mmap_congr fun _ => rfl
  | .checksum256, _, _, _ => mmap_congr fun _ => rfl
  | .string, _, _, _ => rfl
  | .set _, _, _, _ => rfl
  | .map _ _, _, _, _ => rfl
  | .pair _ _, _, _, _ => rfl
  | .variant _ _, _, _, _ => rfl

theorem SameFieldsKept.deserialize_eq : (ts : List Ty) → (x y : Vals ts) →
    SameFieldsKept ts x y → deserializeFields (σ := σ) less ts x = deserializeFields less ts y
  | [], _, _, _ => rfl
  | t :: ts, (x : Val t × Vals ts), (y : Val t × Vals ts), h => by
      have hfield := SameKept.deserialize_eq t x.1 y.1 h.1
      have hfields := SameFieldsKept.deserialize_eq ts x.2 y.2 h.2
      rw [deserializeFields, deserializeFields, hfield, hfields]

end

end Congruence

/-! ## Objects that differ are told apart by some bytes -/

mutual

theorem wellFormed_init : (t : Ty) → WellFormed less t (init t)
  | .string => Nat.two_pow_pos 32
  | .vector _ => ⟨Nat.two_pow_pos 32, nofun⟩
  | .list _ => ⟨Nat.two_pow_pos 32, nofun⟩
  | .deque _ => ⟨Nat.two_pow_pos 32, nofun⟩
  | .set _ => ⟨Nat.two_pow_pos 32, .nil, nofun⟩
  | .map _ _ => ⟨Nat.two_pow_pos 32, .nil, nofun⟩
  | .pair a b => ⟨wellFormed_init a, wellFormed_init b⟩
  | .tuple ts => allWellFormed_inits ts
  | .optional _ => nofun
  | .variant t _ => wellFormed_init t
  | .array t _ => fun _ hx => List.eq_of_mem_replicate hx ▸ wellFormed_init t
  | .carray t _ => fun _ hx => List.eq_of_mem_replicate hx ▸ wellFormed_init t
  | .struct _ ts => allWellFormed_inits ts
  | .prim _ => trivial
  | .unsignedInt => trivial
  | .signedInt => trivial
  | .name => trivial
  | .address => trivial
  | .checksum256 => trivial

theorem allWellFormed_inits : (ts : List Ty) → AllWellFormed less ts (inits ts)
  | [] => trivial
  | t :: ts => ⟨wellFormed_init t, allWellFormed_inits ts⟩

end

/-- No value shows a difference between the two objects. -/
def Indistinct (less : Comparators) (t : Ty) (x y : Val t) : Prop :=
  ∀ v, WellFormed less t v → overwrite t x v = overwrite t y v

theorem wellFormed_getD {t : Ty} {x : List (Val t)} (hx : ∀ e ∈ x, WellFormed less t e) (i : ℕ) :
    WellFormed less t (x.getD i (init t)) := by
  by_cases hi : i < x.length
  · rw [List.getD_eq_getElem _ _ hi]
    exact hx _ (List.getElem_mem hi)
  · rw [List.getD_eq_default _ _ (Nat.le_of_not_lt hi)]
    exact wellFormed_init t

/-- Containers of copies of one value compare the objects slot by slot. -/
theorem indistinct_getD {t : Ty} {x y : List (Val t)} (hx : SizeFits x) (hy : SizeFits y)
    (h : ∀ v : List (Val t), (SizeFits v ∧ ∀ e ∈ v, WellFormed less t e) →
      List.zipWith (overwrite t) (resize t x v.length) v =
        List.zipWith (overwrite t) (resize t y v.length) v) (i : ℕ) :
    Indistinct less t (x.getD i (init t)) (y.getD i (init t)) := by
  intro v hv
  rw [SizeFits] at hx hy
  by_cases hi : i < max x.length y.length
  · have hfits : SizeFits (List.replicate (i + 1) v) := by
      rw [SizeFits, List.length_replicate]
      omega
    have hcopies := h (List.replicate (i + 1) v)
      ⟨hfits, fun e he => List.eq_of_mem_replicate he ▸ hv⟩
    have hslot := congrArg (·[i]?) hcopies
    simpa [resize_eq_map, List.getElem?_zipWith] using hslot
  · rw [List.getD_eq_default _ _ (by omega), List.getD_eq_default _ _ (by omega)]

theorem indistinct_get {t : Ty} {n : ℕ} {x y : List.Vector (Val t) n}
    (h : ∀ v : List.Vector (Val t) n, (∀ e ∈ v.toList, WellFormed less t e) →
      List.Vector.map₂ (overwrite t) x v = .map₂ (overwrite t) y v) (i : Fin n) :
    Indistinct less t (x.get i) (y.get i) := by
  intro v hv
  have hcopies := h (.replicate n v) fun e he => List.eq_of_mem_replicate he ▸ hv
  have hslot := congrArg (·.get i) hcopies
  simpa only [List.Vector.get_map₂, List.Vector.get_replicate] using hslot

mutual

/-- Well-formed objects that no value tells apart hold the same optionals. -/
theorem Indistinct.sameKept : (t : Ty) → (x y : Val t) → WellFormed less t x →
    WellFormed less t y → Indistinct less t x y → SameKept t x y
  | .vector t, _, _, hx, hy, h => fun i =>
      Indistinct.sameKept t _ _ (wellFormed_getD hx.2 i) (wellFormed_getD hy.2 i)
        (indistinct_getD hx.1 hy.1 h i)
  | .list t, _, _, hx, hy, h => fun i =>
      Indistinct.sameKept t _ _ (wellFormed_getD hx.2 i) (wellFormed_getD hy.2 i)
        (indistinct_getD hx.1 hy.1 h i)
  | .deque t, _, _, hx, hy, h => fun i =>
      Indistinct.sameKept t _ _ (wellFormed_getD hx.2 i) (wellFormed_getD hy.2 i)
        (indistinct_getD hx.1 hy.1 h i)
  | .tuple ts, x, y, hx, hy, h => IndistinctFields.sameKept ts x y hx hy h
  | .optional _, _, _, _, _, h => h none nofun
  | .array t _, (x : List.Vector (Val t) _), (y : List.Vector (Val t) _), hx, hy, h => fun i =>
      Indistinct.sameKept t _ _ (hx _ (List.Vector.get_mem i x))
        (hy _ (List.Vector.get_mem i y)) (indistinct_get h i)
  | .carray t _, (x : List.Vector (Val t) _), (y : List.Vector (Val t) _), hx, hy, h => fun i =>
      Indistinct.sameKept t _ _ (hx _ (List.Vector.get_mem i x))
        (hy _ (List.Vector.get_mem i y)) (indistinct_get h i)
  | .struct _ ts, x, y, hx, hy, h => IndistinctFields.sameKept ts x y hx hy h
  | .prim _, _, _, _, _, _ => trivial
  | .unsignedInt, _, _, _, _, _ => trivial
  | .signedInt, _, _, _, _, _ => trivial
  | .name, _, _, _, _, _ => trivial
  | .address, _, _, _, _, _ => trivial
  | .checksum256, _, _, _, _, _ => trivial
  | .string, _, _, _, _, _ => trivial
  | .set _, _, _, _, _, _ => trivial
  | .map _ _, _, _, _, _, _ => trivial
  | .pair _ _, _, _, _, _, _ => trivial
  | .variant _ _, _, _, _, _, _ => trivial

theorem IndistinctFields.sameKept : (ts : List Ty) → (x y : Vals ts) → AllWellFormed less ts x →
    AllWellFormed less ts y →
    (∀ v, AllWellFormed less ts v → overwriteFields ts x v = overwriteFields ts y v) →
    SameFieldsKept ts x y
  | [], _, _, _, _, _ => trivial
  | t :: ts, (x : Val t × Vals ts), (y : Val t × Vals ts), hx, hy, h => by
      constructor
      · apply Indistinct.sameKept t x.1 y.1 hx.1 hy.1
        intro v hv
        exact congrArg Prod.fst (h (v, inits ts) ⟨hv, allWellFormed_inits ts⟩)
      · apply IndistinctFields.sameKept ts x.2 y.2 hx.2 hy.2
        intro v hv
        exact congrArg Prod.snd (h (init t, v) ⟨wellFormed_init t, hv⟩)

end

end FractalCdt.Codec
