/-
# What reading into an object leaves there

Decoding a value `v` into an object `dst` leaves `overwrite dst v` behind: the
value `v`, except that wherever `v` has an empty optional and `dst` holds one
that is read in place, the old content stays.  `Covers` says that this does not
happen, and a default-constructed object never lets it.
-/

import FractalCdt.Codec.Deserialize

namespace FractalCdt.Codec

open FractalCdt.Math

mutual

/-- What `operator>>` leaves in `dst` when the stream holds `v`. -/
def overwrite : (t : Ty) → Val t → Val t → Val t
  | .vector t, dst, (v : List (Val t)) => List.zipWith (overwrite t) (resize t dst v.length) v
  | .list t, dst, (v : List (Val t)) => List.zipWith (overwrite t) (resize t dst v.length) v
  | .deque t, dst, (v : List (Val t)) => List.zipWith (overwrite t) (resize t dst v.length) v
  | .tuple ts, dst, v => overwriteFields ts dst v
  | .optional _, dst, (v : Option _) => v.elim dst some
  | .array t _, (dst : List.Vector (Val t) _), (v : List.Vector (Val t) _) =>
      .map₂ (overwrite t) dst v
  | .carray t _, (dst : List.Vector (Val t) _), (v : List.Vector (Val t) _) =>
      .map₂ (overwrite t) dst v
  | .struct _ ts, dst, v => overwriteFields ts dst v
  | _, _, v => v

def overwriteFields : (ts : List Ty) → Vals ts → Vals ts → Vals ts
  | [], _, _ => ()
  | t :: ts, (dst : Val t × Vals ts), (v : Val t × Vals ts) =>
      (overwrite t dst.1 v.1, overwriteFields ts dst.2 v.2)

end

mutual

/-- No optional of `dst` that is read in place outlives an empty one of `v`. -/
def Covers : (t : Ty) → Val t → Val t → Prop
  | .vector t, dst, (v : List (Val t)) => List.Forall₂ (Covers t) (resize t dst v.length) v
  | .list t, dst, (v : List (Val t)) => List.Forall₂ (Covers t) (resize t dst v.length) v
  | .deque t, dst, (v : List (Val t)) => List.Forall₂ (Covers t) (resize t dst v.length) v
  | .tuple ts, dst, v => CoversFields ts dst v
  | .optional _, (dst : Option _), (v : Option _) => v = none → dst = none
  | .array t _, (dst : List.Vector (Val t) _), (v : List.Vector (Val t) _) =>
      List.Forall₂ (Covers t) dst.toList v.toList
  | .carray t _, (dst : List.Vector (Val t) _), (v : List.Vector (Val t) _) =>
      List.Forall₂ (Covers t) dst.toList v.toList
  | .struct _ ts, dst, v => CoversFields ts dst v
  | _, _, _ => True

def CoversFields : (ts : List Ty) → Vals ts → Vals ts → Prop
  | [], _, _ => True
  | t :: ts, (dst : Val t × Vals ts), (v : Val t × Vals ts) =>
      Covers t dst.1 v.1 ∧ CoversFields ts dst.2 v.2

end

mutual

/-- The object is as its default constructor leaves it; primitive parts hold
anything. -/
def DefaultConstructed : (t : Ty) → Val t → Prop
  | .string, (dst : List Byte) => dst = []
  | .vector _, (dst : List _) => dst = []
  | .list _, (dst : List _) => dst = []
  | .deque _, (dst : List _) => dst = []
  | .set _, (dst : List _) => dst = []
  | .map _ _, (dst : List _) => dst = []
  | .pair a b, (dst : Val a × Val b) => DefaultConstructed a dst.1 ∧ DefaultConstructed b dst.2
  | .tuple ts, dst => FieldsDefaultConstructed ts dst
  | .optional _, (dst : Option _) => dst = none
  | .variant t _, (dst : Val t ⊕ _) => dst.elim (DefaultConstructed t) fun _ => False
  | .array t _, (dst : List.Vector (Val t) _) => ∀ x ∈ dst.toList, DefaultConstructed t x
  | .carray t _, (dst : List.Vector (Val t) _) => ∀ x ∈ dst.toList, DefaultConstructed t x
  | .struct _ ts, dst => FieldsDefaultConstructed ts dst
  | _, _ => True

def FieldsDefaultConstructed : (ts : List Ty) → Vals ts → Prop
  | [], _ => True
  | t :: ts, (dst : Val t × Vals ts) =>
      DefaultConstructed t dst.1 ∧ FieldsDefaultConstructed ts dst.2

end

/-! ## Which objects are overwritten completely -/

theorem length_resize (t : Ty) (v : List (Val t)) (n : ℕ) : (resize t v n).length = n := by
  rw [resize, List.length_append, List.length_take, List.length_replicate]
  omega

theorem resize_nil (t : Ty) (n : ℕ) : resize t [] n = List.replicate n (init t) := by
  simp [resize]

theorem zipWith_eq_right_iff {α : Type} {f : α → α → α} {R : α → α → Prop}
    (h : ∀ a b, f a b = b ↔ R a b) {xs ys : List α} (hlength : xs.length = ys.length) :
    List.zipWith f xs ys = ys ↔ List.Forall₂ R xs ys := by
  induction xs generalizing ys with
  | nil =>
      cases ys with
      | nil => simp
      | cons y ys => cases hlength
  | cons x xs ih =>
      cases ys with
      | nil => cases hlength
      | cons y ys =>
          rw [List.zipWith_cons_cons, List.cons.injEq, List.forall₂_cons, h,
            ih (Nat.succ.inj hlength)]

theorem map₂_eq_right_iff {α : Type} {n : ℕ} {f : α → α → α} {R : α → α → Prop}
    (h : ∀ a b, f a b = b ↔ R a b) (xs ys : List.Vector α n) :
    List.Vector.map₂ f xs ys = ys ↔ List.Forall₂ R xs.toList ys.toList := by
  have hlist : (List.Vector.map₂ f xs ys).toList = List.zipWith f xs.toList ys.toList := by
    cases xs
    cases ys
    rfl
  rw [← zipWith_eq_right_iff h (xs.toList_length.trans ys.toList_length.symm), ← hlist]
  exact List.Vector.toList_injective.eq_iff.symm

mutual

theorem overwrite_eq_iff : (t : Ty) → (dst v : Val t) → (overwrite t dst v = v ↔ Covers t dst v)
  | .vector t, dst, (v : List (Val t)) =>
      zipWith_eq_right_iff (overwrite_eq_iff t) (length_resize t dst v.length)
  | .list t, dst, (v : List (Val t)) =>
      zipWith_eq_right_iff (overwrite_eq_iff t) (length_resize t dst v.length)
  | .deque t, dst, (v : List (Val t)) =>
      zipWith_eq_right_iff (overwrite_eq_iff t) (length_resize t dst v.length)
  | .tuple ts, dst, v => overwriteFields_eq_iff ts dst v
  | .optional t, (dst : Option (Val t)), (v : Option (Val t)) => by
      cases v with
      | none => exact ⟨fun h _ => h, fun h => h rfl⟩
      | some x => exact iff_of_true rfl nofun
  | .array t _, dst, v => map₂_eq_right_iff (overwrite_eq_iff t) dst v
  | .carray t _, dst, v => map₂_eq_right_iff (overwrite_eq_iff t) dst v
  | .struct _ ts, dst, v => overwriteFields_eq_iff ts dst v
  | .prim _, _, _ => iff_of_true rfl trivial
  | .unsignedInt, _, _ => iff_of_true rfl trivial
  | .signedInt, _, _ => iff_of_true rfl trivial
  | .name, _, _ => iff_of_true rfl trivial
  | .address, _, _ => iff_of_true rfl trivial
  | .checksum256, _, _ => iff_of_true rfl trivial
  | .string, _, _ => iff_of_true rfl trivial
  | .set _, _, _ => iff_of_true rfl trivial
  | .map _ _, _, _ => iff_of_true rfl trivial
  | .pair _ _, _, _ => iff_of_true rfl trivial
  | .variant _ _, _, _ => iff_of_true rfl trivial

theorem overwriteFields_eq_iff :
    (ts : List Ty) → (dst v : Vals ts) → (overwriteFields ts dst v = v ↔ CoversFields ts dst v)
  | [], _, _ => iff_of_true rfl trivial
  | t :: ts, (dst : Val t × Vals ts), (v : Val t × Vals ts) => by
      rw [overwriteFields, CoversFields, ← overwrite_eq_iff t, ← overwriteFields_eq_iff ts]
      exact Prod.ext_iff

end

mutual

theorem defaultConstructed_init : (t : Ty) → DefaultConstructed t (init t)
  | .string => rfl
  | .vector _ => rfl
  | .list _ => rfl
  | .deque _ => rfl
  | .set _ => rfl
  | .map _ _ => rfl
  | .pair a b => ⟨defaultConstructed_init a, defaultConstructed_init b⟩
  | .tuple ts => fieldsDefaultConstructed_inits ts
  | .optional _ => rfl
  | .variant t _ => defaultConstructed_init t
  | .array t _ => fun _ hx => List.eq_of_mem_replicate hx ▸ defaultConstructed_init t
  | .carray t _ => fun _ hx => List.eq_of_mem_replicate hx ▸ defaultConstructed_init t
  | .struct _ ts => fieldsDefaultConstructed_inits ts
  | .prim _ => trivial
  | .unsignedInt => trivial
  | .signedInt => trivial
  | .name => trivial
  | .address => trivial
  | .checksum256 => trivial

theorem fieldsDefaultConstructed_inits : (ts : List Ty) → FieldsDefaultConstructed ts (inits ts)
  | [] => trivial
  | t :: ts => ⟨defaultConstructed_init t, fieldsDefaultConstructed_inits ts⟩

end

theorem forall₂_of_left {α β : Type} {P : α → Prop} {R : α → β → Prop}
    (h : ∀ a b, P a → R a b) {xs : List α} {ys : List β} (hlength : xs.length = ys.length)
    (hP : ∀ x ∈ xs, P x) : List.Forall₂ R xs ys := by
  induction xs generalizing ys with
  | nil =>
      cases ys with
      | nil => exact .nil
      | cons y ys => cases hlength
  | cons x xs ih =>
      cases ys with
      | nil => cases hlength
      | cons y ys =>
          exact .cons (h x y (hP x List.mem_cons_self))
            (ih (Nat.succ.inj hlength) fun z hz => hP z (List.mem_cons_of_mem x hz))

/-- A resized empty container holds value-initialised elements only. -/
theorem covers_resize_nil {t : Ty} (h : ∀ dst v, DefaultConstructed t dst → Covers t dst v)
    (v : List (Val t)) : List.Forall₂ (Covers t) (resize t [] v.length) v := by
  apply forall₂_of_left h (length_resize t [] v.length)
  intro x hx
  rw [resize_nil] at hx
  exact List.eq_of_mem_replicate hx ▸ defaultConstructed_init t

mutual

theorem DefaultConstructed.covers :
    (t : Ty) → (dst v : Val t) → DefaultConstructed t dst → Covers t dst v
  | .vector t, (dst : List (Val t)), v => fun h : dst = [] =>
      h ▸ covers_resize_nil (DefaultConstructed.covers t) v
  | .list t, (dst : List (Val t)), v => fun h : dst = [] =>
      h ▸ covers_resize_nil (DefaultConstructed.covers t) v
  | .deque t, (dst : List (Val t)), v => fun h : dst = [] =>
      h ▸ covers_resize_nil (DefaultConstructed.covers t) v
  | .tuple ts, dst, v => FieldsDefaultConstructed.covers ts dst v
  | .optional _, (dst : Option _), _ => fun (h : dst = none) _ => h
  | .array t _, (dst : List.Vector (Val t) _), (v : List.Vector (Val t) _) =>
      forall₂_of_left (DefaultConstructed.covers t)
        (dst.toList_length.trans v.toList_length.symm)
  | .carray t _, (dst : List.Vector (Val t) _), (v : List.Vector (Val t) _) =>
      forall₂_of_left (DefaultConstructed.covers t)
        (dst.toList_length.trans v.toList_length.symm)
  | .struct _ ts, dst, v => FieldsDefaultConstructed.covers ts dst v
  | .prim _, _, _ => fun _ => trivial
  | .unsignedInt, _, _ => fun _ => trivial
  | .signedInt, _, _ => fun _ => trivial
  | .name, _, _ => fun _ => trivial
  | .address, _, _ => fun _ => trivial
  | .checksum256, _, _ => fun _ => trivial
  | .string, _, _ => fun _ => trivial
  | .set _, _, _ => fun _ => trivial
  | .map _ _, _, _ => fun _ => trivial
  | .pair _ _, _, _ => fun _ => trivial
  | .variant _ _, _, _ => fun _ => trivial

theorem FieldsDefaultConstructed.covers :
    (ts : List Ty) → (dst v : Vals ts) → FieldsDefaultConstructed ts dst → CoversFields ts dst v
  | [], _, _ => fun _ => trivial
  | t :: ts, (dst : Val t × Vals ts), (v : Val t × Vals ts) =>
      fun (h : DefaultConstructed t dst.1 ∧ FieldsDefaultConstructed ts dst.2) =>
        ⟨DefaultConstructed.covers t dst.1 v.1 h.1,
          FieldsDefaultConstructed.covers ts dst.2 v.2 h.2⟩

end

/-- A default-constructed object is overwritten completely. -/
theorem DefaultConstructed.overwrite_eq {t : Ty} {dst : Val t} (h : DefaultConstructed t dst)
    (v : Val t) : overwrite t dst v = v :=
  (overwrite_eq_iff t dst v).mpr (h.covers t dst v)

theorem overwrite_init (t : Ty) (v : Val t) : overwrite t (init t) v = v :=
  (defaultConstructed_init t).overwrite_eq v

end FractalCdt.Codec
