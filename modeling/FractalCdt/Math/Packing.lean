/-
# Pieces packed one behind another

Each piece starts at the next multiple of its alignment behind the one before.  So the
pieces are in order, none reaches into the next, and the last one ends where the
packing ends.
-/

import FractalCdt.Math.Extents

namespace FractalCdt.Math

/-- Something of a size that is to be aligned. -/
structure Piece where
  align : ℕ
  size : ℕ
  pos : 0 < align

/-- Where the pieces end that are packed from a cell on. -/
def packEnd (n : ℕ) (pieces : List Piece) : ℕ :=
  pieces.foldl (fun n p => alignUp p.align n + p.size) n

/-- The cells of each piece. -/
def pack (n : ℕ) : List Piece → List Extent
  | [] => []
  | p :: pieces => ⟨alignUp p.align n, p.size⟩ :: pack (alignUp p.align n + p.size) pieces

section Pack

variable {n : ℕ} {pieces : List Piece}

theorem le_packEnd : n ≤ packEnd n pieces := by
  induction pieces generalizing n with
  | nil => exact le_rfl
  | cons p pieces ih =>
      have hup := @le_alignUp p.align n p.pos
      have hrest := @ih (alignUp p.align n + p.size)
      show n ≤ packEnd (alignUp p.align n + p.size) pieces
      omega

theorem packEnd_append (more : List Piece) :
    packEnd n (pieces ++ more) = packEnd (packEnd n pieces) more := List.foldl_append ..

theorem pack_append (more : List Piece) :
    pack n (pieces ++ more) = pack n pieces ++ pack (packEnd n pieces) more := by
  induction pieces generalizing n with
  | nil => rfl
  | cons p pieces ih =>
      show _ :: pack _ (pieces ++ more) = _
      rw [ih]
      rfl

@[simp]
theorem length_pack : (pack n pieces).length = pieces.length := by
  induction pieces generalizing n with
  | nil => rfl
  | cons p pieces ih => exact congrArg Nat.succ ih

/-- A piece has its size and is aligned. -/
theorem getElem?_pack {i : ℕ} {p : Piece} (h : pieces[i]? = some p) :
    ∃ x, (pack n pieces)[i]? = some x ∧ x.len = p.size ∧ p.align ∣ x.start := by
  induction pieces generalizing n i with
  | nil => cases h
  | cons q pieces ih =>
      cases i with
      | zero =>
          cases h
          exact ⟨_, rfl, rfl, dvd_alignUp⟩
      | succ i => exact ih h

theorem inside_pack : ∀ x ∈ pack n pieces, n ≤ x.start ∧ x.stop ≤ packEnd n pieces := by
  induction pieces generalizing n with
  | nil => exact fun _ hx => nomatch hx
  | cons p pieces ih =>
      have hup := @le_alignUp p.align n p.pos
      intro x hx
      rcases List.mem_cons.mp hx with rfl | hx
      · exact ⟨hup, le_packEnd⟩
      · obtain ⟨hlow, hhigh⟩ := ih x hx
        exact ⟨by omega, hhigh⟩

/-- No piece reaches into a later one. -/
theorem pairwise_pack : (pack n pieces).Pairwise fun x y => x.stop ≤ y.start := by
  induction pieces generalizing n with
  | nil => exact .nil
  | cons p pieces ih => exact List.pairwise_cons.mpr ⟨fun y hy => (inside_pack y hy).1, ih⟩

/-- Two of the pieces are apart. -/
theorem apart_pack {i j : ℕ} {x y : Extent} (hx : (pack n pieces)[i]? = some x)
    (hy : (pack n pieces)[j]? = some y) (hij : i ≠ j) : x.Apart y := by
  have hordered := List.pairwise_iff_getElem.mp (@pairwise_pack n pieces)
  obtain ⟨hi, rfl⟩ := List.getElem?_eq_some_iff.mp hx
  obtain ⟨hj, rfl⟩ := List.getElem?_eq_some_iff.mp hy
  rcases Nat.lt_or_gt_of_ne hij with hlt | hgt
  · exact .inl (hordered i j hi hj hlt)
  · exact .inr (hordered j i hj hi hgt)

end Pack

end FractalCdt.Math
