/-
# Stable sorting

Where a stable sort puts one element of the list: behind everything in front of
it that may stand there, and before everything that may not.
-/

import Mathlib.Data.List.Sort

namespace FractalCdt.Math

variable {α : Type} (r : α → α → Prop) [DecidableRel r]

/-- What may stand before `c` is inserted before `c`. -/
theorem orderedInsert_append_of_rel {x c : α} (h : r x c) (xs ys : List α) :
    (xs ++ c :: ys).orderedInsert r x = xs.orderedInsert r x ++ c :: ys := by
  induction xs with
  | nil => exact List.orderedInsert_cons_of_le r ys h
  | cons b xs ih =>
      by_cases hb : r x b
      · rw [List.cons_append, List.orderedInsert_cons_of_le r _ hb,
          List.orderedInsert_cons_of_le r _ hb]
        rfl
      · rw [List.cons_append, List.orderedInsert_of_not_le r _ hb,
          List.orderedInsert_of_not_le r _ hb, ih]
        rfl

/-- What may not stand before `c` or anything in front of it is inserted behind. -/
theorem orderedInsert_append_of_not_rel {x c : α} (h : ¬ r x c) {xs : List α}
    (hxs : ∀ b ∈ xs, ¬ r x b) (ys : List α) :
    (xs ++ c :: ys).orderedInsert r x = xs ++ c :: ys.orderedInsert r x := by
  induction xs with
  | nil => exact List.orderedInsert_of_not_le r ys h
  | cons b xs ih =>
      obtain ⟨hb, hrest⟩ := List.forall_mem_cons.mp hxs
      rw [List.cons_append, List.orderedInsert_of_not_le r _ hb, ih hrest]
      rfl

/-- A stable sort moves the last element behind all that may stand before it, and
before all others. -/
theorem insertionSort_append_singleton [IsTrans α r] (xs : List α) (c : α) :
    (xs ++ [c]).insertionSort r =
      (xs.filter (r · c)).insertionSort r ++ c :: (xs.filter (¬ r · c)).insertionSort r := by
  induction xs with
  | nil => rfl
  | cons x xs ih =>
      rw [List.cons_append, List.insertionSort_cons, ih]
      by_cases h : r x c
      · have hfront : (x :: xs).filter (r · c) = x :: xs.filter (r · c) :=
          List.filter_cons_of_pos (decide_eq_true h)
        have hback : (x :: xs).filter (¬ r · c) = xs.filter (¬ r · c) :=
          List.filter_cons_of_neg (by simpa using h)
        rw [hfront, hback, orderedInsert_append_of_rel r h, List.insertionSort_cons]
      · have hfront : (x :: xs).filter (r · c) = xs.filter (r · c) :=
          List.filter_cons_of_neg (by simpa using h)
        have hback : (x :: xs).filter (¬ r · c) = x :: xs.filter (¬ r · c) :=
          List.filter_cons_of_pos (by simpa using h)
        rw [hfront, hback, List.insertionSort_cons, orderedInsert_append_of_not_rel r h]
        intro b hb hxb
        rw [List.mem_insertionSort, List.mem_filter, decide_eq_true_iff] at hb
        exact h (IsTrans.trans x b c hxb hb.2)

/-- Elements that may stand in any order keep theirs. -/
theorem filter_insertionSort [IsTrans α r] [Std.Total r] {p : α → Bool}
    (hp : ∀ a b, p a → p b → r a b) (xs : List α) :
    (xs.insertionSort r).filter p = xs.filter p := by
  have hpairwise : (xs.filter p).Pairwise r :=
    List.pairwise_of_forall_mem_list fun a ha b hb =>
      hp a b (List.mem_filter.mp ha).2 (List.mem_filter.mp hb).2
  have hsublist := (List.sublist_insertionSort hpairwise List.filter_sublist).filter p
  rw [List.filter_filter, show (fun a => p a && p a) = p from funext fun a => Bool.and_self _]
    at hsublist
  exact (hsublist.eq_of_length ((List.perm_insertionSort r xs).filter p).length_eq.symm).symm

end FractalCdt.Math
