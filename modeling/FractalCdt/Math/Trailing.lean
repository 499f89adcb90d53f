/-
# Dropping what trails

`rdropWhile` drops the longest trailing run of elements that satisfy a predicate, and
`rtakeWhile` keeps it.  The lemmas here read the first from the front and pad it back, and
find the second behind the last element that does not satisfy the predicate.
-/

import Mathlib.Data.List.DropRight
import Mathlib.Data.Nat.Notation

namespace FractalCdt.Math

variable {α β : Type} {p : α → Bool}

theorem rdropWhile_cons (a : α) (l : List α) :
    (a :: l).rdropWhile p = if (a :: l).all p then [] else a :: l.rdropWhile p := by
  induction l using List.reverseRecOn with
  | nil =>
      rw [List.rdropWhile_singleton, List.rdropWhile_nil, List.all_cons, List.all_nil,
        Bool.and_true]
  | append_singleton l b ih =>
      rw [← List.cons_append, List.rdropWhile_concat, List.rdropWhile_concat]
      by_cases hb : p b = true
      · rw [if_pos hb, if_pos hb, ih]
        simp [hb]
      · rw [if_neg hb, if_neg hb]
        simp [hb]

/-- Nothing of the front is dropped before what stays of the back. -/
theorem rdropWhile_append {l l' : List α} (h : ∃ x ∈ l', p x = false) :
    (l ++ l').rdropWhile p = l ++ l'.rdropWhile p := by
  induction l with
  | nil => rfl
  | cons a l ih =>
      obtain ⟨x, hx, hstays⟩ := h
      rw [List.cons_append, rdropWhile_cons, ih, if_neg, List.cons_append]
      rw [Bool.not_eq_true, List.all_eq_false]
      exact ⟨x, List.mem_cons_of_mem a (List.mem_append_right l hx), by simp [hstays]⟩

theorem map_rdropWhile {q : β → Bool} {f : α → β} {l : List α} (h : ∀ x ∈ l, q (f x) = p x) :
    (l.rdropWhile p).map f = (l.map f).rdropWhile q := by
  induction l using List.reverseRecOn with
  | nil => rfl
  | append_singleton l a ih =>
      have ha := h a (List.mem_append_right l List.mem_cons_self)
      have hl := ih fun x hx => h x (List.mem_append_left _ hx)
      rw [List.map_append, List.map_singleton, List.rdropWhile_concat, List.rdropWhile_concat, ha]
      split
      · exact hl
      · rw [List.map_append, List.map_singleton]

theorem rdropWhile_append_replicate {a : α} (ha : p a = true) (l : List α) (k : ℕ) :
    (l ++ List.replicate k a).rdropWhile p = l.rdropWhile p := by
  induction k with
  | zero => rw [List.replicate_zero, List.append_nil]
  | succ k ih =>
      rw [List.replicate_succ', ← List.append_assoc, List.rdropWhile_concat_pos p _ a ha, ih]

/-- What trails is padding, when only one element satisfies the predicate. -/
theorem rdropWhile_append_padding {a : α} (honly : ∀ x, p x = true → x = a) (l : List α) :
    l.rdropWhile p ++ List.replicate (l.length - (l.rdropWhile p).length) a = l := by
  induction l using List.reverseRecOn with
  | nil => rfl
  | append_singleton l b ih =>
      rw [List.rdropWhile_concat]
      split
      case isTrue hb =>
        have hle := (List.rdropWhile_prefix p l).length_le
        rw [List.length_append, List.length_singleton, Nat.sub_add_comm hle, List.replicate_succ',
          ← List.append_assoc, ih, honly b hb]
      case isFalse => rw [Nat.sub_self, List.replicate_zero, List.append_nil]

theorem rtakeWhile_append_cons {l l' : List α} {a : α} (ha : p a = false)
    (hl' : ∀ x ∈ l', p x = true) : (l ++ a :: l').rtakeWhile p = l' := by
  have hreverse : ∀ x ∈ l'.reverse, p x = true := fun x hx => hl' x (List.mem_reverse.mp hx)
  rw [List.rtakeWhile, List.reverse_append, List.reverse_cons, List.append_assoc,
    List.takeWhile_append_of_pos hreverse, List.singleton_append, List.takeWhile_cons, ha]
  simp

end FractalCdt.Math
