/-
# Ordered containers as sorted lists

A set or a map is the list of its elements in iteration order, strictly
increasing in their keys.  `emplace` inserts an element unless its key is
already there.  Inserting the elements of a sorted list in their own order
rebuilds the list.
-/

import Mathlib.Data.List.Basic

namespace FractalCdt.Math

variable {α κ : Type}

/-- A comparator is a strict total order. -/
structure StrictTotal (less : κ → κ → Bool) : Prop where
  irrefl : ∀ a, less a a = false
  trans : ∀ a b c, less a b = true → less b c = true → less a c = true
  total : ∀ a b, a ≠ b → less a b = true ∨ less b a = true

theorem StrictTotal.asymm {less : κ → κ → Bool} (h : StrictTotal less) {a b : κ}
    (hab : less a b = true) : less b a = false := by
  cases hba : less b a with
  | false => rfl
  | true =>
      have hloop := h.trans a b a hab hba
      rw [h.irrefl] at hloop
      exact hloop.symm

/-- The keys increase strictly. -/
def Sorted (less : κ → κ → Bool) (key : α → κ) (xs : List α) : Prop :=
  xs.Pairwise fun a b => less (key a) (key b) = true

/-- Insert an element unless its key is there. -/
def emplace (less : κ → κ → Bool) (key : α → κ) (x : α) : List α → List α
  | [] => [x]
  | y :: ys =>
      if less (key x) (key y) then x :: y :: ys
      else if less (key y) (key x) then y :: emplace less key x ys
      else y :: ys

section Rebuild

variable {less : κ → κ → Bool} {key : α → κ}

/-- An element above all others goes last. -/
theorem emplace_of_above (h : StrictTotal less) {x : α} {xs : List α}
    (habove : ∀ y ∈ xs, less (key y) (key x) = true) : emplace less key x xs = xs ++ [x] := by
  induction xs with
  | nil => rfl
  | cons y ys ih =>
      have hy := habove y List.mem_cons_self
      rw [emplace, h.asymm hy, if_neg Bool.false_ne_true, if_pos hy,
        ih fun z hz => habove z (List.mem_cons_of_mem y hz), List.cons_append]

/-- Emplacing the rest of a sorted list after its front gives the list. -/
theorem foldl_emplace (h : StrictTotal less) {front back : List α}
    (hsorted : Sorted less key (front ++ back)) :
    back.foldl (fun xs x => emplace less key x xs) front = front ++ back := by
  induction back generalizing front with
  | nil => rw [List.foldl_nil, List.append_nil]
  | cons x back ih =>
      have habove : ∀ y ∈ front, less (key y) (key x) = true := fun y hy =>
        (List.pairwise_append.mp hsorted).2.2 y hy x List.mem_cons_self
      have hrest : Sorted less key (front ++ [x] ++ back) := by
        rwa [List.append_assoc, List.singleton_append]
      rw [List.foldl_cons, emplace_of_above h habove, ih hrest, List.append_assoc,
        List.singleton_append]

end Rebuild

section Emplace

variable {less : κ → κ → Bool} {key : α → κ} {x y : α} {xs : List α}

theorem mem_of_mem_emplace (h : y ∈ emplace less key x xs) : y ∈ xs ∨ y = x := by
  induction xs with
  | nil => exact .inr (List.mem_singleton.mp h)
  | cons z zs ih =>
      rw [emplace] at h
      split at h
      · rcases List.mem_cons.mp h with rfl | h
        · exact .inr rfl
        · exact .inl h
      · split at h
        · rcases List.mem_cons.mp h with rfl | h
          · exact .inl List.mem_cons_self
          · exact (ih h).imp_left (List.mem_cons_of_mem z)
        · exact .inl h

theorem sorted_emplace (hless : StrictTotal less) (hsorted : Sorted less key xs) :
    Sorted less key (emplace less key x xs) := by
  induction xs with
  | nil => exact List.pairwise_singleton _ x
  | cons z zs ih =>
      obtain ⟨hhead, htail⟩ := List.pairwise_cons.mp hsorted
      rw [emplace]
      split
      case isTrue hbefore =>
        refine List.pairwise_cons.mpr ⟨?_, hsorted⟩
        intro y hy
        rcases List.mem_cons.mp hy with rfl | hy
        · exact hbefore
        · exact hless.trans _ _ _ hbefore (hhead y hy)
      case isFalse =>
        split
        case isTrue hafter =>
          refine List.pairwise_cons.mpr ⟨?_, ih htail⟩
          intro y hy
          rcases mem_of_mem_emplace hy with hy | rfl
          · exact hhead y hy
          · exact hafter
        case isFalse => exact hsorted

/-- Emplacing adds the element exactly when its key is new. -/
theorem mem_emplace (hless : StrictTotal less) (hsorted : Sorted less key xs) :
    y ∈ emplace less key x xs ↔ y ∈ xs ∨ (y = x ∧ ∀ z ∈ xs, key z ≠ key x) := by
  induction xs with
  | nil => simp [emplace]
  | cons z zs ih =>
      obtain ⟨hhead, htail⟩ := List.pairwise_cons.mp hsorted
      have hne : ∀ {a b : κ}, less a b = true → a ≠ b := by
        intro a b hab heq
        rw [heq, hless.irrefl] at hab
        cases hab
      rw [emplace]
      split
      case isTrue hbefore =>
        have hnew : ∀ z' ∈ z :: zs, key z' ≠ key x := by
          intro z' hz'
          rcases List.mem_cons.mp hz' with rfl | hz'
          · exact (hne hbefore).symm
          · exact (hne (hless.trans _ _ _ hbefore (hhead z' hz'))).symm
        rw [List.mem_cons, or_comm, and_iff_left hnew]
      case isFalse hbefore =>
        split
        case isTrue hafter =>
          rw [List.mem_cons, ih htail, List.mem_cons, List.forall_mem_cons, or_assoc]
          simp only [hne hafter, ne_eq, not_false_eq_true, true_and]
        case isFalse hafter =>
          have hsame : key z = key x := by
            by_contra hdiff
            rcases hless.total (key z) (key x) hdiff with h | h
            · exact hafter h
            · exact hbefore h
          rw [List.forall_mem_cons]
          simp only [hsame, ne_eq, not_true_eq_false, false_and, and_false, or_false]

end Emplace

end FractalCdt.Math
