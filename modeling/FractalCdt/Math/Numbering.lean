/-
# Numbering as things come

A table numbers what it is asked for: the first time a key comes it gets the next
number, and keeps it.  The keys in the order of their numbers are the table.
-/

import Mathlib.Data.List.Nodup

namespace FractalCdt.Math

/-- The keys that have a number, in order. -/
structure Numbering (κ : Type) where
  keys : List κ
  nodup : keys.Nodup

namespace Numbering

variable {κ : Type}

def empty : Numbering κ := ⟨[], List.nodup_nil⟩

variable [DecidableEq κ] (N : Numbering κ)

def number? (k : κ) : Option ℕ := N.keys.idxOf? k

/-- Give a key the next number, if it has none. -/
def intern (k : κ) : Numbering κ where
  keys := if k ∈ N.keys then N.keys else N.keys ++ [k]
  nodup := by
    split
    · exact N.nodup
    case isFalse hnew =>
      rw [← List.concat_eq_append, List.nodup_concat]
      exact ⟨hnew, N.nodup⟩

def internAll (ks : List κ) : Numbering κ := ks.foldl intern N

variable {N} {k a : κ} {i : ℕ} {ks : List κ}

/-- The number of a key is its place. -/
theorem number?_eq_some_iff : N.number? k = some i ↔ N.keys[i]? = some k := by
  unfold number?
  rw [List.idxOf?_eq_some_iff]
  constructor
  · rintro ⟨hi, hk, -⟩
    rw [List.getElem?_eq_getElem hi, hk]
  · intro h
    obtain ⟨hi, hk⟩ := List.getElem?_eq_some_iff.mp h
    refine ⟨hi, hk, fun j hj heq => ?_⟩
    have hsame : N.keys[j]? = N.keys[i]? := by
      rw [h, List.getElem?_eq_getElem (by omega), heq]
    exact absurd ((List.getElem?_inj (by omega) N.nodup).mp hsame) (by omega)

theorem mem_keys_intern : a ∈ (N.intern k).keys ↔ a ∈ N.keys ∨ a = k := by
  show a ∈ (if k ∈ N.keys then N.keys else N.keys ++ [k]) ↔ _
  split
  case isTrue hmem => exact (or_iff_left_of_imp fun h => h ▸ hmem).symm
  case isFalse => rw [List.mem_append, List.mem_singleton]

theorem mem_keys_internAll : a ∈ (N.internAll ks).keys ↔ a ∈ N.keys ∨ a ∈ ks := by
  unfold internAll
  induction ks generalizing N with
  | nil => simp
  | cons k ks ih => rw [List.foldl_cons, ih, mem_keys_intern, List.mem_cons, or_assoc]

end Numbering

end FractalCdt.Math
