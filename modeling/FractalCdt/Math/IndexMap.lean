/-
# Maps that remember the order of insertion

A table of a program is often a map and a vector: the map finds an entry, the
vector lists the keys as they came.  Here both are one structure, and setting a
key that is there leaves its place.
-/

import Mathlib.Data.List.Nodup

namespace FractalCdt.Math

/-- A map and its keys in the order in which they were first set. -/
structure IndexMap (κ ν : Type) where
  keys : List κ
  find : κ → Option ν
  nodup : keys.Nodup
  mem_keys : ∀ k, k ∈ keys ↔ (find k).isSome

namespace IndexMap

variable {κ ν : Type}

def empty : IndexMap κ ν := ⟨[], fun _ => none, .nil, fun _ => by simp⟩

@[simp]
theorem find_empty (k : κ) : (empty : IndexMap κ ν).find k = none := rfl

/-- The values, in the order of the keys. -/
def values (m : IndexMap κ ν) : List ν := m.keys.filterMap m.find

/-- Each key has a value at its place. -/
theorem getElem?_values (m : IndexMap κ ν) (i : ℕ) : m.values[i]? = m.keys[i]?.bind m.find := by
  have hsome (ks : List κ) (h : ∀ k ∈ ks, (m.find k).isSome) (i : ℕ) :
      (ks.filterMap m.find)[i]? = ks[i]?.bind m.find := by
    induction ks generalizing i with
    | nil => rfl
    | cons k ks ih =>
        obtain ⟨v, hv⟩ := Option.isSome_iff_exists.mp (h k List.mem_cons_self)
        rw [List.filterMap_cons_some hv]
        cases i with
        | zero => exact hv.symm
        | succ i => exact ih (fun k' hk' => h k' (List.mem_cons_of_mem k hk')) i
  exact hsome m.keys (fun k hk => (m.mem_keys k).mp hk) i

variable [DecidableEq κ]

/-- Set the value of a key, at its place or at the end. -/
def set (m : IndexMap κ ν) (k : κ) (v : ν) : IndexMap κ ν where
  keys := if (m.find k).isSome then m.keys else m.keys ++ [k]
  find := fun k' => if k' = k then some v else m.find k'
  nodup := by
    split
    · exact m.nodup
    case isFalse hnew =>
      rw [← m.mem_keys] at hnew
      exact List.nodup_append.mpr ⟨m.nodup, List.nodup_singleton k, fun a ha b hb hab =>
        hnew (List.mem_singleton.mp hb ▸ hab ▸ ha)⟩
  mem_keys := by
    intro k'
    by_cases hk : k' = k
    · subst hk
      rw [if_pos rfl]
      split
      case isTrue hold => exact iff_of_true ((m.mem_keys _).mpr hold) rfl
      case isFalse => exact iff_of_true (by simp) rfl
    · rw [if_neg hk]
      split
      · exact m.mem_keys k'
      · rw [List.mem_append, List.mem_singleton, or_iff_left hk]
        exact m.mem_keys k'

variable (m : IndexMap κ ν) (k : κ) (v : ν)

theorem find_set (k' : κ) : (m.set k v).find k' = if k' = k then some v else m.find k' := rfl

/-- Values built up under the keys of a list of things depend on the things of their key. -/
theorem find_foldl_set {β : Type} (key : β → κ) (step : Option ν → β → ν) (xs : List β)
    (m : IndexMap κ ν) (k : κ) :
    (xs.foldl (fun m x => m.set (key x) (step (m.find (key x)) x)) m).find k =
      (xs.filter (key · = k)).foldl (fun o x => some (step o x)) (m.find k) := by
  induction xs generalizing m with
  | nil => rfl
  | cons x xs ih =>
      rw [List.foldl_cons, ih, find_set]
      by_cases hk : key x = k
      · rw [if_pos hk.symm, List.filter_cons_of_pos (by simpa using hk), List.foldl_cons, hk]
      · rw [if_neg (Ne.symm hk), List.filter_cons_of_neg (by simpa using hk)]

end IndexMap

/-- Of things with different keys the one with a key is found. -/
theorem find?_of_nodup {α κ : Type} [DecidableEq κ] {key : α → κ} {xs : List α}
    (h : (xs.map key).Nodup) {x : α} (hx : x ∈ xs) : xs.find? (key · = key x) = some x := by
  cases hy : xs.find? (key · = key x) with
  | none => exact absurd (decide_eq_true rfl) (List.find?_eq_none.mp hy x hx)
  | some y =>
      have hkey : key y = key x := of_decide_eq_true
        (List.find?_some (p := fun y => decide (key y = key x)) hy)
      rw [List.inj_on_of_nodup_map h (List.mem_of_find?_eq_some hy) hx hkey]

end FractalCdt.Math
