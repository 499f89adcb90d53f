/-
# Walks that need not return

A walk hands out items one after another until it returns, fails, or has used up the depth
of calls it is given.  Walks are joined in order: after one that does not return nothing
else is done.  Given more depth, a walk goes on where it was cut off.
-/

import Mathlib.Data.List.Infix

namespace FractalCdt.Math

/-- How a walk ends. -/
inductive Ending
  | returns
  | fails
  | cut
  deriving DecidableEq

/-- What a walk hands out, in order, and how it ends. -/
structure Walk (X : Type) where
  items : List X
  ending : Ending
  deriving DecidableEq

namespace Walk

variable {X : Type} {w w' v v' : Walk X} {x y : X}

def nil : Walk X := ⟨[], .returns⟩

def one (x : X) : Walk X := ⟨[x], .returns⟩

def failed : Walk X := ⟨[], .fails⟩

def cutOff : Walk X := ⟨[], .cut⟩

/-- One walk after the other. -/
def andThen : Walk X → Walk X → Walk X
  | ⟨xs, .returns⟩, w => ⟨xs ++ w.items, w.ending⟩
  | w, _ => w

def inOrder (ws : List (Walk X)) : Walk X := ws.foldr andThen nil

def Returns (w : Walk X) : Prop := w.ending = .returns

instance : Decidable w.Returns := inferInstanceAs (Decidable (_ = _))

theorem returns_nil : (nil : Walk X).Returns := rfl

theorem returns_one : (one x).Returns := rfl

theorem not_returns_failed : ¬ (failed : Walk X).Returns := nofun

theorem not_returns_cutOff : ¬ (cutOff : Walk X).Returns := nofun

/-! ## Joining -/

theorem andThen_of_returns (h : w.Returns) : w.andThen v = ⟨w.items ++ v.items, v.ending⟩ := by
  obtain ⟨xs, ending⟩ := w
  cases h
  rfl

theorem andThen_of_not_returns (h : ¬ w.Returns) : w.andThen v = w := by
  obtain ⟨xs, ending⟩ := w
  cases ending with
  | returns => exact absurd rfl h
  | fails => rfl
  | cut => rfl

@[simp]
theorem nil_andThen : nil.andThen w = w := rfl

@[simp]
theorem andThen_nil : w.andThen nil = w := by
  by_cases h : w.Returns
  · obtain ⟨xs, ending⟩ := w
    cases h
    simp [andThen, nil]
  · exact andThen_of_not_returns h

@[simp]
theorem failed_andThen : failed.andThen w = failed := rfl

theorem andThen_assoc : (w.andThen v).andThen v' = w.andThen (v.andThen v') := by
  by_cases hw : w.Returns
  · rw [andThen_of_returns hw, andThen_of_returns hw]
    by_cases hv : v.Returns
    · have hboth : Returns ⟨w.items ++ v.items, v.ending⟩ := hv
      rw [andThen_of_returns hboth, andThen_of_returns hv, List.append_assoc]
    · have hboth : ¬ Returns ⟨w.items ++ v.items, v.ending⟩ := hv
      rw [andThen_of_not_returns hboth, andThen_of_not_returns hv]
  · rw [andThen_of_not_returns hw, andThen_of_not_returns hw, andThen_of_not_returns hw]

theorem andThen_returns_iff : (w.andThen v).Returns ↔ w.Returns ∧ v.Returns := by
  by_cases hw : w.Returns
  · rw [andThen_of_returns hw]
    exact (and_iff_right hw).symm
  · rw [andThen_of_not_returns hw]
    exact iff_of_false hw fun h => hw h.1

theorem mem_items_andThen :
    x ∈ (w.andThen v).items ↔ x ∈ w.items ∨ w.Returns ∧ x ∈ v.items := by
  by_cases hw : w.Returns
  · rw [andThen_of_returns hw, List.mem_append, and_iff_right hw]
  · rw [andThen_of_not_returns hw]
    exact (or_iff_left fun h => hw h.1).symm

@[simp]
theorem inOrder_nil : inOrder ([] : List (Walk X)) = nil := rfl

@[simp]
theorem inOrder_cons {ws : List (Walk X)} : inOrder (w :: ws) = w.andThen (inOrder ws) := rfl

section Map

variable {α : Type} {f g : α → Walk X} {as bs : List α}

theorem inOrder_append : inOrder ((as ++ bs).map f) =
    (inOrder (as.map f)).andThen (inOrder (bs.map f)) := by
  induction as with
  | nil => rfl
  | cons a as ih =>
      rw [List.cons_append, List.map_cons, List.map_cons, inOrder_cons, inOrder_cons, ih,
        andThen_assoc]

theorem inOrder_returns_iff : (inOrder (as.map f)).Returns ↔ ∀ a ∈ as, (f a).Returns := by
  induction as with
  | nil => simp [returns_nil]
  | cons a as ih =>
      rw [List.map_cons, inOrder_cons, andThen_returns_iff, List.forall_mem_cons, ih]

/-- An item is handed out by a walk whose forerunners all return. -/
theorem mem_items_inOrder : x ∈ (inOrder (as.map f)).items ↔ ∃ front a back,
    as = front ++ a :: back ∧ (∀ b ∈ front, (f b).Returns) ∧ x ∈ (f a).items := by
  induction as with
  | nil => simp [nil]
  | cons a as ih =>
      rw [List.map_cons, inOrder_cons, mem_items_andThen, ih]
      constructor
      · rintro (hx | ⟨ha, front, b, back, rfl, hfront, hx⟩)
        · exact ⟨[], a, as, rfl, nofun, hx⟩
        · exact ⟨a :: front, b, back, rfl, List.forall_mem_cons.mpr ⟨ha, hfront⟩, hx⟩
      · rintro ⟨front, b, back, has, hfront, hx⟩
        cases front with
        | nil =>
            obtain ⟨rfl, rfl⟩ := List.cons.inj has
            exact .inl hx
        | cons c front =>
            obtain ⟨rfl, rfl⟩ := List.cons.inj has
            obtain ⟨hc, hfront⟩ := List.forall_mem_cons.mp hfront
            exact .inr ⟨hc, front, b, back, rfl, hfront, hx⟩

end Map

/-! ## More depth -/

/-- The second walk is the first one, or goes on where the first was cut off. -/
def Extends (w v : Walk X) : Prop := w = v ∨ w.ending = .cut ∧ w.items <+: v.items

theorem Extends.refl (w : Walk X) : w.Extends w := .inl rfl

theorem Extends.isPrefix (h : w.Extends v) : w.items <+: v.items := by
  rcases h with rfl | ⟨-, hfront⟩
  · exact List.prefix_refl _
  · exact hfront

theorem Extends.eq_of_returns (h : w.Extends v) (hw : w.Returns) : v = w := by
  rcases h with rfl | ⟨hcut, -⟩
  · rfl
  · cases hcut.symm.trans hw

theorem extends_of_cutOff (w : Walk X) : cutOff.Extends w := .inr ⟨rfl, List.nil_prefix⟩

/-- What comes after a walk goes on when both parts do. -/
theorem Extends.andThen (h : w.Extends w') (h' : v.Extends v') :
    (w.andThen v).Extends (w'.andThen v') := by
  rcases h with rfl | ⟨hcut, hfront⟩
  · by_cases hw : w.Returns
    · rw [andThen_of_returns hw, andThen_of_returns hw]
      rcases h' with rfl | ⟨hcut, hfront⟩
      · exact .refl _
      · exact .inr ⟨hcut, (List.prefix_append_right_inj _).mpr hfront⟩
    · rw [andThen_of_not_returns hw, andThen_of_not_returns hw]
      exact .refl w
  · have hw : ¬ w.Returns := by
      intro hreturns
      cases hcut.symm.trans hreturns
    rw [andThen_of_not_returns hw]
    refine .inr ⟨hcut, hfront.trans ?_⟩
    by_cases hw' : w'.Returns
    · rw [andThen_of_returns hw']
      exact List.prefix_append _ _
    · rw [andThen_of_not_returns hw']

theorem Extends.inOrder {α : Type} {f g : α → Walk X} {as : List α}
    (h : ∀ a, (f a).Extends (g a)) :
    (Walk.inOrder (as.map f)).Extends (Walk.inOrder (as.map g)) := by
  induction as with
  | nil => exact .refl _
  | cons a as ih => exact (h a).andThen ih

end Walk

end FractalCdt.Math
