/-
# Unfolding a graph to a walk

Items carry labels, and a label stands for a list of further items.  A list is unfolded by
a walk that hands out, before each item, what its label stands for, unfolded in turn; an
item that is missing makes the walk fail.  The walk returns from some depth on exactly when
everything behind the items is complete, on finitely many labels: when no label that is met
leads back to itself and no item is missing.
-/

import FractalCdt.Math.Walk
import Mathlib.Data.Fintype.Order
import Mathlib.Logic.Relation
import Mathlib.Order.WellFounded

namespace FractalCdt.Math

open Relation

section Unfolding

variable {X D : Type} (label : X → Option D) (inside : D → List (Option X))

/-- What `sub` hands out for the label of an item. -/
def behind (sub : D → Walk X) (x : X) : Walk X :=
  match label x with
  | some d => sub d
  | none => .nil

/-- An item after what is behind it. -/
def step (sub : D → Walk X) : Option X → Walk X
  | some x => (behind label sub x).andThen (.one x)
  | none => .failed

def expand (sub : D → Walk X) (xs : List (Option X)) : Walk X :=
  Walk.inOrder (xs.map (step label sub))

/-- What is inside of a label, unfolded to the given depth. -/
def unfold : ℕ → D → Walk X
  | 0, _ => .cutOff
  | n + 1, d => expand label (unfold n) (inside d)

/-- The second label is inside of the first. -/
def LeadsTo (d d' : D) : Prop := ∃ x, some x ∈ inside d ∧ label x = some d'

/-- The item is not missing, and everything inside of its label is complete. -/
inductive Complete : Option X → Prop
  | intro {x : X} (h : ∀ d, label x = some d → ∀ y ∈ inside d, Complete y) : Complete (some x)

/-- The items of the list and those inside of their labels. -/
inductive ComesUp (xs : List (Option X)) : Option X → Prop
  | listed {x : Option X} (hx : x ∈ xs) : ComesUp xs x
  | inside {x : X} {d : D} {y : Option X} (hx : ComesUp xs (some x)) (hd : label x = some d)
      (hy : y ∈ inside d) : ComesUp xs y

/-- The items that the walk comes to: what stands before them is complete. -/
inductive Reached (xs : List (Option X)) : Option X → Prop
  | listed {front back : List (Option X)} {x : Option X} (hxs : xs = front ++ x :: back)
      (hfront : ∀ y ∈ front, Complete label inside y) : Reached xs x
  | inside {x : X} {d : D} {front back : List (Option X)} {y : Option X}
      (hx : Reached xs (some x)) (hd : label x = some d) (hinside : inside d = front ++ y :: back)
      (hfront : ∀ z ∈ front, Complete label inside z) : Reached xs y

/-- The item is handed out in the end. -/
def HandedOut (xs : List (Option X)) (x : X) : Prop :=
  Reached label inside xs (some x) ∧ Complete label inside (some x)

/-- The first item with the property, when the list is unfolded in order. -/
inductive FirstWith (p : X → Bool) : List (Option X) → X → Prop
  | item {x : X} {xs : List (Option X)} (hx : p x = true)
      (hbehind : ∀ d, label x = some d → ∀ y, ComesUp label inside (inside d) (some y) →
        p y = false) : FirstWith p (some x :: xs) x
  | behind {x : X} {d : D} {xs : List (Option X)} {y : X} (hd : label x = some d)
      (hy : FirstWith p (inside d) y) : FirstWith p (some x :: xs) y
  | later {x : Option X} {xs : List (Option X)} {y : X}
      (hx : ∀ z, ComesUp label inside [x] (some z) → p z = false) (hy : FirstWith p xs y) :
      FirstWith p (x :: xs) y

end Unfolding

/-! ## One list -/

section Expand

variable {X D : Type} {label : X → Option D} {sub sub' : D → Walk X} {x : Option X} {y : X} {d : D}
  {xs ys : List (Option X)}

theorem behind_eq (hlabel : label y = none) : behind label sub y = .nil := by
  rw [behind, hlabel]

theorem behind_eq_sub (hlabel : label y = some d) : behind label sub y = sub d := by
  rw [behind, hlabel]

theorem step_eq_one (hlabel : label y = none) : step label sub (some y) = .one y := by
  rw [step, behind_eq hlabel, Walk.nil_andThen]

theorem step_eq_sub (hlabel : label y = some d) :
    step label sub (some y) = (sub d).andThen (.one y) := by
  rw [step, behind_eq_sub hlabel]

theorem expand_singleton : expand label sub [x] = step label sub x := Walk.andThen_nil

theorem expand_cons :
    expand label sub (x :: xs) = (step label sub x).andThen (expand label sub xs) := rfl

theorem expand_append :
    expand label sub (xs ++ ys) = (expand label sub xs).andThen (expand label sub ys) :=
  Walk.inOrder_append

theorem expand_returns_iff :
    (expand label sub xs).Returns ↔ ∀ x ∈ xs, (step label sub x).Returns :=
  Walk.inOrder_returns_iff

theorem step_returns_iff : (step label sub (some y)).Returns ↔
    ∀ d, label y = some d → (sub d).Returns := by
  rw [step, Walk.andThen_returns_iff, and_iff_left Walk.returns_one]
  cases hlabel : label y with
  | none => simp [behind_eq hlabel, Walk.returns_nil]
  | some d => simp [behind_eq_sub hlabel]

theorem not_returns_step_none : ¬ (step label sub none).Returns := Walk.not_returns_failed

theorem mem_items_step : y ∈ (step label sub x).items ↔
    (∃ z d, x = some z ∧ label z = some d ∧ y ∈ (sub d).items) ∨
      x = some y ∧ (step label sub x).Returns := by
  cases x with
  | none => simp [step, Walk.failed]
  | some z =>
      cases hlabel : label z with
      | none =>
          rw [step_eq_one hlabel]
          simp [hlabel, Walk.one, eq_comm, Walk.Returns]
      | some d =>
          rw [step_eq_sub hlabel, Walk.mem_items_andThen, Walk.andThen_returns_iff]
          simp [hlabel, Walk.one, Walk.Returns, and_comm, eq_comm]

theorem mem_items_expand : y ∈ (expand label sub xs).items ↔ ∃ front x back,
    xs = front ++ x :: back ∧ (∀ z ∈ front, (step label sub z).Returns) ∧
      y ∈ (step label sub x).items :=
  Walk.mem_items_inOrder

theorem step_extends (h : ∀ d, (sub d).Extends (sub' d)) :
    (step label sub x).Extends (step label sub' x) := by
  cases x with
  | none => exact .refl _
  | some y =>
      cases hlabel : label y with
      | none =>
          rw [step_eq_one hlabel, step_eq_one hlabel]
          exact .refl _
      | some d =>
          rw [step_eq_sub hlabel, step_eq_sub hlabel]
          exact (h d).andThen (.refl _)

theorem expand_extends (h : ∀ d, (sub d).Extends (sub' d)) :
    (expand label sub xs).Extends (expand label sub' xs) :=
  .inOrder fun _ => step_extends h

end Expand

/-! ## Any depth -/

section Depth

variable {X D : Type} {label : X → Option D} {inside : D → List (Option X)} {n m : ℕ}
  {d d' : D} {xs : List (Option X)} {x : Option X} {y : X}

theorem unfold_extends (hle : n ≤ m) (d : D) :
    (unfold label inside n d).Extends (unfold label inside m d) := by
  induction n generalizing m d with
  | zero => exact Walk.extends_of_cutOff _
  | succ n ih =>
      obtain ⟨m, rfl⟩ : ∃ k, m = k + 1 := ⟨m - 1, by omega⟩
      exact expand_extends fun d => ih (by omega) d

/-- A walk that returns is the same to any greater depth. -/
theorem expand_eq_of_returns (h : (expand label (unfold label inside n) xs).Returns)
    (hle : n ≤ m) :
    expand label (unfold label inside m) xs = expand label (unfold label inside n) xs :=
  (expand_extends (unfold_extends hle)).eq_of_returns h

theorem step_returns_mono (h : (step label (unfold label inside n) x).Returns) (hle : n ≤ m) :
    (step label (unfold label inside m) x).Returns := by
  rwa [(step_extends (unfold_extends hle)).eq_of_returns h]

theorem complete_of_returns (h : (step label (unfold label inside n) x).Returns) :
    Complete label inside x := by
  induction n generalizing x with
  | zero =>
      cases x with
      | none => exact absurd h not_returns_step_none
      | some y =>
          refine .intro fun d hd => ?_
          exact absurd (step_returns_iff.mp h d hd) Walk.not_returns_cutOff
  | succ n ih =>
      cases x with
      | none => exact absurd h not_returns_step_none
      | some y =>
          refine .intro fun d hd z hz => ?_
          exact ih (expand_returns_iff.mp (step_returns_iff.mp h d hd) z hz)

/-- One depth is enough for a list if some depth is for each of its items. -/
theorem exists_expand_returns
    (h : ∀ x ∈ xs, ∃ n, (step label (unfold label inside n) x).Returns) :
    ∃ n, (expand label (unfold label inside n) xs).Returns := by
  induction xs with
  | nil => exact ⟨0, Walk.returns_nil⟩
  | cons x xs ih =>
      obtain ⟨⟨n, hn⟩, hrest⟩ := List.forall_mem_cons.mp h
      obtain ⟨m, hm⟩ := ih hrest
      refine ⟨max n m, expand_returns_iff.mpr (List.forall_mem_cons.mpr ⟨?_, ?_⟩)⟩
      · exact step_returns_mono hn (le_max_left n m)
      · intro z hz
        exact step_returns_mono (expand_returns_iff.mp hm z hz) (le_max_right n m)

theorem Complete.exists_returns (h : Complete label inside x) :
    ∃ n, (step label (unfold label inside n) x).Returns := by
  induction h with
  | @intro y _ ih =>
      cases hlabel : label y with
      | none => exact ⟨0, step_returns_iff.mpr fun d hd => by cases hlabel.symm.trans hd⟩
      | some d =>
          obtain ⟨n, hn⟩ := exists_expand_returns (ih d hlabel)
          refine ⟨n + 1, step_returns_iff.mpr fun d' hd' => ?_⟩
          cases hlabel.symm.trans hd'
          exact hn

/-- Some depth is enough exactly when every item is complete. -/
theorem exists_expand_returns_iff : (∃ n, (expand label (unfold label inside n) xs).Returns) ↔
    ∀ x ∈ xs, Complete label inside x := by
  constructor
  · rintro ⟨n, h⟩ x hx
    exact complete_of_returns (expand_returns_iff.mp h x hx)
  · intro h
    exact exists_expand_returns fun x hx => (h x hx).exists_returns

theorem not_complete_none : ¬ Complete label inside none := nofun

theorem complete_some_iff : Complete label inside (some y) ↔
    ∀ d, label y = some d → ∀ z ∈ inside d, Complete label inside z := by
  constructor
  · rintro ⟨h⟩
    exact h
  · intro h
    exact .intro h

end Depth

/-! ## What comes up -/

section ComesUp

variable {X D : Type} {label : X → Option D} {inside : D → List (Option X)} {n : ℕ}
  {d d' : D} {xs ys : List (Option X)} {x : Option X} {y : X} {p : X → Bool}

theorem ComesUp.mono (h : ComesUp label inside xs x) (hsub : ∀ z ∈ xs, z ∈ ys) :
    ComesUp label inside ys x := by
  induction h with
  | listed hx => exact .listed (hsub _ hx)
  | inside _ hd hy ih => exact .inside ih hd hy

theorem comesUp_singleton : ComesUp label inside [some y] x ↔
    x = some y ∨ ∃ d, label y = some d ∧ ComesUp label inside (inside d) x := by
  constructor
  · intro h
    induction h with
    | listed hx => exact .inl (List.mem_singleton.mp hx)
    | inside _ hd hz ih =>
        rcases ih with heq | ⟨d, hlabel, hup⟩
        · cases heq
          exact .inr ⟨_, hd, .listed hz⟩
        · exact .inr ⟨d, hlabel, .inside hup hd hz⟩
  · rintro (rfl | ⟨d, hlabel, hup⟩)
    · exact .listed (List.mem_singleton_self _)
    · induction hup with
      | listed hx => exact .inside (.listed (List.mem_singleton_self _)) hlabel hx
      | inside _ hd hz ih => exact .inside ih hd hz

/-- What comes up behind complete items is complete. -/
theorem ComesUp.complete (h : ComesUp label inside xs x)
    (hxs : ∀ z ∈ xs, Complete label inside z) : Complete label inside x := by
  induction h with
  | listed hx => exact hxs _ hx
  | inside _ hd hy ih => exact complete_some_iff.mp ih _ hd _ hy

theorem Reached.comesUp (h : Reached label inside xs x) : ComesUp label inside xs x := by
  induction h with
  | listed hxs _ => exact .listed (by simp [hxs])
  | inside _ hd hinside _ ih => exact .inside ih hd (by simp [hinside])

/-- Where everything is complete, the walk comes to all that comes up. -/
theorem ComesUp.reached (h : ComesUp label inside xs x)
    (hxs : ∀ z ∈ xs, Complete label inside z) : Reached label inside xs x := by
  induction h with
  | listed hx =>
      obtain ⟨front, back, rfl⟩ := List.append_of_mem hx
      exact .listed rfl fun y hy => hxs y (List.mem_append_left _ hy)
  | @inside y d z hup hd hz ih =>
      obtain ⟨front, back, hinside⟩ := List.append_of_mem hz
      refine .inside ih hd hinside fun w hw => ?_
      exact complete_some_iff.mp (hup.complete hxs) d hd w
        (hinside ▸ List.mem_append_left _ hw)

theorem handedOut_iff_of_complete (hxs : ∀ z ∈ xs, Complete label inside z) :
    HandedOut label inside xs y ↔ ComesUp label inside xs (some y) := by
  constructor
  · intro h
    exact h.1.comesUp
  · intro h
    exact ⟨h.reached hxs, h.complete hxs⟩

/-- What is handed out to some depth, and what is complete behind it, is reached. -/
theorem Reached.subset_items (h : Reached label inside xs x) (m : ℕ) :
    ∃ n, (step label (unfold label inside m) x).items ⊆
      (expand label (unfold label inside n) xs).items := by
  have hlist : ∀ {ys front back : List (Option X)} {z : Option X} (m : ℕ),
      ys = front ++ z :: back → (∀ w ∈ front, Complete label inside w) →
      ∃ n, (step label (unfold label inside m) z).items ⊆
        (expand label (unfold label inside n) ys).items := by
    intro ys front back z m hys hfront
    obtain ⟨k, hk⟩ := exists_expand_returns_iff.mpr hfront
    refine ⟨max m k, fun w hw => mem_items_expand.mpr ⟨front, z, back, hys, ?_, ?_⟩⟩
    · intro v hv
      exact step_returns_mono (expand_returns_iff.mp hk v hv) (le_max_right m k)
    · exact (step_extends (unfold_extends (le_max_left m k))).isPrefix.subset hw
  induction h generalizing m with
  | listed hxs hfront => exact hlist m hxs hfront
  | @inside y d front back z _ hd hinside hfront ih =>
      obtain ⟨k, hk⟩ := hlist m hinside hfront
      obtain ⟨n, hn⟩ := ih (k + 1)
      refine ⟨n, fun w hw => hn (mem_items_step.mpr (.inl ⟨y, d, rfl, hd, ?_⟩))⟩
      exact hk hw

theorem Reached.trans {y : X} (h : Reached label inside xs (some y)) (hd : label y = some d)
    (h' : Reached label inside (inside d) x) : Reached label inside xs x := by
  induction h' with
  | listed hxs hfront => exact .inside h hd hxs hfront
  | inside _ hd' hinside hfront ih => exact .inside ih hd' hinside hfront

/-- To some depth the walk hands out what it comes to and what is complete. -/
theorem handedOut_iff : HandedOut label inside xs y ↔
    ∃ n, y ∈ (expand label (unfold label inside n) xs).items := by
  constructor
  · rintro ⟨hreached, hcomplete⟩
    obtain ⟨m, hm⟩ := hcomplete.exists_returns
    obtain ⟨n, hn⟩ := hreached.subset_items m
    exact ⟨n, hn (mem_items_step.mpr (.inr ⟨rfl, hm⟩))⟩
  · rintro ⟨n, hy⟩
    induction n generalizing xs with
    | zero =>
        obtain ⟨front, x, back, hxs, hfront, hx⟩ := mem_items_expand.mp hy
        have hcomplete : ∀ z ∈ front, Complete label inside z := fun z hz =>
          complete_of_returns (hfront z hz)
        rcases mem_items_step.mp hx with ⟨z, d, -, -, hnone⟩ | ⟨rfl, hreturns⟩
        · cases hnone
        · exact ⟨.listed hxs hcomplete, complete_of_returns hreturns⟩
    | succ n ih =>
        obtain ⟨front, x, back, hxs, hfront, hx⟩ := mem_items_expand.mp hy
        have hcomplete : ∀ z ∈ front, Complete label inside z := fun z hz =>
          complete_of_returns (hfront z hz)
        rcases mem_items_step.mp hx with ⟨z, d, rfl, hd, hsub⟩ | ⟨rfl, hreturns⟩
        · obtain ⟨hreached, hy⟩ := ih hsub
          exact ⟨.trans (.listed hxs hcomplete) hd hreached, hy⟩
        · exact ⟨.listed hxs hcomplete, complete_of_returns hreturns⟩

theorem mem_items_iff_of_returns (h : (expand label (unfold label inside n) xs).Returns) :
    y ∈ (expand label (unfold label inside n) xs).items ↔ ComesUp label inside xs (some y) := by
  rw [← handedOut_iff_of_complete (exists_expand_returns_iff.mp ⟨n, h⟩), handedOut_iff]
  constructor
  · intro hy
    exact ⟨n, hy⟩
  · rintro ⟨m, hy⟩
    have hlarge := (expand_extends (unfold_extends (le_max_left m n))).isPrefix.subset hy
    rwa [expand_eq_of_returns h (le_max_right m n)] at hlarge

/-! ## The first item -/

theorem firstWith_cons : FirstWith label inside p (x :: xs) y ↔
    (x = some y ∧ p y = true ∧ ∀ d, label y = some d →
      ∀ z, ComesUp label inside (inside d) (some z) → p z = false) ∨
    (∃ z d, x = some z ∧ label z = some d ∧ FirstWith label inside p (inside d) y) ∨
    (∀ z, ComesUp label inside [x] (some z) → p z = false) ∧ FirstWith label inside p xs y := by
  constructor
  · intro h
    cases h with
    | item hx hbehind => exact .inl ⟨rfl, hx, hbehind⟩
    | behind hd hy => exact .inr (.inl ⟨_, _, rfl, hd, hy⟩)
    | later hx hy => exact .inr (.inr ⟨hx, hy⟩)
  · rintro (⟨rfl, hx, hbehind⟩ | ⟨z, d, rfl, hd, hy⟩ | ⟨hx, hy⟩)
    · exact .item hx hbehind
    · exact .behind hd hy
    · exact .later hx hy

/-- What is found among the items behind one and then among those of the rest. -/
theorem find?_expand_iff {sub : D → Walk X}
    (hmem : ∀ d, (sub d).Returns → ∀ z, z ∈ (sub d).items ↔
      ComesUp label inside (inside d) (some z))
    (hfind : ∀ d, (sub d).Returns → ∀ z, (sub d).items.find? p = some z ↔
      FirstWith label inside p (inside d) z)
    (h : (expand label sub xs).Returns) :
    (expand label sub xs).items.find? p = some y ↔ FirstWith label inside p xs y := by
  induction xs with
  | nil => exact iff_of_false nofun nofun
  | cons x xs ih =>
      obtain ⟨hx, hxs⟩ := Walk.andThen_returns_iff.mp h
      cases x with
      | none => exact absurd hx not_returns_step_none
      | some z =>
          have hbehind : ∀ d, label z = some d → (sub d).Returns := step_returns_iff.mp hx
          have hsome : (behind label sub z).items.find? p = some y ↔
              ∃ d, label z = some d ∧ FirstWith label inside p (inside d) y := by
            cases hlabel : label z with
            | none => simp [behind_eq hlabel, Walk.nil]
            | some d => simp [behind_eq_sub hlabel, hfind d (hbehind d hlabel)]
          have hnone : (behind label sub z).items.find? p = none ↔ ∀ d, label z = some d →
              ∀ w, ComesUp label inside (inside d) (some w) → p w = false := by
            cases hlabel : label z with
            | none => simp [behind_eq hlabel, Walk.nil]
            | some d => simp [behind_eq_sub hlabel, hmem d (hbehind d hlabel)]
          have hitems : (expand label sub (some z :: xs)).items =
              (behind label sub z).items ++ ([z] ++ (expand label sub xs).items) := by
            have hreturns : (behind label sub z).Returns := (Walk.andThen_returns_iff.mp hx).1
            rw [expand_cons, Walk.andThen_of_returns hx, step, Walk.andThen_of_returns hreturns,
              List.append_assoc]
            rfl
          have hclear : (∀ w, ComesUp label inside [some z] (some w) → p w = false) ↔
              p z = false ∧ (behind label sub z).items.find? p = none := by
            rw [hnone]
            simp only [comesUp_singleton, Option.some.injEq]
            constructor
            · intro hall
              exact ⟨hall z (.inl rfl), fun d hd w hw => hall w (.inr ⟨d, hd, hw⟩)⟩
            · rintro ⟨hz, hall⟩ w (rfl | ⟨d, hd, hw⟩)
              · exact hz
              · exact hall d hd w hw
          have hitem : ∀ w, (some z = some w ∧ p w = true ∧ ∀ d, label w = some d → ∀ v,
              ComesUp label inside (inside d) (some v) → p v = false) ↔
              z = w ∧ p z = true ∧ (behind label sub z).items.find? p = none := by
            intro w
            rw [hnone, Option.some.injEq]
            constructor
            · rintro ⟨rfl, hall⟩
              exact ⟨rfl, hall⟩
            · rintro ⟨rfl, hall⟩
              exact ⟨rfl, hall⟩
          have hlater : (∃ w d, some z = some w ∧ label w = some d ∧
              FirstWith label inside p (inside d) y) ↔
              (behind label sub z).items.find? p = some y := by
            rw [hsome]
            simp
          rw [firstWith_cons, hitem, hlater, hclear, hitems, List.find?_append, List.find?_append,
            ← ih hxs]
          cases (behind label sub z).items.find? p <;> cases hz : p z <;> simp [hz]

/-- The item that is found first is the first one in the order of the unfolding. -/
theorem find?_items_iff (h : (expand label (unfold label inside n) xs).Returns) :
    (expand label (unfold label inside n) xs).items.find? p = some y ↔
      FirstWith label inside p xs y := by
  induction n generalizing xs y with
  | zero =>
      apply find?_expand_iff _ _ h
      · intro d hreturns
        exact absurd hreturns Walk.not_returns_cutOff
      · intro d hreturns
        exact absurd hreturns Walk.not_returns_cutOff
  | succ n ih =>
      apply find?_expand_iff _ _ h
      · intro d hreturns z
        exact mem_items_iff_of_returns hreturns
      · intro d hreturns z
        exact ih hreturns

end ComesUp

/-! ## Finitely many labels -/

section Finite

variable {X D : Type} {label : X → Option D} {inside : D → List (Option X)} {d d' : D}
  {xs : List (Option X)}

/-- The label is met when the list is unfolded. -/
theorem comesUp_iff_reflTransGen : (∃ x, ComesUp label inside xs (some x) ∧ label x = some d) ↔
    ∃ x, some x ∈ xs ∧ ∃ d₀, label x = some d₀ ∧ ReflTransGen (LeadsTo label inside) d₀ d := by
  constructor
  · rintro ⟨x, hup, hd⟩
    generalize hz : some x = z at hup
    induction hup generalizing x d with
    | listed hx =>
        subst hz
        exact ⟨x, hx, d, hd, .refl⟩
    | inside _ hd' hy ih =>
        subst hz
        obtain ⟨y, hy', d₀, hd₀, hpath⟩ := ih _ hd' rfl
        exact ⟨y, hy', d₀, hd₀, hpath.tail ⟨x, hy, hd⟩⟩
  · rintro ⟨x, hx, d₀, hd₀, hpath⟩
    induction hpath with
    | refl => exact ⟨x, .listed hx, hd₀⟩
    | tail _ hstep ih =>
        obtain ⟨y, hup, hy⟩ := ih
        obtain ⟨z, hz, hzd⟩ := hstep
        exact ⟨z, .inside hup hy hz, hzd⟩

/-- Without a way back, finitely many values can be taken one after the other. -/
theorem wellFounded_of_acyclic {α : Type} [Finite α] {r : α → α → Prop}
    (h : ∀ a, ¬ TransGen r a a) : WellFounded r := by
  have : Std.Irrefl (TransGen r) := ⟨h⟩
  have hsub : Subrelation r (TransGen r) := fun hr => .single hr
  exact hsub.wf (Finite.wellFounded_of_trans_of_irrefl (TransGen r))

theorem not_rel_of_acc {α : Type} {r : α → α → Prop} {a : α} (h : Acc r a) : ¬ r a a := by
  induction h with
  | intro a _ ih =>
      intro haa
      exact ih a haa haa

/-- A label that leads back to itself is never complete. -/
theorem Complete.acc {x : Option X} (h : Complete label inside x) :
    ∀ y, x = some y → ∀ d, label y = some d →
      Acc (fun d' d => LeadsTo label inside d d') d := by
  induction h with
  | intro _ ih =>
      rintro y ⟨⟩ d hd
      constructor
      rintro d' ⟨z, hz, hzd⟩
      exact ih d hd (some z) hz z rfl d' hzd

theorem complete_iff_acyclic [Finite D] : (∀ x ∈ xs, Complete label inside x) ↔
    none ∉ xs ∧ ∀ d, (∃ x, ComesUp label inside xs (some x) ∧ label x = some d) →
      none ∉ inside d ∧ ¬ TransGen (LeadsTo label inside) d d := by
  constructor
  · intro h
    refine ⟨fun hnone => not_complete_none (h none hnone), ?_⟩
    rintro d ⟨x, hup, hd⟩
    have hcomplete := hup.complete h
    have hinside := complete_some_iff.mp hcomplete d hd
    refine ⟨fun hnone => not_complete_none (hinside none hnone), ?_⟩
    intro hcycle
    have hacc := (hcomplete.acc x rfl d hd).transGen
    exact not_rel_of_acc hacc (transGen_swap.mpr hcycle)
  · rintro ⟨hnone, h⟩
    -- only the labels that come up are known to be free of cycles
    let Inner := {d : D // ∃ x, ComesUp label inside xs (some x) ∧ label x = some d}
    have hwf : WellFounded fun e d : Inner => LeadsTo label inside d.1 e.1 := by
      apply wellFounded_of_acyclic
      intro d hcycle
      have hback : TransGen (fun d e : Inner => LeadsTo label inside d.1 e.1) d d :=
        transGen_swap.mp hcycle
      exact (h d.1 d.2).2 (hback.lift Subtype.val fun _ _ hd => hd)
    have hinner : ∀ d : Inner, ∀ y ∈ inside d.1, Complete label inside y := by
      intro d
      induction d using hwf.induction with
      | _ d ih =>
          intro y hy
          cases y with
          | none => exact absurd hy (h d.1 d.2).1
          | some y =>
              refine .intro fun d' hd' => ?_
              obtain ⟨x, hup, hd⟩ := d.2
              exact ih ⟨d', y, .inside hup hd hy, hd'⟩ ⟨y, hy, hd'⟩
    intro x hx
    cases x with
    | none => exact absurd hx hnone
    | some x => exact .intro fun d hd => hinner ⟨d, x, .listed hx, hd⟩

end Finite

end FractalCdt.Math
