/-
# Marking what is reachable

A collector marks the roots, and then follows each marked node to its successors,
with a stack of those it has yet to follow.  A node is marked when it is put on the
stack, so that it is followed once.  Nodes that have no successors need not be put
there.  What is marked in the end is what can be reached.
-/

import FractalCdt.Math.Exhaust
import Mathlib.Logic.Relation

namespace FractalCdt.Math

/-- What is marked, and the stack of what is to be followed. -/
structure Marking (κ : Type) where
  marked : List κ
  stack : List κ

namespace Marking

variable {κ : Type} [DecidableEq κ] (pushes : κ → Bool) (succ : κ → List κ)

def enqueue (m : Marking κ) (k : κ) : Marking κ :=
  if k ∈ m.marked then m else ⟨k :: m.marked, if pushes k then k :: m.stack else m.stack⟩

def enqueueAll (m : Marking κ) (ks : List κ) : Marking κ := ks.foldl (enqueue pushes) m

/-- Follow the top of the stack. -/
def step (m : Marking κ) : Option (Marking κ) :=
  match m.stack with
  | [] => none
  | k :: rest => some (enqueueAll pushes ⟨m.marked, rest⟩ (succ k))

/-- Mark the roots and what they lead to; some nodes are marked at first. -/
def mark (n : ℕ) (marked roots : List κ) : Marking κ :=
  exhaust (step pushes succ) n (enqueueAll pushes ⟨marked, []⟩ roots)

section Enqueue

variable {pushes} {m : Marking κ} {k : κ} {ks : List κ}

theorem mem_marked_enqueue {a : κ} :
    a ∈ (m.enqueue pushes k).marked ↔ a = k ∨ a ∈ m.marked := by
  unfold enqueue
  split
  case isTrue hmem => exact (or_iff_right_of_imp fun h => h ▸ hmem).symm
  case isFalse => exact List.mem_cons

theorem mem_marked_enqueueAll {a : κ} :
    a ∈ (m.enqueueAll pushes ks).marked ↔ a ∈ ks ∨ a ∈ m.marked := by
  unfold enqueueAll
  induction ks generalizing m with
  | nil => simp
  | cons k ks ih =>
      rw [List.foldl_cons, ih, mem_marked_enqueue, List.mem_cons, or_left_comm, or_assoc]

/-- What is newly marked is on the stack, unless it is not to be followed. -/
theorem mem_stack_enqueueAll {a : κ} :
    a ∈ (m.enqueueAll pushes ks).stack ↔
      a ∈ m.stack ∨ a ∈ ks ∧ a ∉ m.marked ∧ pushes a := by
  unfold enqueueAll
  induction ks generalizing m with
  | nil => simp
  | cons k ks ih =>
      rw [List.foldl_cons, ih, mem_marked_enqueue]
      unfold enqueue
      split
      case isTrue hmem =>
        rw [List.mem_cons]
        constructor
        · tauto
        · rintro (h | ⟨rfl | h, hnew, hp⟩)
          · exact .inl h
          · exact absurd hmem hnew
          · refine .inr ⟨h, ?_, hp⟩
            rintro (rfl | hold)
            · exact hnew hmem
            · exact hnew hold
      case isFalse hnew =>
        dsimp only
        split
        case isTrue hp =>
          rw [List.mem_cons, List.mem_cons]
          by_cases hk : a = k
          · subst hk
            tauto
          · tauto
        case isFalse hp =>
          rw [List.mem_cons]
          by_cases hk : a = k
          · subst hk
            tauto
          · tauto

/-- The stack and what is not marked do not grow together. -/
theorem left_enqueueAll {all : List κ} (hall : ks ⊆ all) :
    (m.enqueueAll pushes ks).stack.length +
        unseen (fun _ => 1) all (m.enqueueAll pushes ks).marked ≤
      m.stack.length + unseen (fun _ => 1) all m.marked := by
  unfold enqueueAll
  induction ks generalizing m with
  | nil => exact le_rfl
  | cons k ks ih =>
      rw [List.foldl_cons]
      refine (ih (List.subset_of_cons_subset hall)).trans ?_
      unfold enqueue
      split
      · exact le_rfl
      case isFalse hnew =>
        have hless := unseen_cons (fun _ => 1) (hall List.mem_cons_self) hnew
        dsimp only
        split
        · rw [List.length_cons]
          omega
        · omega

end Enqueue

section Mark

variable {pushes} {succ} {all initial roots : List κ} {n : ℕ} {m m' : Marking κ}

/-- One node leads to the other. -/
def Leads (succ : κ → List κ) (a b : κ) : Prop := b ∈ succ a

/-- What marking from some roots keeps. -/
structure Sound (pushes : κ → Bool) (succ : κ → List κ) (initial roots : List κ)
    (m : Marking κ) : Prop where
  initial_subset : initial ⊆ m.marked
  roots_subset : roots ⊆ m.marked
  reachable : ∀ k ∈ m.marked,
    k ∈ initial ∨ ∃ r ∈ roots, Relation.ReflTransGen (Leads succ) r k
  stack_subset : m.stack ⊆ m.marked
  followed : ∀ k ∈ m.marked,
    k ∈ initial ∨ k ∈ m.stack ∨ pushes k = false ∨ succ k ⊆ m.marked

theorem sound_start :
    Sound pushes succ initial roots (enqueueAll pushes ⟨initial, []⟩ roots) := by
  have hmarked {a : κ} : a ∈ (enqueueAll pushes ⟨initial, []⟩ roots).marked ↔
      a ∈ roots ∨ a ∈ initial := mem_marked_enqueueAll
  constructor
  case initial_subset => exact fun a h => hmarked.mpr (.inr h)
  case roots_subset => exact fun a h => hmarked.mpr (.inl h)
  case reachable =>
    intro a h
    rcases hmarked.mp h with hroot | hinitial
    · exact .inr ⟨a, hroot, .refl⟩
    · exact .inl hinitial
  case stack_subset =>
    intro a h
    rw [mem_stack_enqueueAll] at h
    rcases h with h | ⟨h, -⟩
    · cases h
    · exact hmarked.mpr (.inl h)
  case followed =>
    intro a h
    by_cases hinitial : a ∈ initial
    · exact .inl hinitial
    · rcases Bool.eq_false_or_eq_true (pushes a) with hp | hp
      · exact .inr (.inl (mem_stack_enqueueAll.mpr
          (.inr ⟨(hmarked.mp h).resolve_right hinitial, hinitial, hp⟩)))
      · exact .inr (.inr (.inl hp))

theorem Sound.step (h : Sound pushes succ initial roots m)
    (hinitial : ∀ k ∈ initial, succ k = []) (hstep : m.step pushes succ = some m') :
    Sound pushes succ initial roots m' := by
  unfold Marking.step at hstep
  cases hstack : m.stack with
  | nil =>
      rw [hstack] at hstep
      cases hstep
  | cons k rest =>
      rw [hstack] at hstep
      cases hstep
      have hk : k ∈ m.marked := h.stack_subset (hstack ▸ List.mem_cons_self)
      have hmarked {a : κ} : a ∈ (enqueueAll pushes ⟨m.marked, rest⟩ (succ k)).marked ↔
          a ∈ succ k ∨ a ∈ m.marked := mem_marked_enqueueAll
      have hmono : m.marked ⊆ (enqueueAll pushes ⟨m.marked, rest⟩ (succ k)).marked :=
        fun a ha => hmarked.mpr (.inr ha)
      constructor
      case initial_subset => exact List.Subset.trans h.initial_subset hmono
      case roots_subset => exact List.Subset.trans h.roots_subset hmono
      case reachable =>
        intro a ha
        rcases hmarked.mp ha with hnew | hold
        · rcases h.reachable k hk with hk₀ | ⟨r, hr, hpath⟩
          · rw [hinitial k hk₀] at hnew
            cases hnew
          · exact .inr ⟨r, hr, hpath.tail hnew⟩
        · exact h.reachable a hold
      case stack_subset =>
        intro a ha
        rw [mem_stack_enqueueAll] at ha
        rcases ha with hrest | ⟨hnew, -⟩
        · exact hmono (h.stack_subset (hstack ▸ List.mem_cons_of_mem _ hrest))
        · exact hmarked.mpr (.inl hnew)
      case followed =>
        intro a ha
        by_cases hold : a ∈ m.marked
        · rcases h.followed a hold with h₀ | hstacked | hp | hsucc
          · exact .inl h₀
          · rw [hstack] at hstacked
            rcases List.mem_cons.mp hstacked with rfl | hrest
            · exact .inr (.inr (.inr fun b hb => hmarked.mpr (.inl hb)))
            · exact .inr (.inl (mem_stack_enqueueAll.mpr (.inl hrest)))
          · exact .inr (.inr (.inl hp))
          · exact .inr (.inr (.inr (List.Subset.trans hsucc hmono)))
        · rcases Bool.eq_false_or_eq_true (pushes a) with hp | hp
          · exact .inr (.inl (mem_stack_enqueueAll.mpr
              (.inr ⟨(hmarked.mp ha).resolve_right hold, hold, hp⟩)))
          · exact .inr (.inr (.inl hp))

/-- What is marked in the end is what is marked at first and what the roots lead to. -/
theorem mem_mark_iff (hinitial : ∀ k ∈ initial, succ k = [])
    (hpushes : ∀ k, pushes k = false → succ k = []) (hroots : roots ⊆ all)
    (hsucc : ∀ k, succ k ⊆ all) (hn : all.length ≤ n) {k : κ} :
    k ∈ (mark pushes succ n initial roots).marked ↔
      k ∈ initial ∨ ∃ r ∈ roots, Relation.ReflTransGen (Leads succ) r k := by
  have hsound : Sound pushes succ initial roots (mark pushes succ n initial roots) :=
    exhaust_induction _ (fun m m' h hstep => h.step hinitial hstep) sound_start
  have hfalls (m m' : Marking κ) (hstep : m.step pushes succ = some m') :
      m'.stack.length + unseen (fun _ => 1) all m'.marked <
        m.stack.length + unseen (fun _ => 1) all m.marked := by
    unfold Marking.step at hstep
    cases hstack : m.stack with
    | nil =>
        rw [hstack] at hstep
        cases hstep
    | cons a rest =>
        rw [hstack] at hstep
        cases hstep
        have hle := @left_enqueueAll κ _ pushes ⟨m.marked, rest⟩ _ _ (hsucc a)
        rw [List.length_cons]
        dsimp only at hle
        omega
  have hbound : (enqueueAll pushes ⟨initial, []⟩ roots).stack.length +
      unseen (fun _ => 1) all (enqueueAll pushes ⟨initial, []⟩ roots).marked ≤ n := by
    calc
      _ ≤ 0 + unseen (fun _ => 1) all initial := left_enqueueAll hroots
      _ ≤ (all.map fun _ => 1).sum := (Nat.zero_add _).le.trans (unseen_le _ all initial)
      _ = all.length := by rw [List.map_const', List.sum_replicate_nat, mul_one]
      _ ≤ n := hn
  have hempty : (mark pushes succ n initial roots).stack = [] := by
    have hnone : (mark pushes succ n initial roots).step pushes succ = none :=
      exhaust_stops _ hfalls hbound
    unfold Marking.step at hnone
    cases hstack : (mark pushes succ n initial roots).stack with
    | nil => rfl
    | cons a rest =>
        rw [hstack] at hnone
        cases hnone
  constructor
  · exact hsound.reachable k
  · rintro (h | ⟨r, hr, hpath⟩)
    · exact hsound.initial_subset h
    · induction hpath with
      | refl => exact hsound.roots_subset hr
      | @tail a b _ hlead ih =>
          rcases hsound.followed a ih with h₀ | hstacked | hp | hfollowed
          · rw [Leads, hinitial a h₀] at hlead
            cases hlead
          · rw [hempty] at hstacked
            cases hstacked
          · rw [Leads, hpushes a hp] at hlead
            cases hlead
          · exact hfollowed hlead

end Mark

end Marking

end FractalCdt.Math
