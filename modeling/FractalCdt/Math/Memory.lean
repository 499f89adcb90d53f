/-
# Flat byte memory with wrapping addresses

Addresses are 32-bit words, so address arithmetic wraps and a range
`[a, a + n)` is described by the distance of a cell from `a`.  With that
description the load and store laws need no side condition except that a block
does not overlap itself.
-/

import FractalCdt.Math.Bytes
import Mathlib.Data.Nat.Notation

namespace FractalCdt.Math

/-- A machine address. -/
abbrev Addr := BitVec 32

/-- The contents of every cell of the address space. -/
abbrev Mem := Addr → Byte

/-- Cell `x` is one of the `n` cells from `a` on. -/
def InRange (a : Addr) (n : ℕ) (x : Addr) : Prop := (x - a).toNat < n

instance (a : Addr) (n : ℕ) (x : Addr) : Decidable (InRange a n x) :=
  inferInstanceAs (Decidable (_ < _))

/-- The addresses a block transfer of `n` bytes at `a` touches, in order. -/
def footprint : Addr → ℕ → List Addr
  | _, 0 => []
  | a, n + 1 => a :: footprint (a + 1) n

/-- Read `n` bytes from `a` on. -/
def Mem.load (m : Mem) (a : Addr) (n : ℕ) : List Byte := (footprint a n).map m

/-- Write a byte string from `a` on. -/
def Mem.store (m : Mem) : Addr → List Byte → Mem
  | _, [] => m
  | a, b :: bs => Mem.store (fun x => if x = a then b else m x) (a + 1) bs

@[simp]
theorem length_footprint (a : Addr) (n : ℕ) : (footprint a n).length = n := by
  induction n generalizing a with
  | zero => rfl
  | succ n ih => rw [footprint, List.length_cons, ih]

/-- Up to a whole turn of the address space, a transfer touches exactly its range. -/
theorem mem_footprint {a : Addr} {n : ℕ} (hn : n ≤ 2 ^ 32) {x : Addr} :
    x ∈ footprint a n ↔ InRange a n x := by
  induction n generalizing a with
  | zero => simp [footprint, InRange]
  | succ n ih =>
      rw [footprint, List.mem_cons, ih (by omega)]
      simp only [InRange]
      constructor
      · rintro (rfl | h)
        · simp
        · bv_omega
      · intro h
        by_cases hx : x = a
        · exact .inl hx
        · right
          have : x - a ≠ 0 := fun h0 => hx (by bv_omega)
          bv_omega

/-- Advancing an address by one and then by `k` advances it by `k + 1`. -/
theorem add_one_add_ofNat (a : Addr) (k : ℕ) :
    a + 1 + BitVec.ofNat 32 k = a + BitVec.ofNat 32 (k + 1) := by
  rw [BitVec.add_assoc, BitVec.add_comm 1, ← BitVec.ofNat_add_ofNat]
  rfl

theorem footprint_add (a : Addr) (k n : ℕ) :
    footprint a (k + n) = footprint a k ++ footprint (a + BitVec.ofNat 32 k) n := by
  induction k generalizing a with
  | zero => simp [footprint]
  | succ k ih =>
      rw [Nat.add_right_comm, footprint, ih, footprint, List.cons_append, add_one_add_ofNat]

namespace Mem

variable (m : Mem)

@[simp]
theorem length_load (a : Addr) (n : ℕ) : (m.load a n).length = n := by
  rw [load, List.length_map, length_footprint]

theorem load_succ (a : Addr) (n : ℕ) : m.load a (n + 1) = m a :: m.load (a + 1) n := rfl

/-- A load splits at any point. -/
theorem load_add (a : Addr) (k n : ℕ) :
    m.load a (k + n) = m.load a k ++ m.load (a + BitVec.ofNat 32 k) n := by
  rw [load, footprint_add, List.map_append]
  rfl

/-- A load depends only on the cells it touches. -/
theorem load_congr {m m' : Mem} {a : Addr} {n : ℕ}
    (hagree : ∀ x ∈ footprint a n, m x = m' x) : m.load a n = m'.load a n :=
  List.map_congr_left hagree

/-- A store leaves every cell outside its range unchanged. -/
theorem store_of_not_inRange {a : Addr} {bs : List Byte} {x : Addr}
    (hout : ¬ InRange a bs.length x) : m.store a bs x = m x := by
  induction bs generalizing m a with
  | nil => rfl
  | cons b bs ih =>
      have hne : x ≠ a := by
        rintro rfl
        simp [InRange] at hout
      have hrest : ¬ InRange (a + 1) bs.length x := by
        simp only [InRange, List.length_cons] at hout ⊢
        have : x - a ≠ 0 := fun h0 => hne (by bv_omega)
        bv_omega
      rw [store, ih _ hrest, if_neg hne]

/-- A cell after a store depends on the same cell before. -/
theorem store_apply_congr {m m' : Mem} {x : Addr} (h : m x = m' x) (a : Addr) (bs : List Byte) :
    m.store a bs x = m'.store a bs x := by
  induction bs generalizing m m' a with
  | nil => exact h
  | cons b bs ih =>
      refine ih ?_ (a + 1)
      by_cases hx : x = a
      · rw [if_pos hx, if_pos hx]
      · rw [if_neg hx, if_neg hx, h]

/-- Zeros stored on a zero leave it. -/
theorem store_zeros_apply {m : Mem} {x : Addr} (h : m x = 0) (a : Addr) {bs : List Byte}
    (hzero : ∀ b ∈ bs, b = 0) : m.store a bs x = 0 := by
  induction bs generalizing m a with
  | nil => exact h
  | cons b bs ih =>
      refine ih ?_ (a + 1) fun c hc => hzero c (List.mem_cons_of_mem b hc)
      by_cases hx : x = a
      · rw [if_pos hx]
        exact hzero b List.mem_cons_self
      · rw [if_neg hx, h]

/-- Where zeros have been stored there are zeros. -/
theorem store_zeros_of_inRange {a x : Addr} {bs : List Byte} (hzero : ∀ b ∈ bs, b = 0)
    (hin : InRange a bs.length x) : m.store a bs x = 0 := by
  induction bs generalizing m a with
  | nil => exact absurd hin (Nat.not_lt_zero _)
  | cons b bs ih =>
      have hrest : ∀ c ∈ bs, c = 0 := fun c hc => hzero c (List.mem_cons_of_mem b hc)
      by_cases hx : x = a
      · apply store_zeros_apply _ (a + 1) hrest
        rw [if_pos hx]
        exact hzero b List.mem_cons_self
      · apply ih _ hrest
        simp only [InRange, List.length_cons] at hin ⊢
        bv_omega

/-- A block read back from where it was stored is the block, as long as it does
not lap itself. -/
theorem load_store {a : Addr} {bs : List Byte} (hlen : bs.length ≤ 2 ^ 32) :
    (m.store a bs).load a bs.length = bs := by
  induction bs generalizing m a with
  | nil => rfl
  | cons b bs ih =>
      rw [List.length_cons] at hlen
      have hhead : ¬ InRange (a + 1) bs.length a := by
        simp only [InRange]
        bv_omega
      rw [store, List.length_cons, load_succ, ih _ (by omega), store_of_not_inRange _ hhead,
        if_pos rfl]

theorem store_append (a : Addr) (bs cs : List Byte) :
    m.store a (bs ++ cs) = (m.store a bs).store (a + BitVec.ofNat 32 bs.length) cs := by
  induction bs generalizing m a with
  | nil => simp [store]
  | cons b bs ih =>
      rw [List.cons_append, store, store, ih, List.length_cons, add_one_add_ofNat]

end Mem

end FractalCdt.Math
