/-
# Writing into a buffer

A program that fills in a buffer writes short strings at given offsets.  Where the
places do not overlap, every string is found at its place in the end, in whatever
order they were written, and all other cells are as they were.
-/

import FractalCdt.Math.Extents
import Mathlib.Data.List.TakeDrop

namespace FractalCdt.Math

variable {α : Type}

/-- The cells of a buffer from an offset on. -/
def window (buf : List α) (offset n : ℕ) : List α := (buf.drop offset).take n

/-- A string and the offset at which it is written. -/
structure Patch (α : Type) where
  offset : ℕ
  data : List α

namespace Patch

def extent (p : Patch α) : Extent := ⟨p.offset, p.data.length⟩

def apply (p : Patch α) (buf : List α) : List α :=
  buf.take p.offset ++ p.data ++ buf.drop (p.offset + p.data.length)

/-- Write one after another. -/
def applyAll (ps : List (Patch α)) (buf : List α) : List α :=
  ps.foldl (fun buf p => p.apply buf) buf

/-- The place is inside of the buffer. -/
def Inside (p : Patch α) (buf : List α) : Prop := p.extent.stop ≤ buf.length

end Patch

section One

variable {p : Patch α} {buf : List α} {i : ℕ}

theorem length_apply (h : p.Inside buf) : (p.apply buf).length = buf.length := by
  have hstop : p.offset + p.data.length ≤ buf.length := h
  unfold Patch.apply
  rw [List.length_append, List.length_append, List.length_take, List.length_drop]
  omega

theorem getElem?_apply (h : p.Inside buf) : (p.apply buf)[i]? =
    if p.offset ≤ i ∧ i < p.offset + p.data.length then p.data[i - p.offset]? else buf[i]? := by
  have hstop : p.offset + p.data.length ≤ buf.length := h
  have htake : (buf.take p.offset).length = p.offset := by
    rw [List.length_take]
    omega
  unfold Patch.apply
  rcases Nat.lt_or_ge i p.offset with hlow | hlow
  · rw [if_neg (by omega), List.append_assoc, List.getElem?_append_left (by omega),
      List.getElem?_take_of_lt hlow]
  · rcases Nat.lt_or_ge i (p.offset + p.data.length) with hhigh | hhigh
    · rw [if_pos ⟨hlow, hhigh⟩, List.append_assoc, List.getElem?_append_right (by omega), htake,
        List.getElem?_append_left (by omega)]
    · rw [if_neg (by omega), List.getElem?_append_right (by rw [List.length_append]; omega),
        List.length_append, htake, List.getElem?_drop]
      congr 1
      omega

theorem getElem?_window {offset n : ℕ} :
    (window buf offset n)[i]? = if i < n then buf[offset + i]? else none := by
  unfold window
  rw [List.getElem?_take, List.getElem?_drop]

/-- A buffer shows in a window what it holds. -/
theorem window_congr {buf' : List α} {offset n : ℕ}
    (h : ∀ i < n, buf[offset + i]? = buf'[offset + i]?) :
    window buf offset n = window buf' offset n := by
  apply List.ext_getElem?
  intro i
  rw [getElem?_window, getElem?_window]
  split
  case isTrue hi => exact h i hi
  case isFalse => rfl

theorem window_apply (h : p.Inside buf) : window (p.apply buf) p.offset p.data.length = p.data := by
  apply List.ext_getElem?
  intro i
  rw [getElem?_window]
  split
  case isTrue hi =>
    rw [getElem?_apply h, if_pos (by omega), Nat.add_sub_cancel_left]
  case isFalse hi => exact (List.getElem?_eq_none (by omega)).symm

theorem window_apply_of_apart (h : p.Inside buf) {x : Extent} (hx : p.extent.Apart x) :
    window (p.apply buf) x.start x.len = window buf x.start x.len := by
  refine window_congr fun i hi => ?_
  rw [getElem?_apply h, if_neg]
  have hapart : p.offset + p.data.length ≤ x.start ∨ x.start + x.len ≤ p.offset := hx
  omega

end One

/-! ## Parts -/

/-- The part is what the buffer shows from an offset on. -/
def StandsAt (buf : List α) (offset : ℕ) (part : List α) : Prop :=
  window buf offset part.length = part

section Parts

variable {buf first second part : List α} {offset : ℕ}

theorem window_add (m n : ℕ) :
    window buf offset (m + n) = window buf offset m ++ window buf (offset + m) n := by
  unfold window
  rw [List.take_add, List.drop_drop]

theorem standsAt_append : StandsAt buf offset (first ++ second) ↔
    StandsAt buf offset first ∧ StandsAt buf (offset + first.length) second := by
  unfold StandsAt
  rw [List.length_append, window_add]
  constructor
  · intro h
    have hfirst : (window buf offset first.length).length ≤ first.length := List.length_take_le ..
    have hsecond : (window buf (offset + first.length) second.length).length ≤ second.length :=
      List.length_take_le ..
    have hlength := congrArg List.length h
    rw [List.length_append, List.length_append] at hlength
    exact List.append_inj h (by omega)
  · rintro ⟨hfirst, hsecond⟩
    rw [hfirst, hsecond]

theorem standsAt_self : StandsAt buf 0 buf := List.take_length

/-- A part as long as the buffer is the buffer. -/
theorem StandsAt.eq (h : StandsAt buf 0 part) (hlength : part.length = buf.length) :
    buf = part := by
  unfold StandsAt at h
  rw [hlength] at h
  exact standsAt_self.symm.trans h

end Parts

/-! ## Many places -/

section Many

variable {ps : List (Patch α)} {buf : List α}

theorem length_applyAll (h : ∀ p ∈ ps, p.Inside buf) :
    (Patch.applyAll ps buf).length = buf.length := by
  unfold Patch.applyAll
  induction ps generalizing buf with
  | nil => rfl
  | cons p ps ih =>
      have hlength := length_apply (h p List.mem_cons_self)
      rw [List.foldl_cons, ih fun q hq => ?_, hlength]
      unfold Patch.Inside
      rw [hlength]
      exact h q (List.mem_cons_of_mem p hq)

/-- A place that no string is written to stays. -/
theorem window_applyAll_of_apart (h : ∀ p ∈ ps, p.Inside buf) {x : Extent}
    (hx : ∀ p ∈ ps, p.extent.Apart x) :
    window (Patch.applyAll ps buf) x.start x.len = window buf x.start x.len := by
  unfold Patch.applyAll
  induction ps generalizing buf with
  | nil => rfl
  | cons p ps ih =>
      have hp := h p List.mem_cons_self
      rw [List.foldl_cons, ih (fun q hq => ?_) fun q hq => hx q (List.mem_cons_of_mem p hq),
        window_apply_of_apart hp (hx p List.mem_cons_self)]
      unfold Patch.Inside
      rw [length_apply hp]
      exact h q (List.mem_cons_of_mem p hq)

/-- Strings at places apart from one another are all there in the end. -/
theorem window_applyAll (h : ∀ p ∈ ps, p.Inside buf)
    (hapart : ps.Pairwise fun p q => p.extent.Apart q.extent) {p : Patch α} (hp : p ∈ ps) :
    window (Patch.applyAll ps buf) p.offset p.data.length = p.data := by
  induction ps generalizing buf with
  | nil => cases hp
  | cons q ps ih =>
      obtain ⟨hhead, htail⟩ := List.pairwise_cons.mp hapart
      have hq := h q List.mem_cons_self
      have hrest : ∀ r ∈ ps, r.Inside (q.apply buf) := fun r hr => by
        unfold Patch.Inside
        rw [length_apply hq]
        exact h r (List.mem_cons_of_mem q hr)
      rcases List.mem_cons.mp hp with rfl | hmem
      · refine (window_applyAll_of_apart (x := p.extent) hrest fun r hr => ?_).trans
          (window_apply hq)
        exact (hhead r hr).symm
      · exact ih hrest htail hmem

end Many

/-! ## A part of the buffer -/

section Part

variable {ps : List (Patch α)} {data buf : List α} {o : ℕ}

theorem apply_whole (h : data.length = buf.length) : Patch.apply ⟨0, data⟩ buf = data := by
  unfold Patch.apply
  dsimp only
  rw [List.take_zero, List.nil_append, List.drop_of_length_le (by omega), List.append_nil]

/-- The same string further back. -/
def Patch.shift (o : ℕ) (p : Patch α) : Patch α := ⟨o + p.offset, p.data⟩

theorem getElem?_apply_mk {bytes : List α} {i : ℕ} (h : o + bytes.length ≤ buf.length) :
    (Patch.apply ⟨o, bytes⟩ buf)[i]? =
      if o ≤ i ∧ i < o + bytes.length then bytes[i - o]? else buf[i]? := getElem?_apply h

theorem apply_shift {p : Patch α} (hp : p.Inside data) (ho : o + data.length ≤ buf.length) :
    (p.shift o).apply (Patch.apply ⟨o, data⟩ buf) = Patch.apply ⟨o, p.apply data⟩ buf := by
  have hin : p.offset + p.data.length ≤ data.length := hp
  have hlength := length_apply hp
  have hbuf : (Patch.apply ⟨o, data⟩ buf).length = buf.length := length_apply ho
  apply List.ext_getElem?
  intro i
  rw [Patch.shift, getElem?_apply_mk (by omega), getElem?_apply_mk ho,
    getElem?_apply_mk (by omega), getElem?_apply hp, hlength, Nat.sub_sub]
  by_cases hfield : o + p.offset ≤ i ∧ i < o + p.offset + p.data.length
  · rw [if_pos hfield, if_pos (by omega), if_pos (by omega)]
  · rw [if_neg hfield]
    by_cases hdata : o ≤ i ∧ i < o + data.length
    · rw [if_pos hdata, if_pos hdata, if_neg (by omega)]
    · rw [if_neg hdata, if_neg hdata]

/-- A string that is put in a buffer and then written over is a string that has been written
over and is then put in. -/
theorem applyAll_shift (hps : ∀ p ∈ ps, p.Inside data) (ho : o + data.length ≤ buf.length) :
    Patch.applyAll (ps.map (·.shift o)) (Patch.apply ⟨o, data⟩ buf) =
      Patch.apply ⟨o, Patch.applyAll ps data⟩ buf := by
  unfold Patch.applyAll
  induction ps generalizing data with
  | nil => rfl
  | cons p ps ih =>
      have hp := hps p List.mem_cons_self
      have hlength := length_apply hp
      rw [List.map_cons, List.foldl_cons, apply_shift hp ho, ih (fun q hq => ?_) (by omega),
        List.foldl_cons]
      unfold Patch.Inside
      rw [hlength]
      exact hps q (List.mem_cons_of_mem p hq)

end Part

/-! ## What is to be written is found first -/

/-- What is found for each entry of a list. -/
theorem exists_mapM {β γ : Type} {f : β → Option γ} {L : List β} (h : ∀ x ∈ L, ∃ y, f x = some y) :
    ∃ ys, L.mapM f = some ys ∧ ∀ i : ℕ, ys[i]? = (L[i]?).bind f := by
  induction L with
  | nil => exact ⟨[], rfl, fun i => rfl⟩
  | cons x L ih =>
      obtain ⟨y, hy⟩ := h x List.mem_cons_self
      obtain ⟨ys, hys, hget⟩ := ih fun z hz => h z (List.mem_cons_of_mem x hz)
      refine ⟨y :: ys, ?_, fun i => ?_⟩
      · rw [List.mapM_cons, hy, hys]
        rfl
      · cases i with
        | zero => exact hy.symm
        | succ i => exact hget i

theorem forall₂_of_mapM {β γ : Type} {f : β → Option γ} {L : List β} {ys : List γ}
    (h : L.mapM f = some ys) : List.Forall₂ (fun x y => f x = some y) L ys := by
  induction L generalizing ys with
  | nil =>
      cases h
      exact .nil
  | cons x L ih =>
      rw [List.mapM_cons] at h
      obtain ⟨y, hy, h⟩ := Option.bind_eq_some_iff.mp h
      obtain ⟨zs, hzs, h⟩ := Option.bind_eq_some_iff.mp h
      cases h
      exact .cons hy (ih hzs)

theorem mapM_eq_map {β γ : Type} {f : β → Option γ} {g : β → γ} {L : List β}
    (h : ∀ x ∈ L, f x = some (g x)) : L.mapM f = some (L.map g) := by
  induction L with
  | nil => rfl
  | cons x L ih =>
      rw [List.mapM_cons, h x List.mem_cons_self, ih fun z hz => h z (List.mem_cons_of_mem x hz)]
      rfl

/-- A buffer whose fields are filled in, each at its place. -/
structure Filled {β : Type} (f : β → Option (Patch α)) (place : β → Extent) (L : List β)
    (buf filled : List α) : Prop where
  length : filled.length = buf.length
  fields : ∀ x ∈ L, ∀ p, f x = some p → window filled p.offset p.data.length = p.data
  frame : ∀ e : Extent, (∀ x ∈ L, (place x).Apart e) →
    window filled e.start e.len = window buf e.start e.len

theorem filled_applyAll {β : Type} {f : β → Option (Patch α)} {place : β → Extent} {L : List β}
    {buf : List α} (hf : ∀ x ∈ L, ∃ p, f x = some p ∧ p.extent = place x)
    (hinside : ∀ x ∈ L, (place x).stop ≤ buf.length)
    (hapart : L.Pairwise fun x y => (place x).Apart (place y)) :
    ∃ ps, L.mapM f = some ps ∧ (∀ p ∈ ps, p.Inside buf) ∧
      Filled f place L buf (Patch.applyAll ps buf) := by
  obtain ⟨ps, hps, hget⟩ := exists_mapM fun x hx => (hf x hx).imp fun p hp => hp.1
  have hextents : ps.map (·.extent) = L.map place := by
    apply List.ext_getElem?
    intro i
    rw [List.getElem?_map, List.getElem?_map, hget]
    cases hx : L[i]? with
    | none => rfl
    | some x =>
        obtain ⟨p, hp, hplace⟩ := hf x (List.mem_of_getElem? hx)
        rw [Option.bind_some, hp, Option.map_some, Option.map_some, hplace]
  have hmem (p : Patch α) (hp : p ∈ ps) : ∃ x ∈ L, place x = p.extent := by
    have hextent : p.extent ∈ L.map place := hextents ▸ List.mem_map_of_mem hp
    exact List.mem_map.mp hextent
  have hin : ∀ p ∈ ps, p.Inside buf := by
    intro p hp
    obtain ⟨x, hx, hplace⟩ := hmem p hp
    rw [Patch.Inside, ← hplace]
    exact hinside x hx
  have hpairs : ps.Pairwise fun p q => p.extent.Apart q.extent := by
    have hmap : (L.map place).Pairwise Extent.Apart := List.pairwise_map.mpr hapart
    rw [← hextents] at hmap
    exact List.pairwise_map.mp hmap
  refine ⟨ps, hps, hin, length_applyAll hin, fun x hx p hp => window_applyAll hin hpairs ?_,
    fun e he => window_applyAll_of_apart hin fun p hp => ?_⟩
  · obtain ⟨i, hi⟩ := List.getElem?_of_mem hx
    have hpi := hget i
    rw [hi, Option.bind_some, hp] at hpi
    exact List.mem_of_getElem? hpi
  · obtain ⟨x, hx, hplace⟩ := hmem p hp
    rw [← hplace]
    exact he x hx

/-- Strings that are found and written one by one are written. -/
theorem foldlM_apply {β : Type} {write : List α → β → Option (List α)} {L : List β}
    {ps : List (Patch α)} {buf : List α} (hlength : L.length = ps.length)
    (h : ∀ (i : ℕ) (x : β) (p : Patch α), L[i]? = some x → ps[i]? = some p → p.Inside buf ∧
      ∀ b : List α, b.length = buf.length → write b x = some (p.apply b)) :
    L.foldlM write buf = some (Patch.applyAll ps buf) := by
  induction L generalizing ps buf with
  | nil =>
      obtain rfl := List.length_eq_zero_iff.mp hlength.symm
      rfl
  | cons x L ih =>
      cases ps with
      | nil => cases hlength
      | cons p ps =>
          obtain ⟨hp, hwrite⟩ := h 0 x p rfl rfl
          have hstep := length_apply hp
          rw [List.foldlM_cons, hwrite buf rfl]
          refine ih (Nat.succ.inj hlength) fun i y q hy hq => ?_
          obtain ⟨hq', hnext⟩ := h (i + 1) y q hy hq
          refine ⟨?_, fun b hb => hnext b (hb.trans hstep)⟩
          unfold Patch.Inside
          rw [hstep]
          exact hq'

end FractalCdt.Math
