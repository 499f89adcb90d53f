/-
# What the post-pass leaves of the initial memory

`fractal-pp` drops the data segments that hold nothing but zeros and adds one for
the heap pointer.  The image stays as it was where the dropped segments lie on
cells that are zero anyway, which is so in a memory the module defines itself.
-/

import FractalCdt.Toolchain.HeapPtr

namespace FractalCdt.Toolchain

open FractalCdt.Math

/-- What the post-pass sees of a module. -/
structure WasmModule where
  /-- The initial size of memory 0; a module without one has no pages. -/
  pages : ℕ
  /-- The cells before the segments are stored: zero, unless the host provides them. -/
  before : Mem
  globals : List ModuleGlobal
  dataSegments : List DataSegment

/-- The address is one of the segment's. -/
def DataSegment.Covers (ds : DataSegment) (a : Addr) : Prop := InRange ds.offset ds.data.length a

/-- The segment holds nothing but zeros. -/
def DataSegment.isZeroed (ds : DataSegment) : Bool := ds.data.all fun datum => datum == 0

/-- The segments, stored one after another. -/
def storeAll (mem : Mem) : List DataSegment → Mem
  | [] => mem
  | ds :: dataSegments => storeAll (mem.store ds.offset ds.data) dataSegments

namespace WasmModule

variable (m : WasmModule)

/-- The memory of an instance; a segment that does not fit is an error. -/
def instantiate : Option Mem :=
  if ∀ ds ∈ m.dataSegments, ds.extent.stop ≤ 65536 * m.pages then
    some (storeAll m.before m.dataSegments)
  else none

/-- `ProgramMain` of the post-pass. -/
def postPass (fileData : List Byte) : Option WasmModule := do
  let heapPtr ← getHeapPtr m.globals fileData
  return { m with dataSegments := addHeapPointerData heapPtr (stripZeroedData m.dataSegments) }

/-- The segments lie inside the memory, apart from one another and from the word at
address 0. -/
structure Disjoint : Prop where
  inside : ∀ ds ∈ m.dataSegments, ds.extent.stop ≤ 65536 * m.pages
  apart : m.dataSegments.Pairwise fun ds ds' => ∀ a, ds.Covers a → ¬ ds'.Covers a
  wordApart : ∀ ds ∈ m.dataSegments, ∀ a, InRange 0 4 a → ¬ ds.Covers a

/-- The cells of the zeroed segments are zero before any segment is stored. -/
def ZeroUnderStripped : Prop :=
  ∀ ds ∈ m.dataSegments, ds.isZeroed → ∀ a, ds.Covers a → m.before a = 0

/-- The module and what the post-pass has made of it have the same image but for
the word at address 0, and the same segments but for the zeroed ones and the last. -/
structure SameImage (m m' : WasmModule) (heapPtr : BitVec 32) : Prop where
  image : ∃ mem mem', m.instantiate = some mem ∧ m'.instantiate = some mem' ∧
    (∀ a, ¬ InRange 0 4 a → mem' a = mem a) ∧
    mem'.load 0 4 = leBytes 4 (alignUp 8 heapPtr.toNat)
  survivors : ∃ word, m'.dataSegments = m.dataSegments.filter (fun ds => ¬ ds.isZeroed) ++ [word]

/-- The post-pass succeeds and preserves the image. -/
def Preserved (fileData : List Byte) : Prop :=
  ∃ heapPtr m', getHeapPtr m.globals fileData = some heapPtr ∧ m.postPass fileData = some m' ∧
    m.SameImage m' heapPtr

end WasmModule

/-! ## Dropping zeroed segments -/

theorem storeAll_append (mem : Mem) (first second : List DataSegment) :
    storeAll mem (first ++ second) = storeAll (storeAll mem first) second := by
  induction first generalizing mem with
  | nil => rfl
  | cons ds first ih => exact ih _

theorem stripZeroedData_eq (dataSegments : List DataSegment) :
    stripZeroedData dataSegments = dataSegments.filter fun ds => ¬ ds.isZeroed := rfl

/-- Where no segment lies on an earlier one, a cell is the same with and without
the zeroed segments. -/
theorem storeAll_stripZeroedData {a : Addr} {dataSegments : List DataSegment} {mem mem' : Mem}
    (h : mem a = mem' a)
    (hapart : dataSegments.Pairwise fun ds ds' => ∀ a, ds.Covers a → ¬ ds'.Covers a)
    (hzero : ∀ ds ∈ dataSegments, ds.isZeroed → ds.Covers a → mem' a = 0) :
    storeAll mem dataSegments a = storeAll mem' (stripZeroedData dataSegments) a := by
  rw [stripZeroedData_eq]
  induction dataSegments generalizing mem mem' with
  | nil => exact h
  | cons ds dataSegments ih =>
      rw [List.pairwise_cons] at hapart
      obtain ⟨hhead, htail⟩ := hapart
      have hmore := fun ds' hds' => hzero ds' (List.mem_cons_of_mem ds hds')
      rw [storeAll]
      by_cases hstrip : ds.isZeroed
      · rw [List.filter_cons_of_neg (by simp [hstrip])]
        refine ih ?_ htail hmore
        by_cases hcovers : ds.Covers a
        · have hcell := hzero ds List.mem_cons_self hstrip hcovers
          rw [hcell]
          exact Mem.store_zeros_apply (h.trans hcell) _ fun b hb =>
            beq_iff_eq.mp (List.all_eq_true.mp hstrip b hb)
        · rw [Mem.store_of_not_inRange _ hcovers, h]
      · rw [List.filter_cons_of_pos (by simp [hstrip]), storeAll]
        refine ih (Mem.store_apply_congr h _ _) htail ?_
        intro ds' hds' hstrip' hcovers'
        have hclear : ¬ ds.Covers a := fun hcovers => hhead ds' hds' a hcovers hcovers'
        rw [Mem.store_of_not_inRange _ hclear]
        exact hmore ds' hds' hstrip' hcovers'

/-! ## The image -/

namespace WasmModule

variable {m : WasmModule} {heapPtr : BitVec 32} {fileData : List Byte}

theorem instantiate_of_inside (h : ∀ ds ∈ m.dataSegments, ds.extent.stop ≤ 65536 * m.pages) :
    m.instantiate = some (storeAll m.before m.dataSegments) := if_pos h

theorem postPass_of_heapPtr (h : getHeapPtr m.globals fileData = some heapPtr) :
    m.postPass fileData = some
      { m with dataSegments := addHeapPointerData heapPtr (stripZeroedData m.dataSegments) } := by
  rw [postPass, h]
  rfl

/-- With room for the word and zeros under the segments that are dropped, the
post-pass preserves the image. -/
theorem postPass_preserved (hdisjoint : m.Disjoint) (hpages : 0 < m.pages)
    (hzero : m.ZeroUnderStripped)
    (hheap : getHeapPtr m.globals fileData = some heapPtr) : m.Preserved fileData := by
  obtain ⟨word, hadd, hoffset, hdata⟩ := stored_heapPtr heapPtr (stripZeroedData m.dataSegments)
  have hlength : word.data.length = 4 := by rw [hdata, length_leBytes]
  refine ⟨heapPtr, _, hheap, postPass_of_heapPtr hheap, ?_, word, hadd⟩
  have hinside : ∀ ds ∈ addHeapPointerData heapPtr (stripZeroedData m.dataSegments),
      ds.extent.stop ≤ 65536 * m.pages := by
    intro ds hds
    rw [hadd] at hds
    rcases List.mem_append.mp hds with hds | hds
    · exact hdisjoint.inside ds (List.mem_of_mem_filter hds)
    · rw [List.mem_singleton.mp hds]
      show word.offset.toNat + word.data.length ≤ _
      rw [hoffset, hlength]
      show 0 + 4 ≤ _
      omega
  have hlast : storeAll m.before (addHeapPointerData heapPtr (stripZeroedData m.dataSegments)) =
      (storeAll m.before (stripZeroedData m.dataSegments)).store 0 word.data := by
    rw [hadd, storeAll_append, ← hoffset]
    rfl
  refine ⟨_, _, instantiate_of_inside hdisjoint.inside, instantiate_of_inside hinside, ?_, ?_⟩
  · intro a ha
    have hkept := @storeAll_stripZeroedData a m.dataSegments m.before m.before rfl
      hdisjoint.apart fun ds hds hstrip hcovers => hzero ds hds hstrip a hcovers
    calc
      _ = storeAll m.before (addHeapPointerData heapPtr (stripZeroedData m.dataSegments)) a := rfl
      _ = (storeAll m.before (stripZeroedData m.dataSegments)).store 0 word.data a := by rw [hlast]
      _ = storeAll m.before (stripZeroedData m.dataSegments) a :=
        Mem.store_of_not_inRange _ (hlength ▸ ha)
      _ = storeAll m.before m.dataSegments a := hkept.symm
  · show (storeAll m.before (addHeapPointerData heapPtr _)).load 0 4 = _
    rw [hlast, ← hdata, ← hlength]
    exact Mem.load_store _ (by omega)

/-- A memory of one page with a zeroed segment between two others. -/
def sample : WasmModule where
  pages := 1
  before _ := 0
  globals := sampleGlobals 16
  dataSegments := [⟨8, [1]⟩, ⟨9, [0, 0]⟩, ⟨11, [2]⟩]

theorem postPass_preserved_sample : sample.Preserved (sampleFile 16) := by
  refine postPass_preserved ⟨by decide, ?_, ?_⟩ Nat.one_pos (fun _ _ _ _ _ => rfl) rfl
  · simp only [sample, List.pairwise_cons, List.mem_cons, List.not_mem_nil, or_false,
      forall_eq_or_imp, forall_eq, DataSegment.Covers, InRange, List.length_cons, List.length_nil]
    refine ⟨⟨?_, ?_⟩, ?_, fun _ h => h.elim, .nil⟩ <;> intro a h <;> bv_omega
  · simp only [sample, List.mem_cons, List.not_mem_nil, or_false, forall_eq_or_imp, forall_eq,
      DataSegment.Covers, InRange, List.length_cons, List.length_nil]
    refine ⟨?_, ?_, ?_⟩ <;> intro a h <;> bv_omega

section NoData

variable {pages : ℕ} {before : Mem} {globals : List ModuleGlobal}

theorem disjoint_of_noData : (WasmModule.mk pages before globals []).Disjoint :=
    ⟨nofun, .nil, nofun⟩

theorem zeroUnderStripped_of_noData : (WasmModule.mk pages before globals []).ZeroUnderStripped :=
    nofun

end NoData

/-- Without a page there is no room for the word; cells that the host provides keep
what the zeroed segments would have cleared; without global 1 there is no word. -/
theorem not_forall_postPass_preserved :
    (¬ ∀ (m : WasmModule) (fileData : List Byte) (heapPtr : BitVec 32), m.Disjoint →
      m.ZeroUnderStripped → getHeapPtr m.globals fileData = some heapPtr →
        m.Preserved fileData) ∧
    (¬ ∀ (m : WasmModule) (fileData : List Byte) (heapPtr : BitVec 32), m.Disjoint →
      0 < m.pages → getHeapPtr m.globals fileData = some heapPtr → m.Preserved fileData) ∧
    ¬ ∀ (m : WasmModule) (fileData : List Byte), m.Disjoint → 0 < m.pages →
      m.ZeroUnderStripped → m.Preserved fileData := by
  refine ⟨?_, ?_, ?_⟩
  · intro hall
    obtain ⟨heapPtr, m', -, hpost, ⟨mem, mem', -, hinst, -⟩, -⟩ :=
      hall ⟨0, fun _ => 0, sampleGlobals 16, []⟩ (sampleFile 16) 16
        disjoint_of_noData zeroUnderStripped_of_noData rfl
    cases hpost
    cases hinst
  · intro hall
    have hdisjoint : (WasmModule.mk 1 (fun _ => 5) (sampleGlobals 16) [⟨8, [0]⟩]).Disjoint := by
      refine ⟨by decide, List.pairwise_singleton _ _, ?_⟩
      simp only [List.mem_singleton, forall_eq, DataSegment.Covers, InRange, List.length_singleton]
      intro a h
      bv_omega
    obtain ⟨heapPtr, m', -, hpost, ⟨mem, mem', horig, hinst, hsame, -⟩, -⟩ :=
      hall ⟨1, fun _ => 5, sampleGlobals 16, [⟨8, [0]⟩]⟩
        (sampleFile 16) 16 hdisjoint Nat.one_pos rfl
    cases hpost
    cases horig
    cases hinst
    have hcell := hsame 8 (by decide)
    revert hcell
    decide
  · intro hall
    obtain ⟨heapPtr, m', hheap, -⟩ := hall ⟨1, fun _ => 0, [], []⟩ []
      disjoint_of_noData Nat.one_pos zeroUnderStripped_of_noData
    cases hheap

end WasmModule

end FractalCdt.Toolchain
