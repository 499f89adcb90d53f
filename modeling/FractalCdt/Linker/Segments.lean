/-
# Where the data is

Live input segments are merged into output segments by name, in the order in which they
come, and these are laid out behind the stack.  No two live input segments share a
cell, and each is aligned as it asks for.
-/

import FractalCdt.Linker.Indexes
import FractalCdt.Math.Packing
import FractalCdt.Toolchain.Layout

namespace FractalCdt.Linker

open FractalCdt.Math

/-- `getOutputDataSegmentName`; data segments are merged. -/
def getOutputDataSegmentName (Name : String) : String :=
  if ".text.".toList.isPrefixOf Name.toList then ".text"
  else if ".data.".toList.isPrefixOf Name.toList then ".data"
  else if ".bss.".toList.isPrefixOf Name.toList then ".bss"
  else Name

/-- An output segment, and the `OutputSegmentOffset` of each input segment in it. -/
structure OutputSegment where
  Alignment : ℕ
  power : ∃ k, Alignment = 2 ^ k
  InputSegments : List (SegmentId × BitVec 32)
  Size : BitVec 32

theorem power_max {a b : ℕ} (ha : ∃ k, a = 2 ^ k) (hb : ∃ k, b = 2 ^ k) : ∃ k, max a b = 2 ^ k := by
  rcases le_total a b with hab | hab
  · rwa [max_eq_right hab]
  · rwa [max_eq_left hab]

namespace OutputSegment

/-- A new output segment, with its first input segment. -/
def first (id : SegmentId) (InSeg : InputSegment) : OutputSegment where
  Alignment := InSeg.Alignment
  power := InSeg.power
  InputSegments := [(id, 0)]
  Size := BitVec.ofNat 32 InSeg.data.length

def addInputSegment (S : OutputSegment) (id : SegmentId) (InSeg : InputSegment) :
    OutputSegment where
  Alignment := max S.Alignment InSeg.Alignment
  power := power_max S.power InSeg.power
  InputSegments := S.InputSegments ++ [(id, Toolchain.alignTo S.Size InSeg.Alignment)]
  Size := Toolchain.alignTo S.Size InSeg.Alignment + BitVec.ofNat 32 InSeg.data.length

/-- The body of the loop of `createOutputSegments`. -/
def add (S : Option OutputSegment) (x : SegmentId × InputSegment) : OutputSegment :=
  match S with
  | none => first x.1 x.2
  | some S => S.addInputSegment x.1 x.2

/-- The segment as the layout sees it: its size counts, its bytes do not. -/
def blank (S : OutputSegment) : Toolchain.OutputSegment where
  data := List.replicate S.Size.toNat 0
  Alignment := S.Alignment
  power := S.power

end OutputSegment

namespace SymbolTable

variable (t : SymbolTable) (Entry : String)

/-- The live input segments, in the order in which `createOutputSegments` comes to them. -/
def liveSegments : List (SegmentId × InputSegment) :=
  t.ObjectFiles.flatMap fun File =>
    (File.obj.Segments.zipIdx.map fun (Seg, i) => ((⟨File.id, i⟩ : SegmentId), Seg)).filter fun x =>
      t.isLive Entry (.segment x.1)

/-- `SegmentMap` and `Segments`. -/
def createOutputSegments : IndexMap String OutputSegment :=
  (t.liveSegments Entry).foldl
    (fun m x => m.set (getOutputDataSegmentName x.2.Name)
      (OutputSegment.add (m.find (getOutputDataSegmentName x.2.Name)) x)) .empty

def Segments : List OutputSegment := (t.createOutputSegments Entry).values

/-- `layoutMemory`, with the options of `fractal-ld`. -/
def layout : Except String Toolchain.Layout :=
  Toolchain.layoutMemory Toolchain.fractalLd ((t.Segments Entry).map (·.blank))

/-- `StartVA` of the output segment and the offset in it. -/
def segmentAddress (l : Toolchain.Layout) (id : SegmentId) : Option (BitVec 32) := do
  let File ← t.file? id.File
  let Seg ← File.obj.Segments[id.i]?
  let S ← (t.createOutputSegments Entry).find (getOutputDataSegmentName Seg.Name)
  let Index ← (t.createOutputSegments Entry).keys.idxOf? (getOutputDataSegmentName Seg.Name)
  let placed ← l.segments[Index]?
  let (_, Offset) ← S.InputSegments.find? (·.1 = id)
  some (placed.StartVA + Offset)

end SymbolTable

/-! ## One output segment -/

def InputSegment.piece (Seg : InputSegment) : Piece where
  align := Seg.Alignment
  size := Seg.data.length
  pos := by
    obtain ⟨k, hk⟩ := Seg.power
    rw [hk]
    exact Nat.two_pow_pos k

def outputPiece (Seg : Toolchain.OutputSegment) : Piece :=
  ⟨Seg.Alignment, Seg.data.length, Seg.alignment_pos⟩

namespace OutputSegment

/-- The output segment holds these input segments, packed from its start on. -/
structure Holds (S : OutputSegment) (L : List (SegmentId × InputSegment)) : Prop where
  size : S.Size.toNat = packEnd 0 (L.map (·.2.piece))
  inputs : S.InputSegments.map (·.1) = L.map (·.1)
  offsets : S.InputSegments.map (·.2.toNat) = (pack 0 (L.map (·.2.piece))).map (·.start)
  aligned : ∀ x ∈ L, x.2.Alignment ∣ S.Alignment

theorem dvd_max {a b : ℕ} (ha : ∃ k, a = 2 ^ k) (hb : ∃ k, b = 2 ^ k) :
    a ∣ max a b ∧ b ∣ max a b := by
  have hdvd {a b : ℕ} (ha : ∃ k, a = 2 ^ k) (hb : ∃ k, b = 2 ^ k) (hab : a ≤ b) : a ∣ b := by
    obtain ⟨i, rfl⟩ := ha
    obtain ⟨j, rfl⟩ := hb
    exact pow_dvd_pow 2 ((Nat.pow_le_pow_iff_right (by decide)).mp hab)
  rcases le_total a b with hab | hab
  · rw [max_eq_right hab]
    exact ⟨hdvd ha hb hab, dvd_rfl⟩
  · rw [max_eq_left hab]
    exact ⟨dvd_rfl, hdvd hb ha hab⟩

theorem holds_first {x : SegmentId × InputSegment} (hfits : packEnd 0 [x.2.piece] < 2 ^ 32) :
    (first x.1 x.2).Holds [x] := by
  have hzero : alignUp x.2.Alignment 0 = 0 := alignUp_of_dvd x.2.piece.pos (Nat.dvd_zero _)
  have hend : packEnd 0 [x.2.piece] = x.2.data.length := by
    show alignUp x.2.Alignment 0 + x.2.data.length = _
    rw [hzero, Nat.zero_add]
  rw [hend] at hfits
  refine ⟨?_, rfl, ?_, fun y hy => ?_⟩
  · show (BitVec.ofNat 32 x.2.data.length).toNat = packEnd 0 [x.2.piece]
    rw [hend, BitVec.toNat_ofNat, Nat.mod_eq_of_lt hfits]
  · show [0] = [alignUp x.2.Alignment 0]
    rw [hzero]
  · rw [List.mem_singleton.mp hy]
    exact dvd_rfl

theorem Holds.addInputSegment {S : OutputSegment} {L : List (SegmentId × InputSegment)}
    (h : S.Holds L) {x : SegmentId × InputSegment}
    (hfits : packEnd 0 ((L ++ [x]).map (·.2.piece)) < 2 ^ 32) :
    (S.addInputSegment x.1 x.2).Holds (L ++ [x]) := by
  rw [List.map_append, packEnd_append] at hfits
  have hend : packEnd (packEnd 0 (L.map (·.2.piece))) [x.2.piece] =
      alignUp x.2.Alignment S.Size.toNat + x.2.data.length := by
    rw [← h.size]
    rfl
  have hfits : alignUp x.2.Alignment S.Size.toNat + x.2.data.length < 2 ^ 32 := hend ▸ hfits
  have hoffset : (Toolchain.alignTo S.Size x.2.Alignment).toNat =
      alignUp x.2.Alignment S.Size.toNat := Toolchain.toNat_alignTo (by omega)
  refine ⟨?_, ?_, ?_, fun y hy => ?_⟩
  · show (Toolchain.alignTo S.Size x.2.Alignment + BitVec.ofNat 32 x.2.data.length).toNat = _
    rw [List.map_append, packEnd_append, List.map_singleton, hend, BitVec.toNat_add, hoffset,
      BitVec.toNat_ofNat]
    omega
  · show (S.InputSegments ++ [(x.1, Toolchain.alignTo S.Size x.2.Alignment)]).map (·.1) = _
    rw [List.map_append, List.map_append, h.inputs]
    rfl
  · show (S.InputSegments ++ [(x.1, Toolchain.alignTo S.Size x.2.Alignment)]).map (·.2.toNat) = _
    rw [List.map_append, List.map_append, pack_append, List.map_append, h.offsets, ← h.size]
    exact congrArg _ (congrArg (fun n => [n]) hoffset)
  · rcases List.mem_append.mp hy with hold | hnew
    · exact (h.aligned y hold).trans (dvd_max S.power x.2.power).1
    · rw [List.mem_singleton.mp hnew]
      exact (dvd_max S.power x.2.power).2

/-- What is made of input segments of one name holds them. -/
theorem holds_foldl {L : List (SegmentId × InputSegment)} (hne : L ≠ [])
    (hfits : packEnd 0 (L.map (·.2.piece)) < 2 ^ 32) :
    ∃ S, L.foldl (fun o x => some (add o x)) none = some S ∧ S.Holds L := by
  induction L using List.reverseRecOn with
  | nil => exact absurd rfl hne
  | append_singleton L x ih =>
      rw [List.foldl_append, List.foldl_cons, List.foldl_nil]
      by_cases hL : L = []
      · subst hL
        exact ⟨_, rfl, holds_first hfits⟩
      · have hprefix : packEnd 0 (L.map (·.2.piece)) < 2 ^ 32 := by
          rw [List.map_append, packEnd_append] at hfits
          exact lt_of_le_of_lt le_packEnd hfits
        obtain ⟨S, hS, hholds⟩ := ih hL hprefix
        rw [hS]
        exact ⟨_, rfl, hholds.addInputSegment hfits⟩

/-- An input segment is at its place, with its offset. -/
theorem Holds.input {S : OutputSegment} {L : List (SegmentId × InputSegment)} (h : S.Holds L)
    {i : ℕ} {x : SegmentId × InputSegment} (hx : L[i]? = some x) :
    ∃ Offset e, S.InputSegments[i]? = some (x.1, Offset) ∧
      (pack 0 (L.map (·.2.piece)))[i]? = some e ∧ Offset.toNat = e.start ∧
      e.len = x.2.data.length ∧ x.2.Alignment ∣ e.start ∧ e.stop ≤ S.Size.toNat := by
  have hpiece : (L.map (·.2.piece))[i]? = some x.2.piece := by rw [List.getElem?_map, hx]; rfl
  obtain ⟨e, he, hlen, hdvd⟩ := getElem?_pack (n := 0) hpiece
  obtain ⟨⟨id, Offset⟩, hinput, rfl⟩ : ∃ y, S.InputSegments[i]? = some y ∧ y.1 = x.1 := by
    have hid := congrArg (·[i]?) h.inputs
    simp only [List.getElem?_map, hx, Option.map_some] at hid
    exact Option.map_eq_some_iff.mp hid
  have hoffset : Offset.toNat = e.start := by
    have hoffsets := congrArg (·[i]?) h.offsets
    simp only [List.getElem?_map, hinput, he, Option.map_some, Option.some.injEq] at hoffsets
    exact hoffsets
  refine ⟨Offset, e, hinput, he, hoffset, hlen, hdvd, ?_⟩
  rw [h.size]
  exact (inside_pack e (List.mem_of_getElem? he)).2

theorem Holds.find {S : OutputSegment} {L : List (SegmentId × InputSegment)} (h : S.Holds L)
    (hids : (L.map (·.1)).Nodup) {i : ℕ} {x : SegmentId × InputSegment} (hx : L[i]? = some x) :
    ∃ Offset e, S.InputSegments.find? (·.1 = x.1) = some (x.1, Offset) ∧
      (pack 0 (L.map (·.2.piece)))[i]? = some e ∧ Offset.toNat = e.start ∧
      e.len = x.2.data.length ∧ x.2.Alignment ∣ e.start ∧ e.stop ≤ S.Size.toNat := by
  obtain ⟨Offset, e, hinput, hrest⟩ := h.input hx
  refine ⟨Offset, e, ?_, hrest⟩
  rw [← h.inputs] at hids
  exact find?_of_nodup hids (List.mem_of_getElem? hinput)

end OutputSegment

/-! ## The output segments in memory -/

theorem layoutEnd_eq (Segments : List Toolchain.OutputSegment) (start : ℕ) :
    Toolchain.layoutEnd Segments start = packEnd start (Segments.map outputPiece) := by
  unfold Toolchain.layoutEnd packEnd
  rw [List.foldl_map]
  rfl

/-- Segments that end within the address space are packed. -/
theorem placeSegments_pack {Segments : List Toolchain.OutputSegment} {MemoryPtr : BitVec 32}
    (h : Toolchain.layoutEnd Segments MemoryPtr.toNat < 2 ^ 32) {k : ℕ}
    {Seg : Toolchain.OutputSegment} (hk : Segments[k]? = some Seg) :
    ∃ StartVA e, (Toolchain.placeSegments Segments MemoryPtr).1[k]? = some ⟨Seg, StartVA⟩ ∧
      (pack MemoryPtr.toNat (Segments.map outputPiece))[k]? = some e ∧
      StartVA.toNat = e.start ∧ e.len = Seg.data.length ∧ Seg.Alignment ∣ e.start := by
  induction Segments generalizing MemoryPtr k with
  | nil => cases hk
  | cons first Segments ih =>
      have hup := @le_alignUp first.Alignment MemoryPtr.toNat first.alignment_pos
      have hend := Toolchain.le_layoutEnd Segments
        (alignUp first.Alignment MemoryPtr.toNat + first.data.length)
      change Toolchain.layoutEnd Segments
        (alignUp first.Alignment MemoryPtr.toNat + first.data.length) < _ at h
      have hstart : (Toolchain.alignTo MemoryPtr first.Alignment).toNat =
        alignUp first.Alignment MemoryPtr.toNat := Toolchain.toNat_alignTo (by omega)
      cases k with
      | zero =>
          cases hk
          exact ⟨_, _, rfl, rfl, hstart, rfl, dvd_alignUp⟩
      | succ k =>
          have hnext : (Toolchain.alignTo MemoryPtr first.Alignment + first.Size).toNat =
              alignUp first.Alignment MemoryPtr.toNat + first.data.length := by
            rw [BitVec.toNat_add, hstart, Toolchain.OutputSegment.Size, BitVec.toNat_ofNat]
            omega
          rw [← hnext] at h
          obtain ⟨StartVA, e, hplaced, he, hrest⟩ := ih h hk
          rw [hnext] at he
          exact ⟨StartVA, e, hplaced, he, hrest⟩

/-- What `layoutMemory` sets, with the options of `fractal-ld`. -/
theorem layoutMemory_eq (Segments : List Toolchain.OutputSegment) :
    ∃ NumMemoryPages, Toolchain.layoutMemory Toolchain.fractalLd Segments =
      .ok ⟨8192, (Toolchain.placeSegments Segments 8192).1,
        (Toolchain.placeSegments Segments 8192).2, (Toolchain.placeSegments Segments 8192).2,
        NumMemoryPages, 0⟩ := ⟨_, rfl⟩

namespace SymbolTable

variable (t : SymbolTable) (Entry : String)

/-- The live input segments that are merged under a name. -/
def merged (Name : String) : List (SegmentId × InputSegment) :=
  (t.liveSegments Entry).filter (getOutputDataSegmentName ·.2.Name = Name)

/-- The output segments, as they are placed. -/
def pieces : List Piece := ((t.Segments Entry).map (·.blank)).map outputPiece

/-- The data fits in the memory. -/
structure Fits : Prop where
  each : ∀ Name ∈ (t.createOutputSegments Entry).keys,
    packEnd 0 ((t.merged Entry Name).map (·.2.piece)) < 2 ^ 32
  all : Toolchain.layoutEnd ((t.Segments Entry).map (·.blank)) 8192 ≤ 65536 * 65535

instance : Decidable (t.Fits Entry) :=
  decidable_of_iff (_ ∧ _) ⟨fun h => ⟨h.1, h.2⟩, fun h => ⟨h.each, h.all⟩⟩

variable {t} {Entry}

theorem nodup_liveSegments (hids : (t.ObjectFiles.map (·.id)).Nodup) :
    ((t.liveSegments Entry).map (·.1)).Nodup := by
  have hall : (t.ObjectFiles.flatMap fun File =>
      (List.range File.obj.Segments.length).map (SegmentId.mk File.id)).Nodup := by
    refine nodup_flatMap_files hids fun id id' i i' h => ?_
    cases h
    exact ⟨rfl, rfl⟩
  have hone (File : ParsedFile) : (File.obj.Segments.zipIdx.map fun (Seg, i) =>
      ((⟨File.id, i⟩ : SegmentId), Seg)).map (·.1) =
        (List.range File.obj.Segments.length).map (SegmentId.mk File.id) := by
    rw [List.map_map, List.range_eq_range', ← List.zipIdx_map_snd 0 File.obj.Segments, List.map_map]
    rfl
  refine hall.sublist ?_
  unfold liveSegments
  rw [List.map_flatMap]
  induction t.ObjectFiles with
  | nil => exact .slnil
  | cons File Files ih =>
      rw [List.flatMap_cons, List.flatMap_cons, ← hone]
      exact (List.filter_sublist.map _).append ih

theorem nodup_merged (hids : (t.ObjectFiles.map (·.id)).Nodup) (Name : String) :
    ((t.merged Entry Name).map (·.1)).Nodup :=
  (nodup_liveSegments hids).sublist (List.filter_sublist.map _)

theorem mem_liveSegments_iff {x : SegmentId × InputSegment} : x ∈ t.liveSegments Entry ↔
    ∃ File ∈ t.ObjectFiles, x.1.File = File.id ∧ File.obj.Segments[x.1.i]? = some x.2 ∧
      .segment x.1 ∈ t.live Entry := by
  unfold liveSegments isLive
  simp only [List.mem_flatMap, List.mem_filter, List.mem_map, decide_eq_true_eq]
  constructor
  · rintro ⟨File, hFile, ⟨⟨Seg, i⟩, hi, rfl⟩, hlive⟩
    exact ⟨File, hFile, rfl, List.mk_mem_zipIdx_iff_getElem?.mp hi, hlive⟩
  · rintro ⟨File, hFile, hid, hi, hlive⟩
    refine ⟨File, hFile, ⟨⟨x.2, x.1.i⟩, List.mk_mem_zipIdx_iff_getElem?.mpr hi, ?_⟩, hlive⟩
    rw [← hid]

theorem isSome_foldl {L : List (SegmentId × InputSegment)} (hne : L ≠ [])
    {o : Option OutputSegment} : (L.foldl (fun o x => some (OutputSegment.add o x)) o).isSome := by
  rw [← List.dropLast_append_getLast hne, List.foldl_append]
  rfl

theorem find_createOutputSegments (Name : String) : (t.createOutputSegments Entry).find Name =
    (t.merged Entry Name).foldl (fun o x => some (OutputSegment.add o x)) none := by
  unfold createOutputSegments merged
  rw [IndexMap.find_foldl_set
    (fun x : SegmentId × InputSegment => getOutputDataSegmentName x.2.Name)
    OutputSegment.add, IndexMap.find_empty]

/-- An output segment holds what is merged under its name. -/
theorem holds_of_find (hfits : t.Fits Entry) {Name : String} {S : OutputSegment}
    (hS : (t.createOutputSegments Entry).find Name = some S) : S.Holds (t.merged Entry Name) := by
  have hkey : Name ∈ (t.createOutputSegments Entry).keys := by
    rw [IndexMap.mem_keys, hS]
    rfl
  rw [find_createOutputSegments] at hS
  have hne : t.merged Entry Name ≠ [] := by
    intro hempty
    rw [hempty] at hS
    cases hS
  obtain ⟨S', hS', hholds⟩ := OutputSegment.holds_foldl hne (hfits.each Name hkey)
  cases hS.symm.trans hS'
  exact hholds

theorem segments_of_layout {l : Toolchain.Layout} (hl : t.layout Entry = .ok l) :
    l.segments = (Toolchain.placeSegments ((t.Segments Entry).map (·.blank)) 8192).1 := by
  obtain ⟨pages, heq⟩ := layoutMemory_eq ((t.Segments Entry).map (·.blank))
  cases heq.symm.trans hl
  rfl

/-- Where an output segment is placed. -/
theorem placed_of_find (hfits : t.Fits Entry) {l : Toolchain.Layout} (hl : t.layout Entry = .ok l)
    {k : ℕ} {Name : String} {S : OutputSegment}
    (hk : (t.createOutputSegments Entry).keys[k]? = some Name)
    (hS : (t.createOutputSegments Entry).find Name = some S) :
    (t.Segments Entry)[k]? = some S ∧ ∃ StartVA outer, l.segments[k]? = some ⟨S.blank, StartVA⟩ ∧
      (pack 8192 (t.pieces Entry))[k]? = some outer ∧ StartVA.toNat = outer.start ∧
      outer.len = S.Size.toNat ∧ S.Alignment ∣ outer.start ∧ outer.stop ≤ 65536 * 65535 := by
  have hvalue : (t.Segments Entry)[k]? = some S := by
    rw [Segments, IndexMap.getElem?_values, hk, Option.bind_some, hS]
  have hblank : ((t.Segments Entry).map (·.blank))[k]? = some S.blank := by
    rw [List.getElem?_map, hvalue, Option.map_some]
  obtain ⟨StartVA, outer, hplaced, houter, hstart, hlen, hdvd⟩ :=
    @placeSegments_pack _ 8192 (lt_of_le_of_lt hfits.all (by decide)) _ _ hblank
  refine ⟨hvalue, StartVA, outer, segments_of_layout hl ▸ hplaced, houter, hstart,
    hlen.trans (List.length_replicate ..), hdvd, le_trans ?_ hfits.all⟩
  rw [layoutEnd_eq]
  exact (inside_pack outer (List.mem_of_getElem? houter)).2

/-- Where a live input segment is: in which output segment, where that is, and where
in it. -/
structure Located (t : SymbolTable) (Entry : String) (l : Toolchain.Layout)
    (x : SegmentId × InputSegment) (k i : ℕ) (outer inner : Extent) (a : BitVec 32) : Prop where
  key : (t.createOutputSegments Entry).keys[k]? = some (getOutputDataSegmentName x.2.Name)
  outer_eq : (pack 8192 (t.pieces Entry))[k]? = some outer
  place : (t.merged Entry (getOutputDataSegmentName x.2.Name))[i]? = some x
  inner_eq : (pack 0 ((t.merged Entry (getOutputDataSegmentName x.2.Name)).map (·.2.piece)))[i]? =
    some inner
  inside : inner.stop ≤ outer.len
  len : inner.len = x.2.data.length
  address : t.segmentAddress Entry l x.1 = some a
  toNat : a.toNat = outer.start + inner.start
  aligned : x.2.Alignment ∣ a.toNat

theorem located_at (hids : (t.ObjectFiles.map (·.id)).Nodup) (hfits : t.Fits Entry)
    {l : Toolchain.Layout} (hl : t.layout Entry = .ok l) {x : SegmentId × InputSegment}
    {Name : String} {k i : ℕ} (hk : (t.createOutputSegments Entry).keys[k]? = some Name)
    (hi : (t.merged Entry Name)[i]? = some x) :
    ∃ outer inner a, t.Located Entry l x k i outer inner a := by
  obtain ⟨hx, hname⟩ := List.mem_filter.mp (List.mem_of_getElem? hi)
  obtain rfl : getOutputDataSegmentName x.2.Name = Name := of_decide_eq_true hname
  obtain ⟨File, hFile, hid, hSeg, -⟩ := mem_liveSegments_iff.mp hx
  obtain ⟨S, hS⟩ := Option.isSome_iff_exists.mp
    (((t.createOutputSegments Entry).mem_keys _).mp (List.mem_of_getElem? hk))
  have hholds := holds_of_find hfits hS
  have hindex : (t.createOutputSegments Entry).keys.idxOf? (getOutputDataSegmentName x.2.Name) =
      some k :=
    Numbering.number?_eq_some_iff (N := ⟨_, (t.createOutputSegments Entry).nodup⟩).mpr hk
  obtain ⟨-, StartVA, outer, hplaced, houter, hstart, hsize, hdvd, hstop⟩ :=
    placed_of_find hfits hl hk hS
  obtain ⟨Offset, inner, hinput, hinner, hoffset, hlength, hdvd', hinside⟩ :=
    hholds.find (nodup_merged hids _) hi
  have haddress : (StartVA + Offset).toNat = outer.start + inner.start := by
    have hin : inner.start + inner.len ≤ outer.len := hsize ▸ hinside
    have hout : outer.start + outer.len ≤ 65536 * 65535 := hstop
    rw [BitVec.toNat_add, hstart, hoffset]
    omega
  refine ⟨outer, inner, StartVA + Offset, hk, houter, hi, hinner, ?_, hlength, ?_, haddress, ?_⟩
  · rw [hsize]
    exact hinside
  · have hfile : t.file? x.1.File = some File := by
      rw [hid]
      exact find?_of_nodup hids hFile
    unfold segmentAddress
    simp only [hfile, hSeg, hS, hindex, hplaced, hinput, Option.bind_eq_bind, Option.bind_some]
  · rw [haddress]
    exact Nat.dvd_add ((hholds.aligned x (List.mem_of_getElem? hi)).trans hdvd) hdvd'

/-- Every live input segment is somewhere. -/
theorem located (hids : (t.ObjectFiles.map (·.id)).Nodup) (hfits : t.Fits Entry)
    {l : Toolchain.Layout} (hl : t.layout Entry = .ok l) {x : SegmentId × InputSegment}
    (hx : x ∈ t.liveSegments Entry) :
    ∃ k i outer inner a, t.Located Entry l x k i outer inner a := by
  have hmem : x ∈ t.merged Entry (getOutputDataSegmentName x.2.Name) :=
    List.mem_filter.mpr ⟨hx, decide_eq_true rfl⟩
  have hsome :
      ((t.createOutputSegments Entry).find (getOutputDataSegmentName x.2.Name)).isSome := by
    rw [find_createOutputSegments]
    exact isSome_foldl (List.ne_nil_of_mem hmem)
  obtain ⟨i, hi⟩ := List.getElem?_of_mem hmem
  obtain ⟨k, hk⟩ := List.getElem?_of_mem (((t.createOutputSegments Entry).mem_keys _).mpr hsome)
  exact ⟨k, i, located_at hids hfits hl hk hi⟩

/-- Two live input segments do not share a cell. -/
theorem Located.apart {l : Toolchain.Layout} {x y : SegmentId × InputSegment} {k k' i i' : ℕ}
    {outer outer' inner inner' : Extent} {a b : BitVec 32}
    (hx : t.Located Entry l x k i outer inner a) (hy : t.Located Entry l y k' i' outer' inner' b)
    (hne : x ≠ y) : (Extent.mk a.toNat x.2.data.length).Apart ⟨b.toNat, y.2.data.length⟩ := by
  have hin : inner.start + inner.len ≤ outer.len := hx.inside
  have hin' : inner'.start + inner'.len ≤ outer'.len := hy.inside
  have hlen := hx.len
  have hlen' := hy.len
  rw [hx.toNat, hy.toNat]
  by_cases hk : k = k'
  · -- in one output segment
    subst hk
    cases hx.outer_eq.symm.trans hy.outer_eq
    have hname := Option.some.inj (hx.key.symm.trans hy.key)
    have hinner := hy.inner_eq
    have hplace := hy.place
    rw [← hname] at hinner hplace
    have hi : i ≠ i' := by
      rintro rfl
      exact hne (Option.some.inj (hx.place.symm.trans hplace))
    have hapart :
        inner.start + inner.len ≤ inner'.start ∨ inner'.start + inner'.len ≤ inner.start :=
      apart_pack hx.inner_eq hinner hi
    show outer.start + inner.start + x.2.data.length ≤ outer.start + inner'.start ∨
      outer.start + inner'.start + y.2.data.length ≤ outer.start + inner.start
    omega
  · have hapart :
        outer.start + outer.len ≤ outer'.start ∨ outer'.start + outer'.len ≤ outer.start :=
      apart_pack hx.outer_eq hy.outer_eq hk
    show outer.start + inner.start + x.2.data.length ≤ outer'.start + inner'.start ∨
      outer'.start + inner'.start + y.2.data.length ≤ outer.start + inner.start
    omega

end SymbolTable

/-- Live input segments are in the memory between the stack and the end of the data, each
aligned as it asks for, and no two share a cell. -/
theorem Command.link_segments (cmd : Command) (hfits : cmd.linked.Fits cmd.Entry) :
    ∃ l, cmd.linked.layout cmd.Entry = .ok l ∧ l.DataEnd = l.HeapBase ∧
      l.DataEnd.toNat ≤ 65536 * l.NumMemoryPages.toNat ∧
      ∀ x ∈ cmd.linked.liveSegments cmd.Entry, ∃ a,
        cmd.linked.segmentAddress cmd.Entry l x.1 = some a ∧
        x.2.Alignment ∣ a.toNat ∧ 8192 ≤ a.toNat ∧ a.toNat + x.2.data.length ≤ l.DataEnd.toNat ∧
        ∀ y ∈ cmd.linked.liveSegments cmd.Entry, y ≠ x →
          ∃ b, cmd.linked.segmentAddress cmd.Entry l y.1 = some b ∧
            (Extent.mk a.toNat x.2.data.length).Apart ⟨b.toNat, y.2.data.length⟩ := by
  obtain ⟨l, hl, -, hend, hbase, hpages, -⟩ := Toolchain.layoutMemory_fractalLd hfits.all
  have hl : cmd.linked.layout cmd.Entry = .ok l := hl
  refine ⟨l, hl, hbase.symm, ?_, fun x hx => ?_⟩
  · rw [hpages, hend]
    exact le_alignUp (by decide)
  · obtain ⟨k, i, outer, inner, a, hlocated⟩ := SymbolTable.located Command.ids_linked hfits hl hx
    obtain ⟨hlow, hhigh⟩ := inside_pack outer (List.mem_of_getElem? hlocated.outer_eq)
    have hin : inner.start + inner.len ≤ outer.len := hlocated.inside
    have hlen := hlocated.len
    have haddress := hlocated.toNat
    refine ⟨a, hlocated.address, hlocated.aligned, by omega, ?_, fun y hy hne => ?_⟩
    · rw [hend, layoutEnd_eq]
      have hstop : outer.start + outer.len ≤ packEnd 8192 (cmd.linked.pieces cmd.Entry) := hhigh
      show a.toNat + x.2.data.length ≤ packEnd 8192 (cmd.linked.pieces cmd.Entry)
      omega
    · obtain ⟨k', i', outer', inner', b, hlocated'⟩ :=
        SymbolTable.located Command.ids_linked hfits hl hy
      exact ⟨b, hlocated'.address, hlocated.apart hlocated' (Ne.symm hne)⟩

theorem Command.link_segments_sample : ∃ l a b, sample.linked.layout sample.Entry = .ok l ∧
    sample.linked.segmentAddress sample.Entry l ⟨.object 2, 0⟩ = some a ∧ 8 ∣ a.toNat ∧
    sample.linked.segmentAddress sample.Entry l ⟨.object 0, 0⟩ = some b ∧
    (Extent.mk a.toNat 3).Apart ⟨b.toNat, 4⟩ := by
  obtain ⟨l, hl, -, -, hplaced⟩ := link_segments sample (by decide +kernel)
  obtain ⟨a, ha, haligned, -, -, hothers⟩ :=
    hplaced (⟨.object 2, 0⟩, sampleBytes) (by decide +kernel)
  obtain ⟨b, hb, hapart⟩ := hothers (⟨.object 0, 0⟩, sampleWord) (by decide +kernel) (by decide)
  exact ⟨l, a, b, hl, ha, haligned, hb, hapart⟩

end FractalCdt.Linker
