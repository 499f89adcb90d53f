/-
# The memory a contract starts with

The data section has one segment for each output segment, with the relocated bytes of
its input segments.  When the post-pass has dropped the zeroed ones and the module is
instantiated, every live input segment is found, relocated, at its address.
-/

import FractalCdt.Linker.Relocations
import FractalCdt.Toolchain.MemoryImage

namespace FractalCdt.Toolchain

open FractalCdt.Math

section Stored

variable {dataSegments : List DataSegment} {mem : Mem} {a : Addr}

theorem DataSegment.covers_iff {ds : DataSegment} (h : ds.extent.stop ≤ 2 ^ 32) :
    ds.Covers a ↔ ds.extent.start ≤ a.toNat ∧ a.toNat < ds.extent.stop := by
  have hstop : ds.offset.toNat + ds.data.length ≤ 2 ^ 32 := h
  have ha := a.isLt
  show (a - ds.offset).toNat < ds.data.length ↔
    ds.offset.toNat ≤ a.toNat ∧ a.toNat < ds.offset.toNat + ds.data.length
  rw [BitVec.toNat_sub]
  omega

theorem storeAll_of_not_covers (h : ∀ ds ∈ dataSegments, ¬ ds.Covers a) :
    storeAll mem dataSegments a = mem a := by
  induction dataSegments generalizing mem with
  | nil => rfl
  | cons ds dataSegments ih =>
      rw [storeAll, ih fun ds' hds' => h ds' (List.mem_cons_of_mem ds hds')]
      exact Mem.store_of_not_inRange mem (h ds List.mem_cons_self)

/-- A segment that no later one lies on is found where it was stored. -/
theorem load_storeAll
    (hapart : dataSegments.Pairwise fun ds ds' => ∀ a, ds.Covers a → ¬ ds'.Covers a)
    (hlength : ∀ ds ∈ dataSegments, ds.data.length ≤ 2 ^ 32) {ds : DataSegment}
    (hds : ds ∈ dataSegments) :
    (storeAll mem dataSegments).load ds.offset ds.data.length = ds.data := by
  induction dataSegments generalizing mem with
  | nil => cases hds
  | cons ds' dataSegments ih =>
      obtain ⟨hhead, htail⟩ := List.pairwise_cons.mp hapart
      rcases List.mem_cons.mp hds with rfl | hmem
      · have hlen := hlength ds List.mem_cons_self
        refine (Mem.load_congr fun x hx => ?_).trans (Mem.load_store mem hlen)
        exact storeAll_of_not_covers fun ds' hds' =>
          hhead ds' hds' x ((mem_footprint hlen).mp hx)
      · exact ih htail (fun ds hds => hlength ds (List.mem_cons_of_mem ds' hds)) hmem

theorem initialMemory_eq (dataSegments : List DataSegment) :
    initialMemory dataSegments = storeAll (fun _ => 0) dataSegments := by
  have hfold (mem : Mem) : dataSegments.foldl
      (fun (mem : Mem) ds => mem.store ds.offset ds.data) mem = storeAll mem dataSegments := by
    induction dataSegments generalizing mem with
    | nil => rfl
    | cons ds dataSegments ih => exact ih _
  exact hfold fun _ => 0

/-- Outside of the word at address 0, the memory is as if no segment had been dropped. -/
theorem initialMemory_postPass
    (hapart : dataSegments.Pairwise fun ds ds' => ∀ a, ds.Covers a → ¬ ds'.Covers a)
    (v : BitVec 32) (ha : ¬ InRange 0 4 a) :
    initialMemory (addHeapPointerData v (stripZeroedData dataSegments)) a =
      storeAll (fun _ => 0) dataSegments a := by
  have hkept := @storeAll_stripZeroedData a dataSegments (fun _ => 0) (fun _ => 0) rfl hapart
    fun _ _ _ _ => rfl
  calc
    _ = (storeAll (fun _ => 0) (stripZeroedData dataSegments)).store 0
          (leBytes 4 ((v + 7) &&& ~~~7).toNat) a := by
      rw [initialMemory_eq, addHeapPointerData, storeAll_append]
      rfl
    _ = storeAll (fun _ => 0) (stripZeroedData dataSegments) a :=
      Mem.store_of_not_inRange _ (by rwa [length_leBytes])
    _ = storeAll (fun _ => 0) dataSegments a := hkept.symm

/-- A part of what is loaded. -/
theorem window_load (mem : Mem) (a : Addr) {size offset n : ℕ} (h : offset + n ≤ size) :
    window (mem.load a size) offset n = mem.load (a + BitVec.ofNat 32 offset) n := by
  obtain ⟨rest, rfl⟩ : ∃ rest, size = offset + (n + rest) := ⟨size - offset - n, by omega⟩
  rw [window, Mem.load_add, List.drop_left' (by simp), Mem.load_add, List.take_left' (by simp)]

end Stored

end FractalCdt.Toolchain

namespace FractalCdt.Linker

open FractalCdt.Math FractalCdt.Toolchain

namespace SymbolTable

variable (t : SymbolTable) (Entry : String) (l : Toolchain.Layout)

/-- `InputSegment::writeTo`, from where the payload of its output segment starts. -/
def writeInput (Buf : List Byte) (InputSeg : SegmentId × BitVec 32) : Option (List Byte) :=
  (t.file? InputSeg.1.File).bind fun File =>
    (File.obj.Segments[InputSeg.1.i]?).bind fun Seg =>
      t.writeTo Entry l File Seg.toInputChunk InputSeg.2.toNat Buf

/-- The payload that `DataSection::writeTo` writes; the file is zeroed before. -/
def payload (Segment : OutputSegment) : Option (List Byte) :=
  Segment.InputSegments.foldlM (t.writeInput Entry l) (List.replicate Segment.Size.toNat 0)

/-- The data section of the output. -/
def dataSegments : Option (List DataSegment) :=
  (l.segments.zip (t.Segments Entry)).mapM fun (placed, Segment) =>
    (t.payload Entry l Segment).map (⟨placed.StartVA, ·⟩)

/-- The relocated bytes of an input segment. -/
def contents (x : SegmentId × InputSegment) : List Byte :=
  ((t.file? x.1.File).bind fun File => t.relocate Entry l File x.2.toInputChunk).getD []

end SymbolTable

/-- The link gets as far as writing the output. -/
structure Command.Written (cmd : Command) (l : Toolchain.Layout) : Prop where
  regular : cmd.Regular
  fits : cmd.linked.Fits cmd.Entry
  tidy : cmd.Tidy
  layout : cmd.linked.layout cmd.Entry = .ok l

namespace Command.Written

variable {cmd : Command} {l : Toolchain.Layout}

theorem chunk (w : cmd.Written l) {F : ParsedFile} (hF : F ∈ cmd.ObjectFiles)
    {c : LiveKey × InputChunk} (hc : c ∈ F.liveChunks) (hlive : c.1 ∈ cmd.linked.live cmd.Entry) :
    ∃ bytes, cmd.linked.relocate cmd.Entry l F c.2 = some bytes ∧
      Relocated cmd.linked cmd.Entry l F c.2 bytes ∧
      ∀ OutputOffset Buf, OutputOffset + c.2.data.length ≤ Buf.length →
        cmd.linked.writeTo cmd.Entry l F c.2 OutputOffset Buf =
          some (Patch.apply ⟨OutputOffset, bytes⟩ Buf) :=
  exists_writeTo w.regular w.fits w.tidy w.layout hF hc hlive

/-- The contents of a live input segment. -/
theorem input (w : cmd.Written l) {x : SegmentId × InputSegment}
    (hx : x ∈ cmd.linked.liveSegments cmd.Entry) :
    ∃ F ∈ cmd.ObjectFiles, x.1.File = F.id ∧ F.obj.Segments[x.1.i]? = some x.2 ∧
      Relocated cmd.linked cmd.Entry l F x.2.toInputChunk (cmd.linked.contents cmd.Entry l x) ∧
      ∀ (Offset : BitVec 32) (Buf : List Byte), Offset.toNat + x.2.data.length ≤ Buf.length →
        cmd.linked.writeInput cmd.Entry l Buf (x.1, Offset) =
          some (Patch.apply ⟨Offset.toNat, cmd.linked.contents cmd.Entry l x⟩ Buf) := by
  obtain ⟨F, hF, hid, hSeg, hlive⟩ := SymbolTable.mem_liveSegments_iff.mp hx
  rw [ObjectFiles_linked] at hF
  have hfile : cmd.linked.file? x.1.File = some F := hid ▸ file?_linked hF
  have hc : (LiveKey.segment x.1, x.2.toInputChunk) ∈ F.liveChunks := by
    refine List.mem_append_right _ (List.mem_map.mpr
      ⟨(x.2, x.1.i), List.mk_mem_zipIdx_iff_getElem?.mpr hSeg, ?_⟩)
    rw [← hid]
  obtain ⟨bytes, hbytes, hrelocated, hwrite⟩ := w.chunk hF hc hlive
  have hcontents : cmd.linked.contents cmd.Entry l x = bytes := by
    rw [SymbolTable.contents, hfile, Option.bind_some, hbytes, Option.getD_some]
  rw [hcontents]
  refine ⟨F, hF, hid, hSeg, hrelocated, fun Offset Buf hroom => ?_⟩
  rw [SymbolTable.writeInput, hfile, Option.bind_some, hSeg, Option.bind_some]
  exact hwrite Offset.toNat Buf hroom

theorem length_contents (w : cmd.Written l) {x : SegmentId × InputSegment}
    (hx : x ∈ cmd.linked.liveSegments cmd.Entry) :
    (cmd.linked.contents cmd.Entry l x).length = x.2.data.length := by
  obtain ⟨F, -, -, -, hrelocated, -⟩ := w.input hx
  exact hrelocated.length

/-- The payload of an output segment: each input segment at its place, and zeros between. -/
theorem exists_payload (w : cmd.Written l) {Name : String} {S : OutputSegment}
    (hS : (cmd.linked.createOutputSegments cmd.Entry).find Name = some S) :
    ∃ bytes, cmd.linked.payload cmd.Entry l S = some bytes ∧ bytes.length = S.Size.toNat ∧
      (∀ (i : ℕ) x e, (cmd.linked.merged cmd.Entry Name)[i]? = some x →
        (pack 0 ((cmd.linked.merged cmd.Entry Name).map (·.2.piece)))[i]? = some e →
          window bytes e.start e.len = cmd.linked.contents cmd.Entry l x) ∧
      ∀ z : Extent, (∀ e ∈ pack 0 ((cmd.linked.merged cmd.Entry Name).map (·.2.piece)), e.Apart z) →
        window bytes z.start z.len = window (List.replicate S.Size.toNat 0) z.start z.len := by
  have hholds := SymbolTable.holds_of_find w.fits hS
  generalize hL : cmd.linked.merged cmd.Entry Name = L at hholds ⊢
  have hlive : ∀ x ∈ L, x ∈ cmd.linked.liveSegments cmd.Entry := by
    intro x hx
    rw [← hL] at hx
    exact (List.mem_filter.mp hx).1
  -- the strings that are written, each at its place
  obtain ⟨ps, hps⟩ : ∃ ps, ps = List.zipWith
      (fun x e => Patch.mk e.start (cmd.linked.contents cmd.Entry l x)) L
      (pack 0 (L.map (·.2.piece))) := ⟨_, rfl⟩
  have hget (i : ℕ) (p : Patch Byte) (hp : ps[i]? = some p) : ∃ x e, L[i]? = some x ∧
      (pack 0 (L.map (·.2.piece)))[i]? = some e ∧ p.offset = e.start ∧ p.extent = e ∧
      p.data = cmd.linked.contents cmd.Entry l x := by
    rw [hps] at hp
    obtain ⟨x, e, hx, he, rfl⟩ := List.getElem?_zipWith_eq_some.mp hp
    obtain ⟨-, e', -, he', -, hlen, -⟩ := hholds.input hx
    cases he.symm.trans he'
    refine ⟨x, e, hx, he, rfl, ?_, rfl⟩
    rw [Patch.extent, w.length_contents (hlive x (List.mem_of_getElem? hx)), ← hlen]
  have hlength : S.InputSegments.length = ps.length := by
    rw [hps, List.length_zipWith, length_pack, List.length_map, min_self]
    simpa using congrArg List.length hholds.inputs
  have hstep (i : ℕ) (y : SegmentId × BitVec 32) (p : Patch Byte)
      (hy : S.InputSegments[i]? = some y) (hp : ps[i]? = some p) :
      p.Inside (List.replicate S.Size.toNat (0 : Byte)) ∧
      ∀ b : List Byte, b.length = (List.replicate S.Size.toNat (0 : Byte)).length →
        cmd.linked.writeInput cmd.Entry l b y = some (p.apply b) := by
    obtain ⟨x, e, hx, he, hstart, hextent, hdata⟩ := hget i p hp
    obtain ⟨Offset, e', hinput, he', hoffset, hlen, -, hinside⟩ := hholds.input hx
    cases he.symm.trans he'
    cases hy.symm.trans hinput
    have hstop : e.start + e.len ≤ S.Size.toNat := hinside
    refine ⟨?_, fun b hb => ?_⟩
    · rw [Patch.Inside, hextent, List.length_replicate]
      exact hinside
    · rw [List.length_replicate] at hb
      obtain ⟨-, -, -, -, -, hwrite⟩ := w.input (hlive x (List.mem_of_getElem? hx))
      rw [hwrite Offset b (by omega), hoffset, ← hstart, ← hdata]
  have hin : ∀ p ∈ ps, p.Inside (List.replicate S.Size.toNat (0 : Byte)) := by
    intro p hp
    obtain ⟨i, hi⟩ := List.getElem?_of_mem hp
    have hlt : i < S.InputSegments.length := hlength ▸ (List.getElem?_eq_some_iff.mp hi).1
    exact (hstep i _ p (List.getElem?_eq_getElem hlt) hi).1
  have hpairs : ps.Pairwise fun p q => p.extent.Apart q.extent := by
    rw [List.pairwise_iff_getElem]
    intro i j hi hj hij
    obtain ⟨-, e, -, he, -, hextent, -⟩ := hget i ps[i] (List.getElem?_eq_getElem hi)
    obtain ⟨-, e', -, he', -, hextent', -⟩ := hget j ps[j] (List.getElem?_eq_getElem hj)
    rw [hextent, hextent']
    exact apart_pack he he' (by omega)
  refine ⟨_, foldlM_apply hlength hstep, ?_, fun i x e hx he => ?_, fun z hz => ?_⟩
  · rw [length_applyAll hin, List.length_replicate]
  · have hp : ps[i]? = some ⟨e.start, cmd.linked.contents cmd.Entry l x⟩ := by
      rw [hps]
      exact List.getElem?_zipWith_eq_some.mpr ⟨x, e, hx, he, rfl⟩
    obtain ⟨x', e', hx', he', -, hextent, hdata⟩ := hget i _ hp
    cases he.symm.trans he'
    have hwindow := window_applyAll hin hpairs (List.mem_of_getElem? hp)
    have hlen : (cmd.linked.contents cmd.Entry l x).length = e.len := congrArg Extent.len hextent
    dsimp only at hwindow
    rwa [hlen] at hwindow
  · refine window_applyAll_of_apart hin fun p hp => ?_
    obtain ⟨i, hi⟩ := List.getElem?_of_mem hp
    obtain ⟨-, e, -, he, -, hextent, -⟩ := hget i p hi
    rw [hextent]
    exact hz e (List.mem_of_getElem? he)

end Command.Written

/-! ## The data section -/

/-- The data section has a segment for each output segment, where that is placed. -/
structure Sectioned (t : SymbolTable) (Entry : String) (l : Toolchain.Layout)
    (ds : List DataSegment) : Prop where
  all : ∀ (k : ℕ) Name, (t.createOutputSegments Entry).keys[k]? = some Name → ∃ d, ds[k]? = some d
  segment : ∀ (k : ℕ) d, ds[k]? = some d → ∃ Name S outer,
    (t.createOutputSegments Entry).keys[k]? = some Name ∧
    (t.createOutputSegments Entry).find Name = some S ∧ t.payload Entry l S = some d.data ∧
    (pack 8192 (t.pieces Entry))[k]? = some outer ∧ d.extent = outer ∧ outer.stop ≤ 65536 * 65535

namespace Command.Written

variable {cmd : Command} {l : Toolchain.Layout}

/-- An entry of the data section, before its payload is found. -/
theorem exists_payload_of_zip (w : cmd.Written l) {k : ℕ} {x : Placed × OutputSegment}
    (hx : (l.segments.zip (cmd.linked.Segments cmd.Entry))[k]? = some x) :
    ∃ Name outer bytes, (cmd.linked.createOutputSegments cmd.Entry).keys[k]? = some Name ∧
      (cmd.linked.createOutputSegments cmd.Entry).find Name = some x.2 ∧
      cmd.linked.payload cmd.Entry l x.2 = some bytes ∧
      (pack 8192 (cmd.linked.pieces cmd.Entry))[k]? = some outer ∧
      (DataSegment.mk x.1.StartVA bytes).extent = outer ∧ outer.stop ≤ 65536 * 65535 := by
  obtain ⟨placed, S⟩ := x
  obtain ⟨hplaced, hS⟩ := List.getElem?_zip_eq_some.mp hx
  have hvalue := hS
  rw [SymbolTable.Segments, IndexMap.getElem?_values] at hvalue
  obtain ⟨Name, hk, hfind⟩ := Option.bind_eq_some_iff.mp hvalue
  obtain ⟨-, StartVA, outer, hplaced', houter, hstart, hsize, -, hstop⟩ :=
    SymbolTable.placed_of_find w.fits w.layout hk hfind
  obtain ⟨bytes, hbytes, hlength, -⟩ := w.exists_payload hfind
  have hplaced'' : placed = ⟨S.blank, StartVA⟩ := Option.some.inj (hplaced.symm.trans hplaced')
  refine ⟨Name, outer, bytes, hk, hfind, hbytes, houter, ?_, hstop⟩
  rw [DataSegment.extent, hplaced'', hlength, ← hsize, hstart]

theorem exists_dataSegments (w : cmd.Written l) :
    ∃ ds, cmd.linked.dataSegments cmd.Entry l = some ds ∧ Sectioned cmd.linked cmd.Entry l ds := by
  obtain ⟨ds, hds, hget⟩ := @exists_mapM _ DataSegment (fun x : Placed × OutputSegment =>
      (cmd.linked.payload cmd.Entry l x.2).map (⟨x.1.StartVA, ·⟩))
    (l.segments.zip (cmd.linked.Segments cmd.Entry)) fun x hx => by
      obtain ⟨k, hk⟩ := List.getElem?_of_mem hx
      obtain ⟨Name, outer, bytes, -, -, hbytes, -⟩ := w.exists_payload_of_zip hk
      exact ⟨_, congrArg (Option.map _) hbytes⟩
  refine ⟨ds, hds, fun k Name hk => ?_, fun k d hd => ?_⟩
  · obtain ⟨S, hfind⟩ := Option.isSome_iff_exists.mp
      (((cmd.linked.createOutputSegments cmd.Entry).mem_keys Name).mp (List.mem_of_getElem? hk))
    obtain ⟨hvalue, StartVA, -, hplaced, -⟩ := SymbolTable.placed_of_find w.fits w.layout hk hfind
    obtain ⟨bytes, hbytes, -⟩ := w.exists_payload hfind
    refine ⟨⟨StartVA, bytes⟩, ?_⟩
    have hzip : (l.segments.zip (cmd.linked.Segments cmd.Entry))[k]? =
        some (⟨S.blank, StartVA⟩, S) := List.getElem?_zip_eq_some.mpr ⟨hplaced, hvalue⟩
    rw [hget, hzip, Option.bind_some, hbytes]
    rfl
  · rw [hget] at hd
    obtain ⟨x, hx, hmap⟩ := Option.bind_eq_some_iff.mp hd
    obtain ⟨Name, outer, bytes, hk, hfind, hbytes, houter, hextent, hstop⟩ :=
      w.exists_payload_of_zip hx
    rw [hbytes] at hmap
    cases hmap
    exact ⟨Name, x.2, outer, hk, hfind, hbytes, houter, hextent, hstop⟩

/-! ## The memory -/

variable {ds : List DataSegment}

/-- The segments of the data section are above the stack, in the memory, and apart. -/
theorem inside (hds : Sectioned cmd.linked cmd.Entry l ds) {d : DataSegment} (hd : d ∈ ds) :
    8192 ≤ d.extent.start ∧ d.extent.stop ≤ 65536 * 65535 := by
  obtain ⟨k, hk⟩ := List.getElem?_of_mem hd
  obtain ⟨-, -, outer, -, -, -, houter, rfl, hstop⟩ := hds.segment k d hk
  exact ⟨(inside_pack _ (List.mem_of_getElem? houter)).1, hstop⟩

theorem pairwise_covers (hds : Sectioned cmd.linked cmd.Entry l ds) :
    ds.Pairwise fun d d' => ∀ a, d.Covers a → ¬ d'.Covers a := by
  rw [List.pairwise_iff_getElem]
  intro i j hi hj hij a ha ha'
  have hstop := (inside hds (List.getElem_mem hi)).2
  have hstop' := (inside hds (List.getElem_mem hj)).2
  rw [DataSegment.covers_iff (by omega)] at ha ha'
  obtain ⟨-, -, outer, -, -, -, houter, hextent, -⟩ := hds.segment i _ (List.getElem?_eq_getElem hi)
  obtain ⟨-, -, outer', -, -, -, houter', hextent', -⟩ :=
    hds.segment j _ (List.getElem?_eq_getElem hj)
  have hapart : outer.stop ≤ outer'.start ∨ outer'.stop ≤ outer.start :=
    apart_pack houter houter' (by omega)
  rw [hextent] at ha
  rw [hextent'] at ha'
  omega

theorem length_le (hds : Sectioned cmd.linked cmd.Entry l ds) :
    ∀ d ∈ ds, d.data.length ≤ 2 ^ 32 := by
  intro d hd
  have hstop : d.offset.toNat + d.data.length ≤ 65536 * 65535 := (inside hds hd).2
  omega

/-- A part of a segment of the data section, as it is loaded. -/
theorem load_part (hds : Sectioned cmd.linked cmd.Entry l ds) {d : DataSegment} (hd : d ∈ ds)
    {a : Addr} {offset n : ℕ} (hoffset : offset + n ≤ d.data.length)
    (ha : a.toNat = d.extent.start + offset) :
    (storeAll (fun _ => 0) ds).load a n = window d.data offset n := by
  have hload := @load_storeAll _ (fun _ => 0) (pairwise_covers hds) (length_le hds) _ hd
  have haddress : a = d.offset + BitVec.ofNat 32 offset := by
    have hbound := a.isLt
    have hstart : d.extent.start = d.offset.toNat := rfl
    apply BitVec.eq_of_toNat_eq
    rw [BitVec.toNat_add, BitVec.toNat_ofNat]
    omega
  conv_rhs => rw [← hload]
  rw [window_load _ _ hoffset, haddress]

/-- A live input segment is found at its address. -/
theorem load_contents (w : cmd.Written l) (hds : Sectioned cmd.linked cmd.Entry l ds)
    {x : SegmentId × InputSegment} (hx : x ∈ cmd.linked.liveSegments cmd.Entry) :
    ∃ a, cmd.linked.segmentAddress cmd.Entry l x.1 = some a ∧ 8192 ≤ a.toNat ∧
      a.toNat + x.2.data.length ≤ 65536 * 65535 ∧
      (storeAll (fun _ => 0) ds).load a x.2.data.length = cmd.linked.contents cmd.Entry l x := by
  obtain ⟨k, i, outer, inner, a, hlocated⟩ := SymbolTable.located ids_linked w.fits w.layout hx
  obtain ⟨d, hd⟩ := hds.all k _ hlocated.key
  obtain ⟨Name, S, outer', hk, hfind, hbytes, houter, hextent, hstop⟩ := hds.segment k d hd
  cases hk.symm.trans hlocated.key
  cases houter.symm.trans hlocated.outer_eq
  obtain ⟨bytes, hbytes', -, hwindow, -⟩ := w.exists_payload hfind
  cases hbytes.symm.trans hbytes'
  have hlow := (inside hds (List.mem_of_getElem? hd)).1
  have hinside : inner.start + inner.len ≤ outer.len := hlocated.inside
  have hlen := hlocated.len
  have haddress := hlocated.toNat
  have houterstop : outer.start + outer.len ≤ 65536 * 65535 := hstop
  have hdata : d.data.length = outer.len := congrArg Extent.len hextent
  refine ⟨a, hlocated.address, ?_, by omega, ?_⟩
  · rw [hextent] at hlow
    omega
  · have hpart :
        (storeAll (fun _ => 0) ds).load a inner.len = window d.data inner.start inner.len :=
      load_part hds (List.mem_of_getElem? hd) (by omega) (by rw [hextent]; omega)
    rw [← hlocated.len, hpart]
    exact hwindow i x inner hlocated.place hlocated.inner_eq

/-- A cell that is in no live input segment is zero. -/
theorem zero_of_not_inRange (w : cmd.Written l) (hds : Sectioned cmd.linked cmd.Entry l ds)
    {a : Addr} (ha : ∀ x ∈ cmd.linked.liveSegments cmd.Entry, ∀ b,
      cmd.linked.segmentAddress cmd.Entry l x.1 = some b → ¬ InRange b x.2.data.length a) :
    storeAll (fun _ => 0) ds a = 0 := by
  by_cases hcovers : ∃ d ∈ ds, d.Covers a
  · obtain ⟨d, hd, hcovers⟩ := hcovers
    obtain ⟨k, hk⟩ := List.getElem?_of_mem hd
    obtain ⟨Name, S, outer, hkey, hfind, hbytes, houter, hextent, hstop⟩ := hds.segment k d hk
    obtain ⟨bytes, hbytes', hlength, -, hzero⟩ := w.exists_payload hfind
    cases hbytes.symm.trans hbytes'
    rw [DataSegment.covers_iff (by rw [hextent]; omega), hextent] at hcovers
    have houterstop : outer.start + outer.len ≤ 65536 * 65535 := hstop
    have hcell : outer.start ≤ a.toNat ∧ a.toNat < outer.start + outer.len := hcovers
    have hdata : d.data.length = outer.len := congrArg Extent.len hextent
    -- the cell is between the pieces of its segment
    have hapart : ∀ e ∈ pack 0 ((cmd.linked.merged cmd.Entry Name).map (·.2.piece)),
        e.Apart ⟨a.toNat - outer.start, 1⟩ := by
      intro e he
      obtain ⟨i, hi⟩ := List.getElem?_of_mem he
      have hlt := (List.getElem?_eq_some_iff.mp hi).1
      rw [length_pack, List.length_map] at hlt
      obtain ⟨x, hx⟩ : ∃ x, (cmd.linked.merged cmd.Entry Name)[i]? = some x :=
        ⟨_, List.getElem?_eq_getElem hlt⟩
      obtain ⟨outer', inner, b, hlocated⟩ :=
        SymbolTable.located_at ids_linked w.fits w.layout hkey hx
      cases houter.symm.trans hlocated.outer_eq
      have hname : getOutputDataSegmentName x.2.Name = Name :=
        Option.some.inj (hlocated.key.symm.trans hkey)
      have hinner := hlocated.inner_eq
      rw [hname, hi] at hinner
      cases hinner
      have hfree := ha x (List.mem_filter.mp (List.mem_of_getElem? hx)).1 b hlocated.address
      rw [InRange, BitVec.toNat_sub, hlocated.toNat, ← hlocated.len] at hfree
      have hinside : e.start + e.len ≤ outer.len := hlocated.inside
      have hbound := a.isLt
      show e.start + e.len ≤ a.toNat - outer.start ∨ a.toNat - outer.start + 1 ≤ e.start
      omega
    have hwindow := hzero ⟨a.toNat - outer.start, 1⟩ hapart
    have hload : (storeAll (fun _ => 0) ds).load a 1 = window d.data (a.toNat - outer.start) 1 :=
      load_part hds hd (by omega) (by rw [hextent]; omega)
    have hsize : a.toNat - outer.start < S.Size.toNat := by omega
    have hreplicate : window (List.replicate S.Size.toNat (0 : Byte)) (a.toNat - outer.start) 1 =
        [0] := by
      rw [window, List.drop_replicate, List.take_replicate, Nat.min_eq_left (by omega)]
      rfl
    exact List.head_eq_of_cons_eq (hload.trans (hwindow.trans hreplicate))
  · push Not at hcovers
    exact storeAll_of_not_covers hcovers

/-- After the post-pass the memory is as the data section says, but for the word at address 0. -/
theorem exists_instantiate (w : cmd.Written l) (hds : Sectioned cmd.linked cmd.Entry l ds)
    (heapPtr : BitVec 32) :
    ∃ mem, instantiate l.NumMemoryPages.toNat
        (addHeapPointerData heapPtr (stripZeroedData ds)) = some mem ∧
      ∀ a, ¬ InRange 0 4 a → mem a = storeAll (fun _ => 0) ds a := by
  obtain ⟨l', hl', -, hend, -, hpages, -⟩ := Toolchain.layoutMemory_fractalLd w.fits.all
  cases hl'.symm.trans w.layout
  have hup := @le_alignUp 65536 (Toolchain.layoutEnd
    ((cmd.linked.Segments cmd.Entry).map (·.blank)) 8192) (by decide)
  have hlow := Toolchain.le_layoutEnd ((cmd.linked.Segments cmd.Entry).map (·.blank)) 8192
  have hfits : ∀ d ∈ addHeapPointerData heapPtr (stripZeroedData ds),
      d.extent.stop ≤ 65536 * l.NumMemoryPages.toNat := by
    intro d hd
    rw [hpages]
    rcases List.mem_append.mp hd with hd | hd
    · obtain ⟨k, hk⟩ := List.getElem?_of_mem (List.mem_of_mem_filter hd)
      obtain ⟨-, -, outer, -, -, -, houter, hextent, -⟩ := hds.segment k d hk
      rw [hextent]
      refine le_trans ?_ hup
      rw [layoutEnd_eq]
      exact (inside_pack outer (List.mem_of_getElem? houter)).2
    · rw [List.mem_singleton.mp hd]
      show 0 + (leBytes 4 _).length ≤ _
      rw [length_leBytes]
      omega
  exact ⟨_, if_pos hfits, fun a ha => initialMemory_postPass (pairwise_covers hds) heapPtr ha⟩

end Command.Written

/-- A word that is relocated, as the program loads it. -/
theorem Relocated.load {t : SymbolTable} {Entry : String} {l : Toolchain.Layout} {F : ParsedFile}
    {C : InputChunk} {mem : Mem} {a : Addr} (h : Relocated t Entry l F C (mem.load a C.data.length))
    (htidy : C.Tidy) {Reloc : WasmRelocation} (hReloc : Reloc ∈ C.Relocations)
    (hsize : Reloc.type.size = 4) :
    t.Means Entry l F Reloc (BitVec.ofNat 32
      (ofLeBytes (mem.load (a + BitVec.ofNat 32 (C.field Reloc).start) 4))) := by
  obtain ⟨v, hmeans, -, hv⟩ := h.values Reloc hReloc
  have hstop : (C.field Reloc).start + Reloc.type.size ≤ C.data.length :=
    (htidy.inside Reloc hReloc).2
  have hdecode : Reloc.type.decode ((mem.load a C.data.length).drop (C.field Reloc).start) =
      some (BitVec.ofNat 32
        (ofLeBytes (window (mem.load a C.data.length) (C.field Reloc).start 4))) := by
    cases htype : Reloc.type <;> rw [htype] at hsize <;> first | rfl | cases hsize
  rw [hdecode, window_load _ _ (by omega)] at hv
  rwa [Option.some.inj hv]

/-- When the module that the post-pass leaves is instantiated, every live input segment is at
its address with its relocations done, so that a word that refers to something holds the number
of it; and no other cell but the word at address 0 holds anything. -/
theorem Command.link_memory {cmd : Command} (h : cmd.Regular) (hfits : cmd.linked.Fits cmd.Entry)
    (htidy : cmd.Tidy) (heapPtr : BitVec 32) :
    ∃ l ds mem, cmd.linked.layout cmd.Entry = .ok l ∧
      cmd.linked.dataSegments cmd.Entry l = some ds ∧
      instantiate l.NumMemoryPages.toNat (addHeapPointerData heapPtr (stripZeroedData ds)) =
        some mem ∧
      (∀ x ∈ cmd.linked.liveSegments cmd.Entry, ∃ F ∈ cmd.ObjectFiles, ∃ a, x.1.File = F.id ∧
        F.obj.Segments[x.1.i]? = some x.2 ∧ cmd.linked.segmentAddress cmd.Entry l x.1 = some a ∧
        Relocated cmd.linked cmd.Entry l F x.2.toInputChunk (mem.load a x.2.data.length) ∧
        ∀ Reloc ∈ x.2.Relocations, Reloc.type.size = 4 →
          cmd.linked.Means cmd.Entry l F Reloc (BitVec.ofNat 32
            (ofLeBytes (mem.load (a + BitVec.ofNat 32 (x.2.field Reloc).start) 4)))) ∧
      ∀ a, ¬ InRange 0 4 a → (∀ x ∈ cmd.linked.liveSegments cmd.Entry, ∀ b,
        cmd.linked.segmentAddress cmd.Entry l x.1 = some b → ¬ InRange b x.2.data.length a) →
        mem a = 0 := by
  obtain ⟨l, hl, -⟩ := Toolchain.layoutMemory_fractalLd hfits.all
  have w : cmd.Written l := ⟨h, hfits, htidy, hl⟩
  obtain ⟨ds, hds, hsectioned⟩ := w.exists_dataSegments
  obtain ⟨mem, hmem, hcell⟩ := w.exists_instantiate hsectioned heapPtr
  refine ⟨l, ds, mem, hl, hds, hmem, fun x hx => ?_, fun a ha hfree => ?_⟩
  · obtain ⟨F, hF, hid, hSeg, hrelocated, -⟩ := w.input hx
    obtain ⟨a, haddress, hlow, hhigh, hload⟩ := w.load_contents hsectioned hx
    have hloaded : mem.load a x.2.data.length = cmd.linked.contents cmd.Entry l x := by
      refine (Mem.load_congr fun b hb => hcell b fun hzero => ?_).trans hload
      rw [mem_footprint (by omega), InRange, BitVec.toNat_sub] at hb
      have hword : (b - 0#32).toNat < 4 := hzero
      rw [BitVec.sub_zero] at hword
      omega
    rw [← hloaded] at hrelocated
    have hchunk : x.2.toInputChunk ∈ F.obj.chunks :=
      List.mem_append_right _ (List.mem_map_of_mem (List.mem_of_getElem? hSeg))
    exact ⟨F, hF, a, hid, hSeg, haddress, hrelocated,
      fun Reloc hReloc hsize => hrelocated.load (htidy F hF _ hchunk) hReloc hsize⟩
  · rw [hcell a ha]
    exact w.zero_of_not_inRange hsectioned hfree

theorem Command.link_memory_sample : ∃ l ds mem,
    sample.linked.layout sample.Entry = .ok l ∧
    sample.linked.dataSegments sample.Entry l = some ds ∧
    instantiate l.NumMemoryPages.toNat (addHeapPointerData 8208 (stripZeroedData ds)) =
      some mem := by
  obtain ⟨l, ds, mem, hl, hds, hmem, -⟩ := @link_memory sample (by decide +kernel)
    (by decide +kernel) (by decide +kernel) 8208
  exact ⟨l, ds, mem, hl, hds, hmem⟩

end FractalCdt.Linker
