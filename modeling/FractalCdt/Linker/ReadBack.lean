/-
# Reading the linker's file back

Each item of a section is read as it was written, wherever it stands.  A module that
keeps the order of the sections and names nothing that is not there is read as a whole.
-/

import FractalCdt.Linker.Encoding
import FractalCdt.Linker.Format
import FractalCdt.Math.Numerals

namespace FractalCdt.Linker

open FractalCdt.Math FractalCdt.Toolchain

/-! ## Steps -/

section Steps

variable {r : BinaryReader}

theorem ValidBody.ne_nil {numTotalFuncs numSignatures : ℕ} {body : List Byte}
    (h : ValidBody numTotalFuncs numSignatures body) : body ≠ [] := by
  obtain ⟨b, hb, rfl⟩ := h
  exact List.append_ne_nil_of_left_ne_nil hb.size.terminated.ne_nil _

theorem reads_uleb {n : ℕ} (hn : n < 2 ^ 32) :
    Reads (view r) r.readU32 (uleb n) (BitVec.ofNat 32 n) := reads_unsigned (unsigned_uleb hn)

theorem reads_u32 (v : BitVec 32) : Reads (view r) r.readU32 (writeUleb128 v) v := by
  have h := @reads_uleb r _ v.isLt
  rwa [BitVec.ofNat_toNat, BitVec.setWidth_eq] at h

/-! ## Items -/

/-- The flags fit one byte and tell what they were made of. -/
theorem limitsFlags_spec : ∀ hasMax shared, limitsFlags hasMax shared < 4 ∧
    (BitVec.ofNat 32 (limitsFlags hasMax shared) &&& 1 ≠ 0 ↔ hasMax = true) ∧
    decide (BitVec.ofNat 32 (limitsFlags hasMax shared) &&& 2 ≠ 0) = shared := by
  decide

/-- The flags, the minimum and, where the flag says so, the maximum. -/
theorem reads_limits (Limits : WasmLimits) :
    Reads (view r) (readLimits r) (writeLimits Limits) Limits := by
  obtain ⟨Shared, Initial, Maximum⟩ := Limits
  obtain ⟨hflags, hmax, hshared⟩ := limitsFlags_spec Maximum.isSome Shared
  have hread := @reads_uleb r _ (hflags.trans (by decide))
  rw [uleb_of_lt (hflags.trans (by decide : 4 < 128))] at hread
  unfold readLimits writeLimits WasmLimits.Flags
  refine hread.bind ((reads_u32 Initial).bind ?_)
  rw [hshared]
  cases Maximum with
  | none =>
      rw [if_neg (mt hmax.mp Bool.false_ne_true)]
      exact Reads.pure _
  | some max =>
      rw [if_pos (hmax.mpr rfl)]
      exact (reads_u32 max).ending (Reads.pure _)

theorem reads_table {Limits : WasmLimits} (h : Limits.okTable = true) :
    Reads (view r) (readTable r) (writeTableType Limits) Limits := by
  have htype : writeSleb128 (-0x10) = [0x70] :=
    writeSleb128_type (-0x10) (by decide) (by decide)
  have hbytes : writeTableType Limits = writeSleb128 (-0x10) ++ writeLimits Limits := by
    rw [htype]
    rfl
  rw [hbytes]
  unfold readTable
  exact (reads_s32 _).bind ((reads_errorUnless (by decide)).check
    ((reads_limits Limits).ending ((reads_errorUnless h).check (Reads.pure Limits))))

theorem reads_memory {Limits : WasmLimits} (h : Limits.okMemory = true) :
    Reads (view r) (readMemory r) (writeLimits Limits) Limits := by
  unfold readMemory
  exact (reads_limits Limits).ending ((reads_errorUnless h).check (Reads.pure Limits))

theorem reads_kind (kind : ExternalKind) : Reads (view r) (readKind r) [kind.code] kind := by
  unfold readKind
  refine (reads_u8 _).ending ?_
  cases kind <;> exact Reads.pure _

theorem reads_index {bound : ℕ} {index : BitVec 32} (h : index.toNat < bound) :
    Reads (view r) (readIndex r bound) (writeUleb128 index) index := by
  unfold readIndex
  exact (reads_u32 index).ending ((reads_errorUnless (decide_eq_true h)).check (Reads.pure index))

/-- Where the literal stands does not matter here. -/
theorem reads_literal (v : BitVec 32) : Reads (view r) (readLiteral r) (writeInitExpr v) v := by
  intro offset rest hwindow
  rw [readLiteral, BinaryReader.run_bind_of_some (BinaryReader.run_readInitExpr hwindow)]
  rfl

theorem writeUleb128_ne_nil (v : BitVec 32) : writeUleb128 v ≠ [] :=
  (terminated_uleb v.toNat).ne_nil

theorem writeStr_ne_nil (s : List Byte) : writeStr s ≠ [] :=
  List.append_ne_nil_of_left_ne_nil (terminated_uleb s.length).ne_nil s

section Bounded

/-! No file has more bytes than an offset can tell. -/

variable (hr : r.readEnd < 2 ^ 32)

include hr

/-- A count and the items, each of which takes at least a byte. -/
theorem reads_vector {α β : Type} {read : ReadM β} {write : α → List Byte} {f : α → β}
    {xs : List α} (hne : ∀ x ∈ xs, write x ≠ [])
    (h : ∀ x ∈ xs, Reads (view r) read (write x) (f x)) :
    Reads (view r) (r.readVector read) (writeVector write xs) (xs.map f) := by
  intro offset rest hwindow
  have hwindow : (view r).left offset = uleb xs.length ++ (xs.flatMap write ++ rest) := by
    rw [hwindow, writeVector, List.append_assoc]
  have hleft : r.window (offset + (uleb xs.length).length) = xs.flatMap write ++ rest :=
    Reads.left_eq hwindow
  have hbound := @length_window_le r (offset + (uleb xs.length).length)
  have hroom : xs.length ≤ (xs.flatMap write ++ rest).length := by
    have hitems := length_le_flatMap hne
    rw [List.length_append]
    omega
  rw [hleft] at hbound
  rw [BinaryReader.readVector, BinaryReader.run_bind_of_some
      (run_readCount (unsigned_uleb (by omega)) hwindow hroom),
    Reads.repeated h _ rest hleft, writeVector, List.length_append, Nat.add_assoc]

/-- Items that are read as they were written. -/
theorem reads_items {α : Type} {read : ReadM α} {write : α → List Byte} {xs : List α}
    (hne : ∀ x ∈ xs, write x ≠ []) (h : ∀ x ∈ xs, Reads (view r) read (write x) x) :
    Reads (view r) (r.readVector read) (writeVector write xs) xs := by
  have hread := @reads_vector r hr α α read write id xs hne h
  rwa [List.map_id] at hread

/-- Bytes behind a numeral that tells how many they are. -/
theorem reads_bytes (data : List Byte) : Reads (view r) (readBytes r) (writeStr data) data := by
  intro offset rest hwindow
  have hwindow' : r.window offset = uleb data.length ++ (data ++ rest) := by
    rw [← List.append_assoc]
    exact hwindow
  have hleft : r.window (offset + (uleb data.length).length) = data ++ rest :=
    BinaryReader.window_add hwindow'
  have hpos := List.length_pos_iff.mpr (terminated_uleb data.length).ne_nil
  have hroom := @length_window_le r offset
  rw [hwindow', List.length_append, List.length_append] at hroom
  have hlength : data.length < 2 ^ 32 := by omega
  have hcheck : decide (offset + (uleb data.length).length +
      (BitVec.ofNat 32 data.length).toNat ≤ r.readEnd) = true := by
    rw [toNat_ofNat hlength]
    exact decide_eq_true (by omega)
  rw [readBytes, BinaryReader.run_bind_of_some (reads_uleb hlength offset _ hwindow'),
    BinaryReader.run_bind_of_some (run_get _), BinaryReader.run_errorUnless hcheck,
    toNat_ofNat hlength]
  show some ((r.window (offset + (uleb data.length).length)).take data.length,
    offset + (uleb data.length).length + data.length) = _
  rw [hleft, List.take_left' rfl, writeStr, List.length_append, Nat.add_assoc]

theorem reads_str {s : List Byte} (hvalid : isValidUtf8 s = true) :
    Reads (view r) (readStr r) (writeStr s) s := by
  unfold readStr
  exact (reads_bytes hr s).ending ((reads_errorUnless hvalid).check (Reads.pure s))

theorem reads_types {types : List Byte} (h : ∀ type ∈ types, Concrete type) :
    Reads (view r) (r.readVector r.readConcrete) (writeVector (fun type => [type]) types) types :=
  reads_items hr (fun type _ => List.cons_ne_nil type []) fun type htype =>
    reads_concrete (h type htype)

theorem reads_sig {Sig : WasmSignature} (h : ValidSig Sig) :
    Reads (view r) (readSig r) (writeSig Sig) Sig := by
  obtain ⟨ParamTypes, ReturnType⟩ := Sig
  obtain ⟨results, hresults, hconcrete, hlength, hhead⟩ : ∃ results : List Byte,
      (if ReturnType = 0x40 then uleb 0 else uleb 1 ++ [ReturnType]) =
        writeVector (fun type => [type]) results ∧ (∀ type ∈ results, Concrete type) ∧
        results.length ≤ 1 ∧ results.headD 0x40 = ReturnType := by
    by_cases hnone : ReturnType = 0x40
    · refine ⟨[], ?_, List.forall_mem_nil _, Nat.zero_le 1, hnone.symm⟩
      rw [if_pos hnone, writeVector, List.flatMap_nil, List.append_nil, List.length_nil]
    · refine ⟨[ReturnType], by rw [if_neg hnone]; rfl, fun type htype => ?_, le_rfl, rfl⟩
      rw [List.mem_singleton.mp htype]
      exact h.result.resolve_left hnone
  have hform : writeSleb128 (-0x20) = [0x60] :=
    writeSleb128_type (-0x20) (by decide) (by decide)
  have hbytes : writeSig ⟨ParamTypes, ReturnType⟩ = writeSleb128 (-0x20) ++
      (writeVector (fun type => [type]) ParamTypes ++
        writeVector (fun type => [type]) results) := by
    rw [hform, ← hresults]
    rfl
  rw [hbytes]
  unfold readSig
  refine (reads_s32 _).bind ((reads_errorUnless (by decide)).check
    ((reads_types hr h.params).bind ((reads_types hr hconcrete).ending
      ((reads_errorUnless (decide_eq_true hlength)).check ?_))))
  rw [hhead]
  exact Reads.pure _

theorem reads_import {c : Counts} {Import : WasmImport} (h : ValidImport c Import) :
    Reads (view r) (readImport r c) (writeImport Import) Import := by
  obtain ⟨Module, Field, desc⟩ := Import
  obtain ⟨hmodule, hfield, hdesc⟩ := h
  unfold readImport writeImport
  refine (reads_str hr hmodule).bind ((reads_str hr hfield).bind
    ((reads_kind desc.kind).bind ?_))
  cases desc with
  | function SigIndex => exact ((reads_index hdesc).map ImportDesc.function).ending (Reads.pure _)
  | table Limits => exact ((reads_table hdesc).map ImportDesc.table).ending (Reads.pure _)
  | memory Limits => exact ((reads_memory hdesc).map ImportDesc.memory).ending (Reads.pure _)
  | global Global =>
      exact ((BinaryReader.reads_globalHeader hdesc).map ImportDesc.global).ending (Reads.pure _)

theorem reads_export {c : Counts} {Export : WasmExport} (h : ValidExport c Export) :
    Reads (view r) (readExport r c) (writeExport Export) Export := by
  unfold readExport writeExport
  exact (reads_str hr h.Name).bind ((reads_kind Export.Kind).bind
    ((reads_index h.Index).ending (Reads.pure Export)))

theorem reads_elem (Segment : ElemSegment) :
    Reads (view r) (readElem r) (writeElem Segment) Segment := by
  unfold readElem writeElem
  refine (reads_u32 _).bind ((reads_literal _).bind ?_)
  exact (reads_items hr (fun v _ => writeUleb128_ne_nil v)
    fun v _ => reads_u32 v).ending (Reads.pure Segment)

theorem reads_segment (Segment : DataSegment) :
    Reads (view r) (readSegment r) (writeSegment Segment) Segment := by
  unfold readSegment writeSegment
  refine (reads_uleb (by decide)).bind ((reads_literal _).bind ?_)
  exact (reads_bytes hr Segment.data).ending (Reads.pure Segment)

end Bounded

/-! ## Sections -/

/-- A section that ends where the reader may read to is read as it was written. -/
theorem run_readItems {c : Counts} {s : Section} {offset : ℕ} (hr : r.readEnd < 2 ^ 32)
    (hvalid : s.Valid c) (hwindow : r.window offset = s.body)
    (hend : r.readEnd = offset + s.body.length) :
    (readItems r c s.id).run offset = some (s, r.readEnd) := by
  have hwindow' : (view r).left offset = s.body ++ [] := by
    rw [List.append_nil]
    exact hwindow
  -- What reads the body as the section reads it to its end.
  have hwhole : Reads (view r) (readItems r c s.id) s.body s → 
      (readItems r c s.id).run offset = some (s, r.readEnd) := by
    intro hreads
    rw [hend]
    exact hreads offset [] hwindow'
  cases s with
  | custom Name payload =>
      have hname := reads_str hr hvalid.1 offset payload hwindow
      have hleft : r.window (offset + (writeStr Name).length) = payload :=
        BinaryReader.window_add hwindow
      show (readCustom r).run offset = _
      rw [readCustom, BinaryReader.run_bind_of_some hname,
        BinaryReader.run_errorUnless (by rw [hvalid.2]; rfl),
        BinaryReader.run_bind_of_some (run_get _), hleft]
      rfl
  | type Types =>
      exact hwhole ((reads_items hr (fun _ _ => List.cons_ne_nil _ _)
        fun Sig hSig => reads_sig hr (hvalid Sig hSig)).map Section.type)
  | imports ImportedSymbols =>
      refine hwhole ((reads_items hr (fun Import _ => ?_)
        fun Import hImport => reads_import hr (hvalid Import hImport)).map Section.imports)
      exact List.append_ne_nil_of_left_ne_nil (writeStr_ne_nil Import.Module) _
  | function sigs =>
      exact hwhole ((reads_items hr (fun sigIndex _ => writeUleb128_ne_nil sigIndex)
        fun sigIndex hsig => reads_index (hvalid sigIndex hsig)).map Section.function)
  | table tables =>
      exact hwhole ((reads_items hr (fun _ _ => List.cons_ne_nil _ _)
        fun Limits hLimits => reads_table (hvalid Limits hLimits)).map Section.table)
  | memory memories =>
      exact hwhole ((reads_items hr (fun _ _ => List.cons_ne_nil _ _)
        fun Limits hLimits => reads_memory (hvalid Limits hLimits)).map Section.memory)
  | global globals =>
      have hfew : globals.length < 2 ^ 32 := by
        have hitems := length_le_flatMap fun g (_ : g ∈ globals) =>
          BinaryReader.writeGlobal_ne_nil g
        have hbody : (Section.global globals).body.length =
            (uleb globals.length).length + (globals.flatMap writeGlobal).length :=
          List.length_append
        omega
      have hread := BinaryReader.run_readGlobalSection hfew hvalid hwindow'
      show (readGlobals r).run offset = _
      rw [readGlobals, BinaryReader.run_bind_of_some hread,
        BinaryReader.mapM_literal?_globalsAt, hend]
      rfl
  | exports Exports =>
      refine hwhole ((reads_items hr (fun Export _ => ?_)
        fun Export hExport => reads_export hr (hvalid Export hExport)).map Section.exports)
      exact List.append_ne_nil_of_left_ne_nil (writeStr_ne_nil Export.Name) _
  | elem segments =>
      refine hwhole ((reads_items hr (fun Segment _ => ?_)
        fun Segment _ => reads_elem hr Segment).map Section.elem)
      exact List.append_ne_nil_of_left_ne_nil (writeUleb128_ne_nil Segment.table) _
  | code bodies =>
      refine hwhole ((reads_items hr (fun body hbody => (hvalid body hbody).ne_nil)
        fun body hbody => ?_).map Section.code)
      obtain ⟨b, hb, rfl⟩ := hvalid body hbody
      exact reads_body hb
  | data segments =>
      refine hwhole ((reads_items hr (fun Segment _ => ?_)
        fun Segment _ => reads_segment hr Segment).map Section.data)
      exact List.append_ne_nil_of_left_ne_nil (terminated_uleb 0).ne_nil _

end Steps

theorem Section.id_le (s : Section) : s.id ≤ 11 := by
  cases s <;> exact Nat.le_of_ble_eq_true rfl

section File

variable {data : List Byte}

/-- A round of the loop gets to the items of a section that is in order. -/
theorem run_readSections_header {rounds : ℕ} {last : Option ℕ} {c : Counts} {s : Section}
    {offset : ℕ} {rest : List Byte} (hdata : data.length < 2 ^ 32)
    (hdrop : data.drop offset = s.write ++ rest) (horder : inOrder last s.id = true) :
    ∃ start, (BinaryReader.mk data (start + s.body.length)).window start = s.body ∧
      offset + s.write.length = start + s.body.length ∧ start + s.body.length ≤ data.length ∧
      (readSections data (rounds + 1) last c).run offset =
        (do
          let s' ← readSection ⟨data, start + s.body.length⟩ c s.id
          let stop ← get
          errorUnless (stop = start + s.body.length)
          let sections ← readSections data rounds (lastKnown last s.id) (c.add s')
          return s' :: sections : ReadM (List Section)).run start := by
  let r : BinaryReader := ⟨data, data.length⟩
  have hid : (BitVec.ofNat 32 s.id).toNat = s.id := toNat_ofNat (s.id_le.trans_lt (by decide))
  have hbytes : data.drop offset = uleb s.id ++ (uleb s.body.length ++ (s.body ++ rest)) := by
    rw [hdrop, Section.write, writeStr]
    simp only [List.append_assoc]
  have hlength := congrArg List.length hbytes
  have hpos := List.length_pos_iff.mpr (terminated_uleb s.id).ne_nil
  simp only [List.length_drop, List.length_append] at hlength
  have hsize : (BitVec.ofNat 32 s.body.length).toNat = s.body.length := toNat_ofNat (by omega)
  have hwindow : r.window offset = uleb s.id ++ (uleb s.body.length ++ (s.body ++ rest)) := by
    rw [BinaryReader.window, List.take_of_length_le (by rw [List.length_drop]), hbytes]
  have hcode := reads_uleb (s.id_le.trans_lt (by decide)) offset _ hwindow
  have hwindow := BinaryReader.window_add hwindow
  have hread := @reads_uleb r s.body.length (by omega) _ _ hwindow
  refine ⟨offset + (uleb s.id).length + (uleb s.body.length).length, ?_, ?_, by omega, ?_⟩
  · rw [BinaryReader.window, Nat.add_sub_cancel_left, ← List.drop_drop, ← List.drop_drop, hbytes,
      List.drop_left, List.drop_left, List.take_left]
  · rw [Section.write, writeStr, List.length_append, List.length_append]
    omega
  · rw [readSections, BinaryReader.run_bind_of_some (run_get offset), if_pos (by omega),
      BinaryReader.run_bind_of_some hcode, BinaryReader.run_bind_of_some hread,
      BinaryReader.run_bind_of_some (run_get _), hsize, hid,
      BinaryReader.run_errorUnless (decide_eq_true (by omega)),
      BinaryReader.run_errorUnless horder]

/-- A section that can be read is read, and the loop goes on. -/
theorem run_readSections_cons {rounds : ℕ} {last : Option ℕ} {c : Counts} {s : Section}
    {offset : ℕ} {rest : List Byte} (hdata : data.length < 2 ^ 32)
    (hdrop : data.drop offset = s.write ++ rest) (horder : inOrder last s.id = true)
    (hvalid : s.Valid c) (hok : s.ok c = true) :
    (readSections data (rounds + 1) last c).run offset =
      ((readSections data rounds (lastKnown last s.id) (c.add s)).run
        (offset + s.write.length)).map fun (sections, stop) => (s :: sections, stop) := by
  obtain ⟨start, hwindow, hstop, hend, hrun⟩ := run_readSections_header (c := c)
    hdata hdrop horder
  have hitems := @run_readItems ⟨data, start + s.body.length⟩ c s start
    (show start + s.body.length < 2 ^ 32 by omega) hvalid hwindow rfl
  have hsection : (readSection ⟨data, start + s.body.length⟩ c s.id).run start =
      some (s, start + s.body.length) := by
    rw [readSection, BinaryReader.run_bind_of_some hitems, BinaryReader.run_errorUnless hok]
    rfl
  rw [hrun, BinaryReader.run_bind_of_some hsection, BinaryReader.run_bind_of_some (run_get _),
    BinaryReader.run_errorUnless (decide_eq_true rfl), hstop]
  show ((readSections data rounds _ _).run _).bind _ = _
  rw [Option.map_eq_bind]
  rfl

/-- A section that cannot be read is an error. -/
theorem run_readSections_none {rounds : ℕ} {last : Option ℕ} {c : Counts} {s : Section}
    {offset : ℕ} {rest : List Byte} (hdata : data.length < 2 ^ 32)
    (hdrop : data.drop offset = s.write ++ rest) (horder : inOrder last s.id = true)
    (hfail : ∀ (r : BinaryReader) start, r.readEnd < 2 ^ 32 → r.window start = s.body →
      (readItems r c s.id).run start = none) :
    (readSections data (rounds + 1) last c).run offset = none := by
  obtain ⟨start, hwindow, -, hend, hrun⟩ := run_readSections_header (c := c)
    hdata hdrop horder
  rw [hrun, readSection, bind_assoc, StateT.run_bind,
    hfail _ start (hend.trans_lt hdata) hwindow]
  rfl

/-- The loop goes through sections that are in order. -/
theorem run_readSections_append {sections : List Section} {rounds : ℕ} {last : Option ℕ}
    {c : Counts} {offset : ℕ} {rest : List Byte} (hdata : data.length < 2 ^ 32)
    (hdrop : data.drop offset = sections.flatMap Section.write ++ rest)
    (hvalid : ValidFrom last c sections) :
    (readSections data (sections.length + rounds) last c).run offset =
      ((readSections data rounds (lastBehind last sections) (countsBehind c sections)).run
        (offset + (sections.flatMap Section.write).length)).map
          fun (more, stop) => (sections ++ more, stop) := by
  induction sections generalizing last c offset with
  | nil =>
      rw [List.length_nil, Nat.zero_add]
      exact Option.map_id'.symm
  | cons s sections ih =>
      obtain ⟨horder, hs, hok, hrest⟩ := hvalid
      rw [List.flatMap_cons, List.append_assoc] at hdrop
      have hdrop' : data.drop (offset + s.write.length) =
          sections.flatMap Section.write ++ rest := by
        rw [← List.drop_drop, hdrop, List.drop_left]
      rw [List.length_cons, Nat.add_right_comm, run_readSections_cons hdata hdrop horder hs hok,
        ih hdrop' hrest, Option.map_map, List.flatMap_cons, List.length_append, Nat.add_assoc]
      rfl

/-- At the end the loop stops. -/
theorem run_readSections_end {rounds : ℕ} {last : Option ℕ} {c : Counts} {offset : ℕ}
    (hoffset : data.length ≤ offset) :
    (readSections data (rounds + 1) last c).run offset = some ([], offset) := by
  rw [readSections, BinaryReader.run_bind_of_some (run_get offset), if_neg (by omega)]
  rfl

end File

section Module

variable {OutputSections : List Section}

theorem ValidFrom.append {front back : List Section} {last : Option ℕ} {c : Counts}
    (hfront : ValidFrom last c front)
    (hback : ValidFrom (lastBehind last front) (countsBehind c front) back) :
    ValidFrom last c (front ++ back) := by
  induction front generalizing last c with
  | nil => exact hback
  | cons s front ih =>
      obtain ⟨horder, hvalid, hok, hrest⟩ := hfront
      exact ⟨horder, hvalid, hok, ih hrest hback⟩

theorem drop_writeModule :
    (writeModule OutputSections).drop 8 = OutputSections.flatMap Section.write :=
  List.drop_left' rfl

theorem length_writeModule :
    (writeModule OutputSections).length = 8 + (OutputSections.flatMap Section.write).length :=
  List.length_append

theorem length_le_sections :
    OutputSections.length ≤ (OutputSections.flatMap Section.write).length :=
  length_le_flatMap fun s _ => List.append_ne_nil_of_left_ne_nil (terminated_uleb s.id).ne_nil _

theorem readModule_eq :
    readModule (writeModule OutputSections) =
      ((readSections (writeModule OutputSections) (writeModule OutputSections).length none
        .zero).run 8).map Prod.fst := by
  have htake : (writeModule OutputSections).take 8 = Header := List.take_left' rfl
  rw [readModule, if_pos htake]

/-- The loop gets through a module that is in order. -/
theorem run_readSections_module (hvalid : ValidFrom none .zero OutputSections)
    (hlength : (writeModule OutputSections).length < 2 ^ 32) :
    (readSections (writeModule OutputSections) (writeModule OutputSections).length none
      .zero).run 8 = some (OutputSections, (writeModule OutputSections).length) := by
  have hwhole := @length_writeModule OutputSections
  obtain ⟨rounds, hrounds⟩ : ∃ rounds, (writeModule OutputSections).length =
      OutputSections.length + (rounds + 1) := by
    have hsections := @length_le_sections OutputSections
    exact ⟨(writeModule OutputSections).length - OutputSections.length - 1, by omega⟩
  have hrun := @run_readSections_append _ OutputSections (rounds + 1) none .zero 8 [] hlength
    (by rw [List.append_nil]; exact drop_writeModule) hvalid
  rw [run_readSections_end hwhole.le, ← hrounds] at hrun
  rw [hrun, hwhole]
  exact congrArg (fun sections => some (sections, _)) (List.append_nil OutputSections)

/-- A module that is in order is read as it was written. -/
theorem readModule_writeModule (hvalid : ValidFrom none .zero OutputSections)
    (hlength : (writeModule OutputSections).length < 2 ^ 32) :
    readModule (writeModule OutputSections) = some OutputSections := by
  rw [readModule_eq, run_readSections_module hvalid hlength, Option.map_some]

def sampleSections : List Section :=
  [.type [⟨[0x7e], 0x40⟩], .function [0], .memory [⟨false, 1, none⟩], .code [[2, 0, 0x0b]],
    .data [⟨8192, [1]⟩]]

theorem readModule_writeModule_sample :
    readModule (writeModule sampleSections) = some sampleSections := by
  have hcode : ValidBody 1 1 [2, 0, 0x0b] :=
    ⟨⟨[2], [0], [], []⟩,
      ⟨⟨⟨show BitVec.toNat (2 : Byte) < 128 by decide, by decide, rfl, by decide⟩,
        ⟨show BitVec.toNat (0 : Byte) < 128 by decide, by decide, rfl, by decide⟩, nofun,
        by decide⟩, nofun⟩, rfl⟩
  refine readModule_writeModule ⟨rfl, ?_, rfl, rfl, ?_, rfl, rfl, ?_, rfl, rfl, ?_, rfl, rfl,
    trivial, rfl, trivial⟩ (by decide +kernel)
  · exact List.forall_mem_singleton.mpr ⟨by decide, .inl rfl⟩
  · exact List.forall_mem_singleton.mpr Nat.zero_lt_one
  · exact List.forall_mem_singleton.mpr rfl
  · exact List.forall_mem_singleton.mpr hcode

/-- A section that cannot be read behind others that can makes the module unreadable. -/
theorem readModule_writeModule_none {front back : List Section} {s : Section}
    (hvalid : ValidFrom none .zero front)
    (horder : inOrder (lastBehind none front) s.id = true)
    (hfail : ∀ (r : BinaryReader) start, r.readEnd < 2 ^ 32 → r.window start = s.body →
      (readItems r (countsBehind .zero front) s.id).run start = none)
    (hlength : (writeModule (front ++ s :: back)).length < 2 ^ 32) :
    readModule (writeModule (front ++ s :: back)) = none := by
  have hwhole := @length_writeModule (front ++ s :: back)
  have hsections := @length_le_sections (front ++ s :: back)
  have hcount : (front ++ s :: back).length = front.length + (back.length + 1) := by
    rw [List.length_append, List.length_cons]
  obtain ⟨rounds, hrounds⟩ : ∃ rounds, (writeModule (front ++ s :: back)).length =
      front.length + (rounds + 1) :=
    ⟨(writeModule (front ++ s :: back)).length - front.length - 1, by omega⟩
  have hdrop : (writeModule (front ++ s :: back)).drop 8 =
      front.flatMap Section.write ++ (s.write ++ back.flatMap Section.write) := by
    rw [drop_writeModule, List.flatMap_append, List.flatMap_cons]
  have hdrop' : (writeModule (front ++ s :: back)).drop
      (8 + (front.flatMap Section.write).length) = s.write ++ back.flatMap Section.write := by
    rw [← List.drop_drop, hdrop, List.drop_left]
  rw [readModule_eq, hrounds, run_readSections_append hlength hdrop hvalid,
    run_readSections_none hlength hdrop' horder hfail]
  rfl

end Module

end FractalCdt.Linker
