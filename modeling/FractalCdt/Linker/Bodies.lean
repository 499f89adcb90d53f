/-
# The bodies of the output

The post-pass decodes a body for each function that the file declares.  Every function
of the output has one, but for the linker's own entry, whose body is empty.  So the
output can only be read if an object defines the entry.
-/

import FractalCdt.Linker.Entry
import FractalCdt.Linker.Patched

namespace FractalCdt.Linker

open FractalCdt.Math FractalCdt.Toolchain

/-! ## A body that is missing -/

section Missing

variable {r : BinaryReader}

/-- If the items cannot be read, neither can the vector, whatever the count is checked for. -/
theorem run_readVector_none {α : Type} {read : ReadM α} {n offset : ℕ} {rest : List Byte}
    (hn : n < 2 ^ 32) (h : r.window offset = uleb n ++ rest)
    (hitems : (repeated read n).run (offset + (uleb n).length) = none) :
    (r.readVector read).run offset = none := by
  have hcount : r.readCount.run offset = some (n, offset + (uleb n).length) ∨
      r.readCount.run offset = none := by
    rw [BinaryReader.readCount, BinaryReader.run_bind_of_some (reads_uleb hn offset rest h),
      BinaryReader.run_bind_of_some (run_get _), toNat_ofNat hn]
    unfold errorUnless
    split
    · exact .inl rfl
    · exact .inr rfl
  rcases hcount with hcount | hcount
  · rw [BinaryReader.readVector, BinaryReader.run_bind_of_some hcount]
    exact hitems
  · rw [BinaryReader.readVector, StateT.run_bind, hcount]
    rfl

theorem run_readBody_none {numTotalFuncs numSignatures offset : ℕ} (h : r.window offset = []) :
    (r.readBody numTotalFuncs numSignatures).run offset = none := by
  have hu32 : r.readU32.run offset = none := by
    show (readU32Leb128 (r.window offset)).map _ = none
    rw [h]
    rfl
  rw [BinaryReader.readBody, BinaryReader.run_bind_of_some (run_get _), StateT.run_bind, hu32]
  rfl

/-- The bytes of the other functions do not last for one without a body. -/
theorem run_readItems_code_none {c : Counts} {bodies front back : List (List Byte)} {start : ℕ}
    (hr : r.readEnd < 2 ^ 32) (hbodies : bodies = front ++ [] :: back)
    (hvalid : ∀ body ∈ front ++ back, ValidBody (c.total .function) c.signatures body)
    (hwindow : r.window start = (Section.code bodies).body) :
    (readItems r c 10).run start = none := by
  have hflat : bodies.flatMap (fun body => body) = (front ++ back).flatMap fun body => body := by
    rw [hbodies, List.flatMap_append, List.flatMap_append]
    rfl
  have hcount : bodies.length = (front ++ back).length + 1 := by
    rw [hbodies, List.length_append, List.length_append]
    rfl
  have hn : bodies.length < 2 ^ 32 := by
    have hbytes := congrArg List.length hwindow
    have hleft := @length_window_le r start
    have hitems : (front ++ back).length ≤ ((front ++ back).flatMap fun body => body).length :=
      length_le_flatMap fun body hbody => (hvalid body hbody).ne_nil
    have hpos := List.length_pos_iff.mpr (terminated_uleb bodies.length).ne_nil
    rw [show (Section.code bodies).body = uleb bodies.length ++ bodies.flatMap fun body => body
      from rfl, List.length_append, hflat] at hbytes
    omega
  have hleft : r.window (start + (uleb bodies.length).length) =
      bodies.flatMap fun body => body := BinaryReader.window_add hwindow
  have hread : ∀ body ∈ front ++ back,
      Reads (view r) (r.readBody (c.total .function) c.signatures) body (id body) := by
    intro body hbody
    obtain ⟨b, hb, rfl⟩ := hvalid body hbody
    exact reads_body hb
  have hitems : (repeated (r.readBody (c.total .function) c.signatures) bodies.length).run
      (start + (uleb bodies.length).length) = none := by
    rw [hcount]
    rw [hcount] at hleft
    exact Reads.repeated_ending hread (fun _ hend => run_readBody_none hend) (hleft.trans hflat)
  show (Section.code <$> r.readVector (r.readBody _ _)).run start = none
  rw [StateT.run_map, run_readVector_none hn hwindow hitems]
  rfl

end Missing

/-! ## The linker's own functions -/

/-- The function that calls the constructors is a body. -/
theorem validBody_ctorFunction {indices : List ℕ} {numTotalFuncs : ℕ} (numSignatures : ℕ)
    (hfew : indices.length < 2 ^ 29) (hindices : ∀ Index ∈ indices, Index < numTotalFuncs) :
    ValidBody numTotalFuncs numSignatures (SymbolTable.ctorFunction indices) := by
  -- one `call` for each of them
  obtain ⟨calls, hcalls⟩ : ∃ calls, calls = indices.map fun Index =>
      (⟨[0x10], [(.function, writeUleb128 (BitVec.ofNat 32 Index))]⟩ : Instruction) := ⟨_, rfl⟩
  have hbytes : calls.flatMap Instruction.bytes =
      indices.flatMap fun Index => 0x10 :: writeUleb128 (BitVec.ofNat 32 Index) := by
    rw [hcalls, List.flatMap_map]
    exact List.flatMap_congr fun Index _ => congrArg ([0x10] ++ ·) (List.flatMap_singleton _ _)
  have hcontent (size : List Byte) : (Body.mk size (uleb 0) [] calls).content =
      uleb 0 ++ (calls.flatMap Instruction.bytes ++ [0x0b]) := rfl
  have hlength := length_ctorFunction_lt hfew
  rw [SymbolTable.ctorFunction, ← hbytes, writeStr, List.length_append] at hlength
  refine ⟨⟨uleb (uleb 0 ++ (calls.flatMap Instruction.bytes ++ [0x0b])).length, uleb 0, [], calls⟩,
    ⟨⟨?_, unsigned_uleb (Nat.two_pow_pos 32), List.forall_mem_nil _,
      Nat.le_add_left 1 _⟩, fun i hi => ?_⟩, ?_⟩
  · rw [hcontent]
    exact unsigned_uleb (by omega)
  · rw [hcalls] at hi
    obtain ⟨Index, hIndex, rfl⟩ := List.mem_map.mp hi
    refine ⟨⟨.function, .byte (by decide) (by decide), .function⟩,
      List.forall_mem_singleton.mpr ⟨(BitVec.ofNat 32 Index).toNat, ?_, ?_⟩⟩
    · rw [BitVec.toNat_ofNat]
      exact (Nat.mod_le Index _).trans_lt (hindices Index hIndex)
    · exact unsigned_uleb (BitVec.ofNat 32 Index).isLt
  · rw [SymbolTable.ctorFunction, ← hbytes]
    rfl

/-- So is the function that traps. -/
theorem validBody_unreachableFn (numTotalFuncs numSignatures : ℕ) :
    ValidBody numTotalFuncs numSignatures SymbolTable.UnreachableFn := by
  have hsize : Unsigned 3 (uleb 3) := unsigned_uleb (by decide)
  have hnone : Unsigned 0 (uleb 0) := unsigned_uleb (by decide)
  rw [uleb_of_lt (by decide)] at hsize hnone
  refine ⟨⟨[3], [0], [], [⟨[0x00], []⟩]⟩, ⟨⟨hsize, hnone, nofun, by decide⟩,
    List.forall_mem_singleton.mpr ⟨⟨.bare, .byte (by decide) (by decide), .bare⟩, nofun⟩⟩, rfl⟩

/-! ## The bodies of the functions -/

namespace Command

variable {cmd : Command} {l : Toolchain.Layout}

/-- What the compiler takes care of: a function of an object is a body, in which relocations
fill in the functions and types that it names; and there are not too many init functions. -/
structure Compiled (cmd : Command) : Prop where
  bodies : ∀ F ∈ cmd.ObjectFiles, ∀ Func ∈ F.obj.Functions, ∃ b, Func.toInputChunk.IsBody b
  few : cmd.linked.initEntries.length < 2 ^ 29

/-- What can stand in the code section of the output. -/
def IsBody (cmd : Command) (body : List Byte) : Prop :=
  ValidBody (cmd.linked.functions cmd.Entry).length (cmd.linked.Types cmd.Entry).keys.length body

/-- The body of a function of an object. -/
theorem functionBody_input (w : cmd.Written l) (hcompiled : cmd.Compiled) {File : FileId} {i : ℕ}
    (hid : .input File i ∈ cmd.linked.functionIds)
    (hlive : .function (.input File i) ∈ cmd.linked.live cmd.Entry) :
    ∃ body, cmd.linked.functionBody cmd.Entry l (.input File i) = some body ∧ cmd.IsBody body := by
  rcases List.mem_append.mp hid with hsynthetic | hinput
  · obtain ⟨i', -, heq⟩ := List.mem_map.mp hsynthetic
    cases heq
  · obtain ⟨F, hF, hmem⟩ := List.mem_flatMap.mp hinput
    obtain ⟨i', hi', heq⟩ := List.mem_map.mp hmem
    cases heq
    rw [ObjectFiles_linked] at hF
    have hlt := List.mem_range.mp hi'
    have hFunc := List.getElem?_eq_getElem hlt
    have hc : (LiveKey.function (.input F.id i), (F.obj.Functions[i]).toInputChunk) ∈
        F.liveChunks :=
      List.mem_append_left _ (List.mem_map.mpr
        ⟨(F.obj.Functions[i], i), List.mk_mem_zipIdx_iff_getElem?.mpr hFunc, rfl⟩)
    obtain ⟨bytes, hbytes, hrelocated, -⟩ := w.chunk hF hc hlive
    obtain ⟨b, hb⟩ := hcompiled.bodies F hF _ (List.getElem_mem hlt)
    refine ⟨bytes, ?_, validBody_of_relocated hrelocated hb⟩
    rw [SymbolTable.functionBody, file?_linked hF, Option.bind_some, hFunc, Option.bind_some]
    exact hbytes

/-- The body of the function that calls the constructors. -/
theorem functionBody_ctors (h : cmd.Regular) (hcompiled : cmd.Compiled) :
    ∃ body, cmd.linked.functionBody cmd.Entry l (.synthetic 0) = some body ∧ cmd.IsBody body := by
  obtain ⟨indices, hindices⟩ := exists_indices h
  have hcalls := forall₂_of_mapM hindices
  refine ⟨SymbolTable.ctorFunction indices, congrArg (Option.map _) hindices,
    validBody_ctorFunction _ ?_ fun Index hIndex => ?_⟩
  · rw [← hcalls.length_eq, SymbolTable.InitFunctions, List.length_insertionSort]
    exact hcompiled.few
  · obtain ⟨k, hk⟩ := List.getElem?_of_mem hIndex
    obtain ⟨hlt, rfl⟩ := List.getElem?_eq_some_iff.mp hk
    have hindex := hcalls.get (hcalls.length_eq.symm ▸ hlt) hlt
    obtain ⟨r, -, hr⟩ := (SymbolTable.getFunctionIndex_eq_some_iff ids_linked).mp hindex
    exact (List.getElem?_eq_some_iff.mp hr).1

/-- The body of a function that traps. -/
theorem functionBody_trap (h : cmd.Regular) {i : ℕ}
    (hlive : .function (.synthetic (i + 2)) ∈ cmd.linked.live cmd.Entry) :
    ∃ body, cmd.linked.functionBody cmd.Entry l (.synthetic (i + 2)) = some body ∧
      cmd.IsBody body := by
  obtain ⟨n, hcontent⟩ := synthetic_of_live hlive
  rcases definition_linked h.links hcontent with
    ⟨F, -, sym, -, -, -, hd⟩ | ⟨flags, hmem⟩ | ⟨j, Sig, heq, hj⟩
  · exact absurd hd (F.createDefined_ne_synthetic sym _)
  · simp [syntheticSymbols] at hmem
  · cases heq
    exact ⟨SymbolTable.UnreachableFn, congrArg (Option.map _) hj, validBody_unreachableFn _ _⟩

/-- Every function of the output has a body, and only that of the linker's own entry is none
that can be read. -/
theorem exists_functionBody (w : cmd.Written l) (hcompiled : cmd.Compiled) {Function : FunctionId}
    (hmem : Function ∈ cmd.linked.InputFunctions cmd.Entry) :
    ∃ body, cmd.linked.functionBody cmd.Entry l Function = some body ∧
      (Function ≠ .synthetic 1 → cmd.IsBody body) := by
  obtain ⟨hid, hlive⟩ := List.mem_filter.mp hmem
  have hlive : .function Function ∈ cmd.linked.live cmd.Entry := of_decide_eq_true hlive
  cases Function with
  | input File i =>
      obtain ⟨body, hbody, hvalid⟩ := functionBody_input w hcompiled hid hlive
      exact ⟨body, hbody, fun _ => hvalid⟩
  | synthetic i =>
      rcases i with _ | _ | i
      · obtain ⟨body, hbody, hvalid⟩ := functionBody_ctors w.regular hcompiled
        exact ⟨body, hbody, fun _ => hvalid⟩
      · exact ⟨[], functionBody_entry, fun hne => absurd rfl hne⟩
      · obtain ⟨body, hbody, hvalid⟩ := functionBody_trap w.regular hlive
        exact ⟨body, hbody, fun _ => hvalid⟩

theorem nodup_InputFunctions : (cmd.linked.InputFunctions cmd.Entry).Nodup :=
  (List.nodup_append.mp (SymbolTable.nodup_functions ids_linked)).2.1.of_map

/-- The bodies that are written. -/
theorem exists_bodies (w : cmd.Written l) (hcompiled : cmd.Compiled) :
    ∃ body : FunctionId → List Byte, (cmd.linked.InputFunctions cmd.Entry).mapM
        (cmd.linked.functionBody cmd.Entry l) =
          some ((cmd.linked.InputFunctions cmd.Entry).map body) ∧
      body (.synthetic 1) = [] ∧
      ∀ Function ∈ cmd.linked.InputFunctions cmd.Entry, Function ≠ .synthetic 1 →
        cmd.IsBody (body Function) := by
  have hvalue {Function : FunctionId} {bytes : List Byte}
      (h : cmd.linked.functionBody cmd.Entry l Function = some bytes) :
      (cmd.linked.functionBody cmd.Entry l Function).getD [] = bytes := by
    rw [h, Option.getD_some]
  refine ⟨fun Function => (cmd.linked.functionBody cmd.Entry l Function).getD [],
    mapM_eq_map fun Function hmem => ?_, hvalue functionBody_entry, fun Function hmem hne => ?_⟩
  · obtain ⟨bytes, hbytes, -⟩ := exists_functionBody w hcompiled hmem
    rw [hvalue hbytes, hbytes]
  · obtain ⟨bytes, hbytes, hvalid⟩ := exists_functionBody w hcompiled hmem
    show cmd.IsBody ((cmd.linked.functionBody cmd.Entry l Function).getD [])
    rw [hvalue hbytes]
    exact hvalid hne

/-- What the sections before the code section count: the linker's types, the functions it
imports and those it writes. -/
structure Declares (cmd : Command) (c : Counts) : Prop where
  signatures : c.signatures = (cmd.linked.Types cmd.Entry).keys.length
  imports : c.imports .function = (cmd.linked.importedFunctions cmd.Entry).length
  defined : c.defined .function = (cmd.linked.InputFunctions cmd.Entry).length

theorem Declares.total {c : Counts} (h : cmd.Declares c) :
    c.total .function = (cmd.linked.functions cmd.Entry).length := by
  rw [Counts.total, h.imports, h.defined, SymbolTable.functions, List.length_append,
    List.length_map, List.length_map]

theorem Declares.isBody_iff {c : Counts} (h : cmd.Declares c) {body : List Byte} :
    cmd.IsBody body ↔ ValidBody (c.total .function) c.signatures body := by
  rw [h.total, h.signatures]
  rfl

/-- If an object defines the entry, the post-pass reads the functions as they are written, behind
any sections that declare them.  If none does, the body of the linker's own entry is missing, and
nothing that is written can be read. -/
theorem link_bodies (w : cmd.Written l) (hcompiled : cmd.Compiled) (hname : cmd.Entry ∉ reserved) :
    ∃ bodies, (cmd.linked.InputFunctions cmd.Entry).mapM
        (cmd.linked.functionBody cmd.Entry l) = some bodies ∧
      ∀ front back, ValidFrom none .zero front → inOrder (lastBehind none front) 10 →
        cmd.Declares (countsBehind .zero front) →
        ValidFrom (some 10) (countsBehind .zero front) back →
        (writeModule (front ++ .code bodies :: back)).length < 2 ^ 32 →
        readModule (writeModule (front ++ .code bodies :: back)) =
          if cmd.DefinesEntry then some (front ++ .code bodies :: back) else none := by
  obtain ⟨body, hbodies, hmissing, hvalid⟩ := exists_bodies w hcompiled
  have hmem := synthetic_mem_InputFunctions_iff w.regular.links hname
  refine ⟨_, hbodies, fun front back hfront horder hdeclares hback hlength => ?_⟩
  by_cases hentry : cmd.DefinesEntry
  case pos =>
    have hall : ∀ bytes ∈ (cmd.linked.InputFunctions cmd.Entry).map body,
        ValidBody ((countsBehind .zero front).total .function)
          (countsBehind .zero front).signatures bytes := by
      intro bytes hbytes
      obtain ⟨Function, hFunction, rfl⟩ := List.mem_map.mp hbytes
      refine hdeclares.isBody_iff.mp (hvalid Function hFunction fun heq => ?_)
      exact hmem.mp (heq ▸ hFunction) hentry
    have hcount : ((cmd.linked.InputFunctions cmd.Entry).map body).length =
        (countsBehind .zero front).defined .function := by
      rw [List.length_map, hdeclares.defined]
    have hcode : ValidFrom (lastBehind none front) (countsBehind .zero front)
        (.code ((cmd.linked.InputFunctions cmd.Entry).map body) :: back) :=
      ⟨horder, hall, beq_iff_eq.mpr hcount, hback⟩
    rw [if_pos hentry, readModule_eq, run_readSections_module (hfront.append hcode) hlength,
      Option.map_some]
  case neg =>
    -- the linker's own entry is in one place, and every other function has a body
    obtain ⟨before, behind, hsplit⟩ := List.append_of_mem (hmem.mpr hentry)
    have hnodup := @nodup_InputFunctions cmd
    rw [hsplit, List.nodup_middle, List.nodup_cons] at hnodup
    have hothers : ∀ bytes ∈ before.map body ++ behind.map body,
        ValidBody ((countsBehind .zero front).total .function)
          (countsBehind .zero front).signatures bytes := by
      intro bytes hbytes
      rw [← List.map_append] at hbytes
      obtain ⟨Function, hFunction, rfl⟩ := List.mem_map.mp hbytes
      refine hdeclares.isBody_iff.mp
        (hvalid Function ?_ fun heq => hnodup.1 (heq ▸ hFunction))
      rw [hsplit]
      exact (List.perm_middle.mem_iff).mpr (List.mem_cons_of_mem _ hFunction)
    have hwhole : (cmd.linked.InputFunctions cmd.Entry).map body =
        before.map body ++ [] :: behind.map body := by
      rw [hsplit, List.map_append, List.map_cons, hmissing]
    rw [if_neg hentry]
    exact readModule_writeModule_none hfront horder
      (fun r start hr hwindow => run_readItems_code_none hr hwhole hothers hwindow) hlength

theorem compiled_sample : sample.Compiled := by
  have hnone : Unsigned 0 (uleb 0) := unsigned_uleb (by decide)
  have hshort : Unsigned 2 (uleb 2) := unsigned_uleb (by decide)
  have hlong : Unsigned 8 (uleb 8) := unsigned_uleb (by decide)
  rw [uleb_of_lt (by decide)] at hnone hshort hlong
  have hempty (Comdat : Option ℕ) :
      ∃ b, (sampleEmpty Comdat).toInputChunk.IsBody b :=
    ⟨⟨[2], [0], [], []⟩, ⟨hshort, hnone, nofun, by decide⟩, rfl, nofun, .nil, nofun⟩
  refine ⟨?_, by decide +kernel⟩
  rw [ObjectFiles_sample]
  simp only [List.forall_mem_cons, sampleMain, sampleMember, sampleCopy]
  refine ⟨⟨⟨⟨[8], [0], [], [⟨[0x10], [(.function, [0x80, 0x80, 0x80, 0x80, 0x00])]⟩]⟩,
    ⟨hlong, hnone, nofun, by decide⟩, rfl, ?_, ?_, ?_⟩, nofun⟩, ⟨hempty _, nofun⟩,
    ⟨hempty _, nofun⟩, nofun⟩
  · exact List.forall_mem_singleton.mpr (.inr (by decide))
  · refine .cons ⟨⟨.function, .byte (by decide) (by decide), .function⟩, ?_,
      .cons (.filled List.mem_cons_self rfl rfl) .nil⟩ .nil
    exact List.forall_mem_singleton.mpr (.inr (by decide))
  · exact List.forall_mem_singleton.mpr (.inl (by decide))

/-- The types, the imports and the functions of the small link. -/
def sampleFront : List Section :=
  [.type [⟨[], 0x40⟩, ⟨[0x7e], 0x40⟩],
    .imports [⟨[0x65, 0x6e, 0x76], [0x68, 0x6f, 0x73, 0x74], .function 0⟩], .function [0, 1, 0]]

theorem link_bodies_sample : readModule (writeModule (sampleFront ++
    [.code [[4, 0, 16, 0, 11], [8, 0, 16, 131, 128, 128, 128, 0, 11], [2, 0, 11]]])) =
      some (sampleFront ++
        [.code [[4, 0, 16, 0, 11], [8, 0, 16, 131, 128, 128, 128, 0, 11], [2, 0, 11]]]) := by
  obtain ⟨l, hl, -⟩ := Toolchain.layoutMemory_fractalLd
    (show sample.linked.Fits sample.Entry by decide +kernel).all
  obtain ⟨bodies, hbodies, hread⟩ := @link_bodies sample l
    ⟨by decide +kernel, by decide +kernel, by decide +kernel, hl⟩ compiled_sample (by decide)
  have hwritten : (match sample.linked.layout sample.Entry with
      | .ok l => (sample.linked.InputFunctions sample.Entry).mapM
          (sample.linked.functionBody sample.Entry l)
      | .error _ => none) =
        some [[4, 0, 16, 0, 11], [8, 0, 16, 131, 128, 128, 128, 0, 11], [2, 0, 11]] := by
    decide +kernel
  rw [show sample.linked.layout sample.Entry = .ok l from hl] at hwritten
  cases hbodies.symm.trans hwritten
  have hfront : ValidFrom none .zero sampleFront := by
    refine ⟨rfl, ?_, rfl, rfl, ?_, rfl, rfl, ?_, rfl, trivial⟩
    · exact List.forall_mem_cons.mpr ⟨⟨nofun, .inl rfl⟩,
        List.forall_mem_singleton.mpr ⟨by decide, .inl rfl⟩⟩
    · exact List.forall_mem_singleton.mpr ⟨by decide, by decide, show 0 < 2 by decide⟩
    · exact List.forall_mem_cons.mpr ⟨show 0 < 2 by decide, List.forall_mem_cons.mpr
        ⟨show 1 < 2 by decide, List.forall_mem_singleton.mpr (show 0 < 2 by decide)⟩⟩
  have hdeclares : sample.Declares (countsBehind .zero sampleFront) :=
    ⟨by decide +kernel, by decide +kernel, by decide +kernel⟩
  exact (hread _ [] hfront rfl hdeclares trivial (by decide +kernel)).trans
    (if_pos (show sample.DefinesEntry by decide +kernel))

end Command

end FractalCdt.Linker
