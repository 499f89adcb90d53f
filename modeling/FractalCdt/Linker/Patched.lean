/-
# Function bodies with relocations

For each relocation the compiler leaves a numeral of five bytes in a function, and the
linker writes the value over it.  An instruction stays an instruction then, with another
field in the place of the old one.  So what is a function body but for the functions and
types it names is one in the output.
-/

import FractalCdt.Linker.Format
import FractalCdt.Linker.Relocations

namespace FractalCdt.Linker

open FractalCdt.Math FractalCdt.Toolchain

/-! ## Bodies in an object -/

/-- The field of an instruction that a relocation fills in. -/
def RelocType.field? : RelocType → Option Field
  | .FUNCTION_INDEX_LEB => some .function
  | .TYPE_INDEX_LEB => some .signature
  | .GLOBAL_INDEX_LEB | .MEMORY_ADDR_LEB => some .index
  | .TABLE_INDEX_SLEB | .MEMORY_ADDR_SLEB => some .s32
  | .TABLE_INDEX_I32 | .MEMORY_ADDR_I32 => none

namespace InputChunk

variable (C : InputChunk)

/-- No relocation is written over a part. -/
def Leaves (e : Extent) : Prop := ∀ Reloc ∈ C.Relocations, (C.field Reloc).Apart e

/-- A field at an offset.  A relocation fills it in, or it stays; what stays names no function
and no type. -/
inductive FieldAt (offset : ℕ) : Field × List Byte → Prop
  | filled {Reloc : WasmRelocation} {kind : Field} {bytes : List Byte}
      (hReloc : Reloc ∈ C.Relocations) (hfield : C.field Reloc = ⟨offset, bytes.length⟩)
      (hkind : Reloc.type.field? = some kind) : FieldAt offset (kind, bytes)
  | left {kind : Field} {bytes : List Byte} (hleaves : C.Leaves ⟨offset, bytes.length⟩)
      (htakes : kind.Takes 0 0 bytes) : FieldAt offset (kind, bytes)

inductive FieldsAt : ℕ → List (Field × List Byte) → Prop
  | nil {offset : ℕ} : FieldsAt offset []
  | cons {offset : ℕ} {field : Field × List Byte} {fields : List (Field × List Byte)}
      (hfield : C.FieldAt offset field) (hfields : FieldsAt (offset + field.2.length) fields) :
      FieldsAt offset (field :: fields)

/-- An instruction at an offset; its opcode stays. -/
structure InstructionAt (offset : ℕ) (i : Instruction) : Prop where
  operand : ∃ operand, OpcodeBytes i.opcode operand ∧ operand.Fields (i.fields.map Prod.fst)
  opcode : C.Leaves ⟨offset, i.opcode.length⟩
  fields : C.FieldsAt (offset + i.opcode.length) i.fields

inductive InstructionsAt : ℕ → List Instruction → Prop
  | nil {offset : ℕ} : InstructionsAt offset []
  | cons {offset : ℕ} {i : Instruction} {instructions : List Instruction}
      (hi : C.InstructionAt offset i)
      (hinstructions : InstructionsAt (offset + i.bytes.length) instructions) :
      InstructionsAt offset (i :: instructions)

end InputChunk

/-- What stands before the instructions. -/
def bodyHeader (b : Body) : List Byte :=
  b.size ++ (b.numLocalDecls ++ b.locals.flatMap LocalDecl.bytes)

/-- The chunk is a function body, but for the functions and types it names. -/
structure InputChunk.IsBody (C : InputChunk) (b : Body) : Prop extends b.Framed where
  data : C.data = b.bytes
  header : C.Leaves ⟨0, (bodyHeader b).length⟩
  instructions : C.InstructionsAt (bodyHeader b).length b.instructions
  last : C.Leaves ⟨(bodyHeader b).length + (b.instructions.flatMap Instruction.bytes).length, 1⟩

theorem bytes_eq_header (b : Body) : b.bytes =
    bodyHeader b ++ (b.instructions.flatMap Instruction.bytes ++ [0x0b]) := by
  simp only [Body.bytes, Body.content, bodyHeader, List.append_assoc]

/-! ## Filling in -/

section Filled

variable {t : SymbolTable} {Entry : String} {l : Toolchain.Layout} {File : ParsedFile}
  {C : InputChunk} {bytes : List Byte} {Reloc : WasmRelocation} {v : BitVec 32}

theorem lt_of_means_function (h : t.Means Entry l File Reloc v)
    (htype : Reloc.type = .FUNCTION_INDEX_LEB) : v.toNat < (t.functions Entry).length := by
  cases h with
  | function Sym r i _ _ _ hi =>
      have hlt := (List.getElem?_eq_some_iff.mp hi).1
      rw [BitVec.toNat_ofNat]
      exact (Nat.mod_le i _).trans_lt hlt
  | signature | global => simp_all
  | null | address | data | own | missing => simp_all [RelocType.isTable, RelocType.isMemory]

theorem lt_of_means_type (h : t.Means Entry l File Reloc v)
    (htype : Reloc.type = .TYPE_INDEX_LEB) : v.toNat < (t.Types Entry).keys.length := by
  cases h with
  | signature Sig j _ _ hj =>
      have hlt := (List.getElem?_eq_some_iff.mp hj).1
      rw [BitVec.toNat_ofNat]
      exact (Nat.mod_le j _).trans_lt hlt
  | function | global => simp_all
  | null | address | data | own | missing => simp_all [RelocType.isTable, RelocType.isMemory]

/-- What is written for a relocation is a field of its kind. -/
theorem takes_encode (h : t.Means Entry l File Reloc v) {kind : Field}
    (hkind : Reloc.type.field? = some kind) :
    kind.Takes (t.functions Entry).length (t.Types Entry).keys.length (Reloc.type.encode v) := by
  cases htype : Reloc.type with
  | FUNCTION_INDEX_LEB =>
      rw [htype] at hkind
      cases hkind
      exact ⟨_, lt_of_means_function h htype, unsigned_encodeULEB128 v⟩
  | TYPE_INDEX_LEB =>
      rw [htype] at hkind
      cases hkind
      exact ⟨_, lt_of_means_type h htype, unsigned_encodeULEB128 v⟩
  | GLOBAL_INDEX_LEB | MEMORY_ADDR_LEB =>
      rw [htype] at hkind
      cases hkind
      exact ⟨_, unsigned_encodeULEB128 v⟩
  | TABLE_INDEX_SLEB | MEMORY_ADDR_SLEB =>
      rw [htype] at hkind
      cases hkind
      exact ⟨v, numeral_encodeSLEB128 v⟩
  | TABLE_INDEX_I32 | MEMORY_ADDR_I32 =>
      rw [htype] at hkind
      cases hkind

/-- A field that names no function and no type can stand anywhere. -/
theorem takes_of_none {kind : Field} {field : List Byte} (h : kind.Takes 0 0 field)
    (numTotalFuncs numSignatures : ℕ) : kind.Takes numTotalFuncs numSignatures field := by
  cases kind with
  | function | signature =>
      obtain ⟨n, hn, -⟩ := h
      exact absurd hn (Nat.not_lt_zero n)
  | index | count | zero | block | s32 | s64 | float => exact h

/-- A part that no relocation is written over stands in the output. -/
theorem standsAt_of_leaves (h : Relocated t Entry l File C bytes) {offset : ℕ} {part : List Byte}
    (hpart : StandsAt C.data offset part) (hleaves : C.Leaves ⟨offset, part.length⟩) :
    StandsAt bytes offset part := (h.frame _ hleaves).trans hpart

theorem exists_field_filled (h : Relocated t Entry l File C bytes) {offset : ℕ}
    {field : Field × List Byte} (hfield : C.FieldAt offset field)
    (hpart : StandsAt C.data offset field.2) :
    ∃ new : List Byte, new.length = field.2.length ∧ StandsAt bytes offset new ∧
      field.1.Takes (t.functions Entry).length (t.Types Entry).keys.length new := by
  cases hfield with
  | @filled Reloc kind old hReloc hfield hkind =>
      obtain ⟨v, hmeans, hwindow, -⟩ := h.values Reloc hReloc
      have hlength : (Reloc.type.encode v).length = old.length :=
        (Reloc.type.length_encode v).trans (congrArg Extent.len hfield)
      rw [hfield, ← hlength] at hwindow
      exact ⟨_, hlength, hwindow, takes_encode hmeans hkind⟩
  | left hleaves htakes =>
      exact ⟨_, rfl, standsAt_of_leaves h hpart hleaves, takes_of_none htakes _ _⟩

/-- The fields of an instruction of the output are of the same kinds, at the same places. -/
theorem exists_fields_filled (h : Relocated t Entry l File C bytes) {offset : ℕ}
    {fields : List (Field × List Byte)} (hfields : C.FieldsAt offset fields)
    (hpart : StandsAt C.data offset (fields.flatMap Prod.snd)) :
    ∃ filled : List (Field × List Byte), filled.map Prod.fst = fields.map Prod.fst ∧
      (filled.flatMap Prod.snd).length = (fields.flatMap Prod.snd).length ∧
      StandsAt bytes offset (filled.flatMap Prod.snd) ∧
      ∀ field ∈ filled,
        field.1.Takes (t.functions Entry).length (t.Types Entry).keys.length field.2 := by
  induction hfields with
  | nil => exact ⟨[], rfl, rfl, hpart, nofun⟩
  | @cons offset field fields hfield hfields ih =>
      rw [List.flatMap_cons, standsAt_append] at hpart
      obtain ⟨new, hlength, hstands, htakes⟩ := exists_field_filled h hfield hpart.1
      obtain ⟨filled, hkinds, hlengths, hstands', htakes'⟩ := ih hpart.2
      refine ⟨(field.1, new) :: filled, by rw [List.map_cons, hkinds, List.map_cons], ?_, ?_,
        List.forall_mem_cons.mpr ⟨htakes, htakes'⟩⟩
      · rw [List.flatMap_cons, List.flatMap_cons, List.length_append, List.length_append, hlength,
          hlengths]
      · rw [List.flatMap_cons, standsAt_append, hlength]
        exact ⟨hstands, hstands'⟩

/-- So are its instructions. -/
theorem exists_instructions_filled (h : Relocated t Entry l File C bytes) {offset : ℕ}
    {instructions : List Instruction} (hinstructions : C.InstructionsAt offset instructions)
    (hpart : StandsAt C.data offset (instructions.flatMap Instruction.bytes)) :
    ∃ filled : List Instruction, (filled.flatMap Instruction.bytes).length =
        (instructions.flatMap Instruction.bytes).length ∧
      StandsAt bytes offset (filled.flatMap Instruction.bytes) ∧
      ∀ i ∈ filled, i.Valid (t.functions Entry).length (t.Types Entry).keys.length := by
  induction hinstructions with
  | nil => exact ⟨[], rfl, hpart, nofun⟩
  | @cons offset i instructions hi hinstructions ih =>
      rw [List.flatMap_cons, standsAt_append] at hpart
      have hbytes := standsAt_append.mp hpart.1
      obtain ⟨fields, hkinds, hlength, hfields, htakes⟩ := exists_fields_filled h hi.fields hbytes.2
      obtain ⟨filled, hlengths, hfilled, hvalid⟩ := ih hpart.2
      have hsame : (Instruction.mk i.opcode fields).bytes.length = i.bytes.length := by
        rw [Instruction.bytes, Instruction.bytes, List.length_append, List.length_append, hlength]
      refine ⟨⟨i.opcode, fields⟩ :: filled, ?_, ?_, List.forall_mem_cons.mpr ⟨⟨?_, htakes⟩, hvalid⟩⟩
      · rw [List.flatMap_cons, List.flatMap_cons, List.length_append, List.length_append, hsame,
          hlengths]
      · rw [List.flatMap_cons, standsAt_append, hsame]
        exact ⟨standsAt_append.mpr
          ⟨standsAt_of_leaves h hbytes.1 hi.opcode, hfields⟩, hfilled⟩
      · rw [hkinds]
        exact hi.operand

/-- A function of an object that is a body but for the functions and types it names is one in
the output. -/
theorem validBody_of_relocated (h : Relocated t Entry l File C bytes) {b : Body}
    (hbody : C.IsBody b) :
    ValidBody (t.functions Entry).length (t.Types Entry).keys.length bytes := by
  have hwhole : StandsAt C.data 0 (bodyHeader b ++
      (b.instructions.flatMap Instruction.bytes ++ [0x0b])) := by
    rw [← bytes_eq_header, ← hbody.data]
    exact standsAt_self
  obtain ⟨hheader, hrest⟩ := standsAt_append.mp hwhole
  obtain ⟨hinstructions, hlast⟩ := standsAt_append.mp hrest
  rw [Nat.zero_add] at hinstructions hlast
  obtain ⟨filled, hlength, hfilled, hvalid⟩ :=
    exists_instructions_filled h hbody.instructions hinstructions
  -- the body of the output
  obtain ⟨b', hb'⟩ : ∃ b', b' = Body.mk b.size b.numLocalDecls b.locals filled := ⟨_, rfl⟩
  have hsame : bodyHeader b' = bodyHeader b := by rw [hb']; rfl
  have hbytes : b'.bytes = bodyHeader b ++ (filled.flatMap Instruction.bytes ++ [0x0b]) := by
    rw [bytes_eq_header, hsame, hb']
  have hcontent : b'.content.length = b.content.length := by
    rw [hb']
    simp only [Body.content, List.length_append, hlength]
  have hlengths : b'.bytes.length = bytes.length := by
    rw [h.length, hbody.data, hbytes, bytes_eq_header]
    simp only [List.length_append, hlength]
  have hstands : StandsAt bytes 0 b'.bytes := by
    rw [hbytes, standsAt_append, standsAt_append, Nat.zero_add, hlength]
    exact ⟨standsAt_of_leaves h hheader hbody.header, hfilled,
      standsAt_of_leaves h hlast hbody.last⟩
  refine ⟨b', ⟨⟨?_, ?_, ?_, ?_⟩, ?_⟩, hstands.eq hlengths⟩
  · rw [hcontent, hb']
    exact hbody.size
  · rw [hb']
    exact hbody.numLocalDecls
  · rw [hb']
    exact hbody.locals
  · rw [hb']
    exact hbody.totalLocals
  · rw [hb']
    exact hvalid

end Filled

end FractalCdt.Linker
