/-
# Function bodies

The post-pass decodes every function body up to its size: the local declarations, and
then one instruction after another, of which the last has to be an `end`.
`Body` is the syntax of what it decodes, and by `reads_body` every valid one is read.
-/

import FractalCdt.Toolchain.WasmBinary

namespace FractalCdt.Toolchain

open FractalCdt.Math

/-! ## Opcodes -/

/-- What the switch of `ReadFunctionBody` reads behind an opcode. -/
inductive Operand
  | bare
  | block
  | index
  | targets
  | function
  | signature
  | access
  | reserved
  | s32
  | s64
  | float (size : ℕ)
  deriving DecidableEq, Repr

/-- `Opcode::FromCode(code)`, where the reader goes on.  The opcodes of exceptions and of sign
extension are off, and those of the interpreter are in no file. -/
def operand? (code : Byte) : Option Operand :=
  -- `unreachable`, `nop`; `block`, `loop`, `if`; `else`
  if code ≤ 0x01 then some .bare
  else if code ≤ 0x04 then some .block
  else if code = 0x05 then some .bare
  -- `end`; `br`, `br_if`; `br_table`; `return`; `call`; `call_indirect`
  else if code = 0x0b then some .bare
  else if code = 0x0c ∨ code = 0x0d then some .index
  else if code = 0x0e then some .targets
  else if code = 0x0f then some .bare
  else if code = 0x10 then some .function
  else if code = 0x11 then some .signature
  -- `drop`, `select`; the locals and globals
  else if code = 0x1a ∨ code = 0x1b then some .bare
  else if 0x20 ≤ code ∧ code ≤ 0x24 then some .index
  -- loads and stores; `memory.size`, `memory.grow`; constants; arithmetic
  else if 0x28 ≤ code ∧ code ≤ 0x3e then some .access
  else if code = 0x3f ∨ code = 0x40 then some .reserved
  else if code = 0x41 then some .s32
  else if code = 0x42 then some .s64
  else if code = 0x43 then some (.float 4)
  else if code = 0x44 then some (.float 8)
  else if 0x45 ≤ code ∧ code ≤ 0xbf then some .bare
  else none

/-- `Opcode::IsPrefixByte`. -/
def isPrefixByte (byte : Byte) : Bool := byte == 0xfc || byte == 0xfd || byte == 0xfe

/-- `Opcode::FromCode(prefix, code)`, which asserts that the code is less than `0x100`, where the
reader goes on.  For `v128.load` and `v128.store` and for the atomic accesses it does not ask
whether they are on. -/
def prefixedOperand? (front : Byte) (code : ℕ) : Option Operand :=
  if front = 0xfd ∧ (code = 1 ∨ code = 2) then some .access
  else if front = 0xfe ∧ (code ≤ 2 ∨ 0x10 ≤ code ∧ code ≤ 0x4e) then some .access
  else none

/-- `IsBlockType`; several values are off. -/
def isBlockType (type : BitVec 32) : Bool := isConcreteType type || type == -0x40

/-! ## Reading -/

namespace BinaryReader

section Readers

variable (r : BinaryReader) (numTotalFuncs numSignatures : ℕ)

/-- A step that gives up on nothing. -/
def found {α : Type} (a? : Option α) : ReadM α :=
  match a? with
  | some a => return a
  | none => failure

/-- `ReadOpcode`: whether it is an `end`, and what is read behind it. -/
def readOpcode : ReadM (Bool × Operand) := do
  let value ← r.readU8
  if isPrefixByte value then
    let code ← r.readU32
    let operand ← found (prefixedOperand? value code.toNat)
    return (false, operand)
  else
    let operand ← found (operand? value)
    return (value == 0x0b, operand)

/-- A numeral that has to be zero. -/
def readReserved : ReadM Unit := do
  let reserved ← r.readU32
  errorUnless (reserved == 0)

/-- The cases of `ReadFunctionBody`. -/
def readOperand : Operand → ReadM Unit
  | .bare => return ()
  | .block => do
      let sigType ← r.readS32
      errorUnless (isBlockType sigType)
  | .index => do
      let _ ← r.readU32
  | .targets => do
      let numTargets ← r.readU32
      let _ ← repeated r.readU32 numTargets.toNat
      let _ ← r.readU32
  | .function => do
      let funcIndex ← r.readU32
      errorUnless (funcIndex.toNat < numTotalFuncs)
  | .signature => do
      let sigIndex ← r.readU32
      errorUnless (sigIndex.toNat < numSignatures)
      r.readReserved
  | .access => do
      let _ ← r.readU32
      let _ ← r.readU32
  | .reserved => r.readReserved
  | .s32 => do
      let _ ← r.readS32
  | .s64 => do
      let _ ← r.readS64
  | .float size => do
      let _ ← r.readT size

/-- The loop of `ReadFunctionBody`; every instruction takes at least a byte, which bounds the
number of rounds. -/
def readInstructions (endOffset : ℕ) : ℕ → Bool → ReadM Bool
  | 0, _ => failure
  | rounds + 1, seenEndOpcode => do
      let offset ← get
      if offset < endOffset then
        let (isEnd, operand) ← r.readOpcode
        r.readOperand numTotalFuncs numSignatures operand
        let offset ← get
        readInstructions endOffset rounds (seenEndOpcode || isEnd && offset == endOffset)
      else return seenEndOpcode

/-- `ReadFunctionBody`. -/
def readFunctionBody (endOffset : ℕ) : ReadM Unit := do
  let seenEndOpcode ← r.readInstructions numTotalFuncs numSignatures endOffset (endOffset + 1) false
  let offset ← get
  errorUnless (offset == endOffset)
  errorUnless seenEndOpcode

/-- The loop over the local declarations. -/
def readLocals : ℕ → ℕ → ReadM Unit
  | 0, _ => return ()
  | n + 1, totalLocals => do
      let numLocalTypes ← r.readU32
      errorUnless (0 < numLocalTypes)
      errorUnless (totalLocals + numLocalTypes.toNat < 2 ^ 32 - 1)
      let _ ← r.readConcrete
      readLocals n (totalLocals + numLocalTypes.toNat)

/-- The body of the loop of `ReadCodeSection`, with the bytes it has gone through. -/
def readBody : ReadM (List Byte) := do
  let offset ← get
  let bodySize ← r.readU32
  let bodyStart ← get
  let numLocalDecls ← r.readCount
  r.readLocals numLocalDecls 0
  r.readFunctionBody numTotalFuncs numSignatures (bodyStart + bodySize.toNat)
  return (r.window offset).take (bodyStart + bodySize.toNat - offset)

end Readers

end BinaryReader

/-! ## What is read -/

/-- The bytes are a numeral of 64 signed bits. -/
structure Signed64 (bytes : List Byte) : Prop where
  terminated : Terminated bytes
  length_le : bytes.length ≤ 10
  low : -2 ^ 63 ≤ slebValue bytes
  high : slebValue bytes < 2 ^ 63

/-- A part of an instruction behind its opcode. -/
inductive Field
  | index
  | count (n : ℕ)
  | function
  | signature
  | zero
  | block
  | s32
  | s64
  | float (size : ℕ)
  deriving DecidableEq, Repr

/-- The bytes that a field can have. -/
def Field.Takes (numTotalFuncs numSignatures : ℕ) : Field → List Byte → Prop
  | .index, bytes => ∃ n, Unsigned n bytes
  | .count n, bytes => Unsigned n bytes
  | .function, bytes => ∃ n < numTotalFuncs, Unsigned n bytes
  | .signature, bytes => ∃ n < numSignatures, Unsigned n bytes
  | .zero, bytes => Unsigned 0 bytes
  | .block, bytes => ∃ v, Numeral v bytes ∧ isBlockType v = true
  | .s32, bytes => ∃ v, Numeral v bytes
  | .s64, bytes => Signed64 bytes
  | .float size, bytes => bytes.length = size

/-- The fields behind an opcode. -/
inductive Operand.Fields : Operand → List Field → Prop
  | bare : Fields .bare []
  | block : Fields .block [.block]
  | index : Fields .index [.index]
  | targets (n : ℕ) : Fields .targets (.count n :: (List.replicate n .index ++ [.index]))
  | function : Fields .function [.function]
  | signature : Fields .signature [.signature, .zero]
  | access : Fields .access [.index, .index]
  | reserved : Fields .reserved [.zero]
  | s32 : Fields .s32 [.s32]
  | s64 : Fields .s64 [.s64]
  | float (size : ℕ) : Fields (.float size) [.float size]

/-- The bytes of an opcode. -/
inductive OpcodeBytes : List Byte → Operand → Prop
  | byte {code : Byte} {operand : Operand} (hcode : isPrefixByte code = false)
      (h : operand? code = some operand) : OpcodeBytes [code] operand
  | prefixed {front : Byte} {n : ℕ} {code : List Byte} {operand : Operand}
      (hfront : isPrefixByte front = true) (hcode : Unsigned n code)
      (h : prefixedOperand? front n = some operand) : OpcodeBytes (front :: code) operand

/-- An instruction: its opcode and its fields. -/
structure Instruction where
  opcode : List Byte
  fields : List (Field × List Byte)

namespace Instruction

variable (i : Instruction)

def bytes : List Byte := i.opcode ++ i.fields.flatMap Prod.snd

structure Valid (numTotalFuncs numSignatures : ℕ) : Prop where
  operand : ∃ operand, OpcodeBytes i.opcode operand ∧ operand.Fields (i.fields.map Prod.fst)
  takes : ∀ field ∈ i.fields, field.1.Takes numTotalFuncs numSignatures field.2

end Instruction

/-- Some locals of one type: the numerals of their number and of the type. -/
structure LocalDecl where
  count : List Byte
  type : List Byte

def LocalDecl.bytes (decl : LocalDecl) : List Byte := decl.count ++ decl.type

/-- There is a local, and it has one of the four number types. -/
structure LocalDecl.Valid (decl : LocalDecl) : Prop where
  count : ∃ n, 0 < n ∧ Unsigned n decl.count
  type : ∃ v, Numeral v decl.type ∧ isConcreteType v = true

/-- A function body, up to the `end` behind its instructions. -/
structure Body where
  size : List Byte
  numLocalDecls : List Byte
  locals : List LocalDecl
  instructions : List Instruction

namespace Body

variable (b : Body)

/-- What the size counts. -/
def content : List Byte :=
  b.numLocalDecls ++ (b.locals.flatMap LocalDecl.bytes ++
    (b.instructions.flatMap Instruction.bytes ++ [0x0b]))

def bytes : List Byte := b.size ++ b.content

/-- The size is that of the rest, and the locals can be counted. -/
structure Framed : Prop where
  size : Unsigned b.content.length b.size
  numLocalDecls : Unsigned b.locals.length b.numLocalDecls
  locals : ∀ decl ∈ b.locals, decl.Valid
  totalLocals : (b.locals.map fun decl => groupsValue decl.count).sum < 2 ^ 32 - 1

structure Valid (numTotalFuncs numSignatures : ℕ) : Prop extends b.Framed where
  instructions : ∀ i ∈ b.instructions, i.Valid numTotalFuncs numSignatures

end Body

section Reads

variable {r : BinaryReader} {numTotalFuncs numSignatures n : ℕ} {bytes : List Byte}

/-- The tenth byte of a numeral is a sign. -/
theorem topBitsWide_of_range {b : Byte} (h : b.toNat < 128) (hlow : -1 ≤ slebValue [b])
    (hhigh : slebValue [b] ≤ 0) :
    ¬ ((b &&& 0x1 ≠ 0 ∧ b &&& 0xfe ≠ 0x7e) ∨ (¬ b &&& 0x1 ≠ 0 ∧ b &&& 0xfe ≠ 0)) := by
  revert b
  decide

/-- A numeral of 64 signed bits is read, whatever follows it. -/
theorem exists_readS64Leb128 (h : Signed64 bytes) (rest : List Byte) :
    ∃ value, readS64Leb128 (bytes ++ rest) = some (value, bytes.length) := by
  have hends := fun i hi => @ends_append bytes h.terminated rest i hi
  obtain ⟨bs, b, rfl⟩ : ∃ bs b, bytes = bs ++ [b] :=
    ⟨_, _, (List.dropLast_append_getLast h.terminated.ne_nil).symm⟩
  have hlength := h.length_le
  rw [List.length_append, List.length_singleton] at hlength hends ⊢
  have hfind : (List.range 10).find? (ends (bs ++ [b] ++ rest)) = some bs.length := by
    rw [List.find?_range_eq_some, List.mem_range]
    refine ⟨?_, by omega, fun i hi => ?_⟩
    · rw [hends bs.length (by omega), decide_eq_true_iff]
    · rw [hends i (by omega), Bool.not_eq_true', decide_eq_false_iff_not]
      omega
  rw [readS64Leb128, hfind]
  dsimp only
  split
  case isTrue => exact ⟨_, rfl⟩
  case isFalse hlong =>
    have hnine : bs.length = 9 := by omega
    have hget : (bs ++ [b] ++ rest).getD 9 0 = b := by
      rw [← hnine]
      simp [List.getD_eq_getElem?_getD]
    have hsplit := slebValue_append_singleton bs b
    have hgroups : (groupsValue bs : ℤ) < 128 ^ bs.length := by
      exact_mod_cast groupsValue_lt bs
    rw [hnine] at hsplit hgroups
    have hlow := h.low
    have hhigh := h.high
    rw [hsplit] at hlow hhigh
    rw [hget, if_neg (topBitsWide_of_range h.terminated.last (by omega) (by omega)), hnine]
    exact ⟨_, rfl⟩

theorem reads_s64 (h : Signed64 bytes) :
    Reads (view r) (do
      let _ ← r.readS64) bytes () := by
  intro offset rest hwindow
  obtain ⟨value, hread⟩ := exists_readS64Leb128 h rest
  have hrun : r.readS64.run offset = some (value, offset + bytes.length) := by
    show r.readS64 offset = _
    rw [BinaryReader.readS64, show r.window offset = bytes ++ rest from hwindow, hread]
    rfl
  rw [BinaryReader.run_bind_of_some hrun]
  rfl

theorem exists_reads_float (h : bytes.length = n) :
    ∃ value, Reads (view r) (r.readT n) bytes value := by
  refine ⟨ofLeBytes bytes, fun offset rest hwindow => ?_⟩
  have hwindow : r.window offset = bytes ++ rest := hwindow
  have hroom : n ≤ (bytes ++ rest).length := by
    rw [List.length_append, h]
    exact Nat.le_add_right n _
  show r.readT n offset = _
  rw [BinaryReader.readT, hwindow, if_pos hroom, List.take_left' h, h]

theorem reads_reserved (h : Unsigned 0 bytes) :
    Reads (view r) r.readReserved bytes () := by
  unfold BinaryReader.readReserved
  exact (reads_unsigned h).ending (reads_errorUnless (by decide))

theorem toNat_lt_of_unsigned {bound : ℕ} (h : Unsigned n bytes) (hn : n < bound) :
    decide ((BitVec.ofNat 32 n).toNat < bound) = true := by
  rw [toNat_ofNat h.lt]
  exact decide_eq_true hn

/-- The targets of a `br_table`, and the one that is the default. -/
theorem reads_targets {fields : List (Field × List Byte)}
    (hfields : fields.map Prod.fst = .count n :: (List.replicate n .index ++ [.index]))
    (htakes : ∀ field ∈ fields, field.1.Takes numTotalFuncs numSignatures field.2) :
    Reads (view r) (r.readOperand numTotalFuncs numSignatures .targets)
      (fields.flatMap Prod.snd) () := by
  obtain ⟨⟨_, count⟩, more, rfl, rfl, hmore⟩ := List.map_eq_cons_iff.mp hfields
  obtain ⟨targets, defaults, rfl, htargets, hdefault⟩ := List.map_eq_append_iff.mp hmore
  obtain ⟨⟨_, default⟩, rfl, rfl⟩ := List.map_eq_singleton_iff.mp hdefault
  have hlength : targets.length = n := by
    rw [← List.length_map Prod.fst, htargets, List.length_replicate]
  have hindex : ∀ target ∈ targets,
      Reads (view r) r.readU32 target.2 (BitVec.ofNat 32 (groupsValue target.2)) := by
    intro target htarget
    have hkind : target.1 = .index :=
      List.eq_of_mem_replicate (htargets ▸ List.mem_map_of_mem htarget)
    have htake := htakes target (by simp [htarget])
    rw [hkind] at htake
    obtain ⟨m, hm⟩ := htake
    have hread := @reads_unsigned r _ _ hm
    rwa [← hm.value_eq] at hread
  have hcount : Unsigned n count := htakes (.count n, count) (by simp)
  obtain ⟨m, hm⟩ : ∃ m, Unsigned m default := htakes (.index, default) (by simp)
  rw [List.flatMap_cons, List.flatMap_append, List.flatMap_singleton]
  refine (reads_unsigned hcount).bind ?_
  rw [toNat_ofNat hcount.lt, ← hlength]
  exact (Reads.repeated hindex).bind ((reads_unsigned hm).ending (Reads.pure ()))

/-- A field that is alone. -/
theorem exists_field {fields : List (Field × List Byte)} {kind : Field}
    (h : fields.map Prod.fst = [kind])
    (htakes : ∀ field ∈ fields, field.1.Takes numTotalFuncs numSignatures field.2) :
    ∃ bytes, fields.flatMap Prod.snd = bytes ∧ kind.Takes numTotalFuncs numSignatures bytes := by
  obtain ⟨⟨_, bytes⟩, rfl, rfl⟩ := List.map_eq_singleton_iff.mp h
  exact ⟨bytes, List.flatMap_singleton _ _, htakes _ (List.mem_singleton_self _)⟩

/-- Two fields. -/
theorem exists_fields {fields : List (Field × List Byte)} {first second : Field}
    (h : fields.map Prod.fst = [first, second])
    (htakes : ∀ field ∈ fields, field.1.Takes numTotalFuncs numSignatures field.2) :
    ∃ a b, fields.flatMap Prod.snd = a ++ b ∧ first.Takes numTotalFuncs numSignatures a ∧
      second.Takes numTotalFuncs numSignatures b := by
  obtain ⟨⟨_, a⟩, more, rfl, rfl, hmore⟩ := List.map_eq_cons_iff.mp h
  obtain ⟨b, hb, hsecond⟩ :=
    exists_field hmore fun field hfield => htakes field (List.mem_cons_of_mem _ hfield)
  exact ⟨a, b, by rw [List.flatMap_cons, hb], htakes _ List.mem_cons_self, hsecond⟩

/-- The fields of an instruction are read. -/
theorem reads_operand {operand : Operand} {fields : List (Field × List Byte)}
    (h : operand.Fields (fields.map Prod.fst))
    (htakes : ∀ field ∈ fields, field.1.Takes numTotalFuncs numSignatures field.2) :
    Reads (view r) (r.readOperand numTotalFuncs numSignatures operand)
      (fields.flatMap Prod.snd) () := by
  generalize hkinds : fields.map Prod.fst = kinds at h
  cases h with
  | bare =>
      obtain rfl := List.map_eq_nil_iff.mp hkinds
      exact Reads.pure ()
  | block =>
      obtain ⟨bytes, hbytes, v, hv, hblock⟩ := exists_field hkinds htakes
      rw [hbytes]
      exact (reads_signed hv).ending (reads_errorUnless hblock)
  | index =>
      obtain ⟨bytes, hbytes, n, hn⟩ := exists_field hkinds htakes
      rw [hbytes]
      exact (reads_unsigned hn).ending (Reads.pure ())
  | targets n => exact reads_targets hkinds htakes
  | function =>
      obtain ⟨bytes, hbytes, n, hlt, hn⟩ := exists_field hkinds htakes
      rw [hbytes]
      exact (reads_unsigned hn).ending (reads_errorUnless (toNat_lt_of_unsigned hn hlt))
  | signature =>
      obtain ⟨sigIndex, reserved, hbytes, ⟨n, hlt, hn⟩, hzero⟩ := exists_fields hkinds htakes
      rw [hbytes]
      exact (reads_unsigned hn).bind
        ((reads_errorUnless (toNat_lt_of_unsigned hn hlt)).check (reads_reserved hzero))
  | access =>
      obtain ⟨alignment, offset, hbytes, ⟨n, hn⟩, m, hm⟩ := exists_fields hkinds htakes
      rw [hbytes]
      exact (reads_unsigned hn).bind ((reads_unsigned hm).ending (Reads.pure ()))
  | reserved =>
      obtain ⟨bytes, hbytes, hzero⟩ := exists_field hkinds htakes
      rw [hbytes]
      exact reads_reserved hzero
  | s32 =>
      obtain ⟨bytes, hbytes, v, hv⟩ := exists_field hkinds htakes
      rw [hbytes]
      exact (reads_signed hv).ending (Reads.pure ())
  | s64 =>
      obtain ⟨bytes, hbytes, hs64⟩ := exists_field hkinds htakes
      rw [hbytes]
      exact reads_s64 hs64
  | float size =>
      obtain ⟨bytes, hbytes, hfloat⟩ := exists_field hkinds htakes
      obtain ⟨value, hread⟩ := @exists_reads_float r _ _ hfloat
      rw [hbytes]
      exact hread.ending (Reads.pure ())

theorem exists_reads_opcode {opcode : List Byte} {operand : Operand}
    (h : OpcodeBytes opcode operand) :
    ∃ isEnd, Reads (view r) r.readOpcode opcode (isEnd, operand) := by
  cases h with
  | @byte code _ hcode h =>
      refine ⟨code == 0x0b, ?_⟩
      unfold BinaryReader.readOpcode
      refine (reads_u8 _).ending ?_
      rw [hcode, h]
      exact Reads.pure _
  | prefixed hfront hcode h =>
      refine ⟨false, ?_⟩
      unfold BinaryReader.readOpcode
      refine (reads_u8 _).bind ?_
      rw [hfront]
      refine (reads_unsigned hcode).ending ?_
      rw [toNat_ofNat hcode.lt, h]
      exact Reads.pure _

theorem OpcodeBytes.ne_nil {opcode : List Byte} {operand : Operand}
    (h : OpcodeBytes opcode operand) : opcode ≠ [] := by
  cases h <;> exact List.cons_ne_nil _ _

theorem Instruction.Valid.ne_nil {i : Instruction} (h : i.Valid numTotalFuncs numSignatures) :
    i.bytes ≠ [] := by
  obtain ⟨operand, hopcode, -⟩ := h.operand
  exact List.append_ne_nil_of_left_ne_nil hopcode.ne_nil _

/-- The loop goes through the instructions and stops behind the `end`. -/
theorem run_readInstructions {instructions : List Instruction} {rounds offset endOffset : ℕ}
    {rest : List Byte} {seenEndOpcode : Bool}
    (h : ∀ i ∈ instructions, i.Valid numTotalFuncs numSignatures)
    (hwindow : r.window offset = instructions.flatMap Instruction.bytes ++ ([0x0b] ++ rest))
    (hend : endOffset = offset + (instructions.flatMap Instruction.bytes).length + 1)
    (hrounds : instructions.length + 1 < rounds) :
    (r.readInstructions numTotalFuncs numSignatures endOffset rounds seenEndOpcode).run offset =
      some (true, endOffset) := by
  obtain ⟨rounds, rfl⟩ : ∃ n, rounds = n + 1 := ⟨rounds - 1, by omega⟩
  induction instructions generalizing rounds offset seenEndOpcode with
  | nil =>
      have hopcode : r.readOpcode.run offset = some ((true, .bare), offset + 1) := by
        have hread : Reads (view r) r.readOpcode [0x0b] (true, .bare) :=
          (reads_u8 0x0b).ending (Reads.pure _)
        exact hread offset rest hwindow
      obtain rfl : endOffset = offset + 1 := hend
      obtain ⟨rounds, rfl⟩ : ∃ n, rounds = n + 1 := ⟨rounds - 1, by omega⟩
      rw [BinaryReader.readInstructions, BinaryReader.run_bind_of_some (run_get _),
        if_pos (Nat.lt_succ_self offset), BinaryReader.run_bind_of_some hopcode]
      show (r.readInstructions _ _ _ _ _).run (offset + 1) = _
      rw [BinaryReader.readInstructions, BinaryReader.run_bind_of_some (run_get _),
        if_neg (lt_irrefl _)]
      simp
  | cons i instructions ih =>
      obtain ⟨operand, hopcode, hfields⟩ := (h i List.mem_cons_self).operand
      obtain ⟨isEnd, hread⟩ := @exists_reads_opcode r _ _ hopcode
      have hpos := List.length_pos_iff.mpr hopcode.ne_nil
      rw [List.flatMap_cons, List.append_assoc, Instruction.bytes, List.append_assoc] at hwindow
      rw [List.flatMap_cons, List.length_append, Instruction.bytes, List.length_append] at hend
      have hoperand := reads_operand hfields (h i List.mem_cons_self).takes _ _
        (Reads.left_eq hwindow)
      have hwindow' : r.window (offset + i.opcode.length + (i.fields.flatMap Prod.snd).length) =
          instructions.flatMap Instruction.bytes ++ ([0x0b] ++ rest) :=
        Reads.left_eq (v := view r) (Reads.left_eq hwindow)
      rw [List.length_cons] at hrounds
      obtain ⟨rounds, rfl⟩ : ∃ n, rounds = n + 1 := ⟨rounds - 1, by omega⟩
      rw [BinaryReader.readInstructions, BinaryReader.run_bind_of_some (run_get _),
        if_pos (by omega), BinaryReader.run_bind_of_some (hread _ _ hwindow)]
      dsimp only
      rw [BinaryReader.run_bind_of_some hoperand, BinaryReader.run_bind_of_some (run_get _)]
      exact ih (fun i' hi' => h i' (List.mem_cons_of_mem i hi')) hwindow' (by omega) rounds
        (by omega)

theorem run_readFunctionBody {instructions : List Instruction} {offset endOffset : ℕ}
    {rest : List Byte} (h : ∀ i ∈ instructions, i.Valid numTotalFuncs numSignatures)
    (hwindow : r.window offset = instructions.flatMap Instruction.bytes ++ ([0x0b] ++ rest))
    (hend : endOffset = offset + (instructions.flatMap Instruction.bytes).length + 1) :
    (r.readFunctionBody numTotalFuncs numSignatures endOffset).run offset =
      some ((), endOffset) := by
  have hrounds := length_le_flatMap fun i hi => (h i hi).ne_nil
  rw [BinaryReader.readFunctionBody,
    BinaryReader.run_bind_of_some (run_readInstructions h hwindow hend (by omega)),
    BinaryReader.run_bind_of_some (run_get _), BinaryReader.run_errorUnless (beq_self_eq_true _)]
  rfl

/-- The local declarations are read, as many as they are. -/
theorem reads_locals {locals : List LocalDecl} {totalLocals : ℕ}
    (h : ∀ decl ∈ locals, decl.Valid)
    (htotal : totalLocals + (locals.map fun decl => groupsValue decl.count).sum < 2 ^ 32 - 1) :
    Reads (view r) (r.readLocals locals.length totalLocals)
      (locals.flatMap LocalDecl.bytes) () := by
  induction locals generalizing totalLocals with
  | nil => exact Reads.pure ()
  | cons decl locals ih =>
      obtain ⟨⟨n, hpos, hcount⟩, v, htype, hconcrete⟩ := h decl List.mem_cons_self
      rw [List.map_cons, List.sum_cons, hcount.value_eq] at htotal
      have hn : (BitVec.ofNat 32 n).toNat = n := toNat_ofNat hcount.lt
      have hsome : decide (0 < BitVec.ofNat 32 n) = true := by
        rw [decide_eq_true_iff, BitVec.lt_def, hn]
        exact hpos
      have hmore : decide (totalLocals + (BitVec.ofNat 32 n).toNat < 2 ^ 32 - 1) = true := by
        rw [decide_eq_true_iff, hn]
        omega
      have hrest := @ih (totalLocals + (BitVec.ofNat 32 n).toNat)
        (fun decl' hdecl => h decl' (List.mem_cons_of_mem decl hdecl)) (by rw [hn]; omega)
      rw [List.flatMap_cons, LocalDecl.bytes, List.append_assoc]
      exact (reads_unsigned hcount).bind ((reads_errorUnless hsome).check
        ((reads_errorUnless hmore).check ((reads_type htype hconcrete).bind hrest)))

theorem LocalDecl.Valid.bytes_ne_nil {decl : LocalDecl} (h : decl.Valid) : decl.bytes ≠ [] := by
  obtain ⟨n, -, hcount⟩ := h.count
  exact List.append_ne_nil_of_left_ne_nil hcount.terminated.ne_nil _

/-- A function body is read, wherever it stands. -/
theorem reads_body {b : Body} (h : b.Valid numTotalFuncs numSignatures) :
    Reads (view r) (r.readBody numTotalFuncs numSignatures) b.bytes b.bytes := by
  intro offset rest hwindow
  have hwhole : r.window offset = b.bytes ++ rest := hwindow
  have hcontent : r.window offset = b.size ++ (b.content ++ rest) := by
    rw [hwhole, Body.bytes, List.append_assoc]
  have hlocals : r.window (offset + b.size.length) = b.numLocalDecls ++
      (b.locals.flatMap LocalDecl.bytes ++
        (b.instructions.flatMap Instruction.bytes ++ ([0x0b] ++ rest))) := by
    rw [BinaryReader.window_add hcontent, Body.content]
    simp only [List.append_assoc]
  have hdecls : r.window (offset + b.size.length + b.numLocalDecls.length) =
      b.locals.flatMap LocalDecl.bytes ++
        (b.instructions.flatMap Instruction.bytes ++ ([0x0b] ++ rest)) :=
    BinaryReader.window_add hlocals
  have hroom : b.locals.length ≤ (b.locals.flatMap LocalDecl.bytes ++
      (b.instructions.flatMap Instruction.bytes ++ ([0x0b] ++ rest))).length := by
    have hdecls := length_le_flatMap fun decl hdecl => (h.locals decl hdecl).bytes_ne_nil
    rw [List.length_append]
    omega
  have hend : offset + b.size.length + b.content.length = offset + b.size.length +
      b.numLocalDecls.length + (b.locals.flatMap LocalDecl.bytes).length +
        (b.instructions.flatMap Instruction.bytes).length + 1 := by
    simp only [Body.content, List.length_append, List.length_singleton]
    omega
  have hbody := run_readFunctionBody h.instructions (BinaryReader.window_add hdecls) hend
  have hlength : offset + b.size.length + b.content.length - offset = b.bytes.length := by
    rw [Body.bytes, List.length_append]
    omega
  rw [BinaryReader.readBody, BinaryReader.run_bind_of_some (run_get _),
    BinaryReader.run_bind_of_some (reads_unsigned h.size offset _ hcontent),
    BinaryReader.run_bind_of_some (run_get _),
    BinaryReader.run_bind_of_some (run_readCount h.numLocalDecls hlocals hroom),
    BinaryReader.run_bind_of_some
      (reads_locals h.locals (by rw [Nat.zero_add]; exact h.totalLocals) _ _ hdecls),
    toNat_ofNat h.size.lt, BinaryReader.run_bind_of_some hbody, hlength, hwhole,
    List.take_left' rfl, Nat.add_assoc, Body.bytes, List.length_append]
  rfl

end Reads

end FractalCdt.Toolchain
