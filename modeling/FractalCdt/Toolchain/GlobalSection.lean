/-
# The global section

The linker writes the globals of a contract one after another; the post-pass parses them
and keeps, for each, the expressions of its initialiser with the offset at which the
reader stood when it had read them.  `run_readGlobalSection` says which offset that is
for what the linker has written: the one behind the literal.
-/

import FractalCdt.Toolchain.WasmBinary

namespace FractalCdt.Toolchain

open FractalCdt.Math

/-! ## Writing -/

structure WasmGlobalType where
  type : Byte
  Mutable : Bool
  deriving DecidableEq, Repr

/-- A global, with an `i32.const` as its initialiser. -/
structure WasmGlobal where
  GlobalType : WasmGlobalType
  Int32 : BitVec 32
  deriving DecidableEq, Repr

/-- `wasm::writeGlobalType`. -/
def writeGlobalType (type : WasmGlobalType) : List Byte :=
  [type.type, if type.Mutable then 1 else 0]

/-- `wasm::writeInitExpr` for `WASM_OPCODE_I32_CONST`. -/
def writeInitExpr (Int32 : BitVec 32) : List Byte := 0x41 :: writeSleb128 Int32 ++ [0x0b]

/-- `wasm::writeGlobal`. -/
def writeGlobal (Global : WasmGlobal) : List Byte :=
  writeGlobalType Global.GlobalType ++ writeInitExpr Global.Int32

/-- `Writer::createGlobalSection`. -/
def createGlobalSection (globals : List WasmGlobal) : List Byte := writeVector writeGlobal globals

/-! ## Reading -/

/-- The expressions an initialiser is made of. -/
inductive Init
  | i32Const (value : BitVec 32)
  | i64Const (value : BitVec 64)
  | f32Const (valueBits : BitVec 32)
  | f64Const (valueBits : BitVec 64)
  | getGlobal (globalIndex : BitVec 32)

/-- An expression, with the offset the delegate was called at. -/
structure Expr where
  init : Init
  locOffset : ℕ

/-- A global of the module. -/
structure ModuleGlobal where
  GlobalType : WasmGlobalType
  initExpr : List Expr

/-- The global, if its initialiser is an `i32.const`. -/
def ModuleGlobal.literal? (global : ModuleGlobal) : Option WasmGlobal :=
  match global.initExpr with
  | [⟨.i32Const value, _⟩] => some ⟨global.GlobalType, value⟩
  | _ => none

namespace BinaryReader

variable (r : BinaryReader)

/-- `ReadGlobalHeader`. -/
def readGlobalHeader : ReadM WasmGlobalType := do
  let type ← r.readConcrete
  let mutable_ ← r.readU8
  errorUnless (mutable_ ≤ 1)
  return ⟨type, mutable_ != 0⟩

/-- The callback of a literal: an expression at the current offset. -/
def onInitExpr (init : Init) : ReadM Expr := do
  let offset ← get
  return ⟨init, offset⟩

/-- The switch of `ReadInitExpr`, apart from `end`; the vector literals are off. -/
def readInit (opcode : Byte) : ReadM Expr :=
  if opcode == 0x41 then do onInitExpr (.i32Const (← r.readS32))
  else if opcode == 0x42 then do onInitExpr (.i64Const (← r.readS64))
  else if opcode == 0x43 then do onInitExpr (.f32Const (BitVec.ofNat 32 (← r.readT 4)))
  else if opcode == 0x44 then do onInitExpr (.f64Const (BitVec.ofNat 64 (← r.readT 8)))
  else if opcode == 0x23 then do onInitExpr (.getGlobal (← r.readU32))
  else failure

/-- `ReadInitExpr` of a global. -/
def readInitExpr : ReadM (List Expr) := do
  let opcode ← r.readU8
  if opcode == 0x0b then return []
  else
    let expr ← r.readInit opcode
    let opcode ← r.readU8
    errorUnless (opcode == 0x0b)
    return [expr]

/-- The body of the loop of `ReadGlobalSection`. -/
def readGlobal : ReadM ModuleGlobal := do
  let GlobalType ← r.readGlobalHeader
  let initExpr ← r.readInitExpr
  return ⟨GlobalType, initExpr⟩

/-- `ReadGlobalSection`. -/
def readGlobalSection : ReadM (List ModuleGlobal) := r.readVector r.readGlobal

variable {r} {offset : ℕ} {rest : List Byte}

theorem reads_globalHeader {type : WasmGlobalType} (h : Concrete type.type) :
    Reads (view r) r.readGlobalHeader (writeGlobalType type) type := by
  obtain ⟨code, Mutable⟩ := type
  unfold readGlobalHeader
  refine (reads_concrete h).bind ((reads_u8 (if Mutable then 1 else 0)).ending ?_)
  cases Mutable with
  | false => exact (reads_errorUnless (by decide)).check (Reads.pure _)
  | true => exact (reads_errorUnless (by decide)).check (Reads.pure _)

theorem run_readInitExpr {v : BitVec 32} (h : r.window offset = writeInitExpr v ++ rest) :
    r.readInitExpr.run offset = some ([⟨.i32Const v, offset + 1 + (writeSleb128 v).length⟩],
      offset + (writeInitExpr v).length) := by
  have hopcode : r.window offset = [0x41] ++ (writeSleb128 v ++ (0x0b :: rest)) := by
    rw [h, writeInitExpr, List.append_assoc]
    rfl
  have hliteral : r.window (offset + 1) = writeSleb128 v ++ (0x0b :: rest) := window_add hopcode
  have hend := window_add hliteral
  have hstop : ((0x0b : Byte) == 0x0b) = true := by decide
  have hinit : (r.readInit 0x41).run (offset + 1) =
      some (⟨.i32Const v, offset + 1 + (writeSleb128 v).length⟩,
        offset + 1 + (writeSleb128 v).length) := by
    show (do onInitExpr (.i32Const (← r.readS32)) : ReadM Expr).run (offset + 1) = _
    rw [run_bind_of_some (run_readS32 hliteral)]
    rfl
  rw [readInitExpr, run_bind_of_some (run_readU8 hopcode)]
  show (r.readInit 0x41 >>= _).run (offset + 1) = _
  rw [run_bind_of_some hinit, run_bind_of_some (run_readU8 hend), run_errorUnless hstop]
  show some _ = _
  rw [writeInitExpr, List.length_append, List.length_cons, List.length_singleton]
  congr 2
  omega

/-- Where the parser finds the globals the linker has written from an offset on. -/
def globalsAt : ℕ → List WasmGlobal → List ModuleGlobal
  | _, [] => []
  | offset, g :: globals =>
      ⟨g.GlobalType, [⟨.i32Const g.Int32, offset + 3 + (writeSleb128 g.Int32).length⟩]⟩ ::
        globalsAt (offset + (writeGlobal g).length) globals

/-- The parser gets back what the linker has written. -/
theorem mapM_literal?_globalsAt (offset : ℕ) (globals : List WasmGlobal) :
    (globalsAt offset globals).mapM ModuleGlobal.literal? = some globals := by
  induction globals generalizing offset with
  | nil => rfl
  | cons g globals ih =>
      rw [globalsAt, List.mapM_cons, ih]
      rfl

theorem run_readGlobal {g : WasmGlobal} (hg : Concrete g.GlobalType.type)
    (h : r.window offset = writeGlobal g ++ rest) : r.readGlobal.run offset =
      some (⟨g.GlobalType, [⟨.i32Const g.Int32, offset + 3 + (writeSleb128 g.Int32).length⟩]⟩,
        offset + (writeGlobal g).length) := by
  have hheader : r.window offset =
      writeGlobalType g.GlobalType ++ (writeInitExpr g.Int32 ++ rest) := by
    rw [h, writeGlobal, List.append_assoc]
  have hinit : r.window (offset + 2) = writeInitExpr g.Int32 ++ rest := window_add hheader
  rw [readGlobal, run_bind_of_some (reads_globalHeader hg offset _ hheader)]
  show (r.readInitExpr >>= _).run (offset + 2) = _
  rw [run_bind_of_some (run_readInitExpr hinit)]
  show some _ = _
  rw [writeGlobal, List.length_append, ← Nat.add_assoc]
  rfl

theorem run_readGlobals {globals : List WasmGlobal}
    (hglobals : ∀ g ∈ globals, Concrete g.GlobalType.type)
    (h : r.window offset = globals.flatMap writeGlobal ++ rest) :
    (repeated r.readGlobal globals.length).run offset =
      some (globalsAt offset globals, offset + (globals.flatMap writeGlobal).length) := by
  induction globals generalizing offset with
  | nil => rfl
  | cons g globals ih =>
      have hglobal : r.window offset = writeGlobal g ++ (globals.flatMap writeGlobal ++ rest) := by
        rw [h, List.flatMap_cons, List.append_assoc]
      have hread := run_readGlobal (hglobals g List.mem_cons_self) hglobal
      have hmore := ih (fun g' hg' => hglobals g' (List.mem_cons_of_mem g hg')) (window_add hglobal)
      rw [List.length_cons, repeated, run_bind_of_some hread, run_bind_of_some hmore]
      show some _ = _
      rw [List.flatMap_cons, List.length_append, ← Nat.add_assoc]
      rfl

theorem writeGlobal_ne_nil (g : WasmGlobal) : writeGlobal g ≠ [] := List.cons_ne_nil _ _

/-- The parser finds the globals the linker has written, each with the offset behind its
literal. -/
theorem run_readGlobalSection {globals : List WasmGlobal} (hfew : globals.length < 2 ^ 32)
    (hglobals : ∀ g ∈ globals, Concrete g.GlobalType.type)
    (h : r.window offset = createGlobalSection globals ++ rest) :
    r.readGlobalSection.run offset =
      some (globalsAt (offset + (uleb globals.length).length) globals,
        offset + (createGlobalSection globals).length) := by
  have hcount : r.window offset =
      uleb globals.length ++ (globals.flatMap writeGlobal ++ rest) := by
    rw [h, createGlobalSection, writeVector, List.append_assoc]
  have hroom : globals.length ≤ (globals.flatMap writeGlobal ++ rest).length := by
    have hitems := length_le_flatMap fun g (_ : g ∈ globals) => writeGlobal_ne_nil g
    rw [List.length_append]
    omega
  rw [readGlobalSection, readVector,
    run_bind_of_some (run_readCount (unsigned_uleb hfew) hcount hroom),
    run_readGlobals hglobals (window_add hcount), createGlobalSection, writeVector,
    List.length_append, Nat.add_assoc]

end BinaryReader

end FractalCdt.Toolchain
