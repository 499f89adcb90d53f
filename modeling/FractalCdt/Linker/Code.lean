/-
# Functions

The code section holds the live functions one behind the other.  The linker writes two
of them itself: `__wasm_call_ctors`, which calls the init functions of the objects that
were read, by priority, and the entry, which stays empty if no object defines it.
-/

import FractalCdt.Linker.Exports
import FractalCdt.Linker.Image
import FractalCdt.Linker.ReadBack
import FractalCdt.Math.StableSort

namespace FractalCdt.Linker

open FractalCdt.Math FractalCdt.Toolchain

/-- An init function of an object. -/
structure WasmInitEntry where
  Sym : SymbolRef
  Priority : ℕ
  deriving DecidableEq, Repr

namespace SymbolTable

variable (t : SymbolTable) (Entry : String) (l : Toolchain.Layout)

/-- The init functions in the order of the objects. -/
def initEntries : List WasmInitEntry :=
  t.ObjectFiles.flatMap fun File =>
    File.obj.InitFunctions.filterMap fun F => (File.getSymbol F.Symbol).map (⟨·, F.Priority⟩)

/-- `calculateInitFunctions`; `std::stable_sort` by priority. -/
def InitFunctions : List WasmInitEntry :=
  t.initEntries.insertionSort fun L R => L.Priority ≤ R.Priority

/-- `createCtorFunction`, from the indices of the functions on. -/
def ctorFunction (indices : List ℕ) : List Byte :=
  writeStr (uleb 0 ++
    ((indices.flatMap fun Index => 0x10 :: writeUleb128 (BitVec.ofNat 32 Index)) ++ [0x0b]))

def createCtorFunction : Option (List Byte) :=
  (t.InitFunctions.mapM fun F => t.getFunctionIndex Entry F.Sym).map ctorFunction

/-- The bytes that `CodeSection::writeTo` writes for a function. -/
def functionBody : FunctionId → Option (List Byte)
  | .synthetic 0 => t.createCtorFunction Entry
  | .synthetic i => (t.SyntheticFunctions[i]?).map (·.Body)
  | .input File i =>
      (t.file? File).bind fun F =>
        (F.obj.Functions[i]?).bind fun Func => t.relocate Entry l F Func.toInputChunk

end SymbolTable

/-! ## The calls of the constructors -/

section Calls

variable (r : BinaryReader)

/-- What `ReadFunctionBody` reads of calls up to the end of a function. -/
def readCalls : ℕ → ReadM (List (BitVec 32))
  | 0 => failure
  | rounds + 1 => do
      let opcode ← r.readU8
      if opcode = 0x0b then return []
      else
        errorUnless (opcode == 0x10)
        let index ← r.readU32
        let calls ← readCalls rounds
        return index :: calls

/-- A function without locals that calls functions without parameters or results. -/
def readCtors : ReadM (List (BitVec 32)) := do
  let size ← r.readU32
  let offset ← get
  errorUnless (offset + size.toNat = r.readEnd)
  let locals ← r.readU32
  errorUnless (locals == 0)
  readCalls r r.readEnd

variable {r}

theorem reads_calls {indices : List ℕ} {rounds : ℕ} (hrounds : indices.length < rounds) :
    Reads (view r) (readCalls r rounds)
      ((indices.flatMap fun Index => 0x10 :: writeUleb128 (BitVec.ofNat 32 Index)) ++ [0x0b])
      (indices.map (BitVec.ofNat 32)) := by
  induction indices generalizing rounds with
  | nil =>
      obtain ⟨rounds, rfl⟩ := Nat.exists_eq_succ_of_ne_zero (Nat.ne_zero_of_lt hrounds)
      exact (reads_u8 0x0b).ending (Reads.pure [])
  | cons Index indices ih =>
      obtain ⟨rounds, rfl⟩ := Nat.exists_eq_succ_of_ne_zero (Nat.ne_zero_of_lt hrounds)
      have hrest := @ih rounds (Nat.lt_of_succ_lt_succ hrounds)
      rw [List.flatMap_cons, List.append_assoc]
      refine (reads_u8 0x10).bind ?_
      rw [if_neg (by decide)]
      refine (reads_errorUnless (by decide)).check ((reads_u32 _).bind (hrest.ending ?_))
      exact Reads.pure _

/-- What is called is read back from the function. -/
theorem run_readCtors {indices : List ℕ} {bytes : List Byte}
    (hbytes : bytes = SymbolTable.ctorFunction indices) (hlength : bytes.length < 2 ^ 32) :
    (readCtors ⟨bytes, bytes.length⟩).run 0 =
      some (indices.map (BitVec.ofNat 32), bytes.length) := by
  obtain ⟨calls, hcalls⟩ : ∃ calls, calls =
      (indices.flatMap fun Index => 0x10 :: writeUleb128 (BitVec.ofNat 32 Index)) ++ [0x0b] :=
    ⟨_, rfl⟩
  obtain ⟨body, hbody⟩ : ∃ body, body = uleb 0 ++ calls := ⟨_, rfl⟩
  have hbytes : bytes = uleb body.length ++ body := by
    rw [hbytes, hbody, hcalls]
    rfl
  have hwhole := congrArg List.length hbytes
  rw [List.length_append] at hwhole
  have hwindow : (BinaryReader.mk bytes bytes.length).window 0 = uleb body.length ++ body := by
    rw [BinaryReader.window, List.drop_zero, Nat.sub_zero, List.take_length, hbytes]
  have hsize := reads_uleb (show body.length < 2 ^ 32 by omega) 0 body hwindow
  have hleft := BinaryReader.window_add hwindow
  rw [Nat.zero_add] at hsize hleft
  have hcheck : decide ((uleb body.length).length + (BitVec.ofNat 32 body.length).toNat =
      bytes.length) = true := by
    rw [toNat_ofNat (by omega)]
    exact decide_eq_true hwhole.symm
  have hrounds : indices.length < bytes.length := by
    have hitems := @length_le_flatMap _
      (fun Index => 0x10 :: writeUleb128 (BitVec.ofNat 32 Index)) indices
      fun _ _ => List.cons_ne_nil _ _
    have hcallsLength := congrArg List.length hcalls
    have hbodyLength := congrArg List.length hbody
    rw [List.length_append, List.length_singleton] at hcallsLength
    rw [List.length_append] at hbodyLength
    omega
  have hread : Reads (view ⟨bytes, bytes.length⟩) (do
      let locals ← (BinaryReader.mk bytes bytes.length).readU32
      errorUnless (locals == 0)
      readCalls ⟨bytes, bytes.length⟩ bytes.length) body (indices.map (BitVec.ofNat 32)) := by
    rw [hbody, hcalls]
    exact (reads_uleb (by decide)).bind
      ((reads_errorUnless (by decide)).check (reads_calls hrounds))
  rw [readCtors, BinaryReader.run_bind_of_some hsize, BinaryReader.run_bind_of_some (run_get _),
    BinaryReader.run_errorUnless hcheck]
  have hresult := hread _ [] (by rw [List.append_nil]; exact hleft)
  rwa [← hwhole] at hresult

theorem length_calls_le (indices : List ℕ) :
    (indices.flatMap fun Index => 0x10 :: writeUleb128 (BitVec.ofNat 32 Index)).length ≤
      6 * indices.length := by
  induction indices with
  | nil => exact le_rfl
  | cons Index indices ih =>
      have hindex : (writeUleb128 (BitVec.ofNat 32 Index)).length ≤ 5 :=
        length_uleb_le (n := 4) ((BitVec.isLt _).trans (by decide))
      rw [List.flatMap_cons, List.length_append, List.length_cons, List.length_cons]
      omega

theorem length_ctorFunction_lt {indices : List ℕ} (hfew : indices.length < 2 ^ 29) :
    (SymbolTable.ctorFunction indices).length < 2 ^ 32 := by
  have hcalls := length_calls_le indices
  unfold SymbolTable.ctorFunction writeStr
  generalize (indices.flatMap fun Index => 0x10 :: writeUleb128 (BitVec.ofNat 32 Index)) = calls
    at *
  have hbody : (uleb 0 ++ (calls ++ [0x0b])).length = calls.length + 2 := by
    rw [uleb_of_lt (by decide), List.length_append, List.length_append, List.length_singleton,
      List.length_singleton]
    omega
  have hsize := @length_uleb_le (calls.length + 2) 4 (by omega)
  rw [List.length_append, hbody]
  omega

end Calls

namespace Command

variable {cmd : Command}

/-- The function that an init function is, by its index. -/
def Calls (t : SymbolTable) (Entry : String) (F : WasmInitEntry) (call : BitVec 32) : Prop :=
  ∃ r, ∃ i : ℕ, t.functionRef? F.Sym = some r ∧ (t.functions Entry)[i]? = some r ∧
    call = BitVec.ofNat 32 i

/-- An init function of an object that was read is live, and has an index. -/
theorem index_of_init (h : cmd.Regular) {F : WasmInitEntry} (hF : F ∈ cmd.linked.initEntries) :
    ∃ r, ∃ i : ℕ, cmd.linked.functionRef? F.Sym = some r ∧
      cmd.linked.getFunctionIndex cmd.Entry F.Sym = some i ∧
      (cmd.linked.functions cmd.Entry)[i]? = some r := by
  obtain ⟨File, hFile, hmem⟩ := List.mem_flatMap.mp hF
  obtain ⟨Init, hInit, hentry⟩ := List.mem_filterMap.mp hmem
  obtain ⟨Sym, hSym, rfl⟩ := Option.map_eq_some_iff.mp hentry
  obtain ⟨sym, hsym, hfunction⟩ := (Option.any_eq_true _ _).mp (File.obj.inits Init hInit)
  have hread : File ∈ cmd.ObjectFiles := ObjectFiles_linked ▸ hFile
  obtain ⟨Sym', hSym', hstands⟩ := stands_linked h hread hsym
  cases hSym.symm.trans hSym'
  rw [WasmSymbol.kind_eq.1 hfunction] at hstands
  have hlive : cmd.linked.keyOf Sym ∈ cmd.linked.live cmd.Entry := by
    refine SymbolTable.mem_live_iff.mpr (.inr ⟨_, ?_, .refl⟩)
    exact List.mem_append_right _ (List.mem_flatMap.mpr ⟨File, hFile, List.mem_filterMap.mpr
      ⟨Init, hInit, congrArg (Option.map _) hSym⟩⟩)
  obtain ⟨r, href, hr⟩ := SymbolTable.mem_functions_of_stands hstands hlive
  obtain ⟨i, hi⟩ := List.getElem?_of_mem hr
  exact ⟨r, i, href, (SymbolTable.getFunctionIndex_eq_some_iff ids_linked).mpr ⟨r, href, hi⟩, hi⟩

theorem exists_indices (h : cmd.Regular) : ∃ indices, cmd.linked.InitFunctions.mapM
    (fun F => cmd.linked.getFunctionIndex cmd.Entry F.Sym) = some indices := by
  have hindex : ∀ F ∈ cmd.linked.InitFunctions,
      ∃ i, cmd.linked.getFunctionIndex cmd.Entry F.Sym = some i := by
    intro F hF
    obtain ⟨r, i, -, hi, -⟩ := index_of_init h ((List.perm_insertionSort _ _).mem_iff.mp hF)
    exact ⟨i, hi⟩
  exact (exists_mapM hindex).imp fun _ h => h.1

/-- `__wasm_call_ctors` calls the init functions of all objects that were read, each once, by
priority, and those of one priority in the order of the objects. -/
theorem link_ctors (h : cmd.Regular) (hfew : cmd.linked.initEntries.length < 2 ^ 29) :
    ∃ body calls, (∀ l, cmd.linked.functionBody cmd.Entry l (.synthetic 0) = some body) ∧
      (readCtors ⟨body, body.length⟩).run 0 = some (calls, body.length) ∧
      List.Forall₂ (Calls cmd.linked cmd.Entry) cmd.linked.InitFunctions calls ∧
      cmd.linked.InitFunctions.Perm cmd.linked.initEntries ∧
      cmd.linked.InitFunctions.Pairwise (fun L R => L.Priority ≤ R.Priority) ∧
      ∀ p, cmd.linked.InitFunctions.filter (·.Priority = p) =
        cmd.linked.initEntries.filter (·.Priority = p) := by
  have htrans : IsTrans WasmInitEntry fun L R => L.Priority ≤ R.Priority := ⟨fun _ _ _ => le_trans⟩
  have htotal : Std.Total fun L R : WasmInitEntry => L.Priority ≤ R.Priority :=
    ⟨fun _ _ => le_total _ _⟩
  have hperm := List.perm_insertionSort (fun L R : WasmInitEntry => L.Priority ≤ R.Priority)
    cmd.linked.initEntries
  obtain ⟨indices, hindices⟩ := exists_indices h
  have hcalls := forall₂_of_mapM hindices
  have hlength : indices.length < 2 ^ 29 :=
    (hcalls.length_eq.symm.trans hperm.length_eq) ▸ hfew
  refine ⟨SymbolTable.ctorFunction indices, indices.map (BitVec.ofNat 32), fun l => ?_,
    run_readCtors rfl (length_ctorFunction_lt hlength), ?_, hperm,
    List.pairwise_insertionSort _ _, fun p => ?_⟩
  · exact congrArg (Option.map _) hindices
  · refine List.forall₂_map_right_iff.mpr (hcalls.imp fun F i hi => ?_)
    obtain ⟨r, href, hr⟩ := (SymbolTable.getFunctionIndex_eq_some_iff ids_linked).mp hi
    exact ⟨r, i, href, hr, rfl⟩
  · refine filter_insertionSort _ (fun L R hL hR => ?_) _
    exact (of_decide_eq_true hL).trans_le (of_decide_eq_true hR).ge

theorem link_ctors_sample : ∃ body calls,
    (∀ l, sample.linked.functionBody sample.Entry l (.synthetic 0) = some body) ∧
      (readCtors ⟨body, body.length⟩).run 0 = some (calls, body.length) ∧
      List.Forall₂ (Calls sample.linked sample.Entry) sample.linked.InitFunctions calls := by
  obtain ⟨body, calls, hbody, hread, hcalls, -⟩ :=
    @link_ctors sample (by decide +kernel) (by decide +kernel)
  exact ⟨body, calls, hbody, hread, hcalls⟩

end Command

end FractalCdt.Linker
