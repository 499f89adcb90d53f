/-
# Measure, allocate, fill, hand over

Six places of the library size a value, allocate that many bytes, serialize the
value into them and give the buffer away.  `Caller` lists them with the program
each one measures and runs; `packs_exactly` says that what is given away is the
encoding, whatever the buffer held before.
-/

import FractalCdt.Contract.Action
import FractalCdt.Contract.Table

namespace FractalCdt.Contract

open FractalCdt.Math FractalCdt.Codec

section Code

variable (place : Placement)

/-- `std::vector<char> pack(const T &value)`; `resize` zeroes the bytes. -/
def pack {t : Ty} (value : Val t) : ContractM (List Byte) := do
  let size := packSize (serialize t value)
  modify fun w =>
    { w with mem := w.mem.store (place.buffer size) (List.replicate size.toNat 0) }
  packAt (place.buffer size) size (serialize t value)
  let w ← get
  return w.mem.load (place.buffer size) size.toNat

/-- `checksum256 *log_hash(T arg)`, over the host's `sha256`. -/
def logHash {α : Type} (sha256 : List Byte → α) {t : Ty} (arg : Val t) : ContractM α := do
  let size := packSize (keyProgram t arg)
  packAt (place.buffer size) size (keyProgram t arg)
  let w ← get
  return sha256 (w.mem.load (place.buffer size) size.toNat)

end Code

/-- The places that allocate what `pack_size` answers. -/
inductive Caller (less : Comparators)
  | pack (t : Ty) (value : Val t)
  | mapKey (t : Ty) (key : Val t)
  | put (table : Table less) (key : Val table.KT) (value : Val table.VT)
  | call (act : BitVec 64) (Args : List Ty) (args : Val (.tuple Args))
  | executeAction (t : Ty) (rt : Obj less t)
  | logHash (t : Ty) (arg : Val t)

namespace Caller

variable {less : Comparators}

/-- What is serialized. -/
def program : Caller less → WriteProgram Fault
  | .pack t value => serialize t value
  | .mapKey t key => keyProgram t key
  | .put table _ value => serialize table.VT value
  | .call act Args args => fun σ _ => do
      serialize .name act σ
      serialize (.tuple Args) args σ
  | .executeAction t rt => serialize t rt.val
  | .logHash t arg => keyProgram t arg

/-- What is allocated. -/
def size : Caller less → BitVec 32
  | .call act Args args => packSize (serialize .name act) + packSize (serialize (.tuple Args) args)
  | c => packSize c.program

/-- The encoding of what is packed; a call packs the pair of its name and its
arguments. -/
def bytes : Caller less → List Byte
  | .pack t value => encode t value
  | .mapKey t key => packedKey t key
  | .put table _ value => encode table.VT value
  | .call act Args args => encode (.pair .name (.tuple Args)) (act, args)
  | .executeAction t rt => encode t rt.val
  | .logHash t arg => packedKey t arg

/-- The key that is packed into a `MapKey` on the way. -/
def key : Caller less → List Byte
  | .mapKey t key => packedKey t key
  | .put table key _ => packedKey table.KT key
  | _ => []

/-- The caller's own code; the answer is the bytes it gives away. -/
def handOver (place : Placement) : Caller less → ContractM (List Byte)
  | .pack _ value => Contract.pack place value
  | .mapKey _ key => do
      let pk ← Contract.mapKey place key
      keyBytes place pk
  | .put table key value => do
      Contract.put place table key value
      let w ← get
      return (record w key).getD []
  | .call act Args args => packCall place act Args args
  | .executeAction t rt => do
      let stored ← setResult place (some t) (rt : Ret less (some t))
      return stored.getD []
  | .logHash _ arg => Contract.logHash place id arg

/-- The bytes, unless the key is too long for its own check. -/
def outcome (c : Caller less) : Except Fault (List Byte) :=
  if c.key.length ≤ 32 then .ok c.bytes else .error (.check "key size must be smaller than 32")

theorem emits_program : (c : Caller less) → Emits c.program c.bytes
  | .pack t value => emits_serialize t value
  | .mapKey _ key => emits_keyProgram key
  | .put table _ value => emits_serialize table.VT value
  | .call act Args args => (emits_serialize .name act).bind (emits_serialize (.tuple Args) args)
  | .executeAction t rt => emits_serialize t rt.val
  | .logHash _ arg => emits_keyProgram arg

/-- The sizing pass counts what the writing pass writes. -/
theorem size_eq (c : Caller less) : c.size = BitVec.ofNat 32 c.bytes.length := by
  cases c with
  | call act Args args =>
      show packSize (serialize .name act) + packSize (serialize (.tuple Args) args) = _
      rw [packSize_eq (emits_serialize .name act), packSize_eq (emits_serialize (.tuple Args) args),
        ← BitVec.ofNat_add, ← List.length_append]
      rfl
  | pack t value => exact packSize_eq (emits_program (.pack t value))
  | mapKey t key => exact packSize_eq (emits_program (.mapKey t key))
  | put table key value => exact packSize_eq (emits_program (.put table key value))
  | executeAction t rt => exact packSize_eq (emits_program (.executeAction t rt))
  | logHash t arg => exact packSize_eq (emits_program (.logHash t arg))

end Caller

/-! ## What is handed over -/

section Parts

variable (place : Placement)

/-- Pack into a buffer and give its bytes away. -/
theorem exec_packAt_load {program : WriteProgram Fault} {bytes : List Byte}
    (h : Emits program bytes) (hsmall : bytes.length < 2 ^ 31) {α : Type} (f : List Byte → α)
    (w : World) :
    ∃ w', exec (do
        packAt (place.buffer (packSize program)) (packSize program) program
        let w ← get
        return f (w.mem.load (place.buffer (packSize program)) (packSize program).toNat)) w =
      (.ok (f bytes), w') := by
  have hword : (packSize program).toNat = bytes.length := by
    rw [packSize_eq h, BitVec.toNat_ofNat]
    omega
  obtain ⟨w', hpack, hfilled⟩ := exec_packAt h hsmall (packSize_eq h)
    (place.buffer (packSize program)) w
  refine ⟨w', ?_⟩
  rw [exec_bind_ok hpack, exec_bind_get, hword, hfilled.content]
  rfl

theorem exec_pack {t : Ty} {value : Val t} (hsmall : (encode t value).length < 2 ^ 31)
    (w : World) : ∃ w', exec (pack place value) w = (.ok (encode t value), w') := by
  rw [pack, exec_bind_ok (exec_modify _)]
  exact exec_packAt_load place (emits_serialize t value) hsmall id _

theorem exec_logHash {α : Type} (sha256 : List Byte → α) {t : Ty} {arg : Val t}
    (hsmall : (packedKey t arg).length < 2 ^ 31) (w : World) :
    ∃ w', exec (logHash place sha256 arg) w = (.ok (sha256 (packedKey t arg)), w') :=
  exec_packAt_load place (emits_keyProgram arg) hsmall sha256 w

/-- A key that is too long fails its check, after the value has been packed. -/
theorem exec_put_key_error {less : Comparators} {table : Table less} {key : Val table.KT}
    {value : Val table.VT} (hkey : 32 < (packedKey table.KT key).length)
    (hword : (packedKey table.KT key).length < 2 ^ 32)
    (hsmall : (encode table.VT value).length < 2 ^ 31) (w : World) :
    ∃ w', exec (put place table key value) w =
      (.error (.check "key size must be smaller than 32"), w') := by
  have hemits := emits_serialize table.VT value
  obtain ⟨w', hpack, -⟩ := exec_packAt hemits hsmall (packSize_eq hemits)
    (place.buffer (packSize (serialize table.VT value))) w
  have hmap := exec_mapKey_of_long place hkey hword w'
  exact ⟨w', by rw [put, exec_bind_ok hpack, exec_bind_error hmap]⟩

end Parts

namespace Caller

variable {less : Comparators}

/-- Each caller gives away the bytes, or stops at its own check of the key. -/
theorem exec_handOver (place : Placement) (c : Caller less) (hbytes : c.bytes.length < 2 ^ 31)
    (hkey : c.key.length < 2 ^ 31) (w : World) :
    ∃ w', exec (c.handOver place) w = (c.outcome, w') := by
  cases c with
  | pack t value => exact exec_pack place hbytes w
  | mapKey t key =>
      by_cases hfits : (packedKey t key).length ≤ 32
      · obtain ⟨w', hmap, hfilled⟩ := exec_mapKey place hfits w
        refine ⟨w', ?_⟩
        rw [handOver, exec_bind_ok hmap, exec_keyBytes_of_filled place hfits hfilled]
        exact congrArg (·, w') (if_pos hfits).symm
      · have hmap := exec_mapKey_of_long place (not_le.mp hfits) (hkey.trans (by decide)) w
        refine ⟨w, ?_⟩
        rw [handOver, exec_bind_error hmap]
        exact congrArg (·, w) (if_neg hfits).symm
  | put table key value =>
      by_cases hfits : (packedKey table.KT key).length ≤ 32
      · obtain ⟨w', hput, hchanged⟩ := exec_put place hfits hbytes w
        refine ⟨w', ?_⟩
        rw [handOver, exec_bind_ok hput, exec_bind_get, hchanged.here]
        exact congrArg (·, w') (if_pos hfits).symm
      · obtain ⟨w', hput⟩ := exec_put_key_error place (not_le.mp hfits)
          (hkey.trans (by decide)) hbytes w
        refine ⟨w', ?_⟩
        rw [handOver, exec_bind_error hput]
        exact congrArg (·, w') (if_neg hfits).symm
  | call act Args args =>
      have hlength : (encode .name act ++ encode (.tuple Args) args).length < 2 ^ 31 := hbytes
      rw [List.length_append, length_encode_name] at hlength
      exact exec_packCall place act hlength w
  | executeAction t rt =>
      obtain ⟨w', hset⟩ := exec_setResult place hbytes w
      refine ⟨w', ?_⟩
      rw [handOver, exec_bind_ok hset]
      by_cases hempty : encode t rt.val = []
      · rw [if_pos hempty]
        exact congrArg (fun b => (Except.ok b, w')) hempty.symm
      · rw [if_neg hempty]
        rfl
  | logHash t arg => exact exec_logHash place id hbytes w

/-- The size a caller allocates is the number of bytes it writes into any stream
that takes them, its buffer is filled exactly wherever it lies and whatever it
held, and the bytes given away are the encoding. -/
theorem packs_exactly (c : Caller less) (hbytes : c.bytes.length < 2 ^ 31)
    (hkey : c.key.length < 2 ^ 31) :
    (∀ out out', (c.program Datastream).run out = .ok ((), out') →
      written out out' = c.bytes ∧ c.size.toNat = (written out out').length) ∧
    (∀ mem start, ∃ ds, packInto mem start c.size c.program = .ok ds ∧
      Filled mem start c.bytes ds) ∧
    ∀ place w, ∃ w', exec (c.handOver place) w = (c.outcome, w') := by
  refine ⟨?_, packInto_filled c.emits_program hbytes c.size_eq, ?_⟩
  · intro out out' hrun
    have hwritten := written_eq_of_emits c.emits_program hbytes hrun
    refine ⟨hwritten, ?_⟩
    rw [hwritten, c.size_eq, BitVec.toNat_ofNat]
    omega
  · intro place w
    exact c.exec_handOver place hbytes hkey w

/-- A call with one byte of arguments: nine bytes, the name first. -/
theorem packs_exactly_call :
    let Args := [Ty.prim (.int false .w8)]
    let c : Caller fun _ _ _ => false := .call 258 Args ((7, ()) : Byte × Unit)
    c.size = 9 ∧ ∀ place w, ∃ w', exec (c.handOver place) w =
      (.ok [2, 1, 0, 0, 0, 0, 0, 0, 7], w') := by
  intro Args c
  have hbytes : c.bytes = [2, 1, 0, 0, 0, 0, 0, 0, 7] := by decide +kernel
  have hsmall : c.bytes.length < 2 ^ 31 := by
    rw [hbytes]
    decide
  obtain ⟨-, -, hhand⟩ := packs_exactly c hsmall (by decide)
  refine ⟨?_, ?_⟩
  · rw [c.size_eq, hbytes]
    rfl
  · intro place w
    have hrun := hhand place w
    rw [outcome, if_pos (by decide), hbytes] at hrun
    exact hrun

end Caller

end FractalCdt.Contract
