/-
# Tables of the host database

`table<TableName, KT, VT>` packs its key into at most 32 bytes and its value into
a buffer of the measured size, and hands both to the host under the word of the
table's name.  `MapKey` takes its argument by value, so a C array arrives as a
pointer to its first element, and the only overload that accepts a pointer is
the one for `bool`.
-/

import FractalCdt.Codec.Pointers
import FractalCdt.Contract.Name
import FractalCdt.Contract.World

namespace FractalCdt.Contract

open FractalCdt.Math FractalCdt.Codec

/-- An object of a type: a value the type can hold. -/
abbrev Obj (less : Comparators) (t : Ty) := { v : Val t // WellFormed less t v }

/-- A table declaration the compiler accepts. -/
structure Table (less : Comparators) where
  tblName : List Char
  TableName : BitVec 64
  KT : Ty
  VT : Ty
  ident : Name.IsIdentifier tblName
  named : Name.ofString tblName = .ok TableName
  valid : Name.validateTableName TableName = true
  keySerialisable : KT.Serialisable
  valueSerialisable : VT.Serialisable
  keyOrdered : Ordered less KT
  valueOrdered : Ordered less VT

/-- The host interface: loading an absent record answers some negative number. -/
structure Host where
  absent : ℤ
  negative : absent < 0

namespace Host

variable (host : Host)

/-- `db_store`, for the bytes its pointers address. -/
def dbStore (table : BitVec 64) (key value : List Byte) : ContractM Unit :=
  modify fun w => { w with db := fun t k => if t = table ∧ k = key then some value else w.db t k }

/-- `db_load`: the size of the record when no room is given, and otherwise a copy
of it as far as there is room. -/
def dbLoad (table : BitVec 64) (key : List Byte) (buffer : Addr) (size : BitVec 32) :
    ContractM ℤ := do
  let w ← get
  match w.db table key with
  | none => return host.absent
  | some value =>
      if size = 0 then return (BitVec.ofNat 32 value.length).toInt
      else
        set { w with mem := w.mem.store buffer (value.take size.toNat) }
        return (value.take size.toNat).length

/-- `db_has_key`. -/
def dbHasKey (table : BitVec 64) (key : List Byte) : ContractM Bool := do
  let w ← get
  return (w.db table key).isSome

/-- `db_remove_key`. -/
def dbRemoveKey (table : BitVec 64) (key : List Byte) : ContractM Unit :=
  modify fun w => { w with db := fun t k => if t = table ∧ k = key then none else w.db t k }

end Host

/-- `ds << t` inside `MapKey(T t)`. -/
def keyProgram : (t : Ty) → Val t → WriteProgram Fault
  | .carray _ _, _ => fun _ _ => ByteSink.write (Prim.bool.bytes true)
  | t, v => serialize t v

section Operations

variable (host : Host) (place : Placement) {less : Comparators} (table : Table less)

/-- `MapKey(T t)`; the answer is `length`. -/
def mapKey {t : Ty} (key : Val t) : ContractM Byte := do
  let size := packSize (keyProgram t key)
  check (size ≤ 32) "key size must be smaller than 32"
  packAt place.key size (keyProgram t key)
  return size.setWidth 8

/-- The bytes of a `MapKey` that the host is given. -/
def keyBytes (length : Byte) : ContractM (List Byte) := do
  let w ← get
  return w.mem.load place.key length.toNat

/-- `void put(const KT &key, const VT &value)`. -/
def put (key : Val table.KT) (value : Val table.VT) : ContractM Unit := do
  let size := packSize (serialize table.VT value)
  let buffer := place.buffer size
  packAt buffer size (serialize table.VT value)
  let pk ← mapKey place key
  let key ← keyBytes place pk
  let w ← get
  Host.dbStore table.TableName key (w.mem.load buffer size.toNat)

/-- `const VT get(const KT &key) const`. -/
def getValue (key : Val table.KT) : ContractM (Val table.VT) := do
  let primary ← mapKey place key
  let size ← host.dbLoad table.TableName (← keyBytes place primary) 0 0
  check (0 ≤ size) "error get from primary key"
  let size := BitVec.ofInt 32 size
  let buffer := place.buffer size
  let _ ← host.dbLoad table.TableName (← keyBytes place primary) buffer size
  let w ← get
  match (deserialize less table.VT (init table.VT)).run (Datastream.init w.mem buffer size) with
  | .ok (obj, _) => return obj
  | .error e => throw e

/-- `bool has_key(const KT &key) const`. -/
def hasKey (key : Val table.KT) : ContractM Bool := do
  let pk ← mapKey place key
  Host.dbHasKey table.TableName (← keyBytes place pk)

/-- `void erase(const KT &key)`. -/
def erase (key : Val table.KT) : ContractM Unit := do
  let pk ← mapKey place key
  Host.dbRemoveKey table.TableName (← keyBytes place pk)

end Operations

/-! ## The packed key -/

/-- The bytes `MapKey` packs: the encoding of the key, or of a pointer that is not
null. -/
def packedKey : (t : Ty) → Val t → List Byte
  | .carray _ _, _ => [1]
  | t, v => encode t v

theorem emits_keyProgram {t : Ty} (v : Val t) : Emits (keyProgram t v) (packedKey t v) := by
  cases t with
  | carray e n => exact emits_write [1]
  | _ => exact emits_serialize _ v

/-- Not an array that decays to a pointer. -/
def NotCArray (t : Ty) : Prop := ∀ e n, t ≠ .carray e n

section Load

variable (host : Host) {w : World} {word : BitVec 64} {pk value : List Byte}

end Load

section Key

variable (place : Placement) {t : Ty} {key : Val t}

/-- A key that fits is packed. -/
theorem exec_mapKey (hkey : (packedKey t key).length ≤ 32) (w : World) :
    ∃ w', exec (mapKey place key) w = (.ok (BitVec.ofNat 8 (packedKey t key).length), w') ∧
      FilledWorld w place.key (packedKey t key) w' := by
  have hemits := emits_keyProgram key
  have hsize := packSize_eq hemits
  obtain ⟨w', hpack, hfilled⟩ := exec_packAt hemits (by omega) hsize place.key w
  refine ⟨w', ?_, hfilled⟩
  have hcheck : decide (packSize (keyProgram t key) ≤ 32) = true := by
    rw [hsize]
    apply decide_eq_true
    bv_omega
  have hlength : (packSize (keyProgram t key)).setWidth 8 =
      BitVec.ofNat 8 (packedKey t key).length := by
    rw [hsize]
    apply BitVec.eq_of_toNat_eq
    simp
  rw [mapKey, hcheck, exec_bind_ok exec_check_true, exec_bind_ok hpack, hlength]
  rfl

/-- A key that does not fit fails its check before anything is written. -/
theorem exec_mapKey_of_long (hkey : 32 < (packedKey t key).length)
    (hword : (packedKey t key).length < 2 ^ 32) (w : World) :
    exec (mapKey place key) w = (.error (.check "key size must be smaller than 32"), w) := by
  have hcheck : decide (packSize (keyProgram t key) ≤ 32) = false := by
    rw [packSize_eq (emits_keyProgram key)]
    apply decide_eq_false
    bv_omega
  rw [mapKey, hcheck, exec_bind_error exec_check_false]

theorem exec_keyBytes {n : ℕ} (hn : n ≤ 32) (w : World) :
    exec (keyBytes place (BitVec.ofNat 8 n)) w = (.ok (w.mem.load place.key n), w) := by
  have hlength : (BitVec.ofNat 8 n).toNat = n := by
    rw [BitVec.toNat_ofNat]
    omega
  show (_, w) = _
  rw [hlength]

/-- The bytes the host is given for a key. -/
theorem exec_keyBytes_of_filled {w w' : World} (hkey : (packedKey t key).length ≤ 32)
    (hfilled : FilledWorld w place.key (packedKey t key) w') :
    exec (keyBytes place (BitVec.ofNat 8 (packedKey t key).length)) w' =
      (.ok (packedKey t key), w') := by
  rw [exec_keyBytes place hkey, hfilled.content]

end Key

/-! ## What each operation does -/

section Operations

variable (host : Host) (place : Placement) {less : Comparators} {table : Table less}
  {key : Val table.KT}

/-- The record a key stands for. -/
def record (w : World) (key : Val table.KT) : Option (List Byte) :=
  w.db table.TableName (packedKey table.KT key)

/-- The database after a record has been changed. -/
structure Changed (w : World) (key : Val table.KT) (value : Option (List Byte)) (w' : World) :
    Prop where
  here : record w' key = value
  elsewhere : ∀ t k, ¬ (t = table.TableName ∧ k = packedKey table.KT key) → w'.db t k = w.db t k

theorem exec_put (hkey : (packedKey table.KT key).length ≤ 32)
    {value : Val table.VT} (hsmall : (encode table.VT value).length < 2 ^ 31) (w : World) :
    ∃ w', exec (put place table key value) w = (.ok (), w') ∧
      Changed w key (some (encode table.VT value)) w' := by
  have hemits := emits_serialize table.VT value
  have hsize := packSize_eq hemits
  have hlength : (packSize (serialize table.VT value)).toNat = (encode table.VT value).length := by
    rw [hsize, BitVec.toNat_ofNat]
    omega
  obtain ⟨w₁, hpack, hvalue⟩ := exec_packAt hemits hsmall hsize
    (place.buffer (packSize (serialize table.VT value))) w
  obtain ⟨w₂, hmap, hfilled⟩ := exec_mapKey place hkey w₁
  -- The key is packed beside the buffer, which keeps the value.
  have hbuffer : w₂.mem.load (place.buffer (packSize (serialize table.VT value)))
      (packSize (serialize table.VT value)).toNat = encode table.VT value := by
    rw [hlength]
    refine (Mem.load_congr ?_).trans hvalue.content
    intro x hx
    rw [← hlength, mem_footprint (by omega)] at hx
    have hdisjoint := place.disjoint _ (by omega) x hx
    exact hfilled.outside x fun hin => hdisjoint (Nat.lt_of_lt_of_le hin hkey)
  rw [put, exec_bind_ok hpack, exec_bind_ok hmap,
    exec_bind_ok (exec_keyBytes_of_filled place hkey hfilled), exec_bind_ok exec_get, hbuffer,
    Host.dbStore, exec_modify]
  refine ⟨_, rfl, ⟨if_pos ⟨rfl, rfl⟩, ?_⟩⟩
  intro t k hother
  show (if _ then _ else _) = _
  rw [if_neg hother, hfilled.db_eq, hvalue.db_eq]

end Operations

end FractalCdt.Contract
