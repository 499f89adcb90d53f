/-
# What a contract runs on

An action works on its linear memory and on the host's database.  A failed check
ends it where it stands: the database keeps what has been stored so far, so the
order of the checks and the stores matters, and `ContractM` records it.
-/

import FractalCdt.Stream.Writing

namespace FractalCdt.Contract

open FractalCdt.Math

/-- The host's database, from table and key bytes to value bytes. -/
abbrev Db := BitVec 64 → List Byte → Option (List Byte)

structure World where
  mem : Mem
  db : Db

/-- Code of a contract. -/
abbrev ContractM := ExceptT Fault (StateM World)

/-- The outcome of some code and the world it leaves. -/
def exec {α : Type} (m : ContractM α) (w : World) : Except Fault α × World :=
  (ExceptT.run m).run w

section Exec

variable {α β : Type} {m : ContractM α} {w w' : World}

theorem exec_bind_ok {f : α → ContractM β} {a : α} (h : exec m w = (.ok a, w')) :
    exec (m >>= f) w = exec (f a) w' := by
  simp only [exec, ExceptT.run_bind, StateT.run_bind] at h ⊢
  rw [h]
  rfl

theorem exec_bind_error {f : α → ContractM β} {e : Fault} (h : exec m w = (.error e, w')) :
    exec (m >>= f) w = (.error e, w') := by
  simp only [exec, ExceptT.run_bind, StateT.run_bind] at h ⊢
  rw [h]
  rfl

theorem exists_of_exec_bind {f : α → ContractM β} {b : β} (h : exec (m >>= f) w = (.ok b, w')) :
    ∃ a w₁, exec m w = (.ok a, w₁) ∧ exec (f a) w₁ = (.ok b, w') := by
  cases hm : exec m w with
  | mk answer w₁ =>
      cases answer with
      | ok a => exact ⟨a, w₁, rfl, by rwa [exec_bind_ok hm] at h⟩
      | error e =>
          rw [exec_bind_error hm] at h
          cases h

theorem exec_check_true {msg : String} : exec (check true msg) w = (.ok (), w) := rfl

theorem exec_check_false {msg : String} : exec (check false msg) w = (.error (.check msg), w) := rfl

theorem exec_get : exec get w = (.ok w, w) := rfl

theorem exec_modify (f : World → World) : exec (modify f) w = (.ok (), f w) := rfl

theorem exec_bind_get (f : World → ContractM α) : exec (get >>= f) w = exec (f w) w :=
  exec_bind_ok exec_get

end Exec

/-- Where an action's objects lie: the buffers `malloc` or `alloca` returns for
each size, and a second block of `MAX_KEY_LENGTH` bytes on the stack.  They are
inside the address space and apart. -/
structure Placement where
  buffer : BitVec 32 → Addr
  key : Addr
  fits : ∀ size, size.toNat < 2 ^ 31 → (buffer size).toNat + size.toNat < 2 ^ 32
  disjoint : ∀ size, size.toNat < 2 ^ 31 → ∀ x, InRange (buffer size) size.toNat x →
    ¬ InRange key 32 x

namespace Sample

theorem place_fits {size : BitVec 32} (h : size.toNat < 2 ^ 31) :
    (64 : Addr).toNat + size.toNat < 2 ^ 32 := by
  show 64 + size.toNat < 2 ^ 32
  omega

theorem place_disjoint {size : BitVec 32} (h : size.toNat < 2 ^ 31) {x : Addr}
    (hx : InRange 64 size.toNat x) : ¬ InRange 16 32 x := by
  simp only [InRange] at hx ⊢
  bv_omega

/-- Buffers at 64 and keys at 16. -/
def place : Placement where
  buffer _ := 64
  key := 16
  fits _ h := place_fits h
  disjoint _ h _ hx := place_disjoint h hx

def world : World := ⟨fun _ => 0, fun _ _ => none⟩

end Sample

/-- Serialize into `size` bytes from `start` on. -/
def packAt (start : Addr) (size : BitVec 32) (program : WriteProgram Fault) : ContractM Unit := do
  let w ← get
  match packInto w.mem start size program with
  | .ok ds => set { w with mem := ds.mem }
  | .error e => throw e

/-- The world after a block of memory has been filled. -/
structure FilledWorld (w : World) (start : Addr) (bytes : List Byte) (w' : World) : Prop where
  db_eq : w'.db = w.db
  content : w'.mem.load start bytes.length = bytes
  outside : ∀ x, ¬ InRange start bytes.length x → w'.mem x = w.mem x

theorem exec_packAt {program : WriteProgram Fault} {bytes : List Byte} (h : Emits program bytes)
    (hsmall : bytes.length < 2 ^ 31) {size : BitVec 32}
    (hsize : size = BitVec.ofNat 32 bytes.length) (start : Addr) (w : World) :
    ∃ w', exec (packAt start size program) w = (.ok (), w') ∧ FilledWorld w start bytes w' := by
  obtain ⟨ds, hpack, hfilled⟩ := packInto_filled h hsmall hsize w.mem start
  refine ⟨{ w with mem := ds.mem }, ?_, ⟨rfl, hfilled.content, hfilled.outside⟩⟩
  rw [packAt]
  show exec (match packInto w.mem start size program with
    | .ok ds => set { w with mem := ds.mem }
    | .error e => throw e) w = _
  rw [hpack]
  rfl

end FractalCdt.Contract
