/-
# The key object

A `MapKey` is a length and an array of `MAX_KEY_LENGTH` bytes.  The constructor
checks the size it has measured against the array, `operator>>` takes the length
from the stream and fills as many elements unchecked.  Assignments that miss the
array are kept here, since a later failure does not undo them.
-/

import FractalCdt.Codec.Blocks
import FractalCdt.Contract.Table
import FractalCdt.Math.Run

namespace FractalCdt.Contract

open FractalCdt.Math FractalCdt.Codec

/-- `class MapKey`. -/
structure MapKey where
  length : Byte
  bytes : List.Vector Byte 32

/-- An object that is read into, and the assignments that missed its array. -/
structure Target where
  key : MapKey
  outside : List (ℕ × Byte)

/-- `key.bytes[i] = b`. -/
def Target.assign (target : Target) (i : ℕ) (b : Byte) : Target :=
  if h : i < 32 then
    { target with key := { target.key with bytes := target.key.bytes.set ⟨i, h⟩ b } }
  else { target with outside := target.outside ++ [(i, b)] }

/-- `operator<<(DataStream &ds, const MapKey &key)`, for a length within the array. -/
def writeMapKey (key : MapKey) : WriteProgram Fault := fun σ _ => do
  ByteSink.write [key.length]
  writeEach (fun b _ _ => ByteSink.write [b]) (key.bytes.toList.take key.length.toNat) σ

section Reading

variable {σ : Type} [ByteSource σ Fault]

/-- The loop of `operator>>`, with `n` turns left from element `i` on. -/
def readElements : (n i : ℕ) → σ → Target → Except Fault Unit × σ × Target
  | 0, _, ds, target => (.ok (), ds, target)
  | n + 1, i, ds, target =>
      match readByte.run ds with
      | .error e => (.error e, ds, target)
      | .ok (b, ds) => readElements n (i + 1) ds (target.assign i b)

/-- `operator>>(DataStream &ds, MapKey &key)`. -/
def readMapKey (ds : σ) (target : Target) : Except Fault Unit × σ × Target :=
  match readByte.run ds with
  | .error e => (.error e, ds, target)
  | .ok (length, ds) =>
      readElements length.toNat 0 ds { target with key := { target.key with length := length } }

end Reading

/-! ## What `operator>>` assigns -/

/-- The object after these bytes have been assigned from element `i` on. -/
def Target.assignFrom (target : Target) (i : ℕ) : List Byte → Target
  | [] => target
  | b :: bs => (target.assign i b).assignFrom (i + 1) bs

section Assign

variable {target : Target} {i : ℕ}

theorem assign_length (b : Byte) : (target.assign i b).key.length = target.key.length := by
  unfold Target.assign
  split <;> rfl

theorem assignFrom_length (bs : List Byte) :
    (target.assignFrom i bs).key.length = target.key.length := by
  induction bs generalizing target i with
  | nil => rfl
  | cons b bs ih => rw [Target.assignFrom, ih, assign_length]

theorem assign_outside (b : Byte) :
    (target.assign i b).outside = [] ↔ target.outside = [] ∧ i < 32 := by
  unfold Target.assign
  split
  case isTrue h => exact ⟨fun hempty => ⟨hempty, h⟩, fun hboth => hboth.1⟩
  case isFalse h =>
    exact iff_of_false (List.append_ne_nil_of_right_ne_nil _ nofun) fun hboth => h hboth.2

/-- No assignment misses the array exactly when the last one does not. -/
theorem assignFrom_outside (bs : List Byte) :
    (target.assignFrom i bs).outside = [] ↔
      target.outside = [] ∧ (bs = [] ∨ i + bs.length ≤ 32) := by
  induction bs generalizing target i with
  | nil => simp [Target.assignFrom]
  | cons b bs ih =>
      rw [Target.assignFrom, ih, assign_outside, List.length_cons]
      rcases bs with _ | ⟨c, bs⟩
      · simp
      · simp only [reduceCtorEq, false_or, List.length_cons, and_assoc]
        refine and_congr_right fun _ => ?_
        omega

theorem assign_bytes (h : i < 32) (b : Byte) :
    (target.assign i b).key.bytes.toList = target.key.bytes.toList.set i b := by
  rw [Target.assign, dif_pos h]
  exact List.Vector.toList_set _ _ _

/-- Bytes assigned inside the array replace as many of its elements. -/
theorem assignFrom_bytes (bs : List Byte) (h : i + bs.length ≤ 32) :
    (target.assignFrom i bs).key.bytes.toList.take (i + bs.length) =
      target.key.bytes.toList.take i ++ bs := by
  induction bs generalizing target i with
  | nil => simp [Target.assignFrom]
  | cons b bs ih =>
      rw [List.length_cons] at h
      have hi : i < target.key.bytes.toList.length := by
        rw [List.Vector.toList_length]
        omega
      have hstep : i + (bs.length + 1) = i + 1 + bs.length := by omega
      rw [Target.assignFrom, List.length_cons, hstep, ih (by omega), assign_bytes (by omega),
        List.take_succ_eq_append_getElem (by rwa [List.length_set]), List.getElem_set_self,
        List.take_set_of_le le_rfl, List.append_assoc, List.singleton_append]

end Assign

/-- The loop assigns the bytes that are there, and fails when there are too few. -/
theorem readElements_eq (n i : ℕ) (bytes : List Byte) (target : Target) :
    readElements n i bytes target =
      if n ≤ bytes.length then (.ok (), bytes.drop n, target.assignFrom i (bytes.take n))
      else (.error (.check "read"), [], target.assignFrom i bytes) := by
  induction n generalizing i bytes target with
  | zero => rfl
  | succ n ih =>
      cases bytes with
      | nil => rfl
      | cons b bytes =>
          have hbyte : (readByte (σ := List Byte)).run (b :: bytes) = .ok (b, bytes) :=
            decodes_readByte b bytes
          simp only [readElements, hbyte, ih, List.length_cons, Nat.add_le_add_iff_right]
          rfl

/-! ## What the constructor writes -/

/-- Every block that gets past its check lies in the array at `array`. -/
def BlocksInside (array : Addr) (blocks : List (List Byte)) (ds : Datastream) : Prop :=
  Along Datastream.write (fun ds d _ _ => ∀ x ∈ footprint ds.pos d.length, InRange array 32 x)
    blocks ds

/-- A block of `2^31` bytes or more comes after at most `size` bytes. -/
def LongBlockWithin (size : ℕ) (blocks : List (List Byte)) : Prop :=
  ∃ before block after, blocks = before ++ block :: after ∧ before.flatten.length ≤ size ∧
    2 ^ 31 ≤ block.length

section Constructor

variable {array : Addr} {ds : Datastream} {d : List Byte}

theorem longBlockWithin_cons {size : ℕ} {blocks : List (List Byte)} (hd : d.length < 2 ^ 31) :
    LongBlockWithin size (d :: blocks) ↔
      d.length ≤ size ∧ LongBlockWithin (size - d.length) blocks := by
  constructor
  · rintro ⟨before, block, after, heq, hbefore, hblock⟩
    cases before with
    | nil =>
        cases heq
        exact absurd hblock (not_le.mpr hd)
    | cons d' before =>
        cases heq
        rw [List.flatten_cons, List.length_append] at hbefore
        exact ⟨by omega, before, block, after, rfl, by omega, hblock⟩
  · rintro ⟨hsize, before, block, after, rfl, hbefore, hblock⟩
    refine ⟨d :: before, block, after, rfl, ?_, hblock⟩
    rw [List.flatten_cons, List.length_append]
    omega

/-- The stream writes somewhere in the array, and its buffer ends there. -/
def InArray (array : Addr) (ds : Datastream) : Prop :=
  (ds.pos - array).toNat + ds.remaining.toNat ≤ 32

theorem InArray.after (h : InArray array ds) (hd : d.length ≤ ds.remaining.toNat) :
    InArray array (ds.after d) ∧
      (ds.after d).remaining.toNat = ds.remaining.toNat - d.length := by
  simp only [InArray, Datastream.remaining, Datastream.after] at h hd ⊢
  constructor <;> bv_omega

/-- A block is inside the array when it fits the buffer. -/
theorem InArray.inside (h : InArray array ds) (hd : d.length ≤ ds.remaining.toNat) :
    ∀ x ∈ footprint ds.pos d.length, InRange array 32 x := by
  intro x hx
  rw [InArray] at h
  rw [mem_footprint (by omega), InRange] at hx
  rw [InRange]
  bv_omega

/-- A block longer than the array leaves it. -/
theorem InArray.not_inside (h : InArray array ds) (hlong : 32 < d.length)
    (hfits : d.length < 2 ^ 32) : ¬ ∀ x ∈ footprint ds.pos d.length, InRange array 32 x := by
  intro hinside
  rw [InArray] at h
  -- The byte behind the array is one of those written.
  have hend := hinside (array + 32) (by
    rw [mem_footprint hfits.le, InRange]
    bv_omega)
  rw [InRange] at hend
  bv_omega

/-- The check of `write` in a buffer this small: what fits, or is negative as a
signed word. -/
theorem InArray.sle_iff (h : InArray array ds) (hfits : d.length < 2 ^ 32) :
    (BitVec.ofNat 32 d.length).sle ds.remaining = true ↔
      d.length ≤ ds.remaining.toNat ∨ 2 ^ 31 ≤ d.length := by
  have hsize : (BitVec.ofNat 32 d.length).toNat = d.length := by
    rw [BitVec.toNat_ofNat, Nat.mod_eq_of_lt hfits]
  rw [InArray] at h
  rw [BitVec.sle_eq_decide, decide_eq_true_iff, BitVec.toInt_eq_toNat_cond,
    BitVec.toInt_eq_toNat_of_lt (by omega), hsize]
  split <;> omega

/-- The blocks stay inside the array unless the check is passed by a negative size. -/
theorem blocksInside_iff {blocks : List (List Byte)} (hfits : ∀ d ∈ blocks, d.length < 2 ^ 32)
    (h : InArray array ds) :
    BlocksInside array blocks ds ↔ ¬ LongBlockWithin ds.remaining.toNat blocks := by
  induction blocks generalizing ds with
  | nil =>
      refine iff_of_true trivial ?_
      rintro ⟨before, block, after, heq, -⟩
      exact absurd heq.symm (List.append_ne_nil_of_right_ne_nil _ nofun)
  | cons d blocks ih =>
      have hd := hfits d List.mem_cons_self
      have hblocks := fun d' hd' => hfits d' (List.mem_cons_of_mem d hd')
      have hcheck := h.sle_iff hd
      by_cases hlong : 2 ^ 31 ≤ d.length
      · have hrun : (Datastream.write d).run ds = .ok ((), ds.after d) := by
          rw [Datastream.run_write, if_pos (hcheck.mpr (.inr hlong))]
          rfl
        rw [BlocksInside, along_cons_of_ok hrun]
        refine iff_of_false (fun hall => h.not_inside (by omega) hd hall.1) (not_not_intro ?_)
        exact ⟨[], d, blocks, rfl, Nat.zero_le _, hlong⟩
      · rw [longBlockWithin_cons (not_le.mp hlong)]
        by_cases hroom : d.length ≤ ds.remaining.toNat
        · have hrun : (Datastream.write d).run ds = .ok ((), ds.after d) := by
            rw [Datastream.run_write, if_pos (hcheck.mpr (.inl hroom))]
            rfl
          obtain ⟨hnext, hremaining⟩ := h.after hroom
          have hrest := ih hblocks hnext
          rw [BlocksInside, hremaining] at hrest
          rw [BlocksInside, along_cons_of_ok hrun, hrest]
          exact ⟨fun hall hboth => hall.2 hboth.2, fun hnot => ⟨h.inside hroom, fun hafter =>
            hnot ⟨hroom, hafter⟩⟩⟩
        · have hrun : (Datastream.write d).run ds = .error (.check "write") := by
            rw [Datastream.run_write, if_neg]
            rw [hcheck]
            omega
          exact iff_of_true (along_cons_of_error hrun) fun hboth => hroom hboth.1

end Constructor

/-! ## The representation invariant -/

/-- What is to hold of the key objects the library makes: `key` is packed by the
constructor, `bytes` are what a stream presents to `operator>>`. -/
structure KeyInvariant (place : Placement) {t : Ty} (key : Val t) (bytes : List Byte) : Prop where
  constructed : ∀ w length w', exec (mapKey place key) w = (.ok length, w') → length ≤ 32
  constructedInside : ∀ mem, packSize (keyProgram t key) ≤ 32 →
    BlocksInside place.key (blocksOf (keyProgram t key))
      (Datastream.init mem place.key (packSize (keyProgram t key)))
  read : ∀ target, (readMapKey bytes target).1 = .ok () →
    (readMapKey bytes target).2.2.key.length ≤ 32
  readInside : ∀ target, target.outside = [] → (readMapKey bytes target).2.2.outside = []
  roundTrip : ∀ (key : MapKey) (encoded rest : List Byte) (target : Target), key.length ≤ 32 →
    Emits (writeMapKey key) encoded →
    ∃ target', readMapKey (encoded ++ rest) target = (.ok (), rest, target') ∧
      target'.key.length = key.length ∧
      target'.key.bytes.toList.take key.length.toNat = key.bytes.toList.take key.length.toNat

/-- The length byte is at most `MAX_KEY_LENGTH`, or too few bytes follow it to
fill the array and one more. -/
def KeyFits : List Byte → Prop
  | [] => True
  | length :: rest => length.toNat ≤ 32 ∨ rest.length ≤ 32

/-- The packed length does not wrap to that of a key with a block of `2^31` bytes
or more within it. -/
def PackFits {t : Ty} (key : Val t) : Prop :=
  (packedKey t key).length % 2 ^ 32 ≤ 32 →
    ¬ LongBlockWithin ((packedKey t key).length % 2 ^ 32) (blocksOf (keyProgram t key))

theorem length_le_of_exec_mapKey {place : Placement} {t : Ty} {key : Val t} {w w' : World}
    {length : Byte} (h : exec (mapKey place key) w = (.ok length, w')) : length ≤ 32 := by
  rw [mapKey] at h
  by_cases hsize : packSize (keyProgram t key) ≤ 32
  · rw [decide_eq_true hsize, exec_bind_ok exec_check_true] at h
    obtain ⟨-, w₁, -, hlength⟩ := exists_of_exec_bind h
    cases hlength
    bv_omega
  · rw [decide_eq_false hsize, exec_bind_error exec_check_false] at h
    cases h

section Parts

variable {less : Comparators} {t : Ty} {key : Val t}

theorem blocksFit_keyProgram (ht : t.Serialisable) (hkey : WellFormed less t key) :
    BlocksFit (keyProgram t key) := by
  cases t with
  | carray e n => exact blocksFit_write (by decide : [1].length < _)
  | _ => exact blocksFit_serialize _ ht key hkey

theorem constructedInside_iff (ht : t.Serialisable) (hkey : WellFormed less t key) (array : Addr)
    (mem : Mem) :
    (packSize (keyProgram t key) ≤ 32 → BlocksInside array (blocksOf (keyProgram t key))
        (Datastream.init mem array (packSize (keyProgram t key)))) ↔ PackFits key := by
  have hsize : (packSize (keyProgram t key)).toNat = (packedKey t key).length % 2 ^ 32 := by
    rw [packSize_eq (emits_keyProgram key), BitVec.toNat_ofNat]
  have hremaining : (Datastream.init mem array (packSize (keyProgram t key))).remaining =
      packSize (keyProgram t key) := by
    simp only [Datastream.remaining, Datastream.init]
    bv_omega
  rw [PackFits, ← hsize]
  refine imp_congr_right fun hsmall => ?_
  have hstart : InArray array (Datastream.init mem array (packSize (keyProgram t key))) := by
    rw [InArray, hremaining]
    show (array - array).toNat + _ ≤ 32
    rw [BitVec.sub_self]
    exact (Nat.zero_add _).le.trans hsmall
  rw [blocksInside_iff (blocksFit_keyProgram ht hkey).lt hstart, hremaining]

end Parts

/-- A packed length that does not wrap leaves no room for such a block. -/
theorem packFits_of_lt {t : Ty} {key : Val t} (h : (packedKey t key).length < 2 ^ 32) :
    PackFits key := by
  rw [PackFits, Nat.mod_eq_of_lt h]
  rintro hsmall ⟨before, block, after, hblocks, -, hlong⟩
  have hbytes := (emits_keyProgram key).flatten_blocksOf
  rw [hblocks] at hbytes
  have hlength := congrArg List.length hbytes
  simp only [List.flatten_append, List.flatten_cons, List.length_append] at hlength
  omega

theorem readMapKey_cons (length : Byte) (rest : List Byte) (target : Target) :
    readMapKey (length :: rest) target =
      readElements length.toNat 0 rest
        { target with key := { target.key with length := length } } := by
  have hbyte : (readByte (σ := List Byte)).run (length :: rest) = .ok (length, rest) :=
    decodes_readByte length rest
  rw [readMapKey, hbyte]

/-- What the loop assigns is what the stream has, up to the length byte. -/
theorem readMapKey_outside (length : Byte) (rest : List Byte) (target : Target) :
    (readMapKey (length :: rest) target).2.2.outside = [] ↔
      target.outside = [] ∧ (length.toNat ≤ 32 ∨ rest.length ≤ 32) := by
  rw [readMapKey_cons, readElements_eq]
  split
  case isTrue henough =>
    show (Target.assignFrom _ _ _).outside = [] ↔ _
    rw [assignFrom_outside, Nat.zero_add, List.length_take, Nat.min_eq_left henough]
    refine and_congr_right fun _ => ?_
    constructor
    · rintro (hnil | hlength)
      · have hzero := congrArg List.length hnil
        rw [List.length_take, Nat.min_eq_left henough, List.length_nil] at hzero
        omega
      · exact .inl hlength
    · intro h
      right
      omega
  case isFalse hfew =>
    show (Target.assignFrom _ _ _).outside = [] ↔ _
    rw [assignFrom_outside, Nat.zero_add]
    refine and_congr_right fun _ => ?_
    constructor
    · rintro (rfl | hlength)
      · exact .inr (Nat.zero_le _)
      · exact .inr hlength
    · intro h
      right
      omega

theorem readInside_iff (bytes : List Byte) :
    (∀ target : Target, target.outside = [] → (readMapKey bytes target).2.2.outside = []) ↔
      KeyFits bytes := by
  cases bytes with
  | nil => exact iff_of_true (fun _ h => h) trivial
  | cons length rest =>
      constructor
      · intro h
        have hempty := h ⟨⟨0, .replicate 32 0⟩, []⟩ rfl
        exact ((readMapKey_outside length rest _).mp hempty).2
      · intro h target houtside
        exact (readMapKey_outside length rest target).mpr ⟨houtside, h⟩

theorem length_le_of_readMapKey {bytes : List Byte} (h : KeyFits bytes) (target : Target)
    (hrun : (readMapKey bytes target).1 = .ok ()) :
    (readMapKey bytes target).2.2.key.length ≤ 32 := by
  cases bytes with
  | nil => cases hrun
  | cons length rest =>
      rw [readMapKey_cons, readElements_eq] at hrun ⊢
      split at hrun
      case isTrue henough =>
        rw [if_pos henough]
        show (Target.assignFrom _ _ _).key.length ≤ 32
        rw [assignFrom_length]
        have hlength : length.toNat ≤ 32 := by
          rcases h with hlength | hrest
          · exact hlength
          · exact henough.trans hrest
        exact hlength
      case isFalse => cases hrun

theorem emits_writeMapKey (key : MapKey) :
    Emits (writeMapKey key) (key.length :: key.bytes.toList.take key.length.toNat) := by
  have helements := emits_writeEach (fun b => emits_write [b])
    (key.bytes.toList.take key.length.toNat)
  rw [List.flatMap_singleton'] at helements
  exact (emits_write [key.length]).bind helements

/-- What `operator<<` writes for a key within its array is read back. -/
theorem readMapKey_writeMapKey {key : MapKey} (hkey : key.length ≤ 32) {encoded : List Byte}
    (hencoded : Emits (writeMapKey key) encoded) (rest : List Byte) (target : Target) :
    ∃ target', readMapKey (encoded ++ rest) target = (.ok (), rest, target') ∧
      target'.key.length = key.length ∧
      target'.key.bytes.toList.take key.length.toNat =
        key.bytes.toList.take key.length.toNat := by
  have hbytes : encoded = key.length :: key.bytes.toList.take key.length.toNat :=
    hencoded.flatten_blocksOf.symm.trans (emits_writeMapKey key).flatten_blocksOf
  have hlength : (key.bytes.toList.take key.length.toNat).length = key.length.toNat := by
    rw [List.length_take, List.Vector.toList_length]
    exact Nat.min_eq_left hkey
  rw [hbytes, List.cons_append, readMapKey_cons, readElements_eq, if_pos (by simp [hlength]),
    List.take_left' hlength, List.drop_left' hlength]
  refine ⟨_, rfl, assignFrom_length _, ?_⟩
  have hassigned := @assignFrom_bytes
    { target with key := { target.key with length := key.length } }
    0 (key.bytes.toList.take key.length.toNat) (by rw [Nat.zero_add, hlength]; exact hkey)
  rwa [Nat.zero_add, hlength, List.take_zero, List.nil_append] at hassigned

/-- The invariant of the key objects holds exactly when the packed length does not
wrap around a block of `2^31` bytes or more, and no length byte above 32 comes with
enough bytes to run over the array. -/
theorem keyInvariant_iff {less : Comparators} {t : Ty} (ht : t.Serialisable) {key : Val t}
    (hkey : WellFormed less t key) (place : Placement) (bytes : List Byte) :
    KeyInvariant place key bytes ↔ PackFits key ∧ KeyFits bytes := by
  constructor
  · intro h
    exact ⟨(constructedInside_iff ht hkey place.key fun _ => 0).mp (h.constructedInside _),
      (readInside_iff bytes).mp h.readInside⟩
  · rintro ⟨hpack, hbytes⟩
    exact {
      constructed := fun _ _ _ => length_le_of_exec_mapKey
      constructedInside := fun mem => (constructedInside_iff ht hkey place.key mem).mpr hpack
      read := length_le_of_readMapKey hbytes
      readInside := (readInside_iff bytes).mpr hbytes
      roundTrip := fun _ _ rest target hlength hencoded =>
        readMapKey_writeMapKey hlength hencoded rest target }

/-- The text `a` packs into two bytes, and a stream presents a key of one. -/
theorem keyInvariant_text : KeyInvariant Sample.place (t := .string) [97] [1, 97] := by
  have hkey : WellFormed (fun _ _ _ => false) .string [(97 : Byte)] := Nat.lt_of_sub_pos (by decide)
  have hlength : (packedKey .string [(97 : Byte)]).length = 2 := by decide +kernel
  refine (keyInvariant_iff (t := .string) trivial hkey _ _).mpr
    ⟨packFits_of_lt ?_, .inl (by decide)⟩
  rw [hlength]
  decide

/-- A length byte of 33 makes `operator>>` assign an element the array does not have. -/
theorem not_forall_keyInvariant :
    ¬ ∀ (less : Comparators) (t : Ty) (key : Val t) (place : Placement) (bytes : List Byte),
      t.Serialisable → WellFormed less t key → KeyInvariant place key bytes := by
  intro hall
  have hinvariant := hall (fun _ _ _ => false) (.prim .bool) false Sample.place
    (33 :: List.replicate 33 0) trivial trivial
  have hinside := hinvariant.readInside ⟨⟨0, .replicate 32 0⟩, []⟩ rfl
  revert hinside
  decide

end FractalCdt.Contract
