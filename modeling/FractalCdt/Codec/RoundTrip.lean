/-
# Reading back what was written

The bytes of `v` followed by anything decode to `v`, overwritten onto the object
that is read into, and leave what follows.  The statement is an induction over
the type on the list of bytes still to come; pointers simulate the list.
-/

import FractalCdt.Codec.Overwrite

namespace FractalCdt.Codec

open FractalCdt.Math

/-! ## Primitive types -/

theorem Prim.ofBytes_bytes (p : Prim) (v : p.Val) : p.ofBytes (p.bytes v) = v := by
  cases p with
  | bool =>
      change Bool at v
      cases v <;> rfl
  | char => exact ofNat_ofLeBytes_leBytes v
  | int s w => exact ofNat_ofLeBytes_leBytes v
  | enum tag w => exact ofNat_ofLeBytes_leBytes v

theorem Prim.ofBlock_bytes (p : Prim) {n : ℕ} (v : List.Vector p.Val n) :
    p.ofBlock n (v.toList.flatMap p.bytes) = v := by
  induction v using List.Vector.inductionOn with
  | nil => rfl
  | cons ih =>
      rename_i n x v
      rw [List.Vector.toList_cons, List.flatMap_cons, Prim.ofBlock,
        List.take_left' (p.length_bytes x), List.drop_left' (p.length_bytes x), p.ofBytes_bytes, ih]

theorem decodes_readPrim (p : Prim) (v : p.Val) : Decodes (readPrim p) (p.bytes v) v := by
  have hlength : (BitVec.ofNat 32 p.size).toNat = (p.bytes v).length := by
    rw [p.length_bytes, BitVec.toNat_ofNat, Nat.mod_eq_of_lt
      (Nat.lt_of_le_of_lt p.size_le (by decide))]
  have hread := (decodes_read hlength).bind_pure p.ofBytes
  rwa [p.ofBytes_bytes] at hread

theorem decodes_readByte (b : Byte) : Decodes readByte [b] b := by
  have hblock : Decodes (ByteSource.read 1) [b] [b] := decodes_read rfl
  have hread := hblock.bind_pure fun bs => BitVec.ofNat 8 (ofLeBytes bs)
  have hbyte : BitVec.ofNat 8 (ofLeBytes [b]) = b := by
    rw [ofLeBytes, ofLeBytes, Nat.mul_zero, Nat.add_zero, BitVec.ofNat_toNat, BitVec.setWidth_eq]
  rwa [hbyte] at hread

theorem decodes_readName (v : BitVec 64) :
    Decodes (do
      let bs ← ByteSource.read 8
      return BitVec.ofNat 64 (ofLeBytes bs)) (leBytes 8 v.toNat) v := by
  have hlength : (8 : BitVec 32).toNat = (leBytes 8 v.toNat).length := by
    rw [length_leBytes]
    rfl
  have hvalue : BitVec.ofNat 64 (ofLeBytes (leBytes 8 v.toNat)) = v :=
    ofNat_ofLeBytes_leBytes (n := 8) v
  have hread := (decodes_read hlength).bind_pure fun bs => BitVec.ofNat 64 (ofLeBytes bs)
  rwa [hvalue] at hread

/-! ## Containers -/

theorem decodes_size {α : Type} {v : List α} (hfits : SizeFits v) :
    ∃ s : BitVec 32, s.toNat = v.length ∧ Decodes readUnsignedInt (uleb (v.length % 2 ^ 32)) s := by
  refine ⟨BitVec.ofNat 32 v.length, ?_, ?_⟩
  · rw [BitVec.toNat_ofNat, Nat.mod_eq_of_lt hfits]
  · rw [Nat.mod_eq_of_lt hfits]
    exact decodes_readUnsignedInt hfits

theorem decodes_readString {v : List Byte} (hfits : SizeFits v) :
    Decodes readString (encodeSequence (fun b => [b]) v) v := by
  obtain ⟨s, hs, hsize⟩ := decodes_size hfits
  rw [encodeSequence, List.flatMap_singleton']
  exact hsize.bind (decodes_read hs)

theorem decodes_readSequence {t : Ty} {each : Val t → StateT (List Byte) (Except Fault) (Val t)}
    {v : List (Val t)} (hfits : SizeFits v)
    (h : ∀ d, ∀ x ∈ v, Decodes (each d) (encode t x) (overwrite t d x)) (dst : List (Val t)) :
    Decodes (readSequence t each dst) (encodeSequence (encode t) v)
      (List.zipWith (overwrite t) (resize t dst v.length) v) := by
  obtain ⟨s, hs, hsize⟩ := decodes_size hfits
  refine hsize.bind ?_
  rw [hs]
  exact Decodes.mapM (length_resize t dst v.length) h

theorem zipWith_snd_eq {α β : Type} {xs : List α} {ys : List β} (h : xs.length = ys.length) :
    List.zipWith (fun _ y => y) xs ys = ys := by
  induction xs generalizing ys with
  | nil =>
      cases ys with
      | nil => rfl
      | cons y ys => cases h
  | cons x xs ih =>
      cases ys with
      | nil => cases h
      | cons y ys => rw [List.zipWith_cons_cons, ih (Nat.succ.inj h)]

theorem decodes_readVector {t : Ty} {each : Val t → StateT (List Byte) (Except Fault) (Val t)}
    {v : List (Val t)} (hfits : SizeFits v)
    (h : ∀ d, ∀ x ∈ v, Decodes (each d) (encode t x) (overwrite t d x)) (dst : List (Val t)) :
    Decodes (readVector t each dst) (encodeSequence (encode t) v)
      (List.zipWith (overwrite t) (resize t dst v.length) v) := by
  by_cases hchar : t = .prim .char
  · subst hchar
    have heach : encode (.prim .char) = fun c : Byte => [c] := funext bytes_char
    have hall : List.zipWith (overwrite (.prim .char)) (resize (.prim .char) dst v.length) v = v :=
      zipWith_snd_eq (length_resize _ dst v.length)
    rw [heach, hall]
    exact decodes_readString hfits
  · have hloop : readVector t each dst = readSequence t each dst := by
      cases t with
      | prim p =>
          cases p with
          | char => exact absurd rfl hchar
          | _ => rfl
      | _ => rfl
    rw [hloop]
    exact decodes_readSequence hfits h dst

/-- Emplacing the elements of a sorted container one by one rebuilds it. -/
theorem decodes_readOrdered {α κ : Type} {less : κ → κ → Bool} (hless : StrictTotal less)
    {key : α → κ} {each : StateT (List Byte) (Except Fault) α} {bytes : α → List Byte} {v : List α}
    (hfits : SizeFits v) (hsorted : Sorted less key v) (h : ∀ x ∈ v, Decodes each (bytes x) x) :
    Decodes (readOrdered less key each) (encodeSequence bytes v) v := by
  obtain ⟨s, hs, hsize⟩ := decodes_size hfits
  have hloop : Decodes (iterateM (fun xs => do return emplace less key (← each) xs) v.length [])
      (v.flatMap bytes) (v.foldl (fun xs x => emplace less key x xs) []) := Decodes.iterateM h []
  rw [← hs, foldl_emplace hless hsorted, List.nil_append] at hloop
  exact hsize.bind hloop

theorem decodes_readCArray {t : Ty} {n : ℕ} (ht : (Ty.carray t n).Serialisable)
    {each : Val t → StateT (List Byte) (Except Fault) (Val t)} (dst v : List.Vector (Val t) n)
    (h : ∀ d, ∀ x ∈ v.toList, Decodes (each d) (encode t x) (overwrite t d x)) :
    Decodes (readCArray n t each dst) (encodeSequence (encode t) v.toList)
      (.map₂ (overwrite t) dst v) := by
  obtain ⟨hn, hsizeof, -⟩ := ht
  have hfits : SizeFits v.toList := by
    rw [SizeFits, v.toList_length]
    exact hn
  obtain ⟨s, hs, hsize⟩ := decodes_size hfits
  rw [v.toList_length] at hs
  have hcheck : Decodes (check (n == s.toNat) "T[] size and unpacked size don't match" :
      StateT (List Byte) (Except Fault) Unit) [] () := by
    rw [check, hs, beq_self_eq_true, if_pos rfl]
    exact decodes_pure ()
  have hloop : Decodes (do
      let s ← readUnsignedInt
      check (n == s.toNat) "T[] size and unpacked size don't match"
      dst.mmap each) (encodeSequence (encode t) v.toList) (.map₂ (overwrite t) dst v) :=
    hsize.bind (hcheck.bind (Decodes.mmap dst v h))
  cases t with
  | prim p =>
      have hall : List.Vector.map₂ (overwrite (.prim p)) dst v = v := by
        apply List.Vector.toList_injective
        have hlength := dst.toList_length.trans v.toList_length.symm
        cases dst
        cases v
        exact zipWith_snd_eq hlength
      have hblock : (BitVec.ofNat 32 (n * p.size)).toNat = (v.toList.flatMap p.bytes).length := by
        have hlength : (v.toList.flatMap p.bytes).length = v.toList.length * p.size :=
          p.length_flatMap_bytes v.toList
        rw [v.toList_length] at hlength
        rw [BitVec.toNat_ofNat, Nat.mod_eq_of_lt (hsizeof p rfl)]
        exact hlength.symm
      have hread := (decodes_read hblock).bind_pure (p.ofBlock n)
      have hvals : p.ofBlock n (v.toList.flatMap p.bytes) = v := p.ofBlock_bytes v
      rw [hvals] at hread
      rw [hall]
      exact hsize.bind (hcheck.bind hread)
  | _ => exact hloop

/-- The fixed-length byte blocks of `address` and `checksum256`. -/
theorem decodes_byteBlock {n : ℕ} (dst v : List.Vector Byte n) :
    Decodes (dst.mmap fun _ => readByte) v.toList v := by
  have hread : Decodes (dst.mmap fun _ => readByte) (v.toList.flatMap fun b => [b])
      (.map₂ (fun _ b => b) dst v) := Decodes.mmap dst v fun _ b _ => decodes_readByte b
  have hall : List.Vector.map₂ (fun _ b => b) dst v = v := by
    apply List.Vector.toList_injective
    have hlength := dst.toList_length.trans v.toList_length.symm
    cases dst
    cases v
    exact zipWith_snd_eq hlength
  rwa [List.flatMap_singleton', hall] at hread

/-! ## The whole universe -/

theorem altIndex_lt (ts : List Ty) (v : Alts ts) : altIndex ts v < ts.length := by
  induction ts with
  | nil => cases v
  | cons t ts ih =>
      cases v with
      | inl x => exact Nat.succ_pos _
      | inr alt => exact Nat.succ_lt_succ (ih alt)

variable {less : Comparators}

theorem decodes_readOptional_some {α : Type} {each : StateT (List Byte) (Except Fault) α}
    {bytes : List Byte} {a : α} (h : Decodes each bytes a) (dst : Option α) :
    Decodes (readOptional each dst) (1 :: bytes) (some a) := by
  refine (decodes_readByte 1).bind ?_
  rw [if_pos (by decide), map_eq_pure_bind]
  exact h.bind_pure some

section Alternatives

variable {α β : Type} {this : StateT (List Byte) (Except Fault) α}
  {others : StateT (List Byte) (Except Fault) β} {here : Bool} {bytes : List Byte}

theorem decodes_readAlternative_inl {a : α} (hhere : here = true) (h : Decodes this bytes a) :
    Decodes (readAlternative here this others) bytes (Sum.inl a) := by
  rw [readAlternative, if_pos hhere, map_eq_pure_bind]
  exact h.bind_pure Sum.inl

theorem decodes_readAlternative_inr {b : β} (hhere : here = false) (h : Decodes others bytes b) :
    Decodes (readAlternative here this others) bytes (Sum.inr b) := by
  rw [readAlternative, hhere, if_neg Bool.false_ne_true, map_eq_pure_bind]
  exact h.bind_pure Sum.inr

end Alternatives

mutual

/-- Reading the bytes of `v` into `dst` takes exactly them. -/
theorem decodes_deserialize : (t : Ty) → t.Serialisable → Ordered less t → (dst v : Val t) →
    WellFormed less t v → Decodes (deserialize less t dst) (encode t v) (overwrite t dst v)
  | .prim p, _, _, _, v, _ => decodes_readPrim p v
  | .unsignedInt, _, _, _, (v : BitVec 32), _ => by
      have hread := decodes_readUnsignedInt v.isLt
      rwa [BitVec.ofNat_toNat, BitVec.setWidth_eq] at hread
  | .signedInt, _, _, _, v, _ => decodes_readSignedInt v
  | .name, _, _, _, (v : BitVec 64), _ => by
      exact decodes_readName v
  | .address, _, _, dst, v, _ => decodes_byteBlock dst v
  | .checksum256, _, _, dst, v, _ => decodes_byteBlock dst v
  | .string, _, _, _, _, hv => decodes_readString hv
  | .vector t, ht, hless, dst, _, hv =>
      decodes_readVector hv.1 (fun d x hx => decodes_deserialize t ht.2 hless d x (hv.2 x hx)) dst
  | .list t, ht, hless, dst, _, hv =>
      decodes_readSequence hv.1 (fun d x hx => decodes_deserialize t ht hless d x (hv.2 x hx)) dst
  | .deque t, ht, hless, dst, _, hv =>
      decodes_readSequence hv.1 (fun d x hx => decodes_deserialize t ht hless d x (hv.2 x hx)) dst
  | .set t, ht, hless, _, _, hv =>
      decodes_readOrdered hless.1 hv.1 hv.2.1 fun x hx => by
        have hx := decodes_deserialize t ht hless.2 (init t) x (hv.2.2 x hx)
        rwa [overwrite_init] at hx
  | .map k t, ht, hless, _, _, hv =>
      decodes_readOrdered hless.1 hv.1 hv.2.1 fun x hx => by
        obtain ⟨hkey, hvalue⟩ := hv.2.2 x hx
        have hkey := decodes_deserialize k ht.1 hless.2.1 (init k) x.1 hkey
        have hvalue := decodes_deserialize t ht.2 hless.2.2 (init t) x.2 hvalue
        rw [overwrite_init] at hkey hvalue
        exact hkey.bind (hvalue.bind_pure _)
  | .pair a b, ht, hless, _, (v : Val a × Val b), hv => by
      have h1 := decodes_deserialize a ht.1 hless.1 (init a) v.1 hv.1
      have h2 := decodes_deserialize b ht.2 hless.2 (init b) v.2 hv.2
      rw [overwrite_init] at h1 h2
      exact h1.bind (h2.bind_pure _)
  | .tuple ts, ht, hless, dst, v, hv => decodes_deserializeFields ts ht hless dst v hv
  | .optional t, ht, hless, dst, (v : Option (Val t)), hv => by
      cases v with
      | none => exact (decodes_readByte 0).bind (decodes_pure dst)
      | some x =>
          have hval := decodes_deserialize t ht hless (init t) x (hv x rfl)
          rw [overwrite_init] at hval
          exact decodes_readOptional_some hval dst
  | .variant t ts, ht, hless, _, (v : Val t ⊕ Alts ts), hv => by
      obtain ⟨-, hcount, ht, hts⟩ := ht
      cases v with
      | inl x =>
          have hval := decodes_deserialize t ht hless.1 (init t) x hv
          rw [overwrite_init] at hval
          exact (decodes_readUnsignedInt (x := 0) (by decide)).bind
            (decodes_readAlternative_inl rfl hval)
      | inr alt =>
          have hlt := altIndex_lt ts alt
          have hindex : altIndex ts alt + 1 < 2 ^ 31 := by
            rw [List.length_cons] at hcount
            omega
          have hword : (altIndex ts alt + 1) % 2 ^ 32 = altIndex ts alt + 1 :=
            Nat.mod_eq_of_lt (by omega)
          have hint : (BitVec.ofNat 32 ((altIndex ts alt + 1) % 2 ^ 32)).toInt =
              (1 + altIndex ts alt : ℕ) := by
            rw [hword, BitVec.toInt_eq_toNat_of_lt] <;> rw [BitVec.toNat_ofNat] <;> omega
          refine (decodes_readUnsignedInt (Nat.mod_lt _ (by decide))).bind ?_
          have hval := decodes_deserializeAlt ts hts hless.2 1 alt hv
          rw [← hint] at hval
          apply decodes_readAlternative_inr _ hval
          rw [hint, beq_eq_false_iff_ne]
          omega
  | .array t _, ht, hless, dst, v, hv =>
      Decodes.mmap dst v fun d x hx => decodes_deserialize t ht hless d x (hv x hx)
  | .carray t _, ht, hless, dst, v, hv =>
      decodes_readCArray ht dst v fun d x hx => decodes_deserialize t ht.2.2 hless d x (hv x hx)
  | .struct _ ts, ht, hless, dst, v, hv => decodes_deserializeFields ts ht hless dst v hv

theorem decodes_deserializeFields : (ts : List Ty) → AllSerialisable ts → AllOrdered less ts →
    (dst v : Vals ts) → AllWellFormed less ts v →
    Decodes (deserializeFields less ts dst) (encodeFields ts v) (overwriteFields ts dst v)
  | [], _, _, _, _, _ => decodes_pure ()
  | t :: ts, ht, hless, dst, v, hv => by
      have hfield := decodes_deserialize t ht.1 hless.1 dst.1 v.1 hv.1
      have hfields := decodes_deserializeFields ts ht.2 hless.2 dst.2 v.2 hv.2
      exact hfield.bind (hfields.bind_pure _)

/-- An alternative is found under its index. -/
theorem decodes_deserializeAlt : (ts : List Ty) → AllSerialisable ts → AllOrdered less ts →
    (I : ℕ) → (v : Alts ts) → AltWellFormed less ts v →
    Decodes (deserializeAlt less ts I (I + altIndex ts v : ℕ)) (encodeAlt ts v) v
  | [], _, _, _, v, _ => nomatch v
  | t :: ts, ht, hless, I, (v : Val t ⊕ Alts ts), hv => by
      cases v with
      | inl x =>
          have hval := decodes_deserialize t ht.1 hless.1 (init t) x hv
          rw [overwrite_init] at hval
          exact decodes_readAlternative_inl (beq_self_eq_true (I : ℤ)) hval
      | inr alt =>
          have hval := decodes_deserializeAlt ts ht.2 hless.2 (I + 1) alt hv
          have hindex : I + 1 + altIndex ts alt = I + (altIndex ts alt + 1) := by omega
          rw [hindex] at hval
          apply decodes_readAlternative_inr _ hval
          show (((I + (altIndex ts alt + 1) : ℕ) : ℤ) == (I : ℤ)) = false
          rw [beq_eq_false_iff_ne]
          omega

end

end FractalCdt.Codec
