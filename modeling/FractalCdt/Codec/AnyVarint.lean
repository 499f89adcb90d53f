/-
# Varints that no encoder wrote

The decoders take groups for as long as the top bit of a byte is set.  Five
groups fit the shift of a 32-bit operand, and of the fifth only the low bits get
through; what is read of a numeral is its value modulo `2 ^ 32`, and a sixth
byte is shifted by 35.
-/

import FractalCdt.Codec.Pointers
import FractalCdt.Math.Sleb128

namespace FractalCdt.Codec

open FractalCdt.Math

variable {w turns shift : ℕ} {v : BitVec w} {b : Byte} {bs rest : List Byte}

/-! ## The loop on a list -/

/-- What one turn takes from a byte. -/
theorem group_eq (b : Byte) :
    ((b &&& 0x7f#8).setWidth 32 : BitVec 32) = BitVec.ofNat 32 (b.toNat % 128) ∧
      (b &&& 0x80#8 ≠ 0#8 ↔ 128 ≤ b.toNat) := by
  have hb : b = BitVec.ofNat 8 b.toNat := by simp
  by_cases h : b.toNat < 128
  · obtain ⟨hgroup, hstop⟩ := group_of_last h
    rw [← hb] at hgroup hstop
    rw [hgroup, hstop, Nat.mod_eq_of_lt h]
    simp
    omega
  · have hlt := b.isLt
    have hsplit : b.toNat % 128 + 128 = b.toNat := by omega
    obtain ⟨hgroup, hmore⟩ := group_of_more (Nat.mod_lt b.toNat (by decide : 0 < 128))
    rw [hsplit, ← hb] at hgroup hmore
    exact ⟨hgroup, iff_of_true hmore (by omega)⟩

theorem run_readGroups_last (h : b.toNat < 128) :
    (readGroups (turns + 1) v shift).run (b :: rest) =
      .ok (v ||| (BitVec.ofNat 32 b.toNat <<< shift).setWidth w, rest) := by
  obtain ⟨hgroup, hstop⟩ := group_eq b
  rw [readGroups, StateT.run_bind, run_get_cons]
  show (if b &&& 0x80#8 ≠ 0#8 then _ else _ : StateT _ _ _).run rest = _
  rw [if_neg (by rw [hstop]; omega), hgroup, Nat.mod_eq_of_lt h]
  rfl

theorem run_readGroups_more (h : 128 ≤ b.toNat) :
    (readGroups (turns + 1) v shift).run (b :: rest) =
      (readGroups turns (v ||| (BitVec.ofNat 32 (b.toNat % 128) <<< shift).setWidth w)
        (shift + 7)).run rest := by
  obtain ⟨hgroup, hmore⟩ := group_eq b
  rw [readGroups, StateT.run_bind, run_get_cons]
  show (if b &&& 0x80#8 ≠ 0#8 then _ else _ : StateT _ _ _).run rest = _
  rw [if_pos (hmore.mpr h), hgroup]

/-- A byte that is read when the turns are used up is shifted too far. -/
theorem run_readGroups_overlong (hmore : ∀ c ∈ bs, 128 ≤ c.toNat) :
    (readGroups bs.length v shift).run (bs ++ b :: rest) = .error .undefinedShift := by
  induction bs generalizing v shift with
  | nil => rfl
  | cons c bs ih =>
      rw [List.length_cons, List.cons_append, run_readGroups_more (hmore c List.mem_cons_self)]
      exact ih fun d hd => hmore d (List.mem_cons_of_mem c hd)

/-- A numeral that the bytes break off is not read. -/
theorem run_readGroups_cut (hmore : ∀ c ∈ bs, 128 ≤ c.toNat) (hturns : bs.length ≤ turns) :
    (readGroups turns v shift).run bs = .error (.check "get") := by
  induction bs generalizing turns v shift with
  | nil => cases turns <;> rfl
  | cons c bs ih =>
      cases turns with
      | zero => cases hturns
      | succ turns =>
          rw [run_readGroups_more (hmore c List.mem_cons_self)]
          exact ih (fun d hd => hmore d (List.mem_cons_of_mem c hd)) (Nat.le_of_succ_le_succ hturns)

/-- A group above the bits already there counts as far as it fits the operand of the
shift. -/
theorem or_group_mod {g : ℕ} (hw : 32 ≤ w) (hshift : shift ≤ 32) (hv : v.toNat < 2 ^ shift) :
    v ||| (BitVec.ofNat 32 g <<< shift).setWidth w =
      BitVec.ofNat w ((v.toNat + g * 2 ^ shift) % 2 ^ 32) := by
  have hpow : 2 ^ (32 - shift) * 2 ^ shift = 2 ^ 32 := by
    rw [← pow_add]
    congr 1
    omega
  have hlow : g % 2 ^ (32 - shift) * 2 ^ shift = g * 2 ^ shift % 2 ^ 32 := by
    rw [← hpow, Nat.mul_mod_mul_right]
  have hword : BitVec.ofNat 32 g <<< shift = BitVec.ofNat 32 (g % 2 ^ (32 - shift)) <<< shift := by
    apply BitVec.eq_of_toNat_eq
    simp only [BitVec.toNat_shiftLeft, BitVec.toNat_ofNat, Nat.shiftLeft_eq, Nat.mod_mul_mod, hlow]
    exact (Nat.mod_mod _ _).symm
  have hfits : g % 2 ^ (32 - shift) * 2 ^ shift < 2 ^ 32 := by
    rw [hlow]
    exact Nat.mod_lt _ (by decide)
  have hsum : v.toNat + g % 2 ^ (32 - shift) * 2 ^ shift < 2 ^ 32 := by
    have hgroup : g % 2 ^ (32 - shift) + 1 ≤ 2 ^ (32 - shift) :=
      Nat.mod_lt g (Nat.two_pow_pos _)
    have htotal := Nat.mul_le_mul_right (2 ^ shift) hgroup
    rw [hpow, Nat.add_mul, Nat.one_mul] at htotal
    omega
  rw [hword, or_group_eq hw hv hfits, ← Nat.mod_eq_of_lt hsum, hlow, Nat.add_mod_mod]

/-- What is read of a numeral that the turns suffice for. -/
theorem run_readGroups_terminated (hw : 32 ≤ w) (hbs : Terminated bs)
    (hturns : bs.length ≤ turns) (hshift : shift + 7 * turns = 35) (hv : v.toNat < 2 ^ shift) :
    (readGroups turns v shift).run (bs ++ rest) =
      .ok (BitVec.ofNat w ((v.toNat + groupsValue bs * 2 ^ shift) % 2 ^ 32), rest) := by
  induction bs generalizing turns shift v with
  | nil => exact absurd rfl hbs.ne_nil
  | cons b bs ih =>
      cases turns with
      | zero => cases hturns
      | succ turns =>
          by_cases hlast : bs = []
          · subst hlast
            have hb : b.toNat < 128 := hbs
            have hvalue : groupsValue [b] = b.toNat := by simp [groupsValue, Nat.mod_eq_of_lt hb]
            rw [List.cons_append, run_readGroups_last hb, or_group_mod hw (by omega) hv, hvalue]
            rfl
          · obtain ⟨hmore, hrest⟩ := (terminated_cons hlast).mp hbs
            have hlength : bs.length ≤ turns := Nat.le_of_succ_le_succ hturns
            have hpos := List.length_pos_iff.mpr hlast
            have hgroup : b.toNat % 128 < 128 := Nat.mod_lt _ (by decide)
            have hpow : 2 ^ (shift + 7) = 128 * 2 ^ shift := by
              rw [pow_add, Nat.mul_comm]
              norm_num
            have hgroup' : b.toNat % 128 * 2 ^ shift ≤ 127 * 2 ^ shift :=
              Nat.mul_le_mul_right _ (Nat.le_of_lt_succ hgroup)
            have hroom : 2 ^ (shift + 7) ≤ 2 ^ 32 := Nat.pow_le_pow_right (by decide) (by omega)
            have hwide : 2 ^ 32 ≤ 2 ^ w := Nat.pow_le_pow_right (by decide) hw
            -- Before the fifth group nothing is cut off.
            have hword : (BitVec.ofNat w (v.toNat + b.toNat % 128 * 2 ^ shift)).toNat =
                v.toNat + b.toNat % 128 * 2 ^ shift := by
              rw [BitVec.toNat_ofNat, Nat.mod_eq_of_lt (by omega)]
            rw [List.cons_append, run_readGroups_more hmore, or_group_eq hw hv (by omega),
              ih hrest hlength (by omega) (by rw [hword]; omega), hword, hpow, groupsValue]
            congr 4
            ring

/-! ## The decoders on a list -/

/-- The signed number that `n` stands for when its lowest bit is the sign. -/
def zigzagInverse (n : ℕ) : ℤ := if n % 2 = 0 then n / 2 else -((n + 1) / 2)

theorem toInt_unzigzag (z : BitVec 32) : (unzigzag z).toInt = zigzagInverse z.toNat := by
  have hlt := z.isLt
  have hhalf : (z >>> 1).toNat = z.toNat / 2 := by simp [Nat.shiftRight_eq_div_pow]
  rw [unzigzag_eq, zigzagInverse, BitVec.toInt_eq_toNat_cond]
  by_cases heven : z.toNat % 2 = 0
  · rw [if_pos heven, if_pos heven, hhalf, if_pos (by omega)]
    simp
  · have hnot : (~~~(z >>> 1)).toNat = 2 ^ 32 - 1 - z.toNat / 2 := by rw [BitVec.toNat_not, hhalf]
    rw [if_neg heven, if_neg heven, hnot, if_neg (by omega)]
    omega

theorem zigzagInverse_zigzag (v : BitVec 32) : zigzagInverse (zigzag v).toNat = v.toInt := by
  rw [← toInt_unzigzag, unzigzag_zigzag]

theorem run_readUnsignedInt_terminated (hbs : Terminated bs) (hlength : bs.length ≤ 5) :
    readUnsignedInt.run (bs ++ rest) = .ok (BitVec.ofNat 32 (groupsValue bs), rest) := by
  have hgroups := @run_readGroups_terminated 64 5 0 0 bs rest (by decide) hbs hlength rfl
    (by decide)
  rw [readUnsignedInt, StateT.run_bind, hgroups]
  show Except.ok _ = _
  congr 2
  apply BitVec.eq_of_toNat_eq
  simp

theorem run_readSignedInt_terminated (hbs : Terminated bs) (hlength : bs.length ≤ 5) :
    readSignedInt.run (bs ++ rest) = .ok (unzigzag (BitVec.ofNat 32 (groupsValue bs)), rest) := by
  have hgroups := @run_readGroups_terminated 32 5 0 0 bs rest le_rfl hbs hlength rfl (by decide)
  rw [readSignedInt, StateT.run_bind, hgroups]
  show Except.ok (unzigzag _, _) = _
  congr 3
  apply BitVec.eq_of_toNat_eq
  simp

/-- Both decoders fail where the loop does. -/
theorem run_read_error {e : Fault} {bytes : List Byte}
    (h : ∀ {w : ℕ} (v : BitVec w), (readGroups 5 v 0).run bytes = .error e) :
    readUnsignedInt.run bytes = .error e ∧ readSignedInt.run bytes = .error e := by
  constructor
  · rw [readUnsignedInt, StateT.run_bind, h]
    rfl
  · rw [readSignedInt, StateT.run_bind, h]
    rfl

/-! ## The decoders on a stream -/

/-- The decoder aborts, or it has consumed the numeral, whose value fits 32 bits, and
answers what the value stands for. -/
def Decoded (read : Datastream.M (BitVec 32)) (src : Datastream) (bs : List Byte)
    (means : BitVec 32 → Prop) : Prop :=
  (∃ msg, read.run src = .error (.check msg)) ∨
    ∃ v, read.run src = .ok (v, { src with pos := src.pos + BitVec.ofNat 32 bs.length }) ∧
      groupsValue bs < 2 ^ 32 ∧ means v

/-- Both decoders answer what the numeral in front of these bytes means, and shift by
less than 32. -/
structure MeansWhatItSays (src : Datastream) (bytes : List Byte) : Prop where
  unsigned : ∀ bs rest, bytes = bs ++ rest → Terminated bs →
    Decoded readUnsignedInt src bs fun v => v.toNat = groupsValue bs
  signed : ∀ bs rest, bytes = bs ++ rest → Terminated bs →
    Decoded readSignedInt src bs fun v => v.toInt = zigzagInverse (groupsValue bs)
  defined : readUnsignedInt.run src ≠ .error .undefinedShift ∧
    readSignedInt.run src ≠ .error .undefinedShift

variable {src : Datastream} {bytes : List Byte}

theorem simulates_readUnsignedInt (origin : Datastream) :
    Simulates (Datastream.Presents origin) readUnsignedInt readUnsignedInt :=
  (alike_presents origin).reads.readUnsignedInt

theorem simulates_readSignedInt (origin : Datastream) :
    Simulates (Datastream.Presents origin) readSignedInt readSignedInt :=
  (alike_presents origin).reads.bind ((alike_presents origin).reads.readGroups 5 _ 0) fun _ =>
    (alike_presents origin).reads.pure _

theorem decoded_of_decodes {read : Datastream.M (BitVec 32)}
    {read' : StateT (List Byte) (Except Fault) (BitVec 32)} {v : BitVec 32}
    {means : BitVec 32 → Prop} (hsim : Simulates (Datastream.Presents src) read read')
    (hdec : Decodes read' bs v) (hsrc : src.Holds (bs ++ rest)) (hvalue : groupsValue bs < 2 ^ 32)
    (hmeans : means v) : Decoded read src bs means :=
  .inr ⟨v, (Datastream.run_of_decodes hsim hdec hsrc).1, hvalue, hmeans⟩

/-- Some of the first five bytes ends the numeral, or there is no sixth byte. -/
def NotOverlong (bytes : List Byte) : Prop := bytes.length ≤ 5 ∨ ∃ b ∈ bytes.take 5, b.toNat < 128

theorem NotOverlong.length_le (h : NotOverlong (bs ++ rest)) (hbs : Terminated bs) :
    bs.length ≤ 5 := by
  by_contra hlong
  rcases h with hlength | ⟨b, hb, hlt⟩
  · rw [List.length_append] at hlength
    omega
  · rw [List.take_append_of_le_length (by omega)] at hb
    exact absurd (hbs.more (by omega) b hb) (by omega)

theorem NotOverlong.length_le_of_more (h : NotOverlong bytes)
    (hmore : ∀ b ∈ bytes, 128 ≤ b.toNat) : bytes.length ≤ 5 := by
  rcases h with hlength | ⟨b, hb, hlt⟩
  · exact hlength
  · exact absurd (hmore b (List.mem_of_mem_take hb)) (by omega)

/-- A numeral that goes on beyond the fifth byte is not read. -/
theorem run_readGroups_of_overlong {v : BitVec w} (h : ¬ NotOverlong bytes) :
    (readGroups 5 v 0).run bytes = .error .undefinedShift := by
  simp only [NotOverlong, not_or, not_exists, not_and, not_lt, not_le] at h
  obtain ⟨hlength, hmore⟩ := h
  have hfive : (bytes.take 5).length = 5 := by
    rw [List.length_take]
    omega
  obtain ⟨b, rest, hrest⟩ := List.exists_cons_of_ne_nil
    (List.ne_nil_of_length_pos (show 0 < (bytes.drop 5).length by rw [List.length_drop]; omega))
  have hrun := @run_readGroups_overlong w 0 v b (bytes.take 5) rest hmore
  rwa [hfive, ← hrest, List.take_append_drop] at hrun

theorem undefinedShift_of_overlong (hsrc : src.Holds bytes) (h : ¬ NotOverlong bytes) :
    readUnsignedInt.run src = .error .undefinedShift :=
  (simulates_readUnsignedInt src).run_error hsrc.presents
    (run_read_error fun _ => run_readGroups_of_overlong h).1

theorem defined_of_notOverlong (hsrc : src.Holds bytes) (h : NotOverlong bytes) :
    readUnsignedInt.run src ≠ .error .undefinedShift ∧
      readSignedInt.run src ≠ .error .undefinedShift := by
  rcases exists_terminated bytes with hmore | ⟨bs, rest, rfl, hbs⟩
  · obtain ⟨hunsigned, hsigned⟩ := run_read_error fun v =>
      run_readGroups_cut hmore (h.length_le_of_more hmore)
    rw [(simulates_readUnsignedInt src).run_error hsrc.presents hunsigned,
      (simulates_readSignedInt src).run_error hsrc.presents hsigned]
    simp
  · have hlength := h.length_le hbs
    rw [(Datastream.run_of_decodes (simulates_readUnsignedInt src)
        (fun rest => run_readUnsignedInt_terminated hbs hlength) hsrc).1,
      (Datastream.run_of_decodes (simulates_readSignedInt src)
        (fun rest => run_readSignedInt_terminated hbs hlength) hsrc).1]
    simp

/-- The decoders mean what the bytes say when the numeral has at most five bytes and a
value below `2 ^ 32`. -/
theorem meansWhatItSays_iff (hsrc : src.Holds bytes) :
    MeansWhatItSays src bytes ↔ NotOverlong bytes ∧
      ∀ bs rest, bytes = bs ++ rest → Terminated bs → groupsValue bs < 2 ^ 32 := by
  constructor
  · intro h
    have hshort : NotOverlong bytes := by
      by_contra hlong
      exact h.defined.1 (undefinedShift_of_overlong hsrc hlong)
    refine ⟨hshort, ?_⟩
    rintro bs rest rfl hbs
    have hrun := (Datastream.run_of_decodes (simulates_readUnsignedInt src)
      (fun rest => run_readUnsignedInt_terminated hbs (hshort.length_le hbs)) hsrc).1
    rcases h.unsigned bs rest rfl hbs with ⟨msg, habort⟩ | ⟨v, -, hvalue, -⟩
    · rw [hrun] at habort
      cases habort
    · exact hvalue
  · rintro ⟨hshort, hvalue⟩
    refine ⟨?_, ?_, defined_of_notOverlong hsrc hshort⟩
    · rintro bs rest rfl hbs
      have hlt := hvalue bs rest rfl hbs
      apply decoded_of_decodes (simulates_readUnsignedInt src)
        (fun rest => run_readUnsignedInt_terminated hbs (hshort.length_le hbs)) hsrc hlt
      rw [BitVec.toNat_ofNat, Nat.mod_eq_of_lt hlt]
    · rintro bs rest rfl hbs
      have hlt := hvalue bs rest rfl hbs
      apply decoded_of_decodes (simulates_readSignedInt src)
        (fun rest => run_readSignedInt_terminated hbs (hshort.length_le hbs)) hsrc hlt
      rw [toInt_unzigzag, BitVec.toNat_ofNat, Nat.mod_eq_of_lt hlt]

/-- 300 and what follows it. -/
theorem meansWhatItSays_iff_300 :
    let src := Datastream.init (Mem.store (fun _ => 0) 32 [0xac, 0x02, 77]) 32 3
    MeansWhatItSays src [0xac, 0x02, 77] := by
  intro src
  apply (meansWhatItSays_iff ⟨by decide, by decide +kernel⟩).mpr
  refine ⟨.inl (by decide), ?_⟩
  intro bs rest hsplit _
  have hlength : bs.length ≤ 3 := by
    have htotal := congrArg List.length hsplit
    rw [List.length_append] at htotal
    simp at htotal
    omega
  have hpow : 128 ^ bs.length ≤ 128 ^ 3 := Nat.pow_le_pow_right (by decide) hlength
  exact (groupsValue_lt bs).trans_le (hpow.trans (by decide))

/-- Of the fifth byte three bits are dropped without a word. -/
theorem not_forall_meansWhatItSays :
    ¬ ∀ src bytes, src.Holds bytes → MeansWhatItSays src bytes := by
  intro hall
  have hsrc : (Datastream.init
      (Mem.store (fun _ => 0) 32 [0xff, 0xff, 0xff, 0xff, 0x7f]) 32 5).Holds
      [0xff, 0xff, 0xff, 0xff, 0x7f] := ⟨by decide, by decide +kernel⟩
  have hbs : Terminated [0xff, 0xff, 0xff, 0xff, 0x7f] := by
    simp [Terminated]
  have hrun := (@Datastream.run_of_decodes _ _ _ _ _ [] _ (simulates_readUnsignedInt _)
    (fun rest => run_readUnsignedInt_terminated hbs le_rfl) hsrc).1
  rcases (hall _ _ hsrc).unsigned _ [] rfl hbs with ⟨msg, habort⟩ | ⟨v, -, hvalue, -⟩
  · rw [hrun] at habort
    cases habort
  · exact absurd hvalue (by decide)

end FractalCdt.Codec
