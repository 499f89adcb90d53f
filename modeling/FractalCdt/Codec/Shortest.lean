/-
# The varints that the encoders write

Both encoders write the shortest numeral of a number: the value itself, or the
zigzag of it, which takes the small magnitudes to the small numbers.  A decoder that
reads the value from other bytes has read at least as many.
-/

import FractalCdt.Codec.AnyVarint
import FractalCdt.Math.Numerals

namespace FractalCdt.Codec

open FractalCdt.Math

/-- The bytes an encoder emits for a value. -/
def encoding (write : BitVec 32 → WriteProgram Fault) (v : BitVec 32) : List Byte :=
  (blocksOf (write v)).flatten

/-- The encoder writes the shortest numeral of the number that stands for the value, and of a value
that is larger no shorter one. -/
structure Shortest (write : BitVec 32 → WriteProgram Fault)
    (read : StateT (List Byte) (Except Fault) (BitVec 32)) (number magnitude : BitVec 32 → ℕ) :
    Prop where
  emits : ∀ v, Emits (write v) (encoding write v)
  length : ∀ v, 1 ≤ (encoding write v).length ∧ (encoding write v).length ≤ 5
  terminated : ∀ v, Terminated (encoding write v)
  last : ∀ v, (encoding write v).getLast? ≠ some 0 ∨ encoding write v = [0]
  denotes : ∀ v, groupsValue (encoding write v) = number v ∧ Decodes read (encoding write v) v
  shortest : ∀ v bs, Terminated bs → groupsValue bs = number v →
    (encoding write v).length ≤ bs.length
  shortestRead : ∀ v bs, Decodes read bs v → (encoding write v).length ≤ bs.length
  grows : ∀ v v', magnitude v < magnitude v' →
    (encoding write v).length ≤ (encoding write v').length

/-! ## What a decoder reads a value from -/

section Reading

variable {w : ℕ} {bs : List Byte} {v : BitVec 32}

/-- Bytes that the loop reads to their end are a numeral of at most five. -/
theorem terminated_of_run_readGroups (hw : 32 ≤ w) {u : BitVec w}
    (h : (readGroups 5 (0 : BitVec w) 0).run bs = .ok (u, [])) :
    Terminated bs ∧ bs.length ≤ 5 := by
  by_cases hshort : NotOverlong bs
  · rcases exists_terminated bs with hmore | ⟨front, rest, rfl, hfront⟩
    · rw [run_readGroups_cut hmore (hshort.length_le_of_more hmore)] at h
      cases h
    · have hlength := hshort.length_le hfront
      rw [run_readGroups_terminated hw hfront hlength rfl (by simp)] at h
      have hrest : rest = [] := congrArg Prod.snd (Except.ok.inj h)
      rw [hrest, List.append_nil]
      exact ⟨hfront, hlength⟩
  · rw [run_readGroups_of_overlong hshort] at h
    cases h

theorem run_readGroups_of_run_bind {f : BitVec w → BitVec 32}
    (h : (readGroups 5 (0 : BitVec w) 0 >>= fun u => pure (f u) :
      StateT (List Byte) (Except Fault) (BitVec 32)).run bs = .ok (v, [])) :
    ∃ u, (readGroups 5 (0 : BitVec w) 0).run bs = .ok (u, []) := by
  rw [StateT.run_bind] at h
  obtain ⟨⟨u, rest⟩, hgroups, hdone⟩ := exists_of_bind_eq_ok h
  cases hdone
  exact ⟨u, hgroups⟩

theorem groupsValue_of_readUnsignedInt (h : Decodes readUnsignedInt bs v) :
    Terminated bs ∧ v = BitVec.ofNat 32 (groupsValue bs) := by
  have hrun := h []
  rw [List.append_nil] at hrun
  obtain ⟨u, hgroups⟩ := run_readGroups_of_run_bind hrun
  obtain ⟨hbs, hlength⟩ := terminated_of_run_readGroups (by decide) hgroups
  have hvalue := h []
  rw [run_readUnsignedInt_terminated hbs hlength, Except.ok.injEq, Prod.mk.injEq] at hvalue
  exact ⟨hbs, hvalue.1.symm⟩

theorem groupsValue_of_readSignedInt (h : Decodes readSignedInt bs v) :
    Terminated bs ∧ v = unzigzag (BitVec.ofNat 32 (groupsValue bs)) := by
  have hrun := h []
  rw [List.append_nil] at hrun
  obtain ⟨u, hgroups⟩ := run_readGroups_of_run_bind hrun
  obtain ⟨hbs, hlength⟩ := terminated_of_run_readGroups le_rfl hgroups
  have hvalue := h []
  rw [run_readSignedInt_terminated hbs hlength, Except.ok.injEq, Prod.mk.injEq] at hvalue
  exact ⟨hbs, hvalue.1.symm⟩

/-- Of fewer than five bytes every bit is read, so that they are no shorter than the numeral of
what has been read. -/
theorem length_uleb_le_of_ofNat {n : ℕ} (hn : n < 2 ^ 32) (hbs : Terminated bs)
    (h : BitVec.ofNat 32 n = BitVec.ofNat 32 (groupsValue bs)) : (uleb n).length ≤ bs.length := by
  by_cases hlong : 5 ≤ bs.length
  · exact (length_uleb_le (hn.trans (by decide : 2 ^ 32 < 128 ^ 5))).trans hlong
  · have hvalue : groupsValue bs < 2 ^ 32 := by
      have hpow : 128 ^ bs.length ≤ 128 ^ 4 := Nat.pow_le_pow_right (by decide) (by omega)
      exact (groupsValue_lt bs).trans_le (hpow.trans (by decide))
    have hnat := congrArg BitVec.toNat h
    rw [BitVec.toNat_ofNat, BitVec.toNat_ofNat, Nat.mod_eq_of_lt hn,
      Nat.mod_eq_of_lt hvalue] at hnat
    rw [hnat]
    exact length_uleb_groupsValue_le hbs.ne_nil

end Reading

/-! ## The zigzag -/

theorem zigzag_injective : Function.Injective zigzag :=
  Function.LeftInverse.injective unzigzag_zigzag

theorem zigzag_unzigzag (z : BitVec 32) : zigzag (unzigzag z) = z := by
  rw [zigzag_eq, unzigzag_eq]
  by_cases h : z.toNat % 2 = 0
  · have hhalf : (z >>> 1).toNat < 2 ^ 31 := by
      rw [BitVec.toNat_ushiftRight, Nat.shiftRight_eq_div_pow]
      omega
    rw [if_pos h, if_pos hhalf]
    bv_omega
  · have hhalf : ¬ (~~~(z >>> 1)).toNat < 2 ^ 31 := by
      rw [BitVec.toNat_not, BitVec.toNat_ushiftRight, Nat.shiftRight_eq_div_pow]
      omega
    rw [if_neg h, if_neg hhalf]
    bv_omega

theorem zigzag_bijective : Function.Bijective zigzag :=
  ⟨zigzag_injective, Function.RightInverse.surjective zigzag_unzigzag⟩

/-- The zigzag doubles the magnitude, and takes one off for the sign. -/
theorem toNat_zigzag (v : BitVec 32) :
    (zigzag v).toNat = if v.toInt < 0 then 2 * v.toInt.natAbs - 1 else 2 * v.toInt.natAbs := by
  have hinverse := zigzagInverse_zigzag v
  rw [zigzagInverse] at hinverse
  split at hinverse <;> split <;> omega

/-! ## The encoders -/

/-- An encoder that emits the numerals of different numbers. -/
theorem shortest_of_emits {write : BitVec 32 → WriteProgram Fault}
    {read : StateT (List Byte) (Except Fault) (BitVec 32)} {number : BitVec 32 → BitVec 32}
    {magnitude : BitVec 32 → ℕ} (hemits : ∀ v, Emits (write v) (uleb (number v).toNat))
    (hdecodes : ∀ v, Decodes read (uleb (number v).toNat) v)
    (hread : ∀ {bs v}, Decodes read bs v →
      Terminated bs ∧ number v = BitVec.ofNat 32 (groupsValue bs))
    (hgrows : ∀ v v', magnitude v < magnitude v' → (number v).toNat ≤ (number v').toNat) :
    Shortest write read (fun v => (number v).toNat) magnitude := by
  have hencoding : ∀ v, encoding write v = uleb (number v).toNat := fun v =>
    (hemits v).flatten_blocksOf
  have hterminated : ∀ v, Terminated (encoding write v) := by
    intro v
    rw [hencoding]
    exact terminated_uleb _
  constructor
  case emits =>
    intro v
    rw [hencoding]
    exact hemits v
  case length =>
    intro v
    refine ⟨List.length_pos_iff.mpr (hterminated v).ne_nil, ?_⟩
    rw [hencoding]
    exact length_uleb_le ((number v).isLt.trans (by decide))
  case terminated => exact hterminated
  case last =>
    intro v
    rw [hencoding]
    by_cases hzero : (number v).toNat = 0
    · rw [hzero, uleb_of_lt (by decide)]
      exact .inr rfl
    · exact .inl (getLast?_uleb hzero)
  case denotes =>
    intro v
    rw [hencoding]
    exact ⟨groupsValue_uleb _, hdecodes v⟩
  case shortest =>
    intro v bs hbs hvalue
    rw [hencoding, ← hvalue]
    exact length_uleb_groupsValue_le hbs.ne_nil
  case shortestRead =>
    intro v bs hbs
    obtain ⟨hterm, hnumber⟩ := hread hbs
    rw [hencoding]
    refine length_uleb_le_of_ofNat (number v).isLt hterm ?_
    rw [BitVec.ofNat_toNat, BitVec.setWidth_eq, hnumber]
  case grows =>
    intro v v' hlt
    rw [hencoding, hencoding]
    exact length_uleb_mono (hgrows v v' hlt)

theorem shortest_writeUnsignedInt :
    Shortest writeUnsignedInt readUnsignedInt BitVec.toNat BitVec.toNat := by
  apply @shortest_of_emits _ _ id _ emits_writeUnsignedInt
  · intro v
    have hdecodes := decodes_readUnsignedInt v.isLt
    rwa [BitVec.ofNat_toNat, BitVec.setWidth_eq] at hdecodes
  · exact groupsValue_of_readUnsignedInt
  · exact fun v v' hlt => hlt.le

theorem shortest_writeSignedInt :
    Shortest writeSignedInt readSignedInt (fun v => (zigzag v).toNat)
      fun v => v.toInt.natAbs := by
  apply @shortest_of_emits _ _ zigzag _ emits_writeSignedInt decodes_readSignedInt
  · intro bs v h
    obtain ⟨hbs, hvalue⟩ := groupsValue_of_readSignedInt h
    exact ⟨hbs, by rw [hvalue, zigzag_unzigzag]⟩
  · intro v v' hlt
    rw [toNat_zigzag, toNat_zigzag]
    split <;> split <;> omega

/-- The bytes of either encoder. -/
def IsEncoding (bs : List Byte) : Prop :=
  (∃ v, encoding writeUnsignedInt v = bs) ∨ ∃ v, encoding writeSignedInt v = bs

theorem IsEncoding.terminated {bs : List Byte} (h : IsEncoding bs) : Terminated bs := by
  rcases h with ⟨v, rfl⟩ | ⟨v, rfl⟩
  · exact shortest_writeUnsignedInt.terminated v
  · exact shortest_writeSignedInt.terminated v

theorem encodings_shortest :
    Shortest writeUnsignedInt readUnsignedInt BitVec.toNat BitVec.toNat ∧
      Shortest writeSignedInt readSignedInt (fun v => (zigzag v).toNat)
        (fun v => v.toInt.natAbs) ∧
      Function.Bijective zigzag ∧
      ∀ bs bs', IsEncoding bs → IsEncoding bs' → bs <+: bs' → bs = bs' :=
  ⟨shortest_writeUnsignedInt, shortest_writeSignedInt, zigzag_bijective,
    fun _ _ h h' => h.terminated.eq_of_isPrefix h'.terminated⟩

end FractalCdt.Codec
