/-
# Which literal the post-pass takes for the start of the heap

`GetHeapPtr` goes to the initialiser of global 1 and reads a literal four bytes
behind the place the parser has recorded for it.  That place is behind the
literal of global 1, so what is read is whatever stands in the file behind the
`end` of its initialiser and three bytes more: the literal of global 2, when
that is an `i32.const` too.
-/

import FractalCdt.Toolchain.PostPass

namespace FractalCdt.Toolchain

open FractalCdt.Math FractalCdt.Allocator

/-! ## Numerals in the file -/

/-- The file has a numeral of the word at this offset. -/
def NumeralAt (file : List Byte) (offset : ℕ) (v : BitVec 32) : Prop :=
  ∃ numeral rest, file.drop offset = numeral ++ rest ∧ Numeral v numeral

/-- The file has an initialiser `i32.const` with a numeral of the word that ends at
this offset, where the `end` opcode stands. -/
def LiteralEndsAt (file : List Byte) (offset : ℕ) (v : BitVec 32) : Prop :=
  ∃ start numeral rest, file.drop start = 0x41 :: (numeral ++ 0x0b :: rest) ∧
    Numeral v numeral ∧ offset = start + 1 + numeral.length

/-- The post-pass takes this word for the start of the heap, and stores it at
address 0 rounded up to a multiple of 8. -/
structure HeapPtrIs (globals : List ModuleGlobal) (buff : List Byte) (v : BitVec 32) : Prop where
  read : getHeapPtr globals buff = some v
  stored : ∀ dataSegments, ∃ ds, addHeapPointerData v dataSegments = dataSegments ++ [ds] ∧
    ds.offset = 0 ∧ ds.data = leBytes 4 (alignUp 8 v.toNat)

/-! ## Where the parser leaves its mark -/

namespace BinaryReader

variable {r : BinaryReader} {offset offset' : ℕ}

/-- An expression is kept with the offset behind what was read for it. -/
theorem of_run_onInitExpr {α : Type} {m : ReadM α} {k : α → Init} {init : Init} {loc : ℕ}
    (h : (do onInitExpr (k (← m))).run offset = some (⟨init, loc⟩, offset')) :
    ∃ a, k a = init ∧ m.run offset = some (a, loc) ∧ offset' = loc := by
  obtain ⟨a, mid, hread, hexpr⟩ := exists_of_run_bind h
  cases hexpr
  exact ⟨a, rfl, hread, rfl⟩

/-- An `i32.const` comes from its own opcode. -/
theorem of_run_readInit {opcode : Byte} {v : BitVec 32} {loc : ℕ}
    (h : (r.readInit opcode).run offset = some (⟨.i32Const v, loc⟩, offset')) :
    opcode = 0x41 ∧ r.readS32.run offset = some (v, loc) ∧ offset' = loc := by
  unfold readInit at h
  split at h
  case isTrue hopcode =>
    obtain ⟨value, heq, hread⟩ := of_run_onInitExpr h
    cases heq
    exact ⟨beq_iff_eq.mp hopcode, hread⟩
  split at h
  · cases (of_run_onInitExpr h).choose_spec.1
  split at h
  · cases (of_run_onInitExpr h).choose_spec.1
  split at h
  · cases (of_run_onInitExpr h).choose_spec.1
  split at h
  · cases (of_run_onInitExpr h).choose_spec.1
  · cases h

/-- The offset the parser records is the one behind the literal. -/
theorem literalEndsAt_of_run {v : BitVec 32} {loc : ℕ}
    (h : r.readInitExpr.run offset = some ([⟨.i32Const v, loc⟩], offset')) :
    LiteralEndsAt r.data loc v := by
  obtain ⟨opcode, mid, hopcode, h⟩ := exists_of_run_bind h
  split at h
  case isTrue => cases h
  case isFalse =>
    obtain ⟨expr, mid', hexpr, h⟩ := exists_of_run_bind h
    obtain ⟨stop, mid'', hstop, h⟩ := exists_of_run_bind h
    obtain ⟨u, last, hend, h⟩ := exists_of_run_bind h
    cases h
    obtain ⟨rfl, hread, rfl⟩ := of_run_readInit hexpr
    obtain ⟨rfl, rest, hwindow⟩ := of_run_readU8 hopcode
    obtain ⟨numeral, rest', hliteral, hnumeral, rfl⟩ := of_run_readS32 hread
    obtain ⟨rfl, rest'', hlast⟩ := of_run_readU8 hstop
    have hopcode' := beq_iff_eq.mp (of_run_errorUnless hend).1
    subst hopcode'
    -- What the reader has seen piece by piece stands in the file as a whole.
    have hall : r.window offset = (0x41 :: (numeral ++ [0x0b])) ++ rest'' := by
      have hmiddle := window_add hwindow
      have hrest := window_add hliteral
      rw [List.length_singleton, hliteral] at hmiddle
      rw [hlast] at hrest
      rw [hwindow, ← hmiddle, ← hrest]
      simp
    obtain ⟨tail, htail⟩ := exists_drop_eq hall
    refine ⟨offset, numeral, tail, ?_, hnumeral, rfl⟩
    rw [htail]
    simp

/-- Every global of the section has gone through the reader of initialisers. -/
theorem exists_run_readInitExpr {n : ℕ} {globals : List ModuleGlobal}
    (h : (repeated r.readGlobal n).run offset = some (globals, offset')) :
    ∀ g ∈ globals, ∃ start stop, r.readInitExpr.run start = some (g.initExpr, stop) := by
  induction n generalizing offset globals with
  | zero =>
      cases h
      exact nofun
  | succ n ih =>
      obtain ⟨first, behind, hfirst, h⟩ := exists_of_run_bind h
      obtain ⟨more, last, hmore, h⟩ := exists_of_run_bind h
      obtain ⟨GlobalType, start, -, hfirst⟩ := exists_of_run_bind hfirst
      obtain ⟨initExpr, stop, hinit, hfirst⟩ := exists_of_run_bind hfirst
      cases h
      cases hfirst
      intro g hg
      rcases List.mem_cons.mp hg with rfl | hg
      · exact ⟨start, _, hinit⟩
      · exact ih hmore g hg

end BinaryReader

/-! ## What is read behind it -/

/-- Five bytes are enough to see a numeral. -/
theorem readS32Leb128_take_iff {p : List Byte} {v : BitVec 32} :
    (∃ n, readS32Leb128 (p.take 5) = some (v, n)) ↔
      ∃ numeral rest, p = numeral ++ rest ∧ Numeral v numeral := by
  constructor
  · rintro ⟨n, hread⟩
    obtain ⟨numeral, rest, htake, -, hnumeral⟩ := readS32Leb128_eq_some_iff.mp hread
    refine ⟨numeral, rest ++ p.drop 5, ?_, hnumeral⟩
    rw [← List.append_assoc, ← htake, List.take_append_drop]
  · rintro ⟨numeral, rest, rfl, hnumeral⟩
    refine ⟨numeral.length, readS32Leb128_eq_some_iff.mpr
      ⟨numeral, rest.take (5 - numeral.length), ?_, rfl, hnumeral⟩⟩
    rw [List.take_append, List.take_of_length_le hnumeral.length_le]

theorem getHeapPtr_eq_some_iff {globals : List ModuleGlobal} {buff : List Byte}
    {g : ModuleGlobal}
    {expr : Expr} {v : BitVec 32} (hglobal : globals[1]? = some g)
    (hexpr : g.initExpr.head? = some expr) :
    getHeapPtr globals buff = some v ↔ NumeralAt buff (expr.locOffset + 4) v := by
  rw [NumeralAt, ← readS32Leb128_take_iff, getHeapPtr, hglobal]
  show (g.initExpr.head? >>= _) = _ ↔ _
  rw [hexpr]
  show ((readS32Leb128 _).bind fun x => some x.1) = _ ↔ _
  rw [Option.bind_eq_some_iff]
  constructor
  · rintro ⟨⟨value, n⟩, hread, heq⟩
    cases heq
    exact ⟨n, hread⟩
  · rintro ⟨n, hread⟩
    exact ⟨(v, n), hread, rfl⟩

theorem leBytes_mod (n x : ℕ) : leBytes n (x % 256 ^ n) = leBytes n x := by
  have hdigits := leBytes_ofLeBytes (leBytes n x)
  rwa [length_leBytes, ofLeBytes_leBytes] at hdigits

/-- Rounding up in 32 bits wraps where the multiple does not fit. -/
theorem toNat_heapPtr_mod (v : BitVec 32) :
    ((v + 7) &&& ~~~7).toNat = alignUp 8 v.toNat % 2 ^ 32 := by
  rw [heapPtr_eq_align, align_eight, BitVec.toNat_shiftLeft, BitVec.toNat_ushiftRight,
    BitVec.toNat_add, Nat.shiftRight_eq_div_pow, Nat.shiftLeft_eq, alignUp]
  show (v.toNat + 7) % 2 ^ 32 / 8 * 8 % 2 ^ 32 = _
  omega

theorem stored_heapPtr (v : BitVec 32) (dataSegments : List DataSegment) :
    ∃ ds, addHeapPointerData v dataSegments = dataSegments ++ [ds] ∧ ds.offset = 0 ∧
      ds.data = leBytes 4 (alignUp 8 v.toNat) := by
  refine ⟨_, rfl, rfl, ?_⟩
  show leBytes 4 ((v + 7) &&& ~~~7).toNat = _
  rw [toNat_heapPtr_mod]
  exact leBytes_mod 4 _

/-- The word the post-pass stores is the value of global 1 exactly when a numeral of
that value stands four bytes behind the literal of global 1. -/
theorem heapPtrIs_iff {r : BinaryReader} {offset offset' : ℕ} {globals : List ModuleGlobal}
    (hread : r.readGlobalSection.run offset = some (globals, offset'))
    {GlobalType : WasmGlobalType} {v : BitVec 32} {loc : ℕ}
    (hglobal : globals[1]? = some ⟨GlobalType, [⟨.i32Const v, loc⟩]⟩) :
    LiteralEndsAt r.data loc v ∧
      (HeapPtrIs globals r.data v ↔ NumeralAt r.data (loc + 4) v) := by
  constructor
  · obtain ⟨n, mid, -, hloop⟩ := BinaryReader.exists_of_run_bind hread
    obtain ⟨start, stop, hinit⟩ :=
      BinaryReader.exists_run_readInitExpr hloop _ (List.mem_of_getElem? hglobal)
    exact BinaryReader.literalEndsAt_of_run hinit
  · rw [← getHeapPtr_eq_some_iff hglobal rfl]
    exact ⟨fun h => h.read, fun h => ⟨h, stored_heapPtr v⟩⟩

/-- A module of one memory and three globals, the third of which is given. -/
def sampleFile (third : Byte) : List Byte :=
  [0x00, 0x61, 0x73, 0x6d, 0x01, 0x00, 0x00, 0x00, 0x05, 0x03, 0x01, 0x00, 0x01, 0x06, 0x10, 0x03,
    0x7f, 0x01, 0x41, 0x08, 0x0b, 0x7f, 0x00, 0x41, 0x10, 0x0b, 0x7f, 0x00, 0x41, third, 0x0b]

def sampleGlobals (third : BitVec 32) : List ModuleGlobal :=
  [⟨⟨0x7f, true⟩, [⟨.i32Const 8, 20⟩]⟩, ⟨⟨0x7f, false⟩, [⟨.i32Const 16, 25⟩]⟩,
    ⟨⟨0x7f, false⟩, [⟨.i32Const third, 30⟩]⟩]

/-- Global 2 has the value of global 1. -/
theorem heapPtrIs_sample : HeapPtrIs (sampleGlobals 16) (sampleFile 16) 16 := by
  have hread : (BinaryReader.mk (sampleFile 16) 31).readGlobalSection.run 15 =
      some (sampleGlobals 16, 31) := rfl
  refine (heapPtrIs_iff hread rfl).2.mpr ⟨[16], [0x0b], rfl, ?_, by decide, by decide⟩
  show (16 : Byte).toNat < 128
  decide

/-- With any other value in global 2, that one is read. -/
theorem not_forall_heapPtrIs :
    ¬ ∀ (r : BinaryReader) (offset offset' : ℕ) (globals : List ModuleGlobal) (m₀ m₁ : Bool)
      (v₀ v₁ : BitVec 32) (loc₀ loc₁ : ℕ),
      r.readGlobalSection.run offset = some (globals, offset') →
      globals[0]? = some ⟨⟨0x7f, m₀⟩, [⟨.i32Const v₀, loc₀⟩]⟩ →
      globals[1]? = some ⟨⟨0x7f, m₁⟩, [⟨.i32Const v₁, loc₁⟩]⟩ → HeapPtrIs globals r.data v₁ := by
  intro hall
  have hread : (BinaryReader.mk (sampleFile 24) 31).readGlobalSection.run 15 =
      some (sampleGlobals 24, 31) := rfl
  have hheap := (hall _ _ _ _ _ _ _ _ _ _ hread rfl rfl).read
  have hthird : getHeapPtr (sampleGlobals 24) (sampleFile 24) = some 24 := rfl
  rw [hthird] at hheap
  revert hheap
  decide

end FractalCdt.Toolchain
