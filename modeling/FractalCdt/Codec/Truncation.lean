/-
# Truncated data is noticed

`read` and `get` fail only when the bytes they want are not there, and what they
answer depends on nothing else.  Both facts pass from them to `operator>>`, for
every type, so a buffer that ends before a value does makes it abort.
-/

import FractalCdt.Codec.Pointers
import FractalCdt.Math.Locality

namespace FractalCdt.Codec

open FractalCdt.Math

variable {less : Comparators} {t : Ty}

/-- One of the two checks that want more bytes has failed. -/
def Starved (e : Fault) : Prop := e = .check "read" ∨ e = .check "get"

theorem local_read (s : BitVec 32) :
    Local Starved (ByteSource.read s : StateT (List Byte) (Except Fault) (List Byte)) where
  takes := by
    intro bytes block rest hrun
    change (if s.toNat ≤ bytes.length then _ else _) = _ at hrun
    split at hrun
    case isTrue hs =>
      cases hrun
      refine ⟨bytes.take s.toNat, (List.take_append_drop ..).symm, decodes_read ?_⟩
      rw [List.length_take, Nat.min_eq_left hs]
    case isFalse => cases hrun
  fails := by
    intro bytes e hrun
    change (if s.toNat ≤ bytes.length then _ else _) = _ at hrun
    split at hrun
    case isTrue => cases hrun
    case isFalse =>
      cases hrun
      exact .inl (.inl rfl)

theorem local_get : Local Starved (ByteSource.get : StateT (List Byte) (Except Fault) Byte) where
  takes := by
    intro bytes b rest hrun
    cases bytes with
    | nil => cases hrun
    | cons b' bytes =>
        cases hrun
        exact ⟨[b], rfl, fun _ => run_get_cons⟩
  fails := by
    intro bytes e hrun
    cases bytes with
    | nil =>
        cases hrun
        exact .inl (.inr rfl)
    | cons b' bytes => cases hrun

/-- What `operator>>` does is decided by the bytes it takes. -/
theorem local_deserialize (t : Ty) (dst : Val t) :
    Local Starved (deserialize (σ := List Byte) less t dst) :=
  have hreads : Reads (σ := List Byte) (τ := List Byte) fun α f _ => Local (α := α) Starved f :=
    { composes_local Starved with read := local_read, get := local_get }
  hreads.deserialize t dst

/-- A buffer that ends inside the bytes of a value makes a check fail. -/
def AbortsWhenCut (less : Comparators) (t : Ty) (dst : Val t) : Prop :=
  ∀ (v : Val t) (p : List Byte) (src : Datastream), WellFormed less t v → p <+: encode t v →
    p ≠ encode t v → src.Holds p → ∃ msg, (deserialize less t dst).run src = .error (.check msg)

/-- A successful decoding takes some bytes from the front of its buffer, and any
buffer that has these in front is decoded to the same value, as far. -/
def DependsOnTaken (less : Comparators) (t : Ty) (dst : Val t) : Prop :=
  ∀ (v : Val t) (b : List Byte) (src src₁ : Datastream), src.Holds b →
    (deserialize less t dst).run src = .ok (v, src₁) →
    ∃ m ≤ b.length, src₁ = { src with pos := src.pos + BitVec.ofNat 32 m } ∧
      ∀ (b' : List Byte) (src' : Datastream), src'.Holds b' → b'.take m = b.take m →
        (deserialize less t dst).run src' =
          .ok (v, { src' with pos := src'.pos + BitVec.ofNat 32 m })

theorem abortsWhenCut (ht : t.Serialisable) (hless : Ordered less t) (dst : Val t) :
    AbortsWhenCut less t dst := by
  intro v p src hv hfront hne hsrc
  obtain ⟨cut, hcut⟩ := hfront
  have hdec := decodes_deserialize t ht hless dst v hv
  rw [← hcut] at hdec hne
  have hcut' : cut ≠ [] := fun h => hne (by rw [h, List.append_nil])
  obtain ⟨e, hrun, hstarved⟩ := (local_deserialize t dst).starves hdec hcut'
  have hfails := (simulates_deserialize (alike_presents src) t dst).run_error hsrc.presents hrun
  rcases hstarved with rfl | rfl
  · exact ⟨_, hfails⟩
  · exact ⟨_, hfails⟩

theorem dependsOnTaken (dst : Val t) : DependsOnTaken less t dst := by
  intro v b src src₁ hsrc hrun
  have hsim := fun origin => @simulates_deserialize _ _ _ _ less _ (alike_presents origin) t dst
  obtain ⟨rest, hlist, hsrc₁⟩ := (hsim src).of_run_ok hsrc.presents hrun
  obtain ⟨taken, rfl, hdec⟩ := (local_deserialize t dst).takes hlist
  refine ⟨taken.length, ?_, Datastream.Presents.eq_of_suffix hsrc hsrc₁, ?_⟩
  · rw [List.length_append]
    exact Nat.le_add_right _ _
  · intro b' src' hsrc' htake
    rw [List.take_left] at htake
    rw [← List.take_append_drop taken.length b', htake] at hsrc'
    exact (Datastream.run_of_decodes (hsim src') hdec hsrc').1

/-- Truncated data is always detected: no strict prefix of a value's bytes is
decoded, and a decoding that succeeds depends on the bytes it takes only. -/
theorem truncation_detected (ht : t.Serialisable) (hless : Ordered less t) (dst : Val t) :
    AbortsWhenCut less t dst ∧ DependsOnTaken less t dst :=
  ⟨abortsWhenCut ht hless dst, dependsOnTaken dst⟩

/-- A list of strings, whose bytes can be cut in a length or in a text. -/
theorem truncation_detected_strings :
    AbortsWhenCut (fun _ _ _ => false) (.list .string) [] ∧
      DependsOnTaken (fun _ _ _ => false) (.list .string) [] :=
  truncation_detected (t := .list .string) trivial trivial []

end FractalCdt.Codec
