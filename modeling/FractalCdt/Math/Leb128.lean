/-
# LEB128 numerals

A number is cut into groups of seven bits, least significant group first; every
byte carries one group, and all but the last have their top bit set.  The two
equations of `uleb` are what a writing loop and a reading loop unfold to.
-/

import FractalCdt.Math.Bytes

namespace FractalCdt.Math

/-- The unsigned LEB128 numeral of a number. -/
def uleb (x : ℕ) : List Byte :=
  if x < 128 then [BitVec.ofNat 8 x]
  else BitVec.ofNat 8 (x % 128 + 128) :: uleb (x / 128)
termination_by x

theorem uleb_of_lt {x : ℕ} (h : x < 128) : uleb x = [BitVec.ofNat 8 x] := by
  rw [uleb, if_pos h]

theorem uleb_of_le {x : ℕ} (h : 128 ≤ x) :
    uleb x = BitVec.ofNat 8 (x % 128 + 128) :: uleb (x / 128) := by
  rw [uleb, if_neg (by omega)]

end FractalCdt.Math
