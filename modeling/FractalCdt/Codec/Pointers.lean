/-
# The codec on buffers

`operator<<` appends the bytes of a value to a buffer, and `operator>>` takes
them back from any buffer that starts with them.  Both facts are those of the
byte lists, carried to the pointer-level stream.
-/

import FractalCdt.Codec.RoundTrip
import FractalCdt.Codec.Simulation
import FractalCdt.Stream.Writing

namespace FractalCdt.Codec

open FractalCdt.Math

variable {less : Comparators} {t : Ty}

theorem alike_presents (origin : Datastream) : Alike (Datastream.Presents origin) where
  read := Datastream.simulates_read
  get := Datastream.simulates_get

/-- The bytes a run of a serializer has left between two positions. -/
def written (out out' : Datastream) : List Byte :=
  out'.mem.load out.pos (out'.pos - out.pos).toNat

theorem written_eq_of_emits {program : WriteProgram Fault} {bytes : List Byte}
    (h : Emits program bytes) (hsmall : bytes.length < 2 ^ 31) {out out' : Datastream}
    (hwrite : (program Datastream).run out = .ok ((), out')) : written out out' = bytes := by
  have hlength : (out.pos + BitVec.ofNat 32 bytes.length - out.pos).toNat = bytes.length := by
    bv_omega
  rw [Datastream.absorbs.eq_of_run h hwrite, written]
  show (out.mem.store out.pos bytes).load out.pos _ = _
  rw [Datastream.after, hlength, Mem.load_store _ (by omega)]

end FractalCdt.Codec
