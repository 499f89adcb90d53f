import FractalCdt.Stream.WriteSafety
import FractalCdt.Contract.TableRefinement
import FractalCdt.Contract.Transport
import FractalCdt.Contract.Packing
import FractalCdt.Contract.Suffix
import FractalCdt.Contract.MapKey
import FractalCdt.Contract.Address
import FractalCdt.Codec.Truncation
import FractalCdt.Codec.Shortest
import FractalCdt.Allocator.Resizing
import FractalCdt.AbiGen.BaseName
import FractalCdt.AbiGen.ActionNames
import FractalCdt.AbiGen.Collisions
import FractalCdt.AbiGen.Described
import FractalCdt.Toolchain.FtlFixup
import FractalCdt.Toolchain.Objects
import FractalCdt.Linker.Bodies
