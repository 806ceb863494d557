/-
# Questions asked before a band is transformed

Is a loop parallel?  Does a band store to memory that is not private to its node?  Which loops
of a band are tile loops, and which are point loops?

`Safeguards` answer the three; `Safeguards.structural` answers from the function alone.  In dfopt
they are the `LegalityOracle` with its `is_parallel`, `affects_external_buffer` and
`tile_point_split`, and the one that looks at the function alone is `StructuralLegality`.
-/
import Dataflow.Memory.Alias
import Dataflow.Band.Basic

namespace Dataflow

/-- Answers to the questions asked before a band is transformed. -/
structure Safeguards where
  /-- True if a loop carries no dependence between iterations. -/
  isParallel : Func → OpId → Checked Bool
  /-- True if a band stores to memory that is not private to the node around it. -/
  storesOutside : Func → Band → Checked Bool
  /-- The tile loops and the point loops of a band; none if it does not split. -/
  split : Func → Band → Checked (Option (Band × Band))

namespace Func

/-! ## 1. Parallel loops -/

/-- True if an access may touch memory with a given root.  Without a root it is any memory. -/
def mayTouch (f : Func) (a : Access) : Option ValueId → Checked Bool
  | none => return true
  | some root => return (← f.root a.memref) == some root

/-- True if an iteration of loop `id` stores by `write` to an element of its own: the loop drives
a subscript of it, and every access that may touch the same memory is the same access. -/
def storesOwnElement (f : Func) (id : OpId) (accesses : List Access) (write : Access) :
    Checked Bool := do
  if (write.dimensionOf id).isNone then return false
  let root ← f.root write.memref
  accesses.allM fun other => return !(← f.mayTouch other root) || other == write

/-- True of a loop that is declared parallel, and of one whose stores all go to elements of their
own iteration and that holds no copy. -/
def isParallel (f : Func) (id : OpId) : Checked Bool := do
  match ← f.loop? id with
  | none => return false
  | some l =>
    if l.parallel then return true
    let entries ← f.entriesOf id
    let computes := entries.filterMap fun e => e.2.kind.compute?
    let accesses := computes.flatMap Compute.accesses
    if ← (computes.flatMap Compute.writes).allM (f.storesOwnElement id accesses) then
      return !entries.any fun e => e.2.kind.isCopy
    return false

/-! ## 2. Stores to outside memory -/

/-- The node around the buffer that a memref is a part of.  None for arguments, for memrefs
without a root and for buffers outside every node. -/
def owner (f : Func) (v : ValueId) : Checked (Option OpId) := do
  match ← f.root v with
  | none => return none
  | some root =>
    match ← f.bufferOp root with
    | none => return none
    | some buffer => f.nodeAround buffer

/-- True if a band stores to a memref that the node around the band does not own. -/
def storesOutside (f : Func) : Band → Checked Bool
  | [] => return false
  | outermost :: _ => do
    let node ← f.nodeAround outermost
    let stores := (← f.entriesOf outermost).flatMap fun e => e.2.kind.stores
    stores.anyM fun v => do
      let owner ← f.owner v
      return owner.isNone || owner != node

/-! ## 3. Tile and point loops -/

/-- Sort the rest of a band into tile and point loops.  No tile loop follows a point loop, and a
point loop follows its own tile loop. -/
def splitFrom (f : Func) (tile point : Band) : Band → Checked (Option (Band × Band))
  | [] => return some (tile, point)
  | id :: band => do
    match ← f.loop? id with
    | none => return none
    | some l =>
      match l.pointOf with
      | some t => if tile.contains t then f.splitFrom tile (point ++ [id]) band else return none
      | none => if point.isEmpty then f.splitFrom (tile ++ [id]) point band else return none

/-- The tile loops and the point loops of a band. -/
def splitBand (f : Func) (band : Band) : Checked (Option (Band × Band)) := f.splitFrom [] [] band

end Func

/-- Answers from the structure of the function. -/
def Safeguards.structural : Safeguards where
  isParallel := Func.isParallel
  storesOutside := Func.storesOutside
  split := Func.splitBand

end Dataflow
