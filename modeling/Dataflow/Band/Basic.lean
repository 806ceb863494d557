/-
# Loop bands

A band is a chain of loops, each but the last holding the next and nothing else.  Bands are
listed from the outermost loop to the innermost.

`bandEndingAt`, `nodeBands`, `primaryBand` and `bandTrips` are the functions `band_from_innermost`,
`node_loop_bands`, `node_loop_band` and `band_shape` of dfopt.
-/
import Dataflow.Func.Walk

namespace Dataflow

/-- Loops of a perfect nest, outermost first. -/
abbrev Band := List OpId

namespace Func

/-- Extend a band outwards from its first loop while the nest stays perfect, within the given
number of levels. -/
def extendOutward (f : Func) : Nat → OpId → Band → Checked Band
  | 0, _, _ => .error .circular
  | levels + 1, first, band => do
    match (← f.op first).parent with
    | none => return band
    | some parent =>
      let op ← f.op parent
      if op.kind.isLoop && op.body.length == 1 then
        f.extendOutward levels parent (parent :: band)
      else return band

/-- The band that ends at an operation. -/
def bandEndingAt (f : Func) (innermost : OpId) : Checked Band :=
  f.extendOutward f.depthBound innermost [innermost]

/-- True if neither a loop nor a schedule stands directly in the operation. -/
def isInnermost (f : Func) (op : Op) : Checked Bool :=
  op.body.allM fun child => do
    let kind ← f.kind child
    return !(kind.isLoop || kind.isSchedule)

/-- Every band of a node, in program order: one for each of its loops that holds neither a loop
nor a schedule directly.  A loop is the node's own if no other node comes between. -/
def nodeBands (f : Func) (node : OpId) : Checked (List Band) := do
  let loops := (← f.entriesOf node).filter fun e => e.2.kind.isLoop
  let own ← loops.filterM fun e => return (← f.nodeAround e.1) == some node
  let innermost ← own.filterM fun e => f.isInnermost e.2
  innermost.mapM fun e => f.bandEndingAt e.1

/-- A loop and the loops that continue its perfect nest inwards, within the given number of
levels. -/
def extendInward (f : Func) : Nat → OpId → Checked Band
  | 0, _ => .error .circular
  | levels + 1, current => do
    match (← f.op current).body with
    | [only] =>
      if (← f.kind only).isLoop then return current :: (← f.extendInward levels only)
      return [current]
    | _ => return [current]

/-- The primary band of a node: its first top-level loop, followed inwards while the nest stays
perfect.  Empty for a node without a top-level loop. -/
def primaryBand (f : Func) (node : OpId) : Checked Band := do
  match ← (← f.op node).body.findM? (fun id => return (← f.kind id).isLoop) with
  | none => return []
  | some first => f.extendInward f.depthBound first

/-- Trip counts of a band. -/
def bandTrips (f : Func) (band : Band) : Checked (List (Option Nat)) :=
  band.mapM fun id => return (← f.loop? id).bind Loop.tripCount

end Func
end Dataflow
