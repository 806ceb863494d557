/-
# Walking the nesting

Operations in program order: an operation comes before its body, and the body's operations
come in the order of the block.  The other direction climbs from an operation to the ones that
enclose it.

Both directions recurse over links that may run in a circle, so each carries the number of
levels it may still cross.  The slots along a chain without repetition are at most
`Func.depthBound`, so only a circle can use it up.
-/
import Dataflow.Func

namespace Dataflow
namespace Func

/-- One more than the number of operations: no chain of nested operations is longer unless it
repeats one. -/
def depthBound (f : Func) : Nat := f.ops.size + 1

/-! ## 1. Downwards -/

/-- The operation in a slot and everything nested in it, in program order, crossing at most the
given number of levels. -/
def nest (f : Func) : Nat → OpId → Checked (List (OpId × Op))
  | 0, _ => .error .circular
  | levels + 1, id => do
    let op ← f.op id
    let below ← op.body.mapM (f.nest levels)
    return (id, op) :: below.flatten

/-- The operation in a slot and everything nested in it, in program order, each with its slot. -/
def entriesOf (f : Func) (id : OpId) : Checked (List (OpId × Op)) := f.nest f.depthBound id

/-- Every operation of the function in program order, each with its slot. -/
def entries (f : Func) : Checked (List (OpId × Op)) :=
  return (← f.body.mapM f.entriesOf).flatten

/-- Slots of an operation and of everything nested in it, in program order. -/
def walkFrom (f : Func) (id : OpId) : Checked (List OpId) := return (← f.entriesOf id).map Prod.fst

/-- Slots of every operation of the function, in program order. -/
def walk (f : Func) : Checked (List OpId) := return (← f.entries).map Prod.fst

/-- Slots of the operations that `p` holds of, in program order. -/
def findAll (f : Func) (p : Op → Bool) : Checked (List OpId) :=
  return ((← f.entries).filter fun e => p e.2).map Prod.fst

/-- Every schedule in program order, so that enclosing nodes come first. -/
def schedules (f : Func) : Checked (List OpId) := f.findAll (·.kind.isSchedule)

/-- Every node in program order. -/
def nodes (f : Func) : Checked (List OpId) := f.findAll (·.kind.isNode)

/-- Operations that use a value, in program order. -/
def users (f : Func) (v : ValueId) : Checked (List OpId) := f.findAll (·.kind.operands.contains v)

/-- Nodes that stand directly in a block's owner. -/
def childNodes (f : Func) (id : OpId) : Checked (List OpId) := do
  (← f.op id).body.filterM fun child => return (← f.kind child).isNode

/-! ## 2. Upwards -/

/-- True if `ancestor` is met on the way up from `id`, `id` included, within the given number of
levels. -/
def meets (f : Func) (ancestor : OpId) : Nat → OpId → Checked Bool
  | 0, _ => .error .circular
  | levels + 1, id => do
    if id = ancestor then return true
    match (← f.op id).parent with
    | none => return false
    | some parent => f.meets ancestor levels parent

/-- True if `id` is `ancestor` or nested anywhere inside it. -/
def encloses (f : Func) (ancestor id : OpId) : Checked Bool := f.meets ancestor f.depthBound id

/-- The first node on the way up from a parent link, within the given number of levels. -/
def nearestNode (f : Func) : Nat → Option OpId → Checked (Option OpId)
  | _, none => .ok none
  | 0, some _ => .error .circular
  | levels + 1, some id => do
    let op ← f.op id
    if op.kind.isNode then return some id
    f.nearestNode levels op.parent

/-- The nearest node that strictly encloses an operation. -/
def nodeAround (f : Func) (id : OpId) : Checked (Option OpId) := do
  f.nearestNode f.depthBound (← f.op id).parent

end Func
end Dataflow
