/-
# Editing a function

The primitive changes: allocate, attach, redirect, erase.  An edit gives the changed function,
and the slot it allocated if it allocated one.
-/
import Dataflow.Func.Walk

namespace Dataflow
namespace Func

/-! ## 1. Single entries -/

/-- Change the operation in a slot. -/
def modifyOp (f : Func) (id : OpId) (g : Op → Op) : Checked Func :=
  if id < f.ops.size then .ok { f with ops := f.ops.modify id g } else .error (.unknownOp id)

/-- Change what the operation in a slot is. -/
def modifyKind (f : Func) (id : OpId) (g : Kind → Kind) : Checked Func :=
  f.modifyOp id fun op => { op with kind := g op.kind }

/-- Change every operation whose slot is listed; slots that the table does not have are left
out. -/
def modifyOps (f : Func) (ids : List OpId) (g : Op → Op) : Func :=
  { f with ops := f.ops.mapIdx fun id op => if ids.contains id then g op else op }

/-- Change the block of `parent`; the top level for `none`. -/
def modifyBlock (f : Func) (parent : Option OpId) (g : List OpId → List OpId) : Checked Func :=
  match parent with
  | none => .ok { f with body := g f.body }
  | some id => f.modifyOp id fun op => { op with body := g op.body }

/-! ## 2. Allocation -/

/-- Allocate a value. -/
def addValue (f : Func) (name : String) (shape : List Nat) (space : Nat)
    (definition : Definition) : Func × ValueId :=
  let id := f.values.size
  ({ f with values := f.values.push { id, name, shape, space, definition } }, id)

/-- Allocate an operation without putting it into a block. -/
def create (f : Func) (parent : Option OpId) (kind : Kind) : Func × OpId :=
  let id := f.ops.size
  ({ f with ops := f.ops.push { id, kind, parent, body := [], erased := false } }, id)

/-- Allocate an operation and append it to the block of its parent. -/
def push (f : Func) (parent : Option OpId) (kind : Kind) : Checked (Func × OpId) := do
  let (f, id) := f.create parent kind
  return (← f.modifyBlock parent (· ++ [id]), id)

/-- Put a slot into a block at a position.  The operation's own links stay as they are. -/
def insertAt (f : Func) (parent : Option OpId) (position : Nat) (id : OpId) : Checked Func := do
  let block ← f.block parent
  if block.length < position then throw (.unknownPosition position)
  f.modifyBlock parent fun b => b.take position ++ id :: b.drop position

/-! ## 3. Redirecting and erasing -/

/-- Redirect every use of `old` to `new`. -/
def redirectUses (f : Func) (old new : ValueId) : Checked Func := do
  let ids ← f.walk
  return f.modifyOps ids fun op =>
    { op with kind := op.kind.mapOperands fun v => if v = old then new else v }

/-- Take an operation out of its block, and flag it and everything nested in it as erased. -/
def erase (f : Func) (id : OpId) : Checked Func := do
  let detached ← f.modifyBlock (← f.op id).parent (·.filter (· != id))
  return detached.modifyOps (← detached.walkFrom id) fun op => { op with erased := true }

end Func
end Dataflow
