/-
# Aliases

A view is another name for a memref.  Following views backwards from a memref leads to the
*root*: the function argument or the buffer whose memory it is.  Following them forwards leads
to every operation that touches that memory.

`root`, `bufferOp` and `aliasUsers` are `find_buffer`, `buffer_op` and `find_buffer_users` of dfopt.
-/
import Dataflow.Func.Walk

namespace Dataflow
namespace Func

/-- The root reached from a memref within the given number of steps. -/
def resolve (f : Func) : Nat → ValueId → Checked (Option ValueId)
  | 0, _ => .ok none
  | steps + 1, v => do
    match (← f.value v).definition with
    | .argument _ => return some v
    | .op id =>
      match ← f.kind id with
      | .buffer _ _ => return some v
      | .view source _ => f.resolve steps source
      | _ => return none

/-- The argument or buffer whose memory a memref is.  None when the views run in a circle, or end
in something else. -/
def root (f : Func) (v : ValueId) : Checked (Option ValueId) := f.resolve (f.values.size + 1) v

/-- The buffer operation that defines a value, if one does. -/
def bufferOp (f : Func) (v : ValueId) : Checked (Option OpId) := do
  match ← f.definer v with
  | none => return none
  | some id => return if (← f.kind id).isBuffer then some id else none

/-- The value that a view defines. -/
def viewResult? : Kind → Option ValueId
  | .view _ result => some result
  | _ => none

/-- Operations other than views that use a memref or a view derived from it, crossing at most
the given number of views.  The direct users come first, then those of each view, the last view
first. -/
def usersThrough (f : Func) : Nat → ValueId → Checked (List OpId)
  | 0, _ => .error .circular
  | views + 1, v => do
    let users := (← f.entries).filter fun e => e.2.kind.operands.contains v
    let direct := (users.filter fun e => (viewResult? e.2.kind).isNone).map Prod.fst
    let derived := users.filterMap fun e => viewResult? e.2.kind
    return direct ++ (← derived.reverse.mapM (f.usersThrough views)).flatten

/-- Operations other than views that use a memref or a view derived from it.  An operation that
uses it under several names is listed once for each. -/
def aliasUsers (f : Func) (v : ValueId) : Checked (List OpId) := f.usersThrough (f.ops.size + 2) v

end Func
end Dataflow
