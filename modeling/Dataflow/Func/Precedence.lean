/-
# Dominance

Control flow is structured, so an operation dominates another when it comes before, or
encloses, one of the operations around the other in the block they share.
-/
import Dataflow.Func.Walk

namespace Dataflow
namespace Func

/-- On the way up from an operation, the first that is `a` or stands in the block of `owner`,
within the given number of levels. -/
def climb (f : Func) (a : OpId) (owner : Option OpId) : Nat → OpId → Checked (Option OpId)
  | 0, _ => .error .circular
  | levels + 1, current => do
    if current = a then return some current
    let parent := (← f.op current).parent
    if parent = owner then return some current
    match parent with
    | none => return none
    | some parent => f.climb a owner levels parent

/-- True if `a` is `b`, encloses `b`, or comes before the operation around `b` that stands in
the block of `a`. -/
def dominates (f : Func) (a b : OpId) : Checked Bool := do
  if a = b then return true
  match ← f.climb a (← f.op a).parent f.depthBound b with
  | none => return false
  | some current =>
    if current = a then return true
    match ← f.position a, ← f.position current with
    | some pa, some pb => return pa < pb
    | _, _ => return false

/-- On the way up from `a`, the last operation whose owner does not enclose `b`, within the given
number of levels. -/
def hoist (f : Func) (b : OpId) : Nat → OpId → Checked OpId
  | 0, _ => .error .circular
  | levels + 1, a => do
    match (← f.op a).parent with
    | none => return a
    | some parent =>
      if ← f.encloses parent b then return a
      f.hoist b levels parent

/-- Dominance that first lifts `a` out of the blocks that do not hold `b`.  An operation nested
in `b` does not dominate `b`. -/
def precedes (f : Func) (a b : OpId) : Checked Bool := do
  if a = b then return true
  if ← f.encloses b a then return false
  f.dominates (← f.hoist b f.depthBound a) b

end Func
end Dataflow
