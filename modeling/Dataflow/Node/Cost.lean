/-
# Costs

How much work a node is, counted in executions of computes and in copied elements.  Costs are
words and stay at the largest word when they pass it.  A loop whose trip count is unknown has
no cost, and neither has anything around it.

`Prices` are a `ComplexityEstimator` of dfopt: `byTripCount` is `TripCountEstimator`, and `ofNodes`
prices a schedule as its `schedule_complexity` does by default.
-/
import Dataflow.Func.Walk

namespace Dataflow

/-- Prices for nodes and schedules; none for what cannot be priced. -/
structure Prices where
  node : Func → OpId → Checked (Option Nat)
  schedule : Func → OpId → Checked (Option Nat)

/-- Sum of costs from the left.  The first operation without a cost ends it. -/
def sumCosts (cost : OpId → Checked (Option Nat)) : Nat → List OpId → Checked (Option Nat)
  | acc, [] => return some acc
  | acc, id :: ids => do
    match ← cost id with
    | none => return none
    | some c => sumCosts cost (satAdd acc c) ids

/-- A schedule costs what the nodes directly in it cost together. -/
def scheduleCost (node : Func → OpId → Checked (Option Nat)) (f : Func) (id : OpId) :
    Checked (Option Nat) := do
  sumCosts (node f) 0 (← f.childNodes id)

namespace Func

/-- Cost of an operation, crossing at most the given number of levels.  A loop costs its body
once per iteration, a node its body, a schedule its nodes, a compute one and a copy one per
element. -/
def opCost (f : Func) : Nat → OpId → Checked (Option Nat)
  | 0, _ => .error .circular
  | levels + 1, id => do
    let op ← f.op id
    match op.kind with
    | .loop l =>
      match ← sumCosts (f.opCost levels) 0 op.body with
      | none => return none
      | some body => return l.tripCount.map (satMul · body)
    | .node _ => sumCosts (f.opCost levels) 0 op.body
    | .schedule _ => do sumCosts (f.opCost levels) 0 (← f.childNodes id)
    | .compute _ => return some 1
    | .copy _ target => return some (← f.elementCount target)
    | .buffer _ _ | .view _ _ => return some 0

/-- Cost of the body of an operation. -/
def bodyCost (f : Func) (id : OpId) : Checked (Option Nat) := do
  sumCosts (f.opCost f.depthBound) 0 (← f.op id).body

end Func

namespace Prices

/-- Prices for nodes, with schedules priced by their nodes. -/
def ofNodes (node : Func → OpId → Checked (Option Nat)) : Prices where
  node := node
  schedule := scheduleCost node

/-- Counts executions by trip counts. -/
def byTripCount : Prices := ofNodes Func.bodyCost

end Prices

end Dataflow
