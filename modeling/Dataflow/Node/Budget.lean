/-
# Budgets

A budget is the parallelism that a node may use.  Every schedule receives a budget, the root
budget at the top and its enclosing node's budget otherwise, and shares it out over its nodes
in proportion to their costs.  Every node gets at least one.

`budgets` is `compute_budgets` of dfopt, and `incomingBudget` its `incoming_budget`.
-/
import Dataflow.Node.Cost
import Dataflow.Journal
import Dataflow.OpMap
import Dataflow.Refusal

namespace Dataflow

/-- The budget of each node. -/
abbrev Budgets := OpMap Nat

/-- A budget scaled by the annotations of a schedule. -/
def Schedule.scale (s : Schedule) (budget : Nat) : Nat :=
  let raised := match s.increase with
    | none => budget
    | some n => budget * n.val
  saturate (match s.decrease with
    | none => raised
    | some n => raised / n.val)

/-- The part of a schedule's budget that a node gets, for its cost and the cost of the whole
schedule.  A schedule that costs nothing gives everyone one. -/
def nodeShare (budget cost total : Nat) : Nat :=
  Nat.max (if total = 0 then 1 else saturate (budget * cost / total)) 1

namespace Func

/-- The budget that a schedule shares out. -/
def incomingBudget (f : Func) (schedule : OpId) (budgets : Budgets) (root : Nat) :
    Checked (Except Reason Nat) := do
  match ← f.nodeAround schedule with
  | none => return .ok root
  | some parent =>
    match budgets.get? parent with
    | none => return .error (.missingParentBudget parent (← f.label parent))
    | some budget =>
      match ← f.kind schedule with
      | .schedule s => return .ok (s.scale budget)
      | _ => return .ok budget

/-- Share a schedule's budget out over nodes of it. -/
def budgetNodes (f : Func) (prices : Prices) (budget total : Nat) :
    List OpId → Budgets → Traced (Except Reason Budgets)
  | [], budgets => return .ok budgets
  | node :: nodes, budgets => do
    match ← prices.node f node with
    | none => return .error (.unpricedNode node (← f.label node))
    | some cost =>
      let share := nodeShare budget cost total
      Traced.note .debug "dfopt::transform::budget"
        (do return "node " ++ (← f.label node) ++ ": complexity " ++ toString cost ++ " of "
          ++ toString total ++ ", schedule budget " ++ toString budget ++ ", budget "
          ++ toString share)
      f.budgetNodes prices budget total nodes (budgets.put node share)

/-- Share the budgets of schedules out, one schedule after another. -/
def budgetSchedules (f : Func) (prices : Prices) (root : Nat) :
    List OpId → Budgets → Traced (Except Reason Budgets)
  | [], budgets => return .ok budgets
  | schedule :: schedules, budgets => do
    match ← f.incomingBudget schedule budgets root with
    | .error reason => return .error reason
    | .ok budget =>
      match ← prices.schedule f schedule with
      | none => return .error (.unpricedSchedule schedule (← f.label schedule))
      | some total =>
        match ← f.budgetNodes prices budget total (← f.childNodes schedule) budgets with
        | .error reason => return .error reason
        | .ok budgets => f.budgetSchedules prices root schedules budgets

/-- The budget of every node that stands in a schedule.  Schedules are taken in program order, so
that an enclosing node has its budget before a schedule inside it shares it out. -/
def budgets (f : Func) (prices : Prices) (root : Nat) : Traced (Except Reason Budgets) := do
  f.budgetSchedules prices root (← f.schedules) []

end Func
end Dataflow
