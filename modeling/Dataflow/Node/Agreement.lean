/-
# Matching factors for correlated nodes

Nodes with the most correlations choose their factors first.  A node that has chosen carries
its factors over to every correlated node that has none yet; such a node then starts from what
was carried over to it.

`agree` is `unify` of dfopt, and an `Agreement` its `UnifyOutcome`.
-/
import Dataflow.Config
import Dataflow.Node.Correlation
import Dataflow.Diagnostic
import Dataflow.Band.Factor
import Dataflow.Node.Budget

namespace Dataflow

/-- Factors of nodes, in the order in which they were chosen or carried over, and what was
skipped. -/
structure Agreement where
  factors : OpMap (List Nat) := []
  diagnostics : List Diagnostic := []

/-- The product that a node's factors aim at. -/
def Config.target (config : Config) (budgets : Budgets) (node : OpId) : Nat :=
  match budgets.get? node with
  | some budget => if config.costAware then budget else config.maxUnroll
  | none => config.maxUnroll

/-- The nodes with the most correlations first; equal ones keep their order. -/
def Correlations.ranked (m : Correlations) : List (OpId × List Correlation) :=
  sortBy (fun a b => b.2.length ≤ a.2.length) m

namespace Func

/-- Carry the factors of a node over its correlations to the nodes that have none yet. -/
def carryOver (f : Func) (node : OpId) (chosen : List Nat) :
    List Correlation → OpMap (List Nat) → Traced (OpMap (List Nat))
  | [], factors => return factors
  | c :: cs, factors => do
    let other := c.other node
    if factors.has other then f.carryOver node chosen cs factors
    else
      let carried := c.carry node chosen
      Traced.note .debug "dfopt::transform::unify"
        (do return "  correlated " ++ (← f.label other) ++ " via map "
          ++ dimensionsText (c.mapFrom node) ++ ": factors " ++ factorsText carried)
      f.carryOver node chosen cs (factors.put other carried)

/-- Choose the factors of a node from a base, and carry them over. -/
def chooseFactors (f : Func) (node : OpId) (target : Nat) (base : List Nat)
    (shape : List (Option Nat)) (links : List Correlation) (state : Agreement) :
    Traced Agreement := do
  let chosen := shareFactor target base shape
  Traced.note .debug "dfopt::transform::unify"
    (do return "node " ++ (← f.label node) ++ ": " ++ toString links.length
      ++ " correlations, parallel factor " ++ toString target ++ ", factors "
      ++ factorsText chosen)
  return { state with factors := ← f.carryOver node chosen links (state.factors.put node chosen) }

/-- Decide on a node with correlations.  What was carried over to it has to fit its band;
otherwise it is taken away and the node is skipped. -/
def agreeOnNode (f : Func) (budgets : Budgets) (config : Config) (node : OpId)
    (links : List Correlation) (state : Agreement) : Traced Agreement := do
  let target := config.target budgets node
  let band ← f.primaryBand node
  let shape ← f.bandTrips band
  match state.factors.get? node with
  | none =>
    f.chooseFactors node target (List.replicate band.length 1) shape links state
  | some carried =>
    if carried.length = band.length then f.chooseFactors node target carried shape links state
    else
      let d : Diagnostic := {
        severity := .warning
        message := "factor vector of " ++ (← f.label node) ++ " has "
          ++ toString carried.length ++ " entries but its band has " ++ toString band.length
          ++ " loops"
        op := some node
        notes := ["node falls back to naive unrolling"] }
      d.emit
      return { factors := state.factors.remove node, diagnostics := state.diagnostics ++ [d] }

/-- Decide on nodes one after another; those without correlations are passed over. -/
def agreeOnNodes (f : Func) (budgets : Budgets) (config : Config) :
    List (OpId × List Correlation) → Agreement → Traced Agreement
  | [], state => return state
  | (node, links) :: rest, state => do
    if links.isEmpty then f.agreeOnNodes budgets config rest state
    else f.agreeOnNodes budgets config rest (← f.agreeOnNode budgets config node links state)

/-- Factors for every node that takes part in a correlation. -/
def agree (f : Func) (budgets : Budgets) (links : Correlations) (config : Config) :
    Traced Agreement :=
  f.agreeOnNodes budgets config links.ranked {}

end Func
end Dataflow
