/-
# Parallelizing the nodes of a function

Three steps: share a root budget out over the nodes, agree on factors between correlated nodes,
and transform the bands.  A band that stores to memory outside its node is vectorized, others are
unrolled and jammed.  Nodes without agreed factors unroll each of their bands by their own
budget.  In dfopt this is the pass `ParallelizeDataflowNode`.
-/
import Dataflow.Band.Unroll
import Dataflow.Node.Agreement

namespace Dataflow

/-- How a band was transformed. -/
inductive Realization where
  | unrollJam
  | vectorize
  deriving DecidableEq

/-- The word for a realization in reports. -/
def Realization.text : Realization → String
  | .unrollJam => "unroll_jam"
  | .vectorize => "vectorize"

/-- A band that was transformed. -/
structure Applied where
  node : OpId
  band : Band
  factors : List Nat
  kind : Realization
  deriving DecidableEq

/-- What the pass decided and did. -/
structure Report where
  budgets : Budgets := []
  /-- Agreed factors; none when correlations do not count. -/
  factors : OpMap (List Nat) := []
  /-- Transformed bands, in the order in which they were. -/
  applied : List Applied := []
  diagnostics : List Diagnostic := []

namespace Report

/-- The report with one more transformed band. -/
def withApplied (r : Report) (a : Applied) : Report := { r with applied := r.applied ++ [a] }

/-- Add a diagnostic to the report and tell it to the journal. -/
def diagnose (r : Report) (d : Diagnostic) : Traced Report := do
  d.emit
  return { r with diagnostics := r.diagnostics ++ [d] }

end Report

/-- Where the pass gets its prices, correlations and permissions from. -/
structure Collaborators where
  prices : Prices := .byTripCount
  correlations : Func → Traced Correlations := Func.correlations
  rules : Safeguards := .structural

namespace Func

/-! ## 1. Agreed factors -/

/-- Vectorize the primary band of a node. -/
def vectorizeNode (f : Func) (rules : Safeguards) (node : OpId) (band : Band)
    (factors : List Nat) (report : Report) : Traced (Func × Report) := do
  let (f, done) ← f.vectorize band factors rules
  if done then
    if factors.all (· == 1) then return (f, report)
    return (f, report.withApplied { node, band, factors, kind := .vectorize })
  let report ← report.diagnose {
    severity := .warning
    message := "cannot vectorize the band of " ++ (← f.label node) ++ " with factors "
      ++ factorsText factors
    op := some node
    notes := ["band writes an external buffer but is not parallel; left untouched"] }
  return (f, report)

/-- Transform the primary band of a node by agreed factors. -/
def applyAgreed (f : Func) (rules : Safeguards) (node : OpId) (factors : List Nat)
    (report : Report) : Traced (Func × Report) := do
  let band ← f.primaryBand node
  if band.isEmpty then return (f, report)
  if band.length ≠ factors.length then
    let report ← report.diagnose {
      severity := .warning
      message := "factor vector of " ++ (← f.label node) ++ " does not match its "
        ++ toString band.length ++ "-loop band"
      op := some node
      notes := [] }
    return (f, report)
  if ← rules.storesOutside f band then f.vectorizeNode rules node band factors report
  else
    let (f, changed) ← f.unrollJam band factors
    if changed then
      return (f, report.withApplied { node, band, factors, kind := .unrollJam })
    return (f, report)

/-- Transform the primary bands of several nodes. -/
def applyAllAgreed (rules : Safeguards) :
    Func → List (OpId × List Nat) → Report → Traced (Func × Report)
  | f, [], report => return (f, report)
  | f, (node, factors) :: rest, report => do
    let (f, report) ← f.applyAgreed rules node factors report
    applyAllAgreed rules f rest report

/-! ## 2. A node's own budget -/

/-- The loops of a band that are to be unrolled: the point loops if only those are asked for and
the band stores nothing outside its node.  None if there are no point loops. -/
def loopsToUnroll (f : Func) (config : Config) (rules : Safeguards) (band : Band) :
    Checked (Option Band) := do
  if !config.pointLoopsOnly then return some band
  if ← rules.storesOutside f band then return some band
  match ← rules.split f band with
  | some (_, point) => return if point.isEmpty then none else some point
  | none => return none

/-- Unroll one band of a node towards a product of factors. -/
def unrollBand (f : Func) (config : Config) (rules : Safeguards) (node : OpId) (target : Nat)
    (band : Band) (report : Report) : Traced (Func × Report) := do
  match ← f.loopsToUnroll config rules band with
  | none =>
    let report ← report.diagnose {
      severity := .note
      message := (← f.label node) ++ " has no point loops to unroll"
      op := some node
      notes := [] }
    return (f, report)
  | some band =>
    let factors := shareFactor target (List.replicate band.length 1) (← f.bandTrips band)
    let (f, changed) ← f.unrollJam band factors
    if changed then
      return (f, report.withApplied { node, band, factors, kind := .unrollJam })
    return (f, report)

/-- Unroll bands of a node one after another. -/
def unrollBands (config : Config) (rules : Safeguards) (node : OpId) (target : Nat) :
    Func → List Band → Report → Traced (Func × Report)
  | f, [], report => return (f, report)
  | f, band :: bands, report => do
    let (f, report) ← f.unrollBand config rules node target band report
    unrollBands config rules node target f bands report

/-- Unroll all bands of a node by its own budget, or by the root budget when costs do not
count. -/
def unrollNode (f : Func) (config : Config) (rules : Safeguards) (node : OpId) (budget : Nat)
    (report : Report) : Traced (Func × Report) := do
  let target := if config.costAware then budget else config.maxUnroll
  unrollBands config rules node target f (← f.nodeBands node) report

/-- Unroll several nodes by their budgets. -/
def unrollNodes (config : Config) (rules : Safeguards) :
    Func → List (OpId × Nat) → Report → Traced (Func × Report)
  | f, [], report => return (f, report)
  | f, (node, budget) :: rest, report => do
    let (f, report) ← f.unrollNode config rules node budget report
    unrollNodes config rules f rest report

/-! ## 3. The pass -/

/-- Agree on factors and transform by them, if correlations count. -/
def agreeAndApply (f : Func) (config : Config) (team : Collaborators) (report : Report) :
    Traced (Func × Report) := do
  if config.correlationAware then
    let links ← team.correlations f
    let agreement ← f.agree report.budgets links config
    let report := { report with
      factors := agreement.factors
      diagnostics := report.diagnostics ++ agreement.diagnostics }
    applyAllAgreed team.rules f agreement.factors report
  else return (f, report)

/-- Parallelize the nodes of a function.  A refusal comes before any loop is touched. -/
def parallelizeWith (f : Func) (config : Config) (team : Collaborators) :
    Traced (Func × Except Reason Report) := do
  match ← f.budgets team.prices config.maxUnroll with
  | .error reason => return (f, .error reason)
  | .ok budgets =>
    let (f, report) ← f.agreeAndApply config team { budgets }
    let own := budgets.filter fun e => !report.factors.has e.1
    let (f, report) ← unrollNodes config team.rules f own report
    Traced.say .info "dfopt::transform::parallelize"
      (Pass.parallelize.text ++ ": " ++ toString report.budgets.length ++ " nodes budgeted, "
        ++ toString report.applied.length ++ " bands transformed")
    return (f, .ok report)

end Func

/-- Why a function was not parallelized. -/
inductive ParallelizeError where
  /-- The root budget is zero. -/
  | zeroFactor
  /-- The pass refused, on the function of this name. -/
  | refused (func : String) (reason : Reason)

namespace ParallelizeError

/-- What went wrong, outermost first. -/
def chain : ParallelizeError → List String
  | .zeroFactor => ["max unroll factor must be positive"]
  | .refused func reason => [Pass.parallelize.text ++ " failed on @" ++ func, reason.text]

end ParallelizeError

/-- Parallelize the nodes of a function by its structure alone. -/
def Func.parallelize (f : Func) (config : Config) :
    Traced (Func × Except ParallelizeError Report) := do
  if config.maxUnroll = 0 then return (f, .error .zeroFactor)
  let (g, outcome) ← f.parallelizeWith config {}
  match outcome with
  | .ok report => return (g, .ok report)
  | .error reason => return (g, .error (.refused g.name reason))

end Dataflow
