/-
# Settings of the parallelization
-/

namespace Dataflow

/-- What the parallelization is allowed to do. -/
structure Config where
  /-- The budget of the whole function, and the factor of every node when costs do not count. -/
  maxUnroll : Nat := 1
  /-- Unroll only the point loops of tiled bands. -/
  pointLoopsOnly : Bool := false
  /-- Weigh budgets by the cost of the nodes. -/
  costAware : Bool := true
  /-- Give correlated nodes matching factors. -/
  correlationAware : Bool := true
  deriving DecidableEq

namespace Config

/-- The same factor for every node, whatever its cost and its correlations. -/
def flat (maxUnroll : Nat) : Config := { maxUnroll, costAware := false, correlationAware := false }

/-- Unroll only point loops. -/
def pointLoops (maxUnroll : Nat) : Config := { maxUnroll, pointLoopsOnly := true }

/-- All settings on one line, for the journal. -/
def text (c : Config) : String :=
  "ParallelizeConfig \x7b max_unroll_factor: " ++ toString c.maxUnroll
    ++ ", point_loop_only: " ++ toString c.pointLoopsOnly
    ++ ", complexity_aware: " ++ toString c.costAware
    ++ ", correlation_aware: " ++ toString c.correlationAware ++ " \x7d"

end Config

end Dataflow
