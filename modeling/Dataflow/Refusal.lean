/-
# Refusals

Why a pass did not do what it was asked to do.
-/
import Dataflow.Func

namespace Dataflow

/-- The passes. -/
inductive Pass where
  | tiling
  | parallelize
  | copyElimination
  deriving DecidableEq

/-- The name of a pass in messages. -/
def Pass.text : Pass → String
  | .tiling => "loop-tiling"
  | .parallelize => "parallelize-dataflow-node"
  | .copyElimination => "simplify-copy"

/-- The reasons for a refusal.  An operation is given with its name in messages. -/
inductive Reason where
  /-- The node around a schedule has no budget. -/
  | missingParentBudget (node : OpId) (name : String)
  /-- A schedule cannot be priced. -/
  | unpricedSchedule (schedule : OpId) (name : String)
  /-- A node cannot be priced. -/
  | unpricedNode (node : OpId) (name : String)
  /-- There is not one tile size per loop. -/
  | sizeCount (sizes loops : Nat)
  /-- An operation of the band is not the only one in the body of the one before it. -/
  | imperfectNest (op : OpId) (name : String)
  /-- A loop of the band is a tile loop or a point loop already. -/
  | alreadyTiled (op : OpId) (name : String)
  /-- An operation of the band is no loop. -/
  | notLoop (name : String)
  /-- A loop's trip count is unknown. -/
  | dynamicTripCount (op : OpId) (name : String)
  /-- A tile size does not divide the trip count. -/
  | unevenTile (op : OpId) (size trip : Nat) (name : String)
  /-- The step of the tile loop would be no signed word. -/
  | stepOverflow (op : OpId) (size : Nat) (name : String)
  deriving DecidableEq

/-- The classes that refusals are reported under. -/
inductive RefusalClass where
  | missingParentBudget
  | complexityUnavailable
  | invalidTileSize
  | notApplicable
  deriving DecidableEq

namespace Reason

/-- The class of a reason. -/
def refusalClass : Reason → RefusalClass
  | .missingParentBudget _ _ => .missingParentBudget
  | .unpricedSchedule _ _ | .unpricedNode _ _ => .complexityUnavailable
  | .imperfectNest _ _ | .alreadyTiled _ _ => .notApplicable
  | .sizeCount _ _ | .notLoop _ | .dynamicTripCount _ _ | .unevenTile _ _ _ _
  | .stepOverflow _ _ _ => .invalidTileSize

/-- The pass that refuses for the reason. -/
def pass : Reason → Pass
  | .missingParentBudget _ _ | .unpricedSchedule _ _ | .unpricedNode _ _ => .parallelize
  | _ => .tiling

/-- The operation that a refusal is put down to. -/
def op? : Reason → Option OpId
  | .missingParentBudget id _ | .unpricedSchedule id _ | .unpricedNode id _
  | .imperfectNest id _ | .alreadyTiled id _ | .dynamicTripCount id _ | .unevenTile id _ _ _
  | .stepOverflow id _ _ => some id
  | .sizeCount _ _ | .notLoop _ => none

/-- What a reason says. -/
def message : Reason → String
  | .missingParentBudget _ name => "failed to get parent node's budget for " ++ name
  | .unpricedSchedule _ name => "failed to get schedule complexity of " ++ name
  | .unpricedNode _ name => "failed to get node complexity of " ++ name
  | .sizeCount sizes loops =>
    toString sizes ++ " tile sizes given for a band of " ++ toString loops ++ " loops"
  | .imperfectNest _ name => name ++ " is not perfectly nested"
  | .alreadyTiled _ name => "band of " ++ name ++ " is already tiled"
  | .notLoop name => name ++ " is not a loop"
  | .dynamicTripCount _ name => name ++ " has a dynamic trip count"
  | .unevenTile _ size trip name =>
    "tile size " ++ toString size ++ " does not divide the trip count " ++ toString trip
      ++ " of " ++ name
  | .stepOverflow _ size name => "tile size " ++ toString size ++ " overflows the step of " ++ name

/-- A message together with the pass that it comes from. -/
def attributed (message pass : String) : String := message ++ " in " ++ pass

/-- The text of a refusal. -/
def text (r : Reason) : String := attributed r.message r.pass.text

end Reason

end Dataflow
