/-
# Unrolling a band

Unrolling by factors `[2, 2]` turns

    for i = 0 to 8:                 for i = 0 to 8 step 2:
      for j = 0 to 8:        into     for j = 0 to 8 step 2:
        S(i, j)                         S(i, j); S(i, j+1); S(i+1, j); S(i+1, j+1)

Each loop's step is multiplied by its factor, and each compute of the innermost body is
followed by one replica per further combination of lanes.  Vectorizing is the same change under
another mark; it is done only on bands whose loops are all parallel.

`unrollJam` and `vectorize` are `apply_loop_unroll_jam` and `apply_loop_vectorization` of dfopt.
What they share is `replicateBand`, its `replicate_band`, with `clampFactor` for
`effective_factor`.
-/
import Dataflow.Band.Safeguards
import Dataflow.Func.Edit
import Dataflow.Journal
import Dataflow.Text

namespace Dataflow

/-- A loop chosen for unrolling. -/
structure Lane where
  loop : OpId
  factor : Nat
  /-- The step before unrolling: the distance from one lane to the next. -/
  stride : Int

/-- The loop with its step multiplied by the factor of its lane, and marked. -/
def Lane.widen (lane : Lane) (mark : Nat → Mark) (l : Loop) : Loop :=
  { l with
    step := satMulInt l.step (min (lane.factor : Int) intMax)
    mark := some (mark lane.factor) }

/-- The combinations of lanes, each as the offsets of the loops that run ahead: every loop is in
one of its lanes, and later loops vary faster.  A lane is numbered below the length of the list it
is in, so no run gets to a number that is no signed word. -/
def laneCombinations (lanes : List Lane) : List (List (OpId × Int)) :=
  lanes.foldl
    (fun combinations lane => combinations.flatMap fun outer =>
      (List.range lane.factor).map fun (k : Nat) =>
        if k = 0 then outer else outer ++ [(lane.loop, satMulInt k lane.stride)])
    [[]]

/-- The combinations of lanes in which some loop runs ahead. -/
def laneOffsets (lanes : List Lane) : List (List (OpId × Int)) :=
  (laneCombinations lanes).filter fun offsets => !offsets.isEmpty

/-- The part of a factor that divides the trip count; all of it when the count is unknown. -/
def clampFactor (factor : Nat) : Option Nat → Nat
  | some 0 => 1
  | some trip => Nat.gcd factor trip
  | none => factor

namespace Func

/-- The lane of a loop of a band: none if its factor, clamped to divide the trip count, is at
most one, and none for an operation that is no loop. -/
def lane? (f : Func) (id : OpId) (factor : Nat) : Checked (Option Lane) := do
  match ← f.loop? id with
  | none => return none
  | some l =>
    let factor := clampFactor factor l.tripCount
    return if 1 < factor then some { loop := id, factor, stride := l.step } else none

/-- Widen the loop of a lane. -/
def widenStep (f : Func) (mark : Nat → Mark) (lane : Lane) : Checked Func :=
  f.modifyKind lane.loop (Kind.mapLoop (lane.widen mark))

/-- Widen the steps of all lanes. -/
def widenSteps (f : Func) (mark : Nat → Mark) (lanes : List Lane) : Checked Func :=
  lanes.foldlM (fun f lane => f.widenStep mark lane) f

/-- Allocate operations of the given kinds, in order, without putting them into a block. -/
def createAll (f : Func) (parent : Option OpId) : List Kind → Func × List OpId
  | [] => (f, [])
  | kind :: kinds =>
    let (f, id) := f.create parent kind
    let (f, ids) := f.createAll parent kinds
    (f, id :: ids)

/-- The kinds of the replicas of a compute: one per list of offsets, which its lanes end in. -/
def replicaKinds (c : Compute) (offsets : List (List (OpId × Int))) : List Kind :=
  offsets.map fun more => .compute { c with lanes := c.lanes ++ more }

/-- Allocate the replicas of every compute in a block of `owner`, and give the block with each
compute followed by its replicas. -/
def replicateBlock (owner : OpId) (offsets : List (List (OpId × Int))) :
    Func → List OpId → Checked (Func × List OpId)
  | f, [] => return (f, [])
  | f, id :: ids => do
    match (← f.kind id).compute? with
    | none =>
      let (f, rest) ← replicateBlock owner offsets f ids
      return (f, id :: rest)
    | some c =>
      let (f, replicas) := f.createAll (some owner) (replicaKinds c offsets)
      let (f, rest) ← replicateBlock owner offsets f ids
      return (f, id :: (replicas ++ rest))

/-- Unroll a band by one factor per loop.  Nothing changes, and the answer is false, for an empty
band, for a list of factors of another length and when no loop has a lane. -/
def replicateBand (f : Func) (band : Band) (factors : List Nat) (mark : Nat → Mark) :
    Checked (Func × Bool) := do
  match band.getLast? with
  | none => return (f, false)
  | some innermost =>
    if band.length ≠ factors.length then return (f, false)
    let lanes ← (band.zip factors).filterMapM fun (id, factor) => f.lane? id factor
    if lanes.isEmpty then return (f, false)
    let widened ← f.widenSteps mark lanes
    let (replicated, block) ←
      replicateBlock innermost (laneOffsets lanes) widened (← widened.op innermost).body
    return (← replicated.modifyOp innermost fun op => { op with body := block }, true)

/-- Unroll a band and jam the replicas.  The answer says whether a loop was unrolled. -/
def unrollJam (f : Func) (band : Band) (factors : List Nat) : Traced (Func × Bool) := do
  let (g, changed) ← f.replicateBand band factors .unrollJam
  if changed then
    Traced.say .debug "dfopt::transform::unrolling"
      ("unroll-and-jam " ++ bandText band ++ " by " ++ factorsText factors)
  return (g, changed)

/-- Vectorize a band.  Factors that are all one ask for nothing, and that is granted.  The answer
is false, and nothing changes, if a loop is not parallel. -/
def vectorize (f : Func) (band : Band) (factors : List Nat) (rules : Safeguards) :
    Traced (Func × Bool) := do
  if factors.all (· == 1) then return (f, true)
  let serial? : Option OpId ←
    liftM (band.findM? fun id => return !(← rules.isParallel f id) : Checked _)
  match serial? with
  | some serial =>
    Traced.note .debug "dfopt::transform::unrolling"
      (do return "cannot vectorize: " ++ (← f.label serial) ++ " is not parallel")
    return (f, false)
  | none =>
    let (g, changed) ← f.replicateBand band factors .vectorize
    if changed then
      Traced.say .debug "dfopt::transform::unrolling"
        ("vectorize " ++ bandText band ++ " by " ++ factorsText factors)
    return (g, true)

end Func
end Dataflow
