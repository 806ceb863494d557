/-
# Tiling a band

Tiling by sizes `[Ti, Tj]` turns

    for i = 0 to N:                 for i_tile = 0 to N step Ti:
      for j = 0 to M:        into     for j_tile = 0 to M step Tj:
        A[i][j] = ...                   for i = 0 to Ti:          (point of i_tile)
                                          for j = 0 to Tj:        (point of j_tile)
                                            A[i_tile + i][j_tile + j] = ...

The band's loops become the tile loops; the point loops are new, keep the names and hang below
all tile loops.  A point loop inherits the declaration of its loop to be parallel.

`tileBand` is `tile_band` of dfopt and `mayTile` its `is_tiling_legal`.  The pass `LoopTiling` is
`tile`, asked beforehand by `canTile`, over the bands of `tilingCandidates`.
-/
import Dataflow.Band.Safeguards
import Dataflow.Func.Edit
import Dataflow.Journal
import Dataflow.Refusal
import Dataflow.Text

namespace Dataflow

/-- What tiling needs to know of a loop: its header before tiling and its tile size. -/
structure TileHeader where
  name : String
  step : Int
  size : Int
  parallel : Bool

/-- The point loop of a tile. -/
def TileHeader.pointLoop (h : TileHeader) (tile : OpId) : Loop :=
  { Loop.plain h.name 0 (some (h.size * h.step)) h.step with
    parallel := h.parallel, pointOf := some tile }

/-- The tile loop that a loop becomes. -/
def TileHeader.tileLoop (h : TileHeader) (l : Loop) : Loop :=
  { l with name := h.name ++ "_tile", step := h.step * h.size }

/-- Tile loops, each with its point loop. -/
abbrev Redirection := List (OpId × OpId)

namespace Redirection

/-- The point loop of a tile loop. -/
def point? (r : Redirection) (l : OpId) : Option OpId := (r.find? fun e => e.1 == l).map Prod.snd

/-- A subscript that a loop of the band drives becomes the sum of its tile and point loop. -/
def index (r : Redirection) : Index → Index
  | .iv l => match r.point? l with
    | some point => .tiled l point
    | none => .iv l
  | i => i

/-- Redirect the subscripts and the lanes of a compute. -/
def compute (r : Redirection) (c : Compute) : Compute :=
  let access (a : Access) : Access := { a with indices := a.indices.map r.index }
  { c with
    reads := c.reads.map access
    writes := c.writes.map access
    lanes := c.lanes.map fun (l, offset) => ((r.point? l).getD l, offset) }

/-- Redirect an operation if it is a compute. -/
def op (r : Redirection) (op : Op) : Op :=
  match op.kind with
  | .compute c => { op with kind := .compute (r.compute c) }
  | _ => op

end Redirection

namespace Func

/-! ## 1. What can be tiled -/

/-- The first pair of neighbours in a band that are not perfectly nested. -/
def nestRefusal? (f : Func) : Band → Checked (Option Reason)
  | outer :: inner :: rest => do
    if (← f.op inner).parent = some outer then
      if (← f.op outer).body.length = 1 then return ← f.nestRefusal? (inner :: rest)
    return some (.imperfectNest inner (← f.label inner))
  | _ => return none

/-- True if a loop is a point loop or has one. -/
def isTiled (f : Func) (id : OpId) : Checked Bool := do
  if ((← f.loop? id).bind Loop.pointOf).isSome then return true
  return (← f.entries).any fun e => (e.2.kind.loop?.bind Loop.pointOf) == some id

/-- The header of a loop for a tile size that divides its trip count. -/
def tileHeader (f : Func) (id : OpId) (size : Nat) : Checked (Except Reason TileHeader) := do
  match ← f.loop? id with
  | none => return .error (.notLoop (← f.label id))
  | some l =>
    match l.tripCount with
    | none => return .error (.dynamicTripCount id (← f.label id))
    | some trip =>
      if size = 0 || trip % size ≠ 0 then
        return .error (.unevenTile id size trip (← f.label id))
      if isInt64 size && isInt64 (size * l.step) then
        return .ok { name := l.name, step := l.step, size, parallel := l.parallel }
      return .error (.stepOverflow id size (← f.label id))

/-- The headers of a band; the first loop that cannot be tiled refuses. -/
def tileHeaders (f : Func) : List (OpId × Nat) → Checked (Except Reason (List TileHeader))
  | [] => return .ok []
  | (id, size) :: rest => do
    match ← f.tileHeader id size with
    | .error reason => return .error reason
    | .ok h =>
      match ← f.tileHeaders rest with
      | .error reason => return .error reason
      | .ok hs => return .ok (h :: hs)

/-- The headers of a band that can be tiled by the given sizes. -/
def tilingPlan (f : Func) (band : Band) (sizes : List Nat) :
    Checked (Except Reason (List TileHeader)) := do
  if band.length ≠ sizes.length then return .error (.sizeCount sizes.length band.length)
  match ← f.nestRefusal? band with
  | some reason => return .error reason
  | none => match band.head?, ← band.anyM f.isTiled with
    | some outermost, true => return .error (.alreadyTiled outermost (← f.label outermost))
    | _, _ => f.tileHeaders (band.zip sizes)

/-! ## 2. The tiled band -/

/-- Add the point loops of tiles as a chain below an operation. -/
def addPointLoops (f : Func) (parent : OpId) :
    List (OpId × TileHeader) → Checked (Func × List OpId)
  | [] => return (f, [])
  | (tile, h) :: rest => do
    let (f, point) ← f.push (some parent) (.loop (h.pointLoop tile))
    let (f, points) ← f.addPointLoops point rest
    return (f, point :: points)

/-- Turn the loops of a band into tile loops. -/
def makeTileLoops (f : Func) (tiles : List (OpId × TileHeader)) : Checked Func :=
  tiles.foldlM (fun f (tile, h) => f.modifyKind tile (Kind.mapLoop h.tileLoop)) f

/-- Make `parent` the parent of the operations listed. -/
def adopt (f : Func) (parent : OpId) (ids : List OpId) : Checked Func :=
  ids.foldlM (fun f id => f.modifyOp id fun op => { op with parent := some parent }) f

/-- Split the loops of a band that ends at `innermost`: hang the point loops below it, move its
body into the last of them, and redirect what the body mentions. -/
def splitLoops (f : Func) (innermost : OpId) (tiles : List (OpId × TileHeader)) :
    Checked (Func × List OpId) := do
  let body := (← f.op innermost).body
  let f ← f.modifyOp innermost fun op => { op with body := [] }
  let (f, points) ← f.addPointLoops innermost tiles
  let last := points.getLastD innermost
  let f ← f.adopt last body
  let f ← f.modifyOp last fun op => { op with body := body }
  let f ← f.makeTileLoops tiles
  let redirection : Redirection := (tiles.map Prod.fst).zip points
  return (f.modifyOps (← f.walkFrom last) redirection.op, points)

/-- Tile a perfectly nested band with one size per loop.  Gives the new band: the tile loops, then
the point loops. -/
def tileBand (f : Func) (band : Band) (sizes : List Nat) :
    Traced (Func × Except Reason Band) := do
  match band.getLast? with
  | none => return (f, .ok [])
  | some innermost =>
    match ← f.tilingPlan band sizes with
    | .error reason => return (f, .error reason)
    | .ok headers =>
      let (g, points) ← f.splitLoops innermost (band.zip headers)
      Traced.say .debug "dfopt::transform::tiling"
        ("tiled " ++ bandText band ++ " by " ++ factorsText sizes ++ " into points "
          ++ bandText points)
      return (g, .ok (band ++ points))

/-! ## 3. The pass -/

/-- A band may be tiled when every loop below the outermost is parallel and none is a point
loop. -/
def mayTile (f : Func) (band : Band) (rules : Safeguards) : Checked Bool := do
  if ← (band.drop 1).allM (rules.isParallel f) then
    band.allM fun id => return (← f.loop? id).any fun l => l.pointOf.isNone
  else return false

/-- Every band that the pass tries to tile, in program order of the nodes. -/
def tilingCandidates (f : Func) : Checked (List Band) := do
  let bands := (← (← f.nodes).mapM f.nodeBands).flatten
  bands.filterM fun band => f.mayTile band .structural

/-- The sizes for a band of a given depth: a single size is for all loops. -/
def sizesFor (sizes : List Nat) (depth : Nat) : List Nat :=
  match sizes with
  | [size] => List.replicate depth size
  | sizes => sizes

/-- Tile bands one after another; those that refuse are skipped.  The answer says whether one was
tiled. -/
def tileBands (sizes : List Nat) : Func → List Band → Traced (Func × Bool)
  | f, [] => return (f, false)
  | f, band :: bands => do
    let (f, outcome) ← f.tileBand band (sizesFor sizes band.length)
    match outcome with
    | .ok _ =>
      let (f, _) ← tileBands sizes f bands
      return (f, true)
    | .error reason =>
      Traced.say .warn "dfopt::transform::tiling"
        ("skipping band " ++ bandText band ++ ": " ++ reason.text)
      tileBands sizes f bands

/-- Tile every band that may be tiled. -/
def tile (f : Func) (sizes : List Nat) : Traced (Func × Bool) := do
  tileBands sizes f (← f.tilingCandidates)

/-- True if there is something to tile, and sizes to tile it by. -/
def canTile (f : Func) (sizes : List Nat) : Checked Bool := do
  if sizes.isEmpty || sizes.any (· == 0) then return false
  return !(← f.tilingCandidates).isEmpty

end Func
end Dataflow
