/-
# Correlations between nodes

Two nodes are correlated when one stores to a buffer that the other reads and loops of their
bands drive the same dimension of it.  Matching factors on matched loops keep the two access
patterns compatible.

`correlations` are those of dfopt's `AccessCorrelation`, with `matchBands` for `match_dims`.  Along
a correlation, `carry` is `permute_factors`, `other` is `correlated_node` and `mapFrom` is
`correlate_map`.
-/
import Dataflow.Memory.Alias
import Dataflow.Band.Basic
import Dataflow.Journal
import Dataflow.OpMap
import Dataflow.Text

namespace Dataflow

/-! ## 1. One correlation -/

/-- A link between the bands of two nodes: for each loop of one band the loop of the other that
it is matched with, both ways. -/
structure Correlation where
  first : OpId
  second : OpId
  /-- From the loops of the first band to those of the second. -/
  forward : List (Option Nat)
  /-- From the loops of the second band to those of the first. -/
  backward : List (Option Nat)
  deriving DecidableEq

namespace Correlation

/-- A link given by its forward map and the number of loops of the second band.  A loop of the
second band is matched with the first loop that maps to it. -/
def ofForward (first second : OpId) (forward : List (Option Nat)) (secondLoops : Nat) :
    Correlation where
  first := first
  second := second
  forward := forward
  backward := (List.range secondLoops).map fun j => forward.findIdx? (· == some j)

/-- The node on the other side. -/
def other (c : Correlation) (node : OpId) : OpId := if node = c.first then c.second else c.first

/-- The map from the band of `node` to the band on the other side. -/
def mapFrom (c : Correlation) (node : OpId) : List (Option Nat) :=
  if node = c.first then c.forward else c.backward

/-- The number of loops of the band on the other side. -/
def loopsOpposite (c : Correlation) (node : OpId) : Nat :=
  if node = c.first then c.backward.length else c.forward.length

/-- The factors of `node` carried over to the other side; a loop that nothing is matched with
gets factor one. -/
def carry (c : Correlation) (node : OpId) (factors : List Nat) : List Nat :=
  ((c.mapFrom node).zip factors).foldl
    (fun acc (target, factor) => match target with
      | some j => acc.set j factor
      | none => acc)
    (List.replicate (c.loopsOpposite node) 1)

end Correlation

/-! ## 2. Finding the correlations -/

/-- The primary band of a node with the accesses below it that have a root. -/
structure BandAccesses where
  node : OpId
  band : Band
  reads : List (ValueId × Access)
  writes : List (ValueId × Access)

/-- Accesses with their roots; those without one are left out. -/
def Func.withRoots (f : Func) (accesses : List Access) : Checked (List (ValueId × Access)) :=
  accesses.filterMapM fun a => return (← f.root a.memref).map (·, a)

/-- The primary band of a node and its accesses.  Replicas made by unrolling say nothing new and
are left out. -/
def Func.bandAccesses (f : Func) (node : OpId) : Checked BandAccesses := do
  let band ← f.primaryBand node
  match band with
  | [] => return { node, band, reads := [], writes := [] }
  | outermost :: _ =>
    let computes := (← f.entriesOf outermost).filterMap fun e => e.2.kind.compute?
    let fresh := computes.filter fun c => c.lanes.isEmpty
    let reads ← f.withRoots (fresh.flatMap Compute.reads)
    let writes ← f.withRoots (fresh.flatMap Compute.writes)
    return { node, band, reads, writes }

namespace BandAccesses

/-- Accesses of one memory from the two sides, a store on one of them: the stores of `a` with the
loads of `b`, then the loads of `a` with the stores of `b`. -/
def sharedAccesses (a b : BandAccesses) : List (Access × Access) :=
  let pairs := a.writes.flatMap (fun w => b.reads.map (w, ·))
    ++ a.reads.flatMap (fun r => b.writes.map (r, ·))
  (pairs.filter fun p => p.1.1 == p.2.1).map fun p => (p.1.2, p.2.2)

/-- The loop of `band` in the role at the other access that `l` plays at its own. -/
def matchLoop (band : Band) (own other : Access) (l : OpId) : Option Nat := do
  let position ← own.dimensionOf l
  let ownIndex ← own.indices[position]?
  let index ← other.indices[position]?
  let partner ← index.partner ownIndex l
  band.findIdx? (· == partner)

/-- Match the loops of `a` through one pair of accesses.  Loops matched before keep their match,
and no loop of `b` is matched twice. -/
def matchThrough (a b : BandAccesses) (forward : List (Option Nat)) (pair : Access × Access) :
    List (Option Nat) :=
  a.band.zipIdx.foldl
    (fun forward (l, i) =>
      if (forward[i]?.join).isSome then forward
      else match matchLoop b.band pair.1 pair.2 l with
        | none => forward
        | some j => if forward.contains (some j) then forward else forward.set i (some j))
    forward

/-- The map from the loops of `a` to those of `b`; none if no loop is matched. -/
def matchBands (a b : BandAccesses) : Option (List (Option Nat)) :=
  let forward := (sharedAccesses a b).foldl (matchThrough a b) (List.replicate a.band.length none)
  if forward.any Option.isSome then some forward else none

end BandAccesses

/-- Correlations of every node. -/
abbrev Correlations := OpMap (List Correlation)

namespace Func

/-- Add the correlation of two nodes, if there is one, to the lists of both. -/
def correlatePair (f : Func) (a b : BandAccesses) (m : Correlations) : Traced Correlations := do
  if a.band.isEmpty || b.band.isEmpty then return m
  match a.matchBands b with
  | none => return m
  | some forward =>
    let c := Correlation.ofForward a.node b.node forward b.band.length
    Traced.note .debug "dfopt::analysis::correlation"
      (do return "correlated " ++ (← f.label a.node) ++ " <-> " ++ (← f.label b.node)
        ++ " with map " ++ dimensionsText (c.mapFrom a.node))
    return (m.update a.node (· ++ [c])).update b.node (· ++ [c])

/-- Add the correlations of one node with each of the others. -/
def correlateWith (f : Func) (a : BandAccesses) : List BandAccesses → Correlations →
    Traced Correlations
  | [], m => return m
  | b :: bs, m => do f.correlateWith a bs (← f.correlatePair a b m)

/-- Add the correlations of every pair of nodes, each pair once. -/
def correlateAll (f : Func) : List BandAccesses → Correlations → Traced Correlations
  | [], m => return m
  | a :: bs, m => do f.correlateAll bs (← f.correlateWith a bs m)

/-- The primary bands of all nodes with their accesses, in program order. -/
def allBandAccesses (f : Func) : Checked (List BandAccesses) := do
  (← f.nodes).mapM f.bandAccesses

/-- The correlations of every node, found through the subscripts of shared buffers.  A node
without one has an empty list. -/
def correlations (f : Func) : Traced Correlations := do
  let bands ← f.allBandAccesses
  f.correlateAll bands (OpMap.ofEntries (bands.map fun b => (b.node, [])))

end Func
end Dataflow
