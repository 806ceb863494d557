/-
# Subscripts and memory accesses

An access names a memref and gives one subscript per dimension.  A subscript is driven by the
induction variable of a loop, by the sum of a tile and a point loop, by no loop at all, or by
something that the analyses do not look into.
-/

namespace Dataflow

/-- Slot of an operation in a function's operation table. -/
abbrev OpId := Nat

/-- Slot of a value in a function's value table. -/
abbrev ValueId := Nat

/-- One subscript of a memory access. -/
inductive Index where
  /-- The induction variable of a loop. -/
  | iv (loop : OpId)
  /-- A constant. -/
  | const (value : Int)
  /-- Anything the analyses cannot reason about. -/
  | unknown
  /-- The sum of the induction variables of a tile loop and of a point loop. -/
  | tiled (tile point : OpId)
  deriving DecidableEq

namespace Index

/-- Loops whose induction variables drive the subscript, tile loop first. -/
def loops : Index → List OpId
  | .iv l => [l]
  | .tiled tile point => [tile, point]
  | .const _ | .unknown => []

/-- True if the induction variable of `l` drives the subscript. -/
def uses (index : Index) (l : OpId) : Bool := index.loops.contains l

/-- True if `l` is the tile loop of the subscript. -/
def hasTile : Index → OpId → Bool
  | .tiled tile _, l => tile == l
  | _, _ => false

/-- True if `l` is the point loop of the subscript, or the only loop of it. -/
def hasPoint : Index → OpId → Bool
  | .tiled _ point, l => point == l
  | .iv i, l => i == l
  | _, _ => false

/-- The loop of `index` in the role that `l` plays in `other`: tile for tile, point for point.
A plain induction variable is in the role of a point loop. -/
def partner (index other : Index) (l : OpId) : Option OpId :=
  match index with
  | .iv i => if other.hasPoint l then some i else none
  | .tiled tile point =>
    if other.hasTile l then some tile else if other.hasPoint l then some point else none
  | .const _ | .unknown => none

@[simp] theorem uses_iff {index : Index} {l : OpId} : index.uses l = true ↔ l ∈ index.loops := by
  simp [uses]

end Index

/-- A memory access: a memref and one subscript per dimension. -/
structure Access where
  memref : ValueId
  indices : List Index
  deriving DecidableEq

namespace Access

/-- Position of the first subscript that the induction variable of `l` drives. -/
def dimensionOf (a : Access) (l : OpId) : Option Nat := a.indices.findIdx? (·.uses l)

end Access

end Dataflow
