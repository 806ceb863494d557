/-
# Operations

A function is made of operations of seven kinds.  Schedules, nodes and loops hold other
operations in their body; buffers and views define memrefs; copies and computes use them.
-/
import Dataflow.Index

namespace Dataflow

/-- A transformation recorded on a loop after it was applied, with its factor. -/
inductive Mark where
  | unrollJam (factor : Nat)
  | vectorize (factor : Nat)
  deriving DecidableEq

/-- The factor that a mark records. -/
def Mark.factor : Mark → Nat
  | .unrollJam n | .vectorize n => n

/-! ## 1. Loops -/

/-- A counted loop: its induction variable runs from `lower` by `step` while below `upper`. -/
structure Loop where
  /-- Name of the induction variable. -/
  name : String
  lower : Int
  /-- Exclusive upper bound; `none` when it is only known at run time. -/
  upper : Option Int
  step : Int
  /-- Declared to carry no dependence from one iteration to another. -/
  parallel : Bool
  /-- On a point loop, the tile loop that it iterates within. -/
  pointOf : Option OpId
  mark : Option Mark
  deriving DecidableEq

namespace Loop

/-- A loop without annotations. -/
def plain (name : String) (lower : Int) (upper : Option Int) (step : Int) : Loop :=
  { name, lower, upper, step, parallel := false, pointOf := none, mark := none }

/-- Number of iterations, when it is known: the upper bound has to be given and the step has to
be positive. -/
def tripCount (l : Loop) : Option Nat :=
  match l.upper with
  | none => none
  | some upper =>
    if l.step ≤ 0 then none
    else if upper ≤ l.lower then some 0
    else some (((upper - l.lower).toNat + (l.step.toNat - 1)) / l.step.toNat)

end Loop

/-! ## 2. Computes -/

/-- A leaf computation that reads and writes memrefs. -/
structure Compute where
  name : String
  reads : List Access
  writes : List Access
  /-- Offsets of a replica made by unrolling: for each unrolled loop, how far the replica's
  induction variable runs ahead. -/
  lanes : List (OpId × Int)
  deriving DecidableEq

namespace Compute

/-- All accesses, reads first. -/
def accesses (c : Compute) : List Access := c.reads ++ c.writes

/-- Every loop mentioned: those of the subscripts in order, then those of the lanes. -/
def loops (c : Compute) : List OpId :=
  c.accesses.flatMap (fun a => a.indices.flatMap Index.loops) ++ c.lanes.map Prod.fst

/-- More lanes mention more loops, and nothing else changes. -/
theorem loops_append_lanes (c : Compute) (more : List (OpId × Int)) :
    loops { c with lanes := c.lanes ++ more } = c.loops ++ more.map Prod.fst := by
  simp [loops, accesses]

end Compute

/-! ## 3. The seven kinds -/

/-- A whole number above zero. -/
structure Positive where
  val : Nat
  pos : 0 < val
  deriving DecidableEq

/-- `n` as a positive number; zero is none. -/
def Positive.ofNat? (n : Nat) : Option Positive :=
  if h : 0 < n then some ⟨n, h⟩ else none

/-- A pipelined region that groups sibling nodes.  The annotations scale the budget that the
enclosing node hands to it. -/
structure Schedule where
  name : String
  increase : Option Positive
  decrease : Option Positive
  deriving DecidableEq

/-- What an operation is. -/
inductive Kind where
  | schedule (s : Schedule)
  /-- A dataflow task. -/
  | node (name : String)
  | loop (l : Loop)
  /-- A local allocation, with the value that it is filled with at first. -/
  | buffer (result : ValueId) (init : Option Int)
  /-- An alias of another memref or of a part of it. -/
  | view (source result : ValueId)
  | copy (source target : ValueId)
  | compute (c : Compute)
  deriving DecidableEq

namespace Kind

/-- The word that names the kind. -/
def keyword : Kind → String
  | .schedule _ => "schedule"
  | .node _ => "node"
  | .loop _ => "for"
  | .buffer _ _ => "buffer"
  | .view _ _ => "view"
  | .copy _ _ => "copy"
  | .compute _ => "compute"

/-- Values that the operation uses, in operand order. -/
def operands : Kind → List ValueId
  | .view source _ => [source]
  | .copy source target => [source, target]
  | .compute c => c.accesses.map Access.memref
  | _ => []

/-- Value that the operation defines. -/
def result? : Kind → Option ValueId
  | .buffer result _ | .view _ result => some result
  | _ => none

/-- Values that the operation stores to. -/
def stores : Kind → List ValueId
  | .compute c => c.writes.map Access.memref
  | .copy _ target => [target]
  | _ => []

/-- Is this a schedule? -/
def isSchedule : Kind → Bool
  | .schedule _ => true
  | _ => false

/-- Is this a node? -/
def isNode : Kind → Bool
  | .node _ => true
  | _ => false

/-- Is this a buffer? -/
def isBuffer : Kind → Bool
  | .buffer _ _ => true
  | _ => false

/-- Is this a copy? -/
def isCopy : Kind → Bool
  | .copy _ _ => true
  | _ => false

/-- The header, of a loop. -/
def loop? : Kind → Option Loop
  | .loop l => some l
  | _ => none

/-- Is this a loop? -/
def isLoop (k : Kind) : Bool := k.loop?.isSome

/-- The computation, of a compute operation. -/
def compute? : Kind → Option Compute
  | .compute c => some c
  | _ => none

/-- The value that a buffer is filled with at first. -/
def init? : Kind → Option Int
  | .buffer _ init => init
  | _ => none

/-- Apply `g` to the loop of a loop operation. -/
def mapLoop (g : Loop → Loop) : Kind → Kind
  | .loop l => .loop (g l)
  | k => k

/-- Apply `g` to every operand. -/
def mapOperands (g : ValueId → ValueId) : Kind → Kind
  | .view source result => .view (g source) result
  | .copy source target => .copy (g source) (g target)
  | .compute c =>
    let redirect (a : Access) : Access := { a with memref := g a.memref }
    .compute { c with reads := c.reads.map redirect, writes := c.writes.map redirect }
  | k => k

theorem eq_loop_of_loop? {k : Kind} {l : Loop} (h : k.loop? = some l) : k = .loop l := by
  cases k with
  | loop l' => exact congrArg Kind.loop (Option.some.inj h)
  | _ => cases h

theorem eq_compute_of_compute? {k : Kind} {c : Compute} (h : k.compute? = some c) :
    k = .compute c := by
  cases k with
  | compute c' => exact congrArg Kind.compute (Option.some.inj h)
  | _ => cases h

@[simp] theorem operands_mapOperands (g : ValueId → ValueId) (k : Kind) :
    (k.mapOperands g).operands = k.operands.map g := by
  cases k <;> simp [mapOperands, operands, Compute.accesses, Function.comp_def]

@[simp] theorem result?_mapOperands (g : ValueId → ValueId) (k : Kind) :
    (k.mapOperands g).result? = k.result? := by
  cases k <;> rfl

end Kind

/-! ## 4. Table entries -/

/-- An entry of the operation table. -/
structure Op where
  id : OpId
  kind : Kind
  /-- The operation whose body holds this one; `none` at the top level. -/
  parent : Option OpId
  /-- Nested operations in program order. -/
  body : List OpId
  erased : Bool
  deriving DecidableEq

/-- Where a value comes from. -/
inductive Definition where
  /-- The function argument at a position. -/
  | argument (position : Nat)
  /-- The result of an operation. -/
  | op (id : OpId)
  deriving DecidableEq

/-- An entry of the value table: a memref. -/
structure Value where
  id : ValueId
  name : String
  shape : List Nat
  /-- Memory that the memref is allocated in. -/
  space : Nat
  definition : Definition
  deriving DecidableEq

/-- The operation that defines the value, if it is no argument. -/
def Definition.op? : Definition → Option OpId
  | .op id => some id
  | .argument _ => none

end Dataflow
