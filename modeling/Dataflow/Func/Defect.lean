/-
# Checking a function

A function is in order when its links agree: every entry sits in its own slot, every value is
bound where it says, and every operation that the blocks reach stands in one block, the one its
parent link names, and mentions only values and loops that it may.

The checks come in a fixed order, and the first defect found is the one reported.  They are made
on functions of which nothing is known yet, so each lookup that no test guards is a checked
one; `Func.inspect_isOk` says that none of them ever misses.
-/
import Dataflow.Func.Walk

namespace Dataflow

/-! ## 1. Defects -/

/-- What is wrong with a function. -/
inductive Cause where
  /-- An operation's entry is in the wrong slot. -/
  | opSlot (id : OpId) (slot : Nat)
  /-- A value's entry is in the wrong slot. -/
  | valueSlot (id : ValueId) (slot : Nat)
  /-- A value says that it is an argument, and the argument list does not. -/
  | unboundArgument (id : ValueId) (position : Nat)
  /-- A value names a defining operation that does not exist. -/
  | unknownDefinition (id : ValueId) (op : OpId)
  /-- A value names a defining operation that defines something else. -/
  | wrongDefinition (id : ValueId) (op : OpId)
  /-- The argument list has a value that is not that argument. -/
  | foreignArgument (position : Nat) (id : ValueId)
  /-- A block lists an operation that does not exist. -/
  | unknownOp (id : OpId)
  /-- A block lists an erased operation. -/
  | erasedInBlock
  /-- A block lists an operation that belongs to another block, or is listed twice. -/
  | notOwned
  /-- An operation uses or defines a value that does not exist. -/
  | undefinedValue (id : ValueId)
  /-- An operation uses a value whose defining operation is erased. -/
  | erasedDefinition (id : ValueId) (op : OpId)
  /-- An operation's result names another operation as its definition. -/
  | foreignResult (id : ValueId)
  /-- A loop does not advance. -/
  | badStep (name : String) (step : Int)
  /-- A point loop names something that is no loop as its tile loop. -/
  | badTile (name : String) (tile : OpId)
  /-- A compute mentions a loop that does not enclose it. -/
  | notEnclosing (loop : OpId)
  deriving DecidableEq

/-- The classes that defects are reported under. -/
inductive DefectClass where
  | danglingReference
  | inconsistentNesting
  | erasedOpReachable
  | undefinedValue
  | invalidLoop
  deriving DecidableEq

namespace Cause

/-- The class of a cause. -/
def defectClass : Cause → DefectClass
  | .opSlot _ _ | .notOwned => .inconsistentNesting
  | .valueSlot _ _ | .unboundArgument _ _ | .wrongDefinition _ _ | .foreignArgument _ _
  | .undefinedValue _ | .foreignResult _ => .undefinedValue
  | .unknownDefinition _ _ | .unknownOp _ | .badTile _ _ | .notEnclosing _ => .danglingReference
  | .erasedInBlock | .erasedDefinition _ _ => .erasedOpReachable
  | .badStep _ _ => .invalidLoop

/-- What a cause says. -/
def message : Cause → String
  | .opSlot id slot => Func.opText id ++ " stored at slot " ++ toString slot
  | .valueSlot id slot => Func.valueText id ++ " stored at slot " ++ toString slot
  | .unboundArgument id position =>
    Func.valueText id ++ " claims argument #" ++ toString position ++ " it is not bound to"
  | .unknownDefinition id op => Func.valueText id ++ " is defined by unknown " ++ Func.opText op
  | .wrongDefinition id op => Func.opText op ++ " does not define " ++ Func.valueText id
  | .foreignArgument position id =>
    "argument #" ++ toString position ++ " is not bound to " ++ Func.valueText id
  | .unknownOp id => "reference to unknown " ++ Func.opText id
  | .erasedInBlock => "erased op still in a block"
  | .notOwned => "op is not owned by the block it appears in"
  | .undefinedValue id => "use of undefined " ++ Func.valueText id
  | .erasedDefinition id op => Func.valueText id ++ " is defined by erased " ++ Func.opText op
  | .foreignResult id => Func.valueText id ++ " is not defined by this op"
  | .badStep name step => "loop %" ++ name ++ " has non-positive step " ++ toString step
  | .badTile name tile =>
    "point loop %" ++ name ++ " refers to " ++ Func.opText tile ++ " which is not a loop"
  | .notEnclosing l => Func.opText l ++ " is not an enclosing loop"

end Cause

/-- A cause together with the operation at which it was found, if it was found at one. -/
structure Defect where
  cause : Cause
  op : Option OpId
  deriving DecidableEq

/-- A message and the operation that it is about. -/
def located (message : String) : Option OpId → String
  | none => message
  | some id => message ++ " at " ++ Func.opText id

/-- The text of a defect. -/
def Defect.text (d : Defect) : String := located d.cause.message d.op

namespace Func

/-! ## 2. The tables -/

/-- The first operation whose entry is in the wrong slot. -/
def slotDefect? (f : Func) : Option Defect :=
  f.ops.toList.zipIdx.findSome? fun (op, slot) =>
    if op.id = slot then none else some ⟨.opSlot op.id slot, none⟩

/-- What is wrong with the value in a slot: its entry has to name the slot, and the argument
list or the defining operation has to agree with its definition. -/
def valueDefectAt? (f : Func) (v : Value) (slot : Nat) : Option Defect :=
  if v.id ≠ slot then some ⟨.valueSlot v.id slot, none⟩
  else match v.definition with
    | .argument position =>
      if f.arguments[position]? = some v.id then none
      else some ⟨.unboundArgument v.id position, none⟩
    | .op id => match f.ops[id]? with
      | none => some ⟨.unknownDefinition v.id id, none⟩
      | some op =>
        if op.kind.result? = some v.id then none else some ⟨.wrongDefinition v.id id, some id⟩

/-- The first value that is not bound where it says. -/
def valueDefect? (f : Func) : Option Defect :=
  f.values.toList.zipIdx.findSome? fun (v, slot) => f.valueDefectAt? v slot

/-- The first entry of the argument list that is not that argument. -/
def argumentDefect? (f : Func) : Option Defect :=
  f.arguments.zipIdx.findSome? fun (id, position) =>
    if f.values[id]?.map Value.definition = some (.argument position) then none
    else some ⟨.foreignArgument position id, none⟩

/-! ## 3. One operation -/

/-- True if a slot holds a loop. -/
def isLoopSlot (f : Func) (id : OpId) : Bool := f.ops[id]?.any (·.kind.isLoop)

/-- True if `l` is a loop that encloses `id`. -/
def hasEnclosingLoop (f : Func) (l id : OpId) : Checked Bool :=
  if f.isLoopSlot l then f.encloses l id else return false

/-- What is wrong with a value that an operation uses or defines. -/
def useDefect? (f : Func) (id : OpId) (v : ValueId) : Checked (Option Defect) :=
  match f.values[v]? with
  | none => return some ⟨.undefinedValue v, some id⟩
  | some value => match value.definition with
    | .argument _ => return none
    | .op d => return if (← f.op d).erased then some ⟨.erasedDefinition v d, some id⟩ else none

/-- What is wrong with the result of an operation: it has to name the operation. -/
def resultDefect? (f : Func) (id : OpId) (op : Op) : Checked (Option Defect) :=
  match op.kind.result? with
  | none => return none
  | some v =>
    return if (← f.value v).definition = .op id then none else some ⟨.foreignResult v, some id⟩

/-- What is wrong with a loop that a compute mentions: it has to be around the compute. -/
def mentionDefect? (f : Func) (id l : OpId) : Checked (Option Defect) :=
  return if ← f.hasEnclosingLoop l id then none else some ⟨.notEnclosing l, some id⟩

/-- What is wrong with an operation by its kind: a loop has to advance and to name a loop as
its tile loop, and a compute may mention enclosing loops only. -/
def kindDefect? (f : Func) (id : OpId) : Kind → Checked (Option Defect)
  | .loop l =>
    return if l.step ≤ 0 then some ⟨.badStep l.name l.step, some id⟩
    else l.pointOf.bind fun tile =>
      if f.isLoopSlot tile then none else some ⟨.badTile l.name tile, some id⟩
  | .compute c => c.loops.findSomeM? (f.mentionDefect? id)
  | _ => return none

/-- What is wrong with an operation, its place in the nesting apart. -/
def opDefect? (f : Func) (id : OpId) (op : Op) : Checked (Option Defect) := do
  match ← (op.kind.operands ++ op.kind.result?.toList).findSomeM? (f.useDefect? id) with
  | some d => return some d
  | none => match ← f.resultDefect? id op with
    | some d => return some d
    | none => f.kindDefect? id op.kind

/-! ## 4. The nesting -/

/-- Check pending operations, each given with the owner of the block that lists it, the first
one first; `seen` are those checked before.  An operation's body becomes pending with its last
operation first. -/
def visit (f : Func) : Nat → List (Option OpId × OpId) → List OpId → Checked (Option Defect)
  | 0, _, _ => .error .circular
  | _ + 1, [], _ => return none
  | steps + 1, (owner, id) :: pending, seen =>
    match f.ops[id]? with
    | none => return some ⟨.unknownOp id, none⟩
    | some op =>
      if op.erased then return some ⟨.erasedInBlock, some id⟩
      else if op.parent ≠ owner || seen.contains id then return some ⟨.notOwned, some id⟩
      else do match ← f.opDefect? id op with
        | some d => return some d
        | none =>
          f.visit steps (op.body.reverse.map (fun child => (some id, child)) ++ pending)
            (id :: seen)

/-- The number of places in all blocks; no visit takes more steps, since it expands an operation
at most once. -/
def placeCount (f : Func) : Nat :=
  f.body.length + (f.ops.toList.flatMap fun op => op.body).length

/-- The first defect of the nesting, blocks being read from their end. -/
def nestingDefect? (f : Func) : Checked (Option Defect) :=
  f.visit (f.placeCount + 1) (f.body.reverse.map fun id => (none, id)) []

/-! ## 5. The whole check -/

/-- The first defect of the tables, which needs no link to be followed. -/
def tableDefect? (f : Func) : Option Defect :=
  f.slotDefect?
    |>.or f.valueDefect?
    |>.or f.argumentDefect?

/-- Look for the first defect of a function.  The nesting is looked at last: its lookups follow
links that the tables were checked for. -/
def inspect (f : Func) : Checked (Option Defect) :=
  match f.tableDefect? with
  | some d => return some d
  | none => f.nestingDefect?

end Func
end Dataflow
