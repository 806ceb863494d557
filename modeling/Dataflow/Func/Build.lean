/-
# Building a function piece by piece

Each step appends to the end of a block: that of `parent`, or the top level for `none`.
-/
import Dataflow.Func.Edit

namespace Dataflow
namespace Func

/-- Add a function argument. -/
def addArgument (f : Func) (name : String) (shape : List Nat) (space : Nat) : Func × ValueId :=
  let (f, id) := f.addValue name shape space (.argument f.arguments.length)
  ({ f with arguments := f.arguments ++ [id] }, id)

/-- Add a schedule without annotations. -/
def addSchedule (f : Func) (parent : Option OpId) (name : String) : Checked (Func × OpId) :=
  f.push parent (.schedule { name, increase := none, decrease := none })

/-- Set the annotations of a schedule.  Zero is no annotation, and an operation that is no
schedule stays as it is. -/
def annotate (f : Func) (id : OpId) (increase decrease : Option Nat) : Checked Func :=
  f.modifyKind id fun
    | .schedule s => .schedule { s with
        increase := increase.bind Positive.ofNat?, decrease := decrease.bind Positive.ofNat? }
    | k => k

/-- Add a node. -/
def addNode (f : Func) (parent : Option OpId) (name : String) : Checked (Func × OpId) :=
  f.push parent (.node name)

/-- Add a loop. -/
def addLoop (f : Func) (parent : Option OpId) (l : Loop) : Checked (Func × OpId) :=
  f.push parent (.loop l)

/-- Declare that a loop carries no dependence between iterations. -/
def markParallel (f : Func) (id : OpId) : Checked Func :=
  f.modifyKind id (Kind.mapLoop fun l => { l with parallel := true })

/-- Add an operation together with the value that it defines. -/
def addDefining (f : Func) (parent : Option OpId) (name : String) (shape : List Nat)
    (space : Nat) (kind : ValueId → Kind) : Checked (Func × ValueId) := do
  let (f, result) := f.addValue name shape space (.op f.ops.size)
  let (f, _) ← f.push parent (kind result)
  return (f, result)

/-- Add a buffer. -/
def addBuffer (f : Func) (parent : Option OpId) (name : String) (shape : List Nat)
    (space : Nat) (init : Option Int) : Checked (Func × ValueId) :=
  f.addDefining parent name shape space (.buffer · init)

/-- Add a view of `source`, in the memory space of `source`. -/
def addView (f : Func) (parent : Option OpId) (name : String) (source : ValueId)
    (shape : List Nat) : Checked (Func × ValueId) := do
  f.addDefining parent name shape (← f.value source).space (.view source ·)

/-- Add a copy. -/
def addCopy (f : Func) (parent : Option OpId) (source target : ValueId) :
    Checked (Func × OpId) :=
  f.push parent (.copy source target)

/-- Add a compute. -/
def addCompute (f : Func) (parent : Option OpId) (name : String) (reads writes : List Access) :
    Checked (Func × OpId) :=
  f.push parent (.compute { name, reads, writes, lanes := [] })

end Func

/-- An access whose subscripts are the induction variables of the given loops. -/
def Access.ofLoops (memref : ValueId) (loops : List OpId) : Access :=
  { memref, indices := loops.map .iv }

end Dataflow
