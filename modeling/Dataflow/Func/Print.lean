/-
# Functions as text

The printed form of a function: nested braced blocks for the schedules, nodes and loops, and
one line for every other operation.  Values and loops are printed by their names.
-/
import Dataflow.Layout
import Dataflow.Func.Walk

namespace Dataflow
namespace Func

/-- The name of a loop; the slot's text when the operation there is no loop. -/
def loopName (f : Func) (id : OpId) : Checked String := do
  match ← f.loop? id with
  | some l => return l.name
  | none => return opText id

/-- The name of a value. -/
def valueName (f : Func) (id : ValueId) : Checked String := return "%" ++ (← f.value id).name

/-- The declaration of a memref: name, shape and memory space. -/
def memrefText (f : Func) (id : ValueId) : Checked String := do
  let v ← f.value id
  return "%" ++ v.name ++ ": memref<" ++ listText "x" (v.shape.map toString) ++ ", "
    ++ toString v.space ++ ">"

/-- A subscript. -/
def indexText (f : Func) : Index → Checked String
  | .iv l => f.loopName l
  | .const c => return toString c
  | .unknown => return "?"
  | .tiled tile point => return (← f.loopName tile) ++ " + " ++ (← f.loopName point)

/-- An access with its subscripts. -/
def accessText (f : Func) (a : Access) : Checked String := do
  let indices ← a.indices.mapM f.indexText
  return (← f.valueName a.memref) ++ "[" ++ listText ", " indices ++ "]"

/-- A header followed by its attributes in brackets, if it has any. -/
def withAttributes (header : String) (attributes : List String) : String :=
  if attributes.isEmpty then header else header ++ " [" ++ listText ", " attributes ++ "]"

/-- The header of a schedule. -/
def scheduleText (s : Schedule) : String :=
  withAttributes ("schedule @" ++ s.name)
    ((s.increase.map fun n => "increase=" ++ toString n.val).toList
      ++ (s.decrease.map fun n => "decrease=" ++ toString n.val).toList)

/-- The attribute that records a transformation of a loop. -/
def markText : Mark → String
  | .unrollJam n => "unroll_jam=" ++ toString n
  | .vectorize n => "vectorize=" ++ toString n

/-- The header of a loop. -/
def loopText (f : Func) (l : Loop) : Checked String := do
  let upper := (l.upper.map toString).getD "?"
  let pointOf ← l.pointOf.mapM fun tile => return "point_of=" ++ (← f.loopName tile)
  return withAttributes
    ("for %" ++ l.name ++ " = " ++ toString l.lower ++ " to " ++ upper ++ " step "
      ++ toString l.step)
    ((if l.parallel then ["parallel"] else []) ++ pointOf.toList ++ (l.mark.map markText).toList)

/-- A compute on one line. -/
def computeText (f : Func) (c : Compute) : Checked String := do
  let reads ← c.reads.mapM f.accessText
  let writes ← c.writes.mapM f.accessText
  let lanes ← c.lanes.mapM fun (l, offset) => return (← f.loopName l) ++ "+" ++ toString offset
  let line := "compute @" ++ c.name ++ " reads(" ++ listText ", " reads ++ ") writes("
    ++ listText ", " writes ++ ")"
  return if lanes.isEmpty then line else line ++ " lanes(" ++ listText ", " lanes ++ ")"

/-- The layout of an operation, crossing at most the given number of levels. -/
def opLayout (f : Func) : Nat → OpId → Checked Layout
  | 0, _ => .error .circular
  | levels + 1, id => do
    let op ← f.op id
    let block (header : String) : Checked Layout :=
      return .block header (← op.body.mapM (f.opLayout levels))
    match op.kind with
    | .schedule s => block (scheduleText s)
    | .node name => block ("node @" ++ name)
    | .loop l => block (← f.loopText l)
    | .buffer result init =>
      let init := (init.map fun v => " init " ++ toString v).getD ""
      return .line ((← f.memrefText result) ++ " = buffer" ++ init)
    | .view source result =>
      return .line ((← f.memrefText result) ++ " = view " ++ (← f.valueName source))
    | .copy source target =>
      return .line ("copy " ++ (← f.valueName source) ++ " -> " ++ (← f.valueName target))
    | .compute c => return .line (← f.computeText c)

/-- The printed form of a function. -/
def print (f : Func) : Checked String := do
  let arguments ← f.arguments.mapM f.memrefText
  let contents ← f.body.mapM (f.opLayout f.depthBound)
  return (Layout.block ("func @" ++ f.name ++ "(" ++ listText ", " arguments ++ ")")
    contents).render 0

end Func
end Dataflow
