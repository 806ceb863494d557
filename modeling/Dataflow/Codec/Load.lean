/-
# Loading functions

A function is loaded from its JSON text and checked.
-/
import Dataflow.Codec.Func
import Dataflow.Func.Verify
import Dataflow.Json.Parse
import Dataflow.Json.Write

namespace Dataflow

/-- Why a text was not loaded. -/
inductive LoadError where
  /-- The text is not the JSON of a function. -/
  | notFunction
  /-- The function has a defect. -/
  | malformed (d : Defect)
  deriving DecidableEq

/-- What went wrong, outermost first. -/
def LoadError.chain : LoadError → List String
  | .notFunction => ["invalid function JSON"]
  | .malformed d => ["malformed function", d.text]

namespace Func

/-- The function that a JSON text is, unchecked. -/
def ofText? (text : String) : Option Func := (Json.parse? text).bind Func.ofJson?

/-- Load a function from its JSON text. -/
def load (text : String) : Except LoadError Func :=
  match ofText? text with
  | none => .error .notFunction
  | some f => match f.verify with
    | .error d => .error (.malformed d)
    | .ok () => .ok f

/-- The compact JSON text of a function. -/
def toText (f : Func) : String := f.toJson.compact

end Func

end Dataflow
