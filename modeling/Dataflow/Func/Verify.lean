/-
# Accepting a function

`Func.inspect` never faults, so what it finds is a plain answer: `Func.verify` accepts a function
without defects and gives the first defect of any other.
-/
import Dataflow.Proofs.Inspection

namespace Dataflow
namespace Func

/-- The first defect of a function. -/
def defect? (f : Func) : Option Defect := f.inspect.get f.inspect_isOk

/-- Accept a function whose links agree, or give its first defect. -/
def verify (f : Func) : Except Defect Unit :=
  match f.defect? with
  | none => .ok ()
  | some d => .error d

end Func
end Dataflow
