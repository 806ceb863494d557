/-
# Diagnostics

What a pass skipped, and why.  A diagnostic is kept in the pass's report and is told to the
journal as well.
-/
import Dataflow.Journal

namespace Dataflow

/-- A warning says that a transformation was skipped; a note only informs. -/
inductive Severity where
  | warning
  | note
  deriving DecidableEq

/-- The word for a severity in reports. -/
def Severity.text : Severity → String
  | .warning => "warning"
  | .note => "note"

/-- The level that a severity has in the journal. -/
def Severity.level : Severity → Level
  | .warning => .warn
  | .note => .debug

/-- A message, the operation that it is about, and remarks on it. -/
structure Diagnostic where
  severity : Severity
  message : String
  op : Option OpId
  notes : List String
  deriving DecidableEq

/-- Tell a diagnostic to the journal: the message with its operation, then each remark. -/
def Diagnostic.emit (d : Diagnostic) : Traced Unit := do
  let place := (d.op.map fun id => " [" ++ Func.opText id ++ "]").getD ""
  Traced.say d.severity.level "dfopt::utils::errors" (d.message ++ place)
  d.notes.forM fun note => Traced.say .debug "dfopt::utils::errors" ("  note: " ++ note)

end Dataflow
