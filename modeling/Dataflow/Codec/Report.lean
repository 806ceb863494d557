/-
# Settings and reports as JSON
-/
import Dataflow.Json.Parse
import Dataflow.Json.Schema
import Dataflow.Json.Write
import Dataflow.Parallelize

namespace Dataflow

open Json

/-! ## 1. Settings -/

/-- A configuration as a record. -/
def Config.toJson (c : Config) : Json :=
  record [
    ("max_unroll_factor", nat c.maxUnroll),
    ("point_loop_only", .bool c.pointLoopsOnly),
    ("complexity_aware", .bool c.costAware),
    ("correlation_aware", .bool c.correlationAware)]

/-- Settings; what is missing has its default. -/
def Config.ofJson? (j : Json) : Option Config := do
  match ← j.slots? ["max_unroll_factor", "point_loop_only", "complexity_aware",
      "correlation_aware"] with
  | [maxUnroll, pointLoopsOnly, costAware, correlationAware] =>
    let d : Config := {}
    return {
      maxUnroll := ← maxUnroll.defaulted d.maxUnroll word?
      pointLoopsOnly := ← pointLoopsOnly.defaulted d.pointLoopsOnly bool?
      costAware := ← costAware.defaulted d.costAware bool?
      correlationAware := ← correlationAware.defaulted d.correlationAware bool? }
  | _ => none

/-- Settings from a JSON text. -/
def Config.ofText? (text : String) : Option Config := (Json.parse? text).bind Config.ofJson?

/-! ## 2. Reports -/

/-- A diagnostic as a record. -/
def Diagnostic.toJson (d : Diagnostic) : Json :=
  record [
    ("severity", .str d.severity.text),
    ("message", .str d.message),
    ("op", option nat d.op),
    ("notes", list .str d.notes)]

/-- A change made to a band, as a record. -/
def Applied.toJson (a : Applied) : Json :=
  record [
    ("node", nat a.node),
    ("band", list nat a.band),
    ("factors", list nat a.factors),
    ("kind", .str a.kind.text)]

/-- A map as an object with the slots as keys. -/
def OpMap.toJson {α : Type} (encode : α → Json) (m : OpMap α) : Json :=
  record (m.map fun (id, a) => (toString id, encode a))

/-- A report as a record. -/
def Report.toJson (r : Report) : Json :=
  record [
    ("budgets", OpMap.toJson nat r.budgets),
    ("factors", OpMap.toJson (list nat) r.factors),
    ("transformed", list Applied.toJson r.applied),
    ("diagnostics", list Diagnostic.toJson r.diagnostics)]

end Dataflow
