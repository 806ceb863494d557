/-
# Spelling of lists in messages

Journal entries spell out slots, factors and dimension maps.
-/
import Dataflow.Index
import Dataflow.Layout

namespace Dataflow

/-- A list in brackets. -/
def bracketed (items : List String) : String := "[" ++ listText ", " items ++ "]"

/-- The slots of a band. -/
def bandText (band : List OpId) : String :=
  bracketed (band.map fun id => "OpId(" ++ toString id ++ ")")

/-- The factors of a band. -/
def factorsText (factors : List Nat) : String := bracketed (factors.map toString)

/-- A map from the dimensions of one band to those of another. -/
def dimensionsText (dimensions : List (Option Nat)) : String :=
  bracketed (dimensions.map fun
    | none => "None"
    | some d => "Some(" ++ toString d ++ ")")

end Dataflow
