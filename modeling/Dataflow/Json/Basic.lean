/-
# JSON values

A JSON value as it stands in a text: the members of an object are kept in order and with
repetitions.  A number is an integer or something else; a string whose escapes do not spell
characters is kept as unreadable, since it does no harm where nobody reads it.
-/

namespace Dataflow

/-- A JSON value. -/
inductive Json where
  | null
  | bool (b : Bool)
  | int (n : Int)
  /-- A number with a fraction or an exponent, or a negative zero. -/
  | real
  | str (s : String)
  /-- A string with half of a surrogate pair in it. -/
  | unreadable
  | arr (items : List Json)
  /-- Members in order; an unreadable key is `none`. -/
  | obj (members : List (Option String × Json))

namespace Json

/-- An object with the given members. -/
def record (members : List (String × Json)) : Json := .obj (members.map fun (k, v) => (some k, v))

/-- A natural number. -/
def nat (n : Nat) : Json := .int n

/-- The value, or null. -/
def option {α : Type} (encode : α → Json) : Option α → Json
  | none => .null
  | some a => encode a

/-- An array of encoded items. -/
def list {α : Type} (encode : α → Json) (items : List α) : Json := .arr (items.map encode)

end Json

end Dataflow
