/-
# Reading typed values out of JSON

Numbers have to be integers in range.  A record may be written as an object or as an array of
its fields in order.  In an object unknown members are passed over, a known one may stand once,
and an optional one may be missing; in an array only defaulted fields at the end may be missing.
A choice is an object with one member, whose key names the alternative; an alternative without a
payload may be written as a string.
-/
import Dataflow.Bounds
import Dataflow.Json.Basic

namespace Dataflow
namespace Json

/-! ## 1. Plain values -/

/-- A natural number up to a bound. -/
def natUpTo? (bound : Nat) : Json → Option Nat
  | .int n => if 0 ≤ n ∧ n ≤ bound then some n.toNat else none
  | _ => none

/-- An unsigned 32-bit word. -/
def word32? : Json → Option Nat := natUpTo? wordMax32

/-- An unsigned 64-bit word. -/
def word? : Json → Option Nat := natUpTo? wordMax

/-- A signed 64-bit word. -/
def int? : Json → Option Int
  | .int n => if isInt64 n then some n else none
  | _ => none

/-- A truth value. -/
def bool? : Json → Option Bool
  | .bool b => some b
  | _ => none

/-- A string. -/
def string? : Json → Option String
  | .str s => some s
  | _ => none

/-- An array, item by item. -/
def list? {α : Type} (decode : Json → Option α) : Json → Option (List α)
  | .arr items => items.mapM decode
  | _ => none

/-- Null, or a value. -/
def option? {α : Type} (decode : Json → Option α) : Json → Option (Option α)
  | .null => some none
  | j => (decode j).map some

/-- An array of two. -/
def pair? {α β : Type} (first : Json → Option α) (second : Json → Option β) :
    Json → Option (α × β)
  | .arr [a, b] => do return (← first a, ← second b)
  | _ => none

/-! ## 2. Records -/

/-- A field as it was found: given, or missing in an object or in an array. -/
inductive Slot where
  | given (j : Json)
  | missingMember
  | missingItem

namespace Slot

variable {α : Type}

/-- A field that has to be given. -/
def required (decode : Json → Option α) : Slot → Option α
  | .given j => decode j
  | _ => none

/-- A field that may be null, or missing in an object. -/
def optional (decode : Json → Option α) : Slot → Option (Option α)
  | .given j => j.option? decode
  | .missingMember => some none
  | .missingItem => none

/-- A field that has a default. -/
def defaulted (default : α) (decode : Json → Option α) : Slot → Option α
  | .given j => decode j
  | _ => some default

end Slot

/-- The members with a key. -/
def membersNamed (members : List (Option String × Json)) (key : String) : List Json :=
  members.filterMap fun (k, v) => if k = some key then some v else none

/-- The field of an object.  None if it is repeated. -/
def memberSlot? (members : List (Option String × Json)) (key : String) : Option Slot :=
  match membersNamed members key with
  | [] => some .missingMember
  | [j] => some (.given j)
  | _ => none

/-- The fields of an array: those given, and as missing the rest.  None if there are too many. -/
def itemSlots? : List String → List Json → Option (List Slot)
  | [], [] => some []
  | [], _ :: _ => none
  | _ :: keys, [] => (itemSlots? keys []).map (.missingItem :: ·)
  | _ :: keys, j :: items => (itemSlots? keys items).map (.given j :: ·)

/-- The fields of a record with the given keys, in the order of the keys. -/
def slots? (keys : List String) : Json → Option (List Slot)
  | .obj members =>
    if members.all fun m => m.1.isSome then keys.mapM (memberSlot? members) else none
  | .arr items => itemSlots? keys items
  | _ => none

/-! ## 3. Choices -/

/-- The alternative chosen and its payload; null for an alternative written as a string. -/
def choice? : Json → Option (String × Json)
  | .str tag => some (tag, .null)
  | .obj [(some tag, payload)] => some (tag, payload)
  | _ => none

/-- The payload of an alternative without one. -/
def empty? : Json → Option Unit
  | .null => some ()
  | _ => none

/-- A choice with a payload. -/
def tagged (tag : String) (payload : Json) : Json := record [(tag, payload)]

end Json
end Dataflow
