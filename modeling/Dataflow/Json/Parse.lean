/-
# Reading JSON texts

The grammar is strict: one value, nothing but blanks around it, and no comma without a
neighbour.
-/
import Dataflow.Json.Basic
import Dataflow.Json.Token

namespace Dataflow
namespace Json

mutual

/-- Read a value from the front of the tokens, nested at most the given number of levels and
items deep. -/
def parseValue : Nat → List Token → Option (Json × List Token)
  | 0, _ => none
  | depth + 1, tokens =>
    match tokens with
    | .null :: rest => some (.null, rest)
    | .bool b :: rest => some (.bool b, rest)
    | .int n :: rest => some (.int n, rest)
    | .real :: rest => some (.real, rest)
    | .str (some s) :: rest => some (.str s, rest)
    | .str none :: rest => some (.unreadable, rest)
    | .openBracket :: .closeBracket :: rest => some (.arr [], rest)
    | .openBracket :: rest => do
      let (items, rest) ← parseItems depth rest
      return (.arr items, rest)
    | .openBrace :: .closeBrace :: rest => some (.obj [], rest)
    | .openBrace :: rest => do
      let (members, rest) ← parseMembers depth rest
      return (.obj members, rest)
    | _ => none

/-- Read the items of an array up to its closing bracket; there is at least one. -/
def parseItems : Nat → List Token → Option (List Json × List Token)
  | 0, _ => none
  | depth + 1, tokens => do
    let (item, rest) ← parseValue depth tokens
    match rest with
    | .closeBracket :: rest => return ([item], rest)
    | .comma :: rest =>
      let (items, rest) ← parseItems depth rest
      return (item :: items, rest)
    | _ => none

/-- Read the members of an object up to its closing brace; there is at least one. -/
def parseMembers : Nat → List Token → Option (List (Option String × Json) × List Token)
  | 0, _ => none
  | depth + 1, tokens =>
    match tokens with
    | .str key :: .colon :: rest => do
      let (value, rest) ← parseValue depth rest
      match rest with
      | .closeBrace :: rest => return ([(key, value)], rest)
      | .comma :: rest =>
        let (members, rest) ← parseMembers depth rest
        return ((key, value) :: members, rest)
      | _ => none
    | _ => none

end

/-- The value that tokens spell, when nothing follows it. -/
def ofTokens? (tokens : List Token) : Option Json :=
  match parseValue tokens.length tokens with
  | some (value, []) => some value
  | _ => none

/-- The value of a text. -/
def parse? (text : String) : Option Json := (tokens text.toList).bind ofTokens?

end Json
end Dataflow
