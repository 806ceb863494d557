/-
# Writing JSON texts

One writer for two styles.  The compact style has no blanks; the pretty style puts every item
and member on a line of its own, two blanks further in than what holds it.
-/
import Dataflow.Json.Basic

namespace Dataflow
namespace Json

/-- What is written between the tokens of a value. -/
structure Style where
  /-- Before an item at a depth of nesting. -/
  newline : Nat → String
  /-- Between a key and its value. -/
  separator : String

/-- Everything on one line, without blanks. -/
def Style.compact : Style where
  newline _ := ""
  separator := ":"

/-- An item a line, indented by two blanks for each level. -/
def Style.pretty : Style where
  newline depth := "\n".pushn ' ' (2 * depth)
  separator := ": "

/-- The hexadecimal digit of a number below sixteen. -/
def hexDigit (n : Nat) : Char := Char.ofNat (if n < 10 then 48 + n else 87 + n)

/-- How a character is written in a string.  Quotes, backslashes and control characters are
escaped. -/
def escape : Char → List Char
  | '"' => ['\\', '"']
  | '\\' => ['\\', '\\']
  | '\x08' => ['\\', 'b']
  | '\x0c' => ['\\', 'f']
  | '\n' => ['\\', 'n']
  | '\r' => ['\\', 'r']
  | '\t' => ['\\', 't']
  | c =>
    if c.toNat < 0x20 then
      ['\\', 'u', '0', '0', hexDigit (c.toNat / 16), hexDigit (c.toNat % 16)]
    else [c]

/-- A string in quotes. -/
def quote (s : String) : String := "\"" ++ String.ofList (s.toList.flatMap escape) ++ "\""

mutual

/-- The text of a value at a depth of nesting.  What has no text of its own is written as
null. -/
def write (style : Style) (depth : Nat) : Json → String
  | .null | .real | .unreadable => "null"
  | .bool b => if b then "true" else "false"
  | .int n => toString n
  | .str s => quote s
  | .arr [] => "[]"
  | .arr (item :: items) =>
    "[" ++ style.newline (depth + 1) ++ write style (depth + 1) item
      ++ writeItems style (depth + 1) items ++ style.newline depth ++ "]"
  | .obj [] => "\x7b\x7d"
  | .obj ((key, value) :: members) =>
    "\x7b" ++ style.newline (depth + 1) ++ quote (key.getD "") ++ style.separator
      ++ write style (depth + 1) value ++ writeMembers style (depth + 1) members
      ++ style.newline depth ++ "\x7d"

/-- The text of the items after the first. -/
def writeItems (style : Style) (depth : Nat) : List Json → String
  | [] => ""
  | item :: items =>
    "," ++ style.newline depth ++ write style depth item ++ writeItems style depth items

/-- The text of the members after the first. -/
def writeMembers (style : Style) (depth : Nat) : List (Option String × Json) → String
  | [] => ""
  | (key, value) :: members =>
    "," ++ style.newline depth ++ quote (key.getD "") ++ style.separator
      ++ write style depth value ++ writeMembers style depth members

end

/-- The compact text of a value. -/
def compact (j : Json) : String := j.write .compact 0

/-- The pretty text of a value. -/
def pretty (j : Json) : String := j.write .pretty 0

end Json
end Dataflow
