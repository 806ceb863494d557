/-
# Quoted text

Text in double quotes, as messages show paths.  Quotes and backslashes are escaped, and so is what
a reader would not see as a character of its own: what does not print and what extends the
character before it.  Single quotes stand for themselves.
-/
import Dataflow.Text.Extender
import Dataflow.Text.Unprintable

namespace Dataflow
namespace Text

/-- The letter that stands for a character behind a backslash, if it has one. -/
def escapeLetter? : Char → Option Char
  | '\x00' => some '0'
  | '\t' => some 't'
  | '\n' => some 'n'
  | '\r' => some 'r'
  | '"' => some '"'
  | '\\' => some '\\'
  | _ => none

/-- True of the characters that are written by their number. -/
def byNumber (c : Char) : Bool := unprintable.contains c || extenders.contains c

/-- A character inside quotes. -/
def quotedChar (c : Char) : List Char :=
  match escapeLetter? c with
  | some letter => ['\\', letter]
  | none =>
    if byNumber c then ['\\', 'u', '\x7b'] ++ Nat.toDigits 16 c.toNat ++ ['\x7d'] else [c]

/-- A text in quotes. -/
def quoted (text : String) : String :=
  "\"" ++ String.ofList (text.toList.flatMap quotedChar) ++ "\""

end Text
end Dataflow
