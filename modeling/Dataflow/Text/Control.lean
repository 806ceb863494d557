/-
# Text without terminal controls

Control characters and the control sequences of terminals are left out of a text, so that what is
left reads the same on a terminal and in a file.  Tabs, line feeds, form feeds and carriage
returns stay.

A sequence starts with the escape character.  One that never ends swallows the rest of the text,
with one exception: white space stays where it interrupts a short sequence, and so does the text
after it, up to the next control character, where the sequence goes on.
-/

namespace Dataflow
namespace Text

/-- Where a terminal stands in a text. -/
inductive Control where
  /-- Outside any sequence. -/
  | plain
  /-- After the escape character. -/
  | escape
  /-- In an escape sequence that takes more than one character. -/
  | intermediate
  /-- In a control sequence, up to the letter that ends it. -/
  | sequence
  /-- In a command, which a bell ends. -/
  | command
  /-- At the head of a device string. -/
  | deviceHead
  /-- Among the parameters of a device string. -/
  | deviceParameters
  /-- After the parameters of a device string. -/
  | deviceIntermediate
  /-- In the body of a string, up to its terminator. -/
  | body
  deriving DecidableEq

namespace Control

/-- True of the characters with numbers between two bounds. -/
def between (low high : Nat) (c : Char) : Bool := low ≤ c.toNat && c.toNat ≤ high

/-- White space that counts as a control character. -/
def isLayout (c : Char) : Bool := c = '\t' || c = '\n' || c = '\x0c' || c = '\r'

/-- True of the characters whose encoding in bytes holds the one-byte string terminator. -/
def closesBody (c : Char) : Bool := (String.utf8EncodeChar c).contains 0x9c

/-- Where the terminal stands after a character of a sequence. -/
def nextInside : Control → Char → Control
  | .plain, _ => .plain
  | .escape, c =>
    if between 0x20 0x2f c then .intermediate
    else if c = '[' then .sequence
    else if c = ']' then .command
    else if c = 'P' then .deviceHead
    else if c = 'X' || c = '^' || c = '_' then .body
    else if between 0x30 0x7e c then .plain
    else .escape
  | .intermediate, c => if between 0x30 0x7e c then .plain else .intermediate
  | .sequence, c => if between 0x40 0x7e c then .plain else .sequence
  | .command, c => if c = '\x07' then .plain else .command
  | .deviceHead, c =>
    if between 0x20 0x2f c then .deviceIntermediate
    else if between 0x30 0x3f c then .deviceParameters
    else if between 0x40 0x7e c then .body
    else .deviceHead
  | .deviceParameters, c =>
    if between 0x20 0x2f c then .deviceIntermediate
    else if between 0x3c 0x7e c then .body
    else .deviceParameters
  | .deviceIntermediate, c => if between 0x30 0x7e c then .body else .deviceIntermediate
  | .body, c => if closesBody c then .plain else .body

/-- Where the terminal stands after a character.  An escape starts a new sequence anywhere, and
cancel and substitute break one off. -/
def next (s : Control) (c : Char) : Control :=
  if c = '\x1b' then .escape
  else if c = '\x18' || c = '\x1a' then .plain
  else s.nextInside c

/-- True of the characters that stay in the text. -/
def shows : Control → Char → Bool
  | .plain, c => isLayout c || (0x20 ≤ c.toNat && c.toNat ≠ 0x7f)
  | .escape, c | .intermediate, c | .sequence, c => isLayout c
  | _, _ => false

/-- What stays of a text.  `interrupted` says that white space came into a sequence: text is then
shown as if there were none, and a character beyond ASCII in it makes an end of the sequence. -/
def visible (s : Control) (interrupted : Bool) : List Char → List Char
  | [] => []
  | c :: rest =>
    if (if interrupted then Control.plain else s).shows c then
      c :: visible (if c.toNat < 0x80 then s else .plain) true rest
    else visible (s.next c) false rest

end Control

/-- A text without terminal controls. -/
def withoutControls (text : String) : String :=
  String.ofList (Control.plain.visible false text.toList)

end Text
end Dataflow
