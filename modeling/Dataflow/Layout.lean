/-
# Indented text

A text made of lines and of braced blocks.  A block is its header and an opening brace, its
contents two blanks further in, and a closing brace.
-/

namespace Dataflow

/-- A line, or a block with a header. -/
inductive Layout where
  | line (text : String)
  | block (header : String) (contents : List Layout)

namespace Layout

/-- The margin at a depth of nesting. -/
def margin (depth : Nat) : String := "".pushn ' ' (2 * depth)

/-- One line at a depth of nesting. -/
def renderLine (depth : Nat) (text : String) : String := margin depth ++ text ++ "\n"

mutual

/-- The text of a layout at a depth of nesting. -/
def render (depth : Nat) : Layout → String
  | .line text => renderLine depth text
  | .block header contents =>
    renderLine depth (header ++ " \x7b") ++ renderAll (depth + 1) contents
      ++ renderLine depth "\x7d"

/-- The text of layouts one after another. -/
def renderAll (depth : Nat) : List Layout → String
  | [] => ""
  | l :: ls => render depth l ++ renderAll depth ls

end

end Layout

/-- The items with a separator between them. -/
def listText (separator : String) (items : List String) : String := separator.intercalate items

end Dataflow
