/-
# Classes of characters

A class of characters is given by the ranges of the numbers of its members.
-/

namespace Dataflow
namespace Text

/-- Closed ranges of character numbers. -/
abbrev CharRanges := List (Nat × Nat)

namespace CharRanges

/-- True of the characters in one of the ranges. -/
def contains (ranges : CharRanges) (c : Char) : Bool :=
  ranges.any fun r => r.1 ≤ c.toNat && c.toNat ≤ r.2

end CharRanges
end Text
end Dataflow
