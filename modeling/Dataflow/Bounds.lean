/-
# Machine words

Sizes, factors, budgets and costs are natural numbers that fit 64 unsigned bits; loop bounds,
steps and lane offsets are integers that fit 64 signed bits.  This file names the two ranges
and the operations that stay inside them: a *saturating* operation answers with the nearest
end of the range, a *checked* one answers with nothing.
-/

namespace Dataflow

/-- The largest unsigned 32-bit word. -/
def wordMax32 : Nat := 4294967295

/-- The largest unsigned 64-bit word. -/
def wordMax : Nat := 18446744073709551615

/-- The largest signed 64-bit word. -/
def intMax : Int := 9223372036854775807

/-- The smallest signed 64-bit word. -/
def intMin : Int := -9223372036854775808

/-! ## 1. Unsigned words -/

/-- `n`, or the largest word when `n` is too large to be one. -/
def saturate (n : Nat) : Nat := min n wordMax

/-- Sum of two words, held at the largest word. -/
def satAdd (a b : Nat) : Nat := saturate (a + b)

/-- Product of two words, held at the largest word. -/
def satMul (a b : Nat) : Nat := saturate (a * b)

/-- Product of two words, when it is one. -/
def mul? (a b : Nat) : Option Nat :=
  if a * b ≤ wordMax then some (a * b) else none

/-- Product of a list of words taken from the left, when every partial product is a word. -/
def product? (ns : List Nat) : Option Nat :=
  ns.foldlM mul? 1

theorem saturate_le (n : Nat) : saturate n ≤ wordMax := Nat.min_le_right _ _

theorem saturate_of_le {n : Nat} (h : n ≤ wordMax) : saturate n = n := Nat.min_eq_left h

/-! ## 2. Signed words -/

/-- True of the integers that are signed words. -/
def isInt64 (i : Int) : Bool := decide (intMin ≤ i) && decide (i ≤ intMax)

/-- `i`, or the nearest signed word when `i` is none. -/
def clampInt (i : Int) : Int := max intMin (min i intMax)

/-- Product of two signed words, held at the ends of the range. -/
def satMulInt (a b : Int) : Int := clampInt (a * b)

end Dataflow
