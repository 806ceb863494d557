/-
# Sharing a factor out over the loops of a band

A factor is *valid* for a loop when it divides the loop's trip count.  A loop whose trip count
is unknown takes any factor, and a loop that never runs takes only one.

`evenFactors` lets the factors of a band grow towards an exact product; `greedyFactors` fills
the loops one after another and always succeeds; `shareFactor` takes the first when it can.
dfopt calls the three `evenly_distributed_factors`, `distributed_factors` and `distribute`.
-/
import Dataflow.Bounds

namespace Dataflow

/-! ## 1. Divisors -/

/-- The integer square root by bisection: the largest number from `low` on, below `high`, whose
square is at most `n`, in at most the given number of halvings. -/
def sqrtBetween (n : Nat) : Nat → Nat → Nat → Nat
  | 0, low, _ => low
  | halvings + 1, low, high =>
    if high ≤ low + 1 then low
    else
      let mid := (low + high) / 2
      if mid * mid ≤ n then sqrtBetween n halvings mid high else sqrtBetween n halvings low mid

/-- The integer square root. -/
def isqrt (n : Nat) : Nat := sqrtBetween n (n.log2 + 2) 0 (Nat.pow 2 (n.log2 / 2 + 1))

/-- Put the divisors of `n` from 1 to the given bound, ascending, in front of a list. -/
def divisorsUpTo (n : Nat) : Nat → List Nat → List Nat
  | 0, ds => ds
  | d + 1, ds => divisorsUpTo n d (if n % (d + 1) = 0 then (d + 1) :: ds else ds)

/-- The divisors of `n` in ascending order; none for zero.  Those above the square root are the
cofactors of those below it. -/
def divisors (n : Nat) : List Nat :=
  let small := divisorsUpTo n (isqrt n) []
  small ++ (small.reverse.filter fun d => d * d ≠ n).map (n / ·)

/-! ## 2. Even shares -/

/-- Put an element in front of the first one that it may precede. -/
def insertBy {α : Type} (le : α → α → Bool) (a : α) : List α → List α
  | [] => [a]
  | b :: l => if le a b then a :: b :: l else b :: insertBy le a l

/-- The elements of a list in order; equal ones keep theirs. -/
def sortBy {α : Type} (le : α → α → Bool) (l : List α) : List α := l.foldr (insertBy le) []

/-- Valid factors for a loop that divide `limit`, ascending. -/
def candidates (trip : Option Nat) (limit : Nat) : List Nat :=
  match trip with
  | some 0 => [1]
  | some t => divisors (Nat.gcd t limit)
  | none => divisors limit

/-- A band with its current factors: the factor and the trip count of every loop. -/
abbrev Shares := List (Nat × Option Nat)

namespace Shares

/-- Product of the factors. -/
def product (s : Shares) : Nat := (s.map Prod.fst).foldl (· * ·) 1

/-- The loops in the order in which they may grow: smallest factor first, and the innermost of
equal ones. -/
def growthOrder (s : Shares) : List Nat :=
  let keyed := s.zipIdx.reverse.map fun (e, dim) => (e.1, dim)
  (sortBy (fun a b => a.1 ≤ b.1) keyed).map Prod.snd

/-- The next factor of a loop: the smallest valid one above its present one such that the product
keeps dividing `max`. -/
def nextFactor? (max product : Nat) (share : Nat × Option Nat) : Option Nat :=
  (candidates share.2 (max / (product / share.1))).find? (share.1 < ·)

/-- Raise the factor of the first loop in growth order that has a next factor. -/
def grow? (max : Nat) (s : Shares) : Option Shares :=
  s.growthOrder.findSome? fun dim => do
    let share ← s[dim]?
    let next ← nextFactor? max s.product share
    return s.set dim (next, share.2)

/-- Grow until the product is `max` or no factor can grow, at most the given number of times. -/
def growAll (max : Nat) : Nat → Shares → Shares
  | 0, s => s
  | steps + 1, s =>
    if max ≤ s.product then s
    else match s.grow? max with
      | none => s
      | some s => growAll max steps s

end Shares

/-- Grow the factors of `base` towards the product `max`, one loop at a time.  Succeeds only if
the product reaches `max` exactly.  Every growth raises the product, which divides `max`, so
there are at most `max` of them. -/
def evenFactors (max : Nat) (base : List Nat) (shape : List (Option Nat)) : Option (List Nat) :=
  if base.length ≠ shape.length || max = 0 then none
  else
    let factors := base.map (Nat.max · 1)
    match product? factors with
    | none => none
    | some product =>
      if max < product || max % product ≠ 0 then none
      else
        let s := Shares.growAll max max (factors.zip shape)
        if s.product = max then some (s.map Prod.fst) else none

/-! ## 3. Greedy shares -/

/-- The largest valid factor of a loop that is at most `limit`. -/
def largestFactor (trip : Option Nat) (limit : Nat) : Nat :=
  match trip with
  | some 0 => 1
  | some t =>
    if t ≤ limit then t else (((divisors t).takeWhile (· ≤ limit)).getLast?).getD 1
  | none => limit

/-- Factors for a band, and what is left of the total after dividing by them: innermost first,
each loop takes its largest valid factor within what is left. -/
def greedyFrom (total : Nat) : List (Option Nat) → List Nat × Nat
  | [] => ([], total)
  | trip :: shape =>
    let (inner, left) := greedyFrom total shape
    let factor := largestFactor trip left
    (factor :: inner, left / factor)

/-- Factors whose product is at most `max`, the innermost loops served first. -/
def greedyFactors (max : Nat) (shape : List (Option Nat)) : List Nat :=
  (greedyFrom (Nat.max max 1) shape).1

/-- Even shares of `max` over a band if there are any, else greedy ones. -/
def shareFactor (max : Nat) (base : List Nat) (shape : List (Option Nat)) : List Nat :=
  (evenFactors max base shape).getD (greedyFactors max shape)

end Dataflow
