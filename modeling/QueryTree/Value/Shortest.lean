import QueryTree.Text

/-!
# Shortest decimal digits

Given a positive fraction and an interval around it, `shortest` finds the fewest
decimal digits that denote a number in the interval, and of those the nearest to
the fraction. For each number of digits it is enough to try the two neighbours of
the fraction on the decimal grid of that many digits.
-/

namespace QueryTree.Shortest

/-- A positive fraction with an interval around it, over one denominator. -/
structure Target where
  low : Nat
  value : Nat
  high : Nat
  denominator : Nat
  /-- Whether the ends belong to the interval. -/
  closed : Bool

/-- The greatest `k` such that the fraction is at least `10 ^ k`. -/
def decimalExponent (value denominator : Nat) : Int :=
  if denominator ≤ value then ((Text.ofNat (value / denominator)).length : Int) - 1
  else
    let places := (Text.ofNat (denominator / value)).length
    if denominator ≤ value * Nat.pow 10 (places - 1) then 1 - (places : Int) else -(places : Int)

/-- Measures a target in units of `10 ^ e`. -/
def Target.inUnits (t : Target) (e : Int) : Target :=
  if 0 ≤ e then { t with denominator := t.denominator * Nat.pow 10 e.toNat }
  else
    let factor := Nat.pow 10 (-e).toNat
    { t with low := t.low * factor, value := t.value * factor, high := t.high * factor }

/-- The nearest integer in the interval that is next to the fraction. Of two at
the same distance the greater is taken. -/
def Target.integer? (t : Target) : Option Nat :=
  let below := t.value / t.denominator
  let belowFits := t.low < below * t.denominator ||
    (t.closed && t.low == below * t.denominator)
  let aboveFits := (below + 1) * t.denominator < t.high ||
    (t.closed && (below + 1) * t.denominator == t.high)
  let belowNearer := 2 * t.value < (2 * below + 1) * t.denominator
  if belowFits && (belowNearer || !aboveFits) then some below
  else if aboveFits then some (below + 1)
  else none

/-- The most digits that are ever needed. -/
def maxDigits : Nat := 17

/-- The digits of a number and the decimal exponent of the last of them. -/
def shortest (t : Target) : Nat × Int :=
  let top := decimalExponent t.value t.denominator
  let attempt (digits : Nat) : Option (Nat × Int) :=
    let e := top - digits
    ((t.inUnits e).integer?).map fun n => (n, e)
  ((List.range maxDigits).findSome? attempt).getD (0, 0)

end QueryTree.Shortest
