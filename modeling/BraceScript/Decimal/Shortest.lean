import BraceScript.Decimal.Binary64

/-!
# Decimal/Shortest — the fewest decimal digits that read back

A double stands for every real number that rounds to it, an interval around its own value.
`Decimal.shortest` finds the decimal with the fewest digits in that interval: the coarsest grid of
multiples of a power of ten that meets it.  Of two grid points in the interval the nearer one is
taken, and of two equally near ones the larger.
-/

namespace BraceScript

/-- The number `digits * 10 ^ exponent`. -/
structure Decimal where
  digits : Nat
  exponent : Int
deriving DecidableEq, Repr, Inhabited

namespace Decimal

/-- The real numbers that round to one double, as multiples of `2 ^ exponent`: from `low` to `high`,
around `value`, the ends included or not. -/
structure Interval where
  low : Nat
  value : Nat
  high : Nat
  exponent : Int
  closed : Bool

namespace Interval

/-- The interval of the double `mantissa * 2 ^ exponent`.  Below a power of two the next double is
only half as far away.  The ends round to the double exactly when its mantissa is even. -/
def ofDouble (mantissa : Nat) (exponent : Int) : Interval where
  low := if mantissa = Binary64.hiddenBit ∧ exponent ≠ Binary64.leastExponent
    then 4 * mantissa - 1 else 4 * mantissa - 2
  value := 4 * mantissa
  high := 4 * mantissa + 2
  exponent := exponent - 2
  closed := mantissa % 2 = 0

/-- The factor of the interval's numbers when both sides of a comparison with multiples of `10 ^ k`
are scaled to natural numbers. -/
def scale (i : Interval) (k : Int) : Nat := twoPow i.exponent * tenPow (-k)

/-- The factor of the grid's numbers in the same scaling. -/
def gridScale (i : Interval) (k : Int) : Nat := tenPow k * twoPow (-i.exponent)

/-- Whether `d * 10 ^ k` lies in the interval. -/
def contains (i : Interval) (k : Int) (d : Nat) : Bool :=
  let low := i.low * i.scale k
  let high := i.high * i.scale k
  let point := d * i.gridScale k
  if i.closed then low ≤ point && point ≤ high else low < point && point < high

/-- The multiple of `10 ^ k` in the interval that is nearest to its value, the larger of two equally
near ones. -/
def gridPoint? (i : Interval) (k : Int) : Option Nat :=
  let below := i.value * i.scale k / i.gridScale k
  let belowFits := below ≠ 0 && i.contains k below
  let aboveFits := i.contains k (below + 1)
  if belowFits && aboveFits then
    if 2 * (i.value * i.scale k) < (2 * below + 1) * i.gridScale k then some below
    else some (below + 1)
  else if belowFits then some below
  else if aboveFits then some (below + 1)
  else none

/-- The first grid that meets the interval, among the `count` grids from `10 ^ k` downwards. -/
def coarsest (i : Interval) : Nat → Int → Decimal
  | 0, k => ⟨0, k⟩
  | count + 1, k =>
    match i.gridPoint? k with
    | some d => ⟨d, k⟩
    | none => i.coarsest count (k - 1)

end Interval

/-- A decimal exponent that the value `mantissa * 2 ^ exponent` does not reach.  One bit is worth at
most `30103 / 100000` decimal digits. -/
def ceilingExponent (mantissa : Nat) (exponent : Int) : Int :=
  ((mantissa.log2 : Int) + exponent + 1) * 30103 / 100000 + 1

/-- The fewest digits that read back as the double `mantissa * 2 ^ exponent`.  Seventeen digits
always do, and the starting grid is at most three places too coarse. -/
def shortest (mantissa : Nat) (exponent : Int) : Decimal :=
  (Interval.ofDouble mantissa exponent).coarsest 21 (ceilingExponent mantissa exponent)

end Decimal

end BraceScript
