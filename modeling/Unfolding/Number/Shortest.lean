import Unfolding.Number.Binary
import Unfolding.Number.Rounding

/-!
The fewest decimal digits that identify a double.

The reals that round to a positive double form an interval around it.  For one
digit, two digits and so on, the value is compared with its two neighbours on
the grid of decimals with that many digits.  The first grid with a neighbour
inside the interval wins, and the nearer of two neighbours inside is taken.
-/

namespace Unfolding.Number

/-- The number `digits * 10 ^ exponent`. -/
structure Decimal where
  digits : Nat
  exponent : Int
  deriving Repr, DecidableEq

/-- A positive double in units of a power of ten: the double is
`significand * unit / denominator` of them. -/
structure Gridded where
  significand : Nat
  unit : Nat
  denominator : Nat
  /-- The double below is only half as far away as the one above. -/
  narrowBelow : Bool

namespace Gridded

/-- Measure `significand * 2 ^ exponent` in units of `10 ^ grid`. -/
def measure (significand : Nat) (exponent grid : Int) : Gridded where
  significand
  unit := Nat.pow 10 (-grid).toNat <<< exponent.toNat
  denominator := Nat.pow 10 grid.toNat <<< (-exponent).toNat
  narrowBelow := significand == fractionCount && exponent > -1074

/-- Whether `count` units lie among the reals that round to the double.  The
ends of that interval belong to it exactly when the significand is even. -/
def covers (g : Gridded) (count : Nat) : Bool :=
  let below := if g.narrowBelow then 4 * g.significand - 1 else 4 * g.significand - 2
  let low := below * g.unit
  let high := (4 * g.significand + 2) * g.unit
  let here := 4 * count * g.denominator
  if g.significand % 2 = 0 then low ≤ here && here ≤ high else low < here && here < high

/-- The number of units nearest to the double that still identifies it, if one
of the two neighbours does. -/
def nearest? (tie : Tie) (g : Gridded) : Option Nat :=
  let total := g.significand * g.unit
  let lower := total / g.denominator
  match g.covers lower, g.covers (lower + 1) with
  | false, false => none
  | true, false => some lower
  | false, true => some (lower + 1)
  | true, true => some (roundQuotient tie total g.denominator)

end Gridded

/-- A power of ten just above `significand * 2 ^ exponent`: the least `k` of
the few candidates near the binary logarithm with the value below `10 ^ k`. -/
def decimalWidth (significand : Nat) (exponent : Int) : Int :=
  let guess := ((significand.log2 : Int) + exponent) * 30103 / 100000
  let isAbove (k : Int) : Bool :=
    let g := Gridded.measure significand exponent k
    g.significand * g.unit < g.denominator
  if isAbove guess then guess
  else if isAbove (guess + 1) then guess + 1
  else guess + 2

/-- The value of a double written out in full. -/
def exactDecimal (significand : Nat) (exponent : Int) : Decimal where
  digits := scaledNumerator significand exponent * Nat.pow 5 (-exponent).toNat
  exponent := min exponent 0

/-- The shortest decimal that identifies `significand * 2 ^ exponent`.
Seventeen digits always do; the full value stands behind them. -/
def shortest (tie : Tie) (significand : Nat) (exponent : Int) : Decimal :=
  let width := decimalWidth significand exponent
  let candidate (count : Nat) : Option Decimal :=
    let grid := width - (count + 1)
    ((Gridded.measure significand exponent grid).nearest? tie).map fun digits =>
      { digits, exponent := grid }
  ((List.range 17).findSome? candidate).getD (exactDecimal significand exponent)

end Unfolding.Number
