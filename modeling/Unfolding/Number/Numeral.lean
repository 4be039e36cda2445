import Unfolding.Number.Shortest

/-!
Writing numbers as text.

A `NumeralForm` holds the decisions of one written format.  `NumeralForm.write`
lays out the shortest digits of a double accordingly.  `writeHundredths` lays
out a natural number of hundredths with two places after the point.
-/

namespace Unfolding.Number

/-- The decimal digits of a natural number. -/
def digitsOf (n : Nat) : List Char := Nat.toDigits 10 n

/-- Remove a character from the end of a text, as often as it stands there. -/
def dropTrailing (c : Char) (text : List Char) : List Char :=
  (text.reverse.dropWhile (· == c)).reverse

/-- How doubles are written. -/
structure NumeralForm where
  /-- Whether a number whose leading digit counts `10 ^ e` is written without
  an exponent. -/
  isPositional : Int → Bool
  /-- Whether a whole number ends in `.0`. -/
  showsPoint : Bool
  /-- Which of two equally near decimals is written. -/
  tie : Tie

namespace NumeralForm

/-- Digits with the point after the first `e + 1` of them. -/
def positional (form : NumeralForm) (digits : List Char) (e : Int) : List Char :=
  if e < 0 then
    '0' :: '.' :: List.replicate (-e - 1).toNat '0' ++ digits
  else
    let whole := (e + 1).toNat
    if digits.length ≤ whole then
      digits ++ List.replicate (whole - digits.length) '0' ++
        (if form.showsPoint then ['.', '0'] else [])
    else
      digits.take whole ++ '.' :: digits.drop whole

/-- Digits with the point after the first, and a signed power of ten. -/
def scientific (digits : List Char) (e : Int) : List Char :=
  let fraction := digits.drop 1
  digits.take 1 ++ (if fraction.isEmpty then [] else '.' :: fraction) ++
    'e' :: (if e < 0 then '-' else '+') :: digitsOf e.natAbs

/-- The text of a positive decimal.  Zeros at the end are not significant. -/
def layOut (form : NumeralForm) (d : Decimal) : List Char :=
  let written := digitsOf d.digits
  let digits := dropTrailing '0' written
  let e := d.exponent + written.length - 1
  if form.isPositional e then form.positional digits e else scientific digits e

/-- The text of a double. -/
def write (form : NumeralForm) (x : Float) : String :=
  match valueOf x with
  | .notANumber => "NaN"
  | .infinite negative => if negative then "-inf" else "inf"
  | .finite negative significand exponent =>
      let magnitude :=
        if significand = 0 then form.positional ['0'] 0
        else form.layOut (shortest form.tie significand exponent)
      String.ofList (if negative then '-' :: magnitude else magnitude)

end NumeralForm

/-- The number of hundredths nearest to `significand * 2 ^ exponent`; halfway
between two, the even one. -/
def hundredths (significand : Nat) (exponent : Int) : Nat :=
  roundQuotient .toEven (100 * scaledNumerator significand exponent) (scaledDenominator exponent)

/-- A number of hundredths with a point and two places. -/
def writeHundredths (n : Nat) : List Char :=
  digitsOf (n / 100) ++ '.' :: [Nat.digitChar (n / 10 % 10), Nat.digitChar (n % 10)]

end Unfolding.Number
