import Unfolding.Number.Numeral

/-!
The labels of calls: `T(n)` with the size or argument rounded to hundredths.
-/

namespace Unfolding

namespace Label

/-- A number of hundredths with a point and two places, and its sign in front. -/
def twoPlaces (negative : Bool) (hundredths : Nat) : List Char :=
  let magnitude := Number.writeHundredths hundredths
  if negative then '-' :: magnitude else magnitude

/-- Remove the zeros at the end, and then a point at the end. -/
def trim (text : List Char) : List Char :=
  Number.dropTrailing '.' (Number.dropTrailing '0' text)

/-- The value in a label.  There is no minus zero. -/
def numeral (x : Float) : List Char :=
  match Number.valueOf x with
  | .notANumber => ['N', 'a', 'N']
  | .infinite negative => if negative then ['-', 'i', 'n', 'f'] else ['i', 'n', 'f']
  | .finite negative significand exponent =>
      let trimmed := trim (twoPlaces negative (Number.hundredths significand exponent))
      if trimmed = ['-', '0'] then ['0'] else trimmed

end Label

/-- The label of a call with a size or argument. -/
def label (x : Float) : String :=
  String.ofList ('T' :: '(' :: Label.numeral x ++ [')'])

end Unfolding
