/-!
The exact value of a double.

A finite double is a natural significand times a power of two, with a sign.
Everything that has to be exact about doubles (their decimal digits, their
rounding to hundredths, their whole part) is computed from this value.
-/

namespace Unfolding.Number

/-- What a double stands for. -/
inductive Value where
  | notANumber
  | infinite (negative : Bool)
  /-- The number `significand * 2 ^ exponent`, negated if `negative` holds. -/
  | finite (negative : Bool) (significand : Nat) (exponent : Int)
  deriving Repr, DecidableEq

/-- The number of fractions that 52 bits can hold; as a significand, the
leading one of a normal number. -/
def fractionCount : Nat := 0x10000000000000

/-- Read the sign, the eleven exponent bits and the 52 fraction bits.  The
leading one of a normal number is not stored. -/
def Value.ofBits (bits : Nat) : Value :=
  let negative := bits >>> 63 == 1
  let biased : Nat := bits / fractionCount % 2048
  let fraction := bits % fractionCount
  if biased = 2047 then
    if fraction = 0 then .infinite negative else .notANumber
  else if biased = 0 then
    .finite negative fraction (-1074)
  else
    .finite negative (fractionCount + fraction) ((biased : Int) - 1075)

/-- The exact value of a double. -/
def valueOf (x : Float) : Value := Value.ofBits x.toBits.toNat

/-- The numerator of `significand * 2 ^ exponent` over `scaledDenominator`. -/
def scaledNumerator (significand : Nat) (exponent : Int) : Nat :=
  significand <<< exponent.toNat

/-- The denominator that a negative power of two leaves. -/
def scaledDenominator (exponent : Int) : Nat := 1 <<< (-exponent).toNat

/-- The largest size that a linear-shift recurrence is unfolded from. -/
def wholeLimit : Nat := 0x7fffffffffffffff

/-- The whole part of a non-negative double, at most `wholeLimit`.  Negative
values and values that are not numbers have whole part zero. -/
def wholePart (x : Float) : Nat :=
  match valueOf x with
  | .notANumber => 0
  | .infinite negative => if negative then 0 else wholeLimit
  | .finite negative significand exponent =>
      if negative then 0
      else min (scaledNumerator significand exponent / scaledDenominator exponent) wholeLimit

end Unfolding.Number
