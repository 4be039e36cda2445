/-!
Rounding a quotient of naturals to the nearest natural.
-/

namespace Unfolding.Number

/-- Where a quotient halfway between two naturals goes. -/
inductive Tie where
  | toEven
  | up
  deriving Repr, DecidableEq

/-- Choose between `lower` and `lower + 1`, given how the remainder compares
with one half. -/
def Tie.pick (tie : Tie) (lower : Nat) : Ordering → Nat
  | .lt => lower
  | .gt => lower + 1
  | .eq =>
      match tie with
      | .up => lower + 1
      | .toEven => if lower % 2 = 0 then lower else lower + 1

/-- The natural nearest to `numerator / denominator`. -/
def roundQuotient (tie : Tie) (numerator denominator : Nat) : Nat :=
  tie.pick (numerator / denominator) (compare (2 * (numerator % denominator)) denominator)

end Unfolding.Number
