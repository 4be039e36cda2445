import Unfolding.Fault

/-!
The two families of recurrences and the conditions on their parameters.

A divide-and-conquer recurrence `T(n) = a T(n/b) + f(n)` makes `a` calls, each
on a size divided by `b`.  A linear-shift recurrence
`T(n) = c₀ T(n - s₀) + c₁ T(n - s₁) + … + g(n)` makes one call for each shift.
In both, a size that is not above the threshold is a base case.
-/

namespace Unfolding

inductive Family where
  | divideConquer
  | linearShift
  deriving Repr, DecidableEq

structure DivideConquer where
  /-- The number of calls made by each call. -/
  branching : UInt32
  /-- What the size is divided by. -/
  reduction : Float
  /-- The work besides the calls, as a formula. -/
  work : String
  threshold : Int64

structure LinearShift where
  /-- What is subtracted from the argument, one shift for each call. -/
  shifts : List UInt32
  /-- The factor of each call, as a formula. -/
  coefficients : List String
  /-- The term besides the calls, as a formula. -/
  extra : Option String
  threshold : Int64

inductive Recurrence where
  | divideConquer (recurrence : DivideConquer)
  | linearShift (recurrence : LinearShift)

/-- There is at least one call, and it is on a smaller size. -/
def DivideConquer.check (r : DivideConquer) : Except Fault Unit :=
  if r.branching = 0 then .error (.parameter (.branchingFactor r.branching))
  else if ¬ r.reduction.isFinite ∨ r.reduction ≤ 1 then
    .error (.parameter (.reductionFactor r.reduction))
  else .ok ()

/-- The sizes of base cases, compared with doubles. -/
def DivideConquer.baseSize (r : DivideConquer) : Float := Float.ofInt r.threshold.toInt

namespace LinearShift

/-- A recurrence without an extra term, every call counted once. -/
def ofShifts (shifts : List UInt32) (threshold : Int64) : LinearShift where
  shifts
  coefficients := shifts.map fun _ => "1"
  extra := none
  threshold

/-- There is at least one shift, all are positive, and each has a coefficient. -/
def check (r : LinearShift) : Except Fault Unit :=
  if r.shifts.isEmpty then .error .emptyRecurrence
  else
    match r.shifts.findIdx? (· == 0) with
    | some position => .error (.parameter (.zeroShift position))
    | none =>
        if r.coefficients.length ≠ r.shifts.length then
          .error (.parameter (.coefficientMismatch r.shifts.length r.coefficients.length))
        else .ok ()

/-- Arguments are natural numbers, so a negative threshold acts as zero. -/
def baseArgument (r : LinearShift) : Nat := r.threshold.toInt.toNat

end LinearShift

namespace Recurrence

def check : Recurrence → Except Fault Unit
  | .divideConquer r => r.check
  | .linearShift r => r.check

def family : Recurrence → Family
  | .divideConquer _ => .divideConquer
  | .linearShift _ => .linearShift

def threshold : Recurrence → Int64
  | .divideConquer r => r.threshold
  | .linearShift r => r.threshold

end Recurrence

end Unfolding
