import Unfolding.Recurrence.Basic

/-!
How deep the calls of a recurrence go.

The natural depth of a divide-and-conquer recurrence is the number of divisions
until the size is a base case.  That of a linear-shift recurrence is its first
argument, since every shift takes away at least one.  Both stop at a horizon.
A request can only make a tree shallower.
-/

namespace Unfolding

/-- No tree is deeper than this. -/
def depthHorizon : Nat := 65536

structure DepthBudget where
  natural : Nat
  requested : Option UInt32
  effective : Nat
  /-- The calls would go on below the horizon. -/
  atHorizon : Bool

namespace DepthBudget

/-- The budget of a natural depth under a request. -/
def within (natural : Nat) (atHorizon : Bool) (requested : Option UInt32) : DepthBudget where
  natural
  requested
  effective := min (requested.elim natural UInt32.toNat) natural
  atHorizon

/-- The request cuts the tree above its natural depth. -/
def isCapped (budget : DepthBudget) : Bool := budget.effective < budget.natural

/-- It is the horizon, and not a request, that cuts the tree. -/
def isHorizonBound (budget : DepthBudget) : Bool := budget.atHorizon && !budget.isCapped

end DepthBudget

/-- The first size is a finite number that is not negative. -/
def checkInitialSize (initial : Float) : Except Fault Unit :=
  if ¬ initial.isFinite ∨ initial < 0 then .error (.parameter (.initialSize initial)) else .ok ()

/-- Divide until the size is no longer above `base`, at most `left` times.  The
result counts the divisions from `depth` on and tells whether the last size is
still above. -/
def divisions (reduction base : Float) : (left : Nat) → (size : Float) → (depth : Nat) → Nat × Bool
  | 0, size, depth => (depth, decide (size > base))
  | left + 1, size, depth =>
      if size > base then divisions reduction base left (size / reduction) (depth + 1)
      else (depth, false)

def DivideConquer.depth (r : DivideConquer) (initial : Float) (requested : Option UInt32) :
    Except Fault DepthBudget := do
  r.check
  checkInitialSize initial
  let (natural, atHorizon) := divisions r.reduction r.baseSize depthHorizon initial 0
  return .within natural atHorizon requested

def LinearShift.depth (r : LinearShift) (initial : Float) (requested : Option UInt32) :
    Except Fault DepthBudget := do
  r.check
  checkInitialSize initial
  let full := Number.wholePart initial
  return .within (min full depthHorizon) (depthHorizon < full) requested

def Recurrence.depth (r : Recurrence) (initial : Float) (requested : Option UInt32) :
    Except Fault DepthBudget :=
  match r with
  | .divideConquer r => r.depth initial requested
  | .linearShift r => r.depth initial requested

end Unfolding
