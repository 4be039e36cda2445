import Unfolding.Number.Numeral

/-!
Why a request is refused, and in which words.
-/

namespace Unfolding

/-- A parameter outside its range. -/
inductive ParameterFault where
  | branchingFactor (value : UInt32)
  | reductionFactor (value : Float)
  | zeroShift (position : Nat)
  | coefficientMismatch (shifts coefficients : Nat)
  | initialSize (value : Float)

/-- A request that a call tree cannot meet. -/
inductive Misuse where
  | rootTaken
  | slotOutOfRange (slot size : Nat)
  | treeFull
  /-- A drawing needs one position for each call. -/
  | positionCount (given needed : Nat)
  deriving Repr, DecidableEq

inductive Fault where
  | parameter (fault : ParameterFault)
  | emptyRecurrence
  /-- The call with this index on a level has no caller on the level above. -/
  | orphan (level index : Nat)
  | misuse (cause : Misuse)

/-- In messages a double is written in full, without an exponent and without a
point after a whole number. -/
def Fault.numeralForm : Number.NumeralForm where
  isPositional _ := true
  showsPoint := false
  tie := .up

def ParameterFault.message : ParameterFault → String
  | .branchingFactor value =>
      "branching factor a must be positive (got " ++ toString value.toNat ++ ")"
  | .reductionFactor value =>
      "reduction factor b must be greater than 1 (got " ++ Fault.numeralForm.write value ++ ")"
  | .zeroShift position => "shift at position " ++ toString position ++ " must be positive"
  | .coefficientMismatch shifts coefficients =>
      toString coefficients ++ " coefficients given for " ++ toString shifts ++ " shifts"
  | .initialSize value =>
      "initial size must be finite and non-negative (got " ++ Fault.numeralForm.write value ++ ")"

/-- How a slot of a call tree is shown to the reader. -/
def slotName (slot : Nat) : String := "NodeIx(" ++ toString slot ++ ")"

def Misuse.message : Misuse → String
  | .rootTaken => "tree already has a root"
  | .slotOutOfRange slot size =>
      "NodeIx out of range: " ++ slotName slot ++ " (len " ++ toString size ++ ")"
  | .treeFull => "call tree is full"
  | .positionCount given needed =>
      "assertion `left == right` failed: one position per node is required\n  left: " ++
        toString given ++ "\n right: " ++ toString needed

def Fault.message : Fault → String
  | .parameter fault => "invalid recurrence parameters: " ++ fault.message
  | .emptyRecurrence => "linear-shift recurrence has no shifts"
  | .orphan level index =>
      "layout inconsistency: node " ++ toString index ++ " at level " ++ toString level ++
        " has no parent"
  | .misuse cause => cause.message

end Unfolding
