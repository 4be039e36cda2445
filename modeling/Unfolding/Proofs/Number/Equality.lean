import Unfolding.CallTree.Repetition
import Unfolding.Proofs.Number.Exact

/-!
Doubles that are equal as numbers.

Doubles are the same number if they differ in nothing but the sign of a zero.  Adding
zero removes this sign and changes nothing else, so the key of an argument tells which
number it is.
-/

namespace Unfolding.Number

open Float.Model Float.Model.UnpackedFloat

/-- The same number, with zero as the positive one. -/
def unsignedZero : UnpackedFloat → UnpackedFloat
  | .zero _ => .zero .positive
  | .infinity sign => .infinity sign
  | .notANumber => .notANumber
  | .finite sign significand exponent positive => .finite sign significand exponent positive

theorem beq_iff_compare {x y : Float} :
    (x == y) = true ↔ x.toModel.unpack.compare y.toModel.unpack = some .eq := by
  change UnpackedFloat.beq _ _ = true ↔ _
  rw [UnpackedFloat.beq, beq_iff_eq]

theorem unpack_inj {x y : Float} : x.toModel.unpack = y.toModel.unpack ↔ x = y := by
  constructor
  · intro same
    have models : x.toModel = y.toModel := by rw [← pack_unpack x, same, pack_unpack]
    exact congrArg Float.ofModel models
  · rintro rfl
    rfl

theorem compare_sign_eq_iff {sign other : Sign} : compare sign other = .eq ↔ sign = other := by
  cases sign with
  | positive =>
      cases other with
      | positive => exact iff_of_true rfl rfl
      | negative => exact iff_of_false (by intro same; cases same) (by intro same; cases same)
  | negative =>
      cases other with
      | positive => exact iff_of_false (by intro same; cases same) (by intro same; cases same)
      | negative => exact iff_of_true rfl rfl

theorem compare_eq_iff {x : UnpackedFloat} (number : x.isNaN = false) (y : UnpackedFloat) :
    x.compare y = some .eq ↔ unsignedZero x = unsignedZero y := by
  cases x with
  | notANumber => cases number
  | infinity sign =>
      cases y with
      | infinity other => simp [UnpackedFloat.compare, unsignedZero, compare_sign_eq_iff]
      | notANumber => simp [UnpackedFloat.compare, unsignedZero]
      | zero other => cases sign <;> simp [UnpackedFloat.compare, unsignedZero]
      | finite other => cases sign <;> simp [UnpackedFloat.compare, unsignedZero]
  | zero sign =>
      cases y with
      | infinity other => cases other <;> simp [UnpackedFloat.compare, unsignedZero]
      | notANumber => simp [UnpackedFloat.compare, unsignedZero]
      | zero other => simp [UnpackedFloat.compare, unsignedZero]
      | finite other => cases other <;> simp [UnpackedFloat.compare, unsignedZero]
  | finite sign =>
      cases y with
      | infinity other => cases sign <;> cases other <;> simp [UnpackedFloat.compare, unsignedZero]
      | notANumber => simp [UnpackedFloat.compare, unsignedZero]
      | zero other => cases sign <;> simp [UnpackedFloat.compare, unsignedZero]
      | finite other =>
          -- the exponents are compared first, then the significands
          cases sign <;> cases other <;>
            simp [UnpackedFloat.compare, unsignedZero, Ordering.then_eq_eq, and_comm]

theorem unpack_add_zero (x : Float) :
    (x + 0.0).toModel.unpack = unsignedZero x.toModel.unpack := by
  by_cases negative : x.toModel.unpack = .zero .negative
  · have zero : x = -0.0 := unpack_inj.mp negative
    rw [zero]
    rfl
  · rw [add_zero_of_ne negative]
    cases unpacked : x.toModel.unpack with
    | zero sign =>
        cases sign with
        | positive => rfl
        | negative => exact absurd unpacked negative
    | infinity sign => rfl
    | notANumber => rfl
    | finite sign significand exponent positive => rfl

end Unfolding.Number

namespace Unfolding

/-- The keys of two numbers are the same exactly if the numbers are. -/
theorem argumentKey_eq_iff {x : Float} (number : x.isNaN = false) (y : Float) :
    argumentKey x = argumentKey y ↔ (x == y) = true := by
  change x.toModel.unpack.isNaN = false at number
  calc
    argumentKey x = argumentKey y ↔ x + 0.0 = y + 0.0 := Float.toBits_inj
    _ ↔ (x + 0.0).toModel.unpack = (y + 0.0).toModel.unpack := Number.unpack_inj.symm
    _ ↔ (x == y) = true := by
      rw [Number.unpack_add_zero, Number.unpack_add_zero, Number.beq_iff_compare,
        Number.compare_eq_iff number]

end Unfolding
