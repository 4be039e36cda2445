import Unfolding.Depth
import Mathlib

/-!
Doubles and their exact values.

The arithmetic of doubles is that of unpacked floats: a sign, a significand and
an exponent.  The exact value of a double is the same triple, and its whole part
is the double rounded towards zero.
-/

namespace Unfolding.Number

open Float.Model Float.Model.UnpackedFloat

/-! ### Exact values -/

section Fields

variable (bits : BitVec Format.binary64.numBits)

theorem toNat_unpackMantissa : (unpackMantissa bits).toNat = bits.toNat % fractionCount := by
  simp [unpackMantissa, fractionCount]

theorem toNat_unpackExponent :
    (unpackExponent bits).toNat = bits.toNat / fractionCount % 2048 := by
  simp [unpackExponent, fractionCount, Nat.shiftRight_eq_div_pow]

theorem ofBitVec_unpackSign :
    Sign.ofBitVec (unpackSign bits) = if bits.toNat >>> 63 = 1 then .negative else .positive := by
  have bounded : bits.toNat < UInt64.size := bits.isLt
  have bit : bits.toNat >>> 63 < 2 := by
    rw [Nat.shiftRight_eq_div_pow]
    apply Nat.div_lt_of_lt_mul
    exact bounded
  have sign : unpackSign bits = 0#1 ↔ bits.toNat >>> 63 = 0 := by
    rw [← BitVec.toNat_inj]
    simp [unpackSign, Nat.mod_eq_of_lt bit]
  unfold Sign.ofBitVec
  by_cases positive : bits.toNat >>> 63 = 0
  · rw [if_pos (sign.mpr positive), if_neg (by omega)]
  · rw [if_neg (mt sign.mp positive), if_pos (by omega)]

theorem toNat_one_append_unpackMantissa :
    (1#1 ++ unpackMantissa bits).toNat = fractionCount + bits.toNat % fractionCount := by
  rw [BitVec.toNat_append, ← Nat.shiftLeft_add_eq_or_of_lt (unpackMantissa bits).isLt,
    toNat_unpackMantissa]
  simp [Nat.shiftLeft_eq, fractionCount]

end Fields

/-- The exact value of an unpacked double. -/
def Value.ofUnpacked : UnpackedFloat → Value
  | .notANumber => .notANumber
  | .infinity sign => .infinite (sign == .negative)
  | .zero sign => .finite (sign == .negative) 0 (-1074)
  | .finite sign significand exponent _ => .finite (sign == .negative) significand exponent

theorem Value.ofBits_eq (bits : BitVec Format.binary64.numBits) :
    Value.ofBits bits.toNat = .ofUnpacked (UnpackedFloat.unpack .binary64 bits) := by
  have exponent : unpackExponent bits = -1#_ ↔ bits.toNat / fractionCount % 2048 = 2047 := by
    rw [← BitVec.toNat_inj, toNat_unpackExponent]
    simp
  have subnormal : unpackExponent bits = 0#_ ↔ bits.toNat / fractionCount % 2048 = 0 := by
    rw [← BitVec.toNat_inj, toNat_unpackExponent]
    simp
  have mantissa : unpackMantissa bits = 0#_ ↔ bits.toNat % fractionCount = 0 := by
    rw [← BitVec.toNat_inj, toNat_unpackMantissa]
    simp
  have sign : (Sign.ofBitVec (unpackSign bits) == .negative) = (bits.toNat >>> 63 == 1) := by
    rw [ofBitVec_unpackSign]
    by_cases negative : bits.toNat >>> 63 = 1
    · rw [if_pos negative, negative]
      rfl
    · rw [if_neg negative, beq_eq_false_iff_ne.mpr negative]
      rfl
  have bias : (Format.binary64.exponentBias : Int) + Format.binary64.mantissaBitsWithoutImplicit =
      1075 := rfl
  unfold UnpackedFloat.unpack Value.ofBits
  simp only [exponent, subnormal, mantissa, bias, toNat_unpackExponent]
  split
  · split <;> simp [Value.ofUnpacked, sign]
  · split
    · rename_i small
      split
      · rename_i zero
        simp [Value.ofUnpacked, sign, zero]
      · simp [Value.ofUnpacked, sign, toNat_unpackMantissa, small]
    · simp only [Value.ofUnpacked, sign, Value.finite.injEq, true_and, and_true]
      exact (toNat_one_append_unpackMantissa bits).symm

theorem valueOf_eq_ofUnpacked (x : Float) : valueOf x = .ofUnpacked x.toModel.unpack :=
  Value.ofBits_eq x.toBits.toBitVec

/-! ### Whole parts -/

theorem mantissa_shiftRight (mantissa : ExtendedMantissa) (count : Nat) :
    (mantissa >>> count).mantissa = mantissa.mantissa >>> count := by
  induction count with
  | zero => rfl
  | succ count inductionHypothesis =>
      rw [Nat.shiftRight_succ, ← inductionHypothesis]
      rfl

theorem roundToInt_positive (significand : Nat) (exponent : Int) :
    roundToInt .positive significand exponent =
      (scaledNumerator significand exponent / scaledDenominator exponent : Nat) := by
  have shift : (0 - (exponent - (exponent.toNat : Int))).toNat = (-exponent).toNat := by
    omega
  simp only [roundToInt, decreaseExponent, shiftToExponent, mantissa_shiftRight, Int.sub_zero,
    Sign.apply]
  rw [ExtendedMantissa.ofMantissaAndAccuracy, scaledNumerator, scaledDenominator,
    Nat.one_shiftLeft, Nat.shiftRight_eq_div_pow, shift]

theorem toInt_ofIntClamp_natCast (n : Nat) :
    (Int64.ofIntClamp (n : Int)).toInt = (min n wholeLimit : Nat) := by
  have least : Int64.minValue.toInt ≤ n :=
    Int.le_trans (Int.le_of_lt Int64.toInt_minValue_lt_zero) (Int.natCast_nonneg n)
  have greatest : Int64.maxValue.toInt = wholeLimit := rfl
  unfold Int64.ofIntClamp
  rw [dif_pos least]
  split
  · rw [Int64.toInt_ofIntLE]
    omega
  · rw [greatest]
    omega

/-! ### Order -/

theorem lt_iff_compare {x y : Float} :
    x < y ↔ x.toModel.unpack.compare y.toModel.unpack = some .lt := by
  change Float.lt x y = true ↔ _
  unfold Float.lt
  rw [decide_eq_true_iff]
  change UnpackedFloat.lt _ _ = true ↔ _
  rw [UnpackedFloat.lt, beq_iff_eq]

theorem le_iff_compare {x y : Float} :
    x ≤ y ↔ (x.toModel.unpack.compare y.toModel.unpack).any Ordering.isLE = true := by
  change Float.le x y = true ↔ _
  unfold Float.le
  rw [decide_eq_true_iff]
  rfl

theorem compare_sign_swap (sign other : Sign) : (compare sign other).swap = compare other sign := by
  cases sign <;> cases other <;> rfl

theorem compare_swap (x y : UnpackedFloat) :
    (x.compare y).map Ordering.swap = y.compare x := by
  cases x with
  | notANumber => cases y <;> rfl
  | infinity sign =>
      cases y with
      | infinity other => simp [UnpackedFloat.compare, compare_sign_swap]
      | notANumber => rfl
      | zero other => cases sign <;> rfl
      | finite other => cases sign <;> cases other <;> rfl
  | zero sign =>
      cases y with
      | infinity other => cases other <;> rfl
      | notANumber => rfl
      | zero other => rfl
      | finite other => cases other <;> rfl
  | finite sign =>
      cases y with
      | infinity other => cases sign <;> cases other <;> rfl
      | notANumber => rfl
      | zero other => cases sign <;> rfl
      | finite other =>
          cases sign <;> cases other <;>
            simp [UnpackedFloat.compare, Ordering.swap_then, Int.compare_swap, Nat.compare_swap]

theorem compare_eq_none_iff (x y : UnpackedFloat) :
    x.compare y = none ↔ x.isNaN = true ∨ y.isNaN = true := by
  fun_cases UnpackedFloat.compare x y <;> simp_all [UnpackedFloat.isNaN]

/-- Any two numbers can be compared. -/
theorem not_lt_iff_le {x y : Float} (number : x.isNaN = false) (other : y.isNaN = false) :
    ¬ y < x ↔ x ≤ y := by
  rw [lt_iff_compare, le_iff_compare, ← compare_swap]
  change x.toModel.unpack.isNaN = false at number
  change y.toModel.unpack.isNaN = false at other
  cases compared : x.toModel.unpack.compare y.toModel.unpack with
  | none => simp [compare_eq_none_iff, number, other] at compared
  | some order => cases order <;> simp

theorem not_le_of_lt {x y : Float} (less : y < x) : ¬ x ≤ y := by
  rw [lt_iff_compare] at less
  rw [le_iff_compare, ← compare_swap, less]
  exact Bool.false_ne_true

/-! ### Arithmetic that stays among the numbers -/

theorem isNaN_of_isFinite {x : Float} (finite : x.isFinite = true) : x.isNaN = false := by
  change x.toModel.unpack.isFinite = true at finite
  change x.toModel.unpack.isNaN = false
  cases unpacked : x.toModel.unpack with
  | notANumber => simp [unpacked, UnpackedFloat.isFinite] at finite
  | infinity sign => rfl
  | zero sign => rfl
  | finite => rfl

theorem isNaN_unpack {spec : Format} {bits : BitVec spec.numBits}
    (number : unpackExponent bits = -1#_ → unpackMantissa bits = 0#_) :
    (UnpackedFloat.unpack spec bits).isNaN = false := by
  unfold UnpackedFloat.unpack
  dsimp only
  split
  · rename_i special
    rw [if_pos (number special)]
    rfl
  · split
    · split <;> rfl
    · rfl

theorem isNaN_unpack_packComponents {spec : Format} (sign : Sign)
    {exponent : BitVec spec.exponentBits} {mantissa : BitVec spec.mantissaBitsWithoutImplicit}
    (number : exponent = -1#_ → mantissa = 0#_) :
    (UnpackedFloat.unpack spec (packComponents spec sign exponent mantissa)).isNaN = false := by
  apply isNaN_unpack
  rw [unpackExponent_packComponents, unpackMantissa_packComponents]
  exact number

theorem isNaN_unpack_pack {x : UnpackedFloat} (number : x.isNaN = false) :
    (Float.Model.pack x).unpack.isNaN = false := by
  change (UnpackedFloat.unpack .binary64 (UnpackedFloat.pack .binary64 x)).isNaN = false
  fun_cases UnpackedFloat.pack Format.binary64 x with
  | case1 => cases number
  | case2 sign => exact isNaN_unpack_packComponents sign fun _ => rfl
  | case3 sign => exact isNaN_unpack_packComponents sign fun _ => rfl
  | case4 sign => exact isNaN_unpack_packComponents sign fun _ => rfl
  | case5 sign significand exponent positive bits biased small normal =>
      apply isNaN_unpack_packComponents
      intro special
      have same := congrArg BitVec.toNat special
      rw [BitVec.toNat_ofNat, Nat.mod_eq_of_lt (by omega)] at same
      simp at same small
      omega
  | case6 sign significand exponent positive bits biased small subnormal =>
      apply isNaN_unpack_packComponents
      intro special
      exact absurd special (by decide)

theorem isNaN_roundWithAccuracy (spec : Format) (sign : Sign) (mantissa : Nat) (exponent : Int)
    (accuracy : Accuracy) :
    (roundWithAccuracy spec sign mantissa exponent accuracy).isNaN = false := by
  unfold roundWithAccuracy
  dsimp only
  split <;> rfl

theorem isNaN_div {x y : Float} (number : x.isNaN = false) (finite : y.isFinite = true)
    (above : ¬ y ≤ 1) : (x / y).isNaN = false := by
  change x.toModel.unpack.isNaN = false at number
  change y.toModel.unpack.isFinite = true at finite
  apply isNaN_unpack_pack
  cases divisor : y.toModel.unpack with
  | infinity sign => simp [divisor, UnpackedFloat.isFinite] at finite
  | notANumber => simp [divisor, UnpackedFloat.isFinite] at finite
  | zero sign =>
      rw [le_iff_compare, divisor] at above
      exact absurd rfl above
  | finite sign significand exponent positive =>
      cases dividend : x.toModel.unpack with
      | infinity other => rfl
      | notANumber => simp [dividend, UnpackedFloat.isNaN] at number
      | zero other => rfl
      | finite => exact isNaN_roundWithAccuracy ..

theorem isNaN_mul_finite (spec : Format) {x : UnpackedFloat} (number : x.isNaN = false)
    (sign : Sign) (significand : Nat) (exponent : Int) (positive : 0 < significand) :
    (UnpackedFloat.mul spec x (.finite sign significand exponent positive)).isNaN = false := by
  cases x with
  | infinity other => rfl
  | notANumber => cases number
  | zero other => rfl
  | finite => exact isNaN_roundWithAccuracy ..

theorem isNaN_unpacked_ofNat (spec : Format) (n : Nat) :
    (UnpackedFloat.ofNat spec n).isNaN = false := by
  unfold UnpackedFloat.ofNat UnpackedFloat.ofInt UnpackedFloat.normalize
  split
  · exact isNaN_roundWithAccuracy ..
  · rfl
  · exact isNaN_roundWithAccuracy ..

theorem isNaN_unpacked_ofScientific (spec : Format) (n : Nat) :
    (UnpackedFloat.ofScientific spec n 0).isNaN = false := by
  unfold UnpackedFloat.ofScientific
  split
  · rfl
  split
  · rfl
  split
  · rfl
  rw [if_pos (Int.le_refl 0)]
  exact isNaN_roundWithAccuracy ..

theorem isNaN_ofNat (n : Nat) : (Float.ofNat n).isNaN = false := by
  change (Float.ofScientific n false 0).isNaN = false
  unfold Float.ofScientific
  split
  · have one : Float.exactlyRepresentablePowersOfTen[0].toModel.unpack =
        .finite .positive fractionCount (-52) (by decide) := rfl
    apply isNaN_unpack_pack
    rw [one]
    exact isNaN_mul_finite _ (isNaN_unpack_pack (isNaN_unpacked_ofNat _ _)) ..
  · exact isNaN_unpack_pack (isNaN_unpacked_ofScientific _ n)

theorem isNaN_neg {x : Float} (number : x.isNaN = false) : (-x).isNaN = false := by
  change x.toModel.unpack.isNaN = false at number
  apply isNaN_unpack_pack
  cases unpacked : x.toModel.unpack with
  | infinity sign => rfl
  | notANumber => simp [unpacked, UnpackedFloat.isNaN] at number
  | zero sign => rfl
  | finite sign significand exponent positive => rfl

theorem isNaN_ofInt (n : Int) : (Float.ofInt n).isNaN = false := by
  cases n with
  | ofNat n => exact isNaN_ofNat n
  | negSucc n => exact isNaN_neg (isNaN_ofNat (n + 1))

/-! ### Accepted sizes -/

/-- A first size that is accepted is a zero or a positive number. -/
theorem unpack_of_checkInitialSize {initial : Float}
    (accepted : checkInitialSize initial = .ok ()) :
    (∃ sign, initial.toModel.unpack = .zero sign) ∨
      ∃ significand exponent positive,
        initial.toModel.unpack = .finite .positive significand exponent positive := by
  unfold checkInitialSize at accepted
  split at accepted
  · cases accepted
  · rename_i conditions
    rw [not_or, Decidable.not_not, lt_iff_compare] at conditions
    obtain ⟨finite, notNegative⟩ := conditions
    change initial.toModel.unpack.isFinite = true at finite
    have zero : (0 : Float).toModel.unpack = .zero .positive := rfl
    rw [zero] at notNegative
    cases unpacked : initial.toModel.unpack with
    | infinity sign => simp [unpacked, UnpackedFloat.isFinite] at finite
    | notANumber => simp [unpacked, UnpackedFloat.isFinite] at finite
    | zero sign => exact .inl ⟨sign, rfl⟩
    | finite sign significand exponent positive =>
        cases sign with
        | positive => exact .inr ⟨significand, exponent, positive, rfl⟩
        | negative =>
            rw [unpacked] at notNegative
            exact absurd rfl notNegative

/-- The whole part of an accepted size is the size cast to 64 bits. -/
theorem wholePart_eq_toInt64 {initial : Float} (accepted : checkInitialSize initial = .ok ()) :
    (wholePart initial : Int) = initial.toModel.toInt64.toInt := by
  unfold wholePart Float.Model.toInt64 UnpackedFloat.toInt64
  rw [valueOf_eq_ofUnpacked]
  rcases unpack_of_checkInitialSize accepted with
    ⟨sign, zero⟩ | ⟨significand, exponent, positive, finite⟩
  · rw [zero]
    cases sign <;> rfl
  · rw [finite]
    simp only [Value.ofUnpacked, UnpackedFloat.toInt, roundToInt_positive, toInt_ofIntClamp_natCast]
    rfl

end Unfolding.Number
