import Unfolding.Proofs.Number.Double

/-!
Natural numbers among the doubles.

A significand has 53 bits, so every natural number up to `2 ^ 53` is a double and
no two of them are the same one.  Above, neighbours are rounded together.
-/

namespace Unfolding.Number

open Float.Model Float.Model.UnpackedFloat

/-! ### Normal numbers -/

/-- The significand uses all its bits and the exponent is in range. -/
structure IsNormal (significand : Nat) (exponent : Int) : Prop where
  leading : fractionCount ≤ significand
  bounded : significand < 2 * fractionCount
  least : -1074 ≤ exponent
  greatest : exponent ≤ 971

namespace IsNormal

variable {significand : Nat} {exponent : Int}

theorem pos (normal : IsNormal significand exponent) : 0 < significand :=
  Nat.lt_of_lt_of_le (by decide) normal.leading

theorem log2_scaled (normal : IsNormal significand exponent) (shift : Nat) :
    (significand * 2 ^ shift).log2 = 52 + shift := by
  have nonzero : significand * 2 ^ shift ≠ 0 :=
    Nat.ne_of_gt (Nat.mul_pos normal.pos (Nat.two_pow_pos shift))
  rw [Nat.log2_eq_iff nonzero, Nat.pow_add, Nat.add_right_comm, Nat.pow_add]
  exact ⟨Nat.mul_le_mul_right _ normal.leading,
    Nat.mul_lt_mul_of_pos_right normal.bounded (Nat.two_pow_pos shift)⟩

theorem targetExponent_scaled (normal : IsNormal significand exponent) (shift : Nat) :
    Format.binary64.targetExponent (totalExponent (significand * 2 ^ shift) (exponent - shift)) =
      exponent := by
  have least := normal.least
  rw [totalExponent, normal.log2_scaled]
  simp only [Format.targetExponent, Format.mantissaBits, Format.minExponent]
  omega

end IsNormal

theorem shiftRight_scaled (significand shift : Nat) :
    ExtendedMantissa.ofMantissaAndAccuracy (significand * 2 ^ shift) .exact >>> shift =
      ExtendedMantissa.ofMantissaAndAccuracy significand .exact := by
  induction shift generalizing significand with
  | zero =>
      rw [Nat.pow_zero, Nat.mul_one]
      rfl
  | succ shift inductionHypothesis =>
      have split : significand * 2 ^ (shift + 1) = significand * 2 * 2 ^ shift := by
        rw [Nat.pow_succ', Nat.mul_assoc]
      have last : ExtendedMantissa.ofMantissaAndAccuracy (significand * 2 * 2 ^ shift) .exact >>>
          (shift + 1) = (ExtendedMantissa.ofMantissaAndAccuracy (significand * 2 * 2 ^ shift)
            .exact >>> shift).shiftRightOne := rfl
      rw [split, last, inductionHypothesis]
      simp [ExtendedMantissa.ofMantissaAndAccuracy, ExtendedMantissa.shiftRightOne]

namespace IsNormal

variable {significand : Nat} {exponent : Int}

theorem shiftToTargetExponent_scaled (normal : IsNormal significand exponent) (shift : Nat) :
    shiftToTargetExponent .binary64 (significand * 2 ^ shift) (exponent - shift) .exact =
      (ExtendedMantissa.ofMantissaAndAccuracy significand .exact, exponent) := by
  have distance : (exponent - (exponent - shift)).toNat = shift := by omega
  rw [shiftToTargetExponent, normal.targetExponent_scaled, shiftToExponent, distance,
    shiftRight_scaled, Int.sub_add_cancel]

/-- Trailing zeros are dropped without loss. -/
theorem roundWithAccuracy_scaled (normal : IsNormal significand exponent) (sign : Sign)
    (shift : Nat) :
    roundWithAccuracy .binary64 sign (significand * 2 ^ shift) (exponent - shift) .exact =
      .finite sign significand exponent normal.pos := by
  have settled := normal.shiftToTargetExponent_scaled 0
  rw [Nat.pow_zero, Nat.mul_one, Int.natCast_zero, Int.sub_zero] at settled
  rw [roundWithAccuracy, normal.shiftToTargetExponent_scaled]
  dsimp only
  have rounded : (ExtendedMantissa.ofMantissaAndAccuracy significand .exact).roundedMantissa =
      significand := rfl
  rw [rounded, settled]
  exact dif_neg (Nat.ne_of_gt normal.pos)

theorem toNat_one_append (normal : IsNormal significand exponent) :
    (1#1 ++ BitVec.ofNat 52 significand).toNat = significand := by
  have leading := normal.leading
  have bounded := normal.bounded
  have fraction : (BitVec.ofNat 52 significand).toNat = significand - fractionCount := by
    rw [BitVec.toNat_ofNat]
    unfold fractionCount at *
    omega
  rw [BitVec.toNat_append, ← Nat.shiftLeft_add_eq_or_of_lt (BitVec.isLt _), fraction]
  change fractionCount + (significand - fractionCount) = significand
  omega

theorem pack_eq (normal : IsNormal significand exponent) (sign : Sign) :
    UnpackedFloat.pack .binary64 (.finite sign significand exponent normal.pos) =
      packComponents .binary64 sign (BitVec.ofNat 11 (exponent + 1075).toNat)
        (BitVec.ofNat 52 significand) := by
  have least := normal.least
  have greatest := normal.greatest
  have log2 := normal.log2_scaled 0
  rw [Nat.pow_zero, Nat.mul_one] at log2
  have bias : exponent + Format.binary64.exponentBias +
      Format.binary64.mantissaBitsWithoutImplicit = exponent + 1075 := by
    change exponent + 1023 + 52 = _
    omega
  have inRange : ¬ 2 ^ Format.binary64.exponentBits ≤ (exponent + 1075).toNat + 1 := by
    change ¬ 2048 ≤ _
    omega
  unfold UnpackedFloat.pack
  dsimp only
  rw [bias, if_neg inRange, log2]
  rfl

/-- Packing keeps normal numbers. -/
theorem unpack_pack (normal : IsNormal significand exponent) (sign : Sign) :
    (Float.Model.pack (.finite sign significand exponent normal.pos)).unpack =
      .finite sign significand exponent normal.pos := by
  have least := normal.least
  have greatest := normal.greatest
  have biased : (BitVec.ofNat 11 (exponent + 1075).toNat).toNat = (exponent + 1075).toNat := by
    rw [BitVec.toNat_ofNat]
    omega
  have notSpecial : BitVec.ofNat 11 (exponent + 1075).toNat ≠ -1#11 := by
    intro special
    have same := congrArg BitVec.toNat special
    rw [biased] at same
    change _ = 2047 at same
    omega
  have notSubnormal : BitVec.ofNat 11 (exponent + 1075).toNat ≠ 0#11 := by
    intro subnormal
    have same := congrArg BitVec.toNat subnormal
    rw [biased] at same
    change _ = 0 at same
    omega
  change UnpackedFloat.unpack .binary64 (UnpackedFloat.pack .binary64 _) = _
  rw [normal.pack_eq]
  unfold UnpackedFloat.unpack
  simp only [unpackExponent_packComponents, unpackMantissa_packComponents,
    unpackSign_packComponents, Sign.ofBitVec_toBitVec, if_neg notSpecial, if_neg notSubnormal,
    normal.toNat_one_append, biased]
  congr 1
  change ((exponent + 1075).toNat : Int) - (1023 + 52) = exponent
  omega

end IsNormal

/-! ### Natural numbers -/

/-- The number of zeros that bring a natural number to 53 bits. -/
def headroom (n : Nat) : Nat := 52 - n.log2

section

variable {n : Nat}

theorem log2_add_headroom (positive : 0 < n) (bounded : n < 2 ^ 53) :
    n.log2 + headroom n = 52 := by
  have small := (Nat.log2_lt (Nat.ne_of_gt positive)).mpr bounded
  unfold headroom
  omega

/-- Shifted up to 53 bits, a natural number is the significand of a normal one. -/
theorem isNormal_shifted (positive : 0 < n) (bounded : n < 2 ^ 53) :
    IsNormal (n * 2 ^ headroom n) (-(headroom n : Int)) := by
  have room := log2_add_headroom positive bounded
  have top : 2 ^ n.log2 * 2 ^ headroom n = fractionCount := by
    rw [← Nat.pow_add, room]
    rfl
  refine ⟨?_, ?_, by omega, by omega⟩
  · rw [← top]
    exact Nat.mul_le_mul_right _ (Nat.log2_self_le (Nat.ne_of_gt positive))
  · rw [← top, ← Nat.mul_assoc, ← Nat.pow_succ']
    exact Nat.mul_lt_mul_of_pos_right Nat.lt_log2_self (Nat.two_pow_pos _)

theorem unpacked_ofNat_eq (positive : 0 < n) (bounded : n < 2 ^ 53) :
    UnpackedFloat.ofNat .binary64 n =
      .finite .positive (n * 2 ^ headroom n) (-(headroom n : Int))
        (isNormal_shifted positive bounded).pos := by
  have normal := isNormal_shifted positive bounded
  have room := log2_add_headroom positive bounded
  have above : compare (n : Int) 0 = .gt := Int.compare_eq_gt.mpr (Int.natCast_pos.mpr positive)
  have target : Format.binary64.targetExponent (totalExponent n 0) = -(headroom n : Int) := by
    simp only [totalExponent, Format.targetExponent, Format.mantissaBits, Format.minExponent]
    omega
  have distance : (0 - -(headroom n : Int)).toNat = headroom n := by omega
  have rounded := normal.roundWithAccuracy_scaled .positive 0
  rw [Nat.pow_zero, Nat.mul_one, Int.natCast_zero, Int.sub_zero] at rounded
  rw [UnpackedFloat.ofNat, UnpackedFloat.ofInt, UnpackedFloat.normalize, above]
  dsimp only
  rw [UnpackedFloat.round, Int.toNat_natCast, target, decreaseExponent, distance,
    Nat.shiftLeft_eq, Int.zero_sub]
  exact rounded

theorem unpack_ofNat (positive : 0 < n) (bounded : n < 2 ^ 53) :
    (Float.ofNat n).toModel.unpack =
      .finite .positive (n * 2 ^ headroom n) (-(headroom n : Int))
        (isNormal_shifted positive bounded).pos := by
  have normal := isNormal_shifted positive bounded
  have one : Float.exactlyRepresentablePowersOfTen[0].toModel.unpack =
      .finite .positive (2 ^ 52) (-52) (by decide) := rfl
  have word : n.toUInt64.toNat = n := by
    rw [Nat.toUInt64, UInt64.toNat_ofNat_of_lt']
    exact Nat.lt_trans bounded (by decide)
  have converted : n.toUInt64.toFloat.toModel.unpack =
      .finite .positive (n * 2 ^ headroom n) (-(headroom n : Int)) normal.pos := by
    change (Float.Model.pack (UnpackedFloat.ofNat .binary64 n.toUInt64.toNat)).unpack = _
    rw [word, unpacked_ofNat_eq positive bounded, normal.unpack_pack]
  change (Float.ofScientific n false 0).toModel.unpack = _
  unfold Float.ofScientific
  rw [dif_pos ⟨bounded, by decide⟩]
  change (Float.Model.pack (UnpackedFloat.mul .binary64 n.toUInt64.toFloat.toModel.unpack
    Float.exactlyRepresentablePowersOfTen[0].toModel.unpack)).unpack = _
  rw [one, converted]
  -- the product has 52 zeros too many, and the exponent makes up for them
  change (Float.Model.pack
    (roundWithAccuracy .binary64 .positive _ (_ - (52 : Nat)) .exact)).unpack = _
  rw [normal.roundWithAccuracy_scaled, normal.unpack_pack]

/-- Up to `2 ^ 53`, natural numbers are doubles. -/
theorem wholePart_ofNat (bounded : n ≤ 2 ^ 53) : wholePart (Float.ofNat n) = n := by
  rcases Nat.eq_zero_or_pos n with rfl | positive
  · rfl
  rcases Nat.eq_or_lt_of_le bounded with rfl | below
  · rfl -- the only one with 54 bits
  have representable : n ≤ wholeLimit := Nat.le_trans bounded (by decide)
  rw [wholePart, valueOf_eq_ofUnpacked, unpack_ofNat positive below]
  simp only [Value.ofUnpacked]
  have numerator : scaledNumerator (n * 2 ^ headroom n) (-(headroom n : Int)) =
      n * 2 ^ headroom n := by
    rw [scaledNumerator, Int.toNat_of_nonpos (by omega), Nat.shiftLeft_zero]
  have denominator : scaledDenominator (-(headroom n : Int)) = 2 ^ headroom n := by
    rw [scaledDenominator, Int.neg_neg, Int.toNat_natCast, Nat.one_shiftLeft]
  rw [numerator, denominator, Nat.mul_div_cancel _ (Nat.two_pow_pos _),
    Nat.min_eq_left representable]
  rfl

theorem ofNat_inj {other : Nat} (bounded : n ≤ 2 ^ 53) (otherBounded : other ≤ 2 ^ 53) :
    Float.ofNat n = Float.ofNat other ↔ n = other := by
  constructor
  · intro same
    rw [← wholePart_ofNat bounded, same, wholePart_ofNat otherBounded]
  · rintro rfl
    rfl

end

/-! ### Adding zero -/

theorem pack_unpack (x : Float) : Float.Model.pack x.toModel.unpack = x.toModel := by
  obtain ⟨⟨bits, valid⟩⟩ := x
  simp only [Float.Model.pack, Float.Model.unpack, pack_unpack_of_valid valid]

theorem add_zero_of_ne {x : Float} (other : x.toModel.unpack ≠ .zero .negative) :
    x + 0.0 = x := by
  have zero : (0.0 : Float).toModel.unpack = .zero .positive := rfl
  have unchanged : UnpackedFloat.add .binary64 x.toModel.unpack (.zero .positive) =
      x.toModel.unpack := by
    cases unpacked : x.toModel.unpack with
    | notANumber => rfl
    | infinity sign => rfl
    | finite sign significand exponent positive => rfl
    | zero sign =>
        cases sign with
        | positive => rfl
        | negative => exact absurd unpacked other
  change Float.ofModel (Float.Model.pack (UnpackedFloat.add .binary64 x.toModel.unpack
    (0.0 : Float).toModel.unpack)) = x
  rw [zero, unchanged, pack_unpack]

theorem unpack_packComponents_ne (exponent : BitVec Format.binary64.exponentBits)
    (mantissa : BitVec Format.binary64.mantissaBitsWithoutImplicit) :
    UnpackedFloat.unpack .binary64 (packComponents .binary64 .positive exponent mantissa) ≠
      .zero .negative := by
  unfold UnpackedFloat.unpack
  simp only [unpackSign_packComponents, Sign.ofBitVec_toBitVec]
  split
  · split <;> nofun
  · split
    · split <;> nofun
    · nofun

theorem unpack_pack_finite_ne {significand : Nat} {exponent : Int} (positive : 0 < significand) :
    (Float.Model.pack (.finite .positive significand exponent positive)).unpack ≠
      .zero .negative := by
  change UnpackedFloat.unpack .binary64 (UnpackedFloat.pack .binary64 _) ≠ _
  unfold UnpackedFloat.pack packedInfinity
  dsimp only
  split
  · exact unpack_packComponents_ne _ _
  · split <;> exact unpack_packComponents_ne _ _

theorem unpack_pack_roundWithAccuracy_ne (significand : Nat) (exponent : Int)
    (accuracy : Accuracy) :
    (Float.Model.pack (roundWithAccuracy .binary64 .positive significand exponent
      accuracy)).unpack ≠ .zero .negative := by
  unfold roundWithAccuracy
  dsimp only
  split
  · exact unpack_packComponents_ne 0 0
  · exact unpack_pack_finite_ne _

theorem unpack_ofNat_ne (n : Nat) : (Float.ofNat n).toModel.unpack ≠ .zero .negative := by
  rcases Nat.eq_zero_or_pos n with rfl | positive
  · have zero : (Float.ofNat 0).toModel.unpack = .zero .positive := rfl
    rw [zero]
    nofun
  by_cases bounded : n < 2 ^ 53
  · rw [unpack_ofNat positive bounded]
    nofun
  · change (Float.ofScientific n false 0).toModel.unpack ≠ _
    unfold Float.ofScientific
    rw [dif_neg fun small => bounded small.1]
    change (Float.Model.pack (UnpackedFloat.ofScientific .binary64 n 0)).unpack ≠ _
    unfold UnpackedFloat.ofScientific
    rw [dif_neg (Nat.ne_of_gt positive)]
    split
    · exact unpack_packComponents_ne _ _
    split
    · exact unpack_packComponents_ne _ _
    have signs : Sign.positive * Sign.positive = .positive := rfl
    rw [if_pos (Int.le_refl 0), UnpackedFloat.mul, signs]
    exact unpack_pack_roundWithAccuracy_ne _ _ _

theorem ofNat_add_zero (n : Nat) : Float.ofNat n + 0.0 = Float.ofNat n :=
  add_zero_of_ne (unpack_ofNat_ne n)

end Unfolding.Number
