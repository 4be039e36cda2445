import Unfolding.Proofs.Number.Equality

/-!
Doubles as rational numbers.

A finite double is a rational number.  Rounding changes nothing where this number is
normal, so that differences and halves of small whole numbers are exact.
-/

namespace Unfolding.Number

open Float.Model Float.Model.UnpackedFloat

/-- The rational number that an unpacked double is, if it is finite. -/
def rational? : UnpackedFloat → Option ℚ
  | .zero _ => some 0
  | .finite sign significand exponent _ => some (sign.apply significand * 2 ^ exponent)
  | .infinity _ => none
  | .notANumber => none

/-- The rational number that a double is, if it is finite. -/
def exactValue? (x : Float) : Option ℚ := rational? x.toModel.unpack

theorem exactValue?_ne_none_iff {x : Float} : exactValue? x ≠ none ↔ x.isFinite = true := by
  change rational? x.toModel.unpack ≠ none ↔ x.toModel.unpack.isFinite = true
  cases x.toModel.unpack <;> simp [rational?, UnpackedFloat.isFinite]

theorem exists_of_exactValue? {x : Float} {q : ℚ} (exact : exactValue? x = some q) :
    (∃ sign, x.toModel.unpack = .zero sign ∧ q = 0) ∨
      ∃ sign significand exponent positive,
        x.toModel.unpack = .finite sign significand exponent positive ∧
          q = sign.apply significand * 2 ^ exponent := by
  unfold exactValue? at exact
  cases unpacked : x.toModel.unpack with
  | zero sign =>
      rw [unpacked] at exact
      cases exact
      exact .inl ⟨sign, rfl, rfl⟩
  | finite sign significand exponent positive =>
      rw [unpacked] at exact
      cases exact
      exact .inr ⟨sign, significand, exponent, positive, rfl, rfl⟩
  | infinity sign =>
      rw [unpacked] at exact
      cases exact
  | notANumber =>
      rw [unpacked] at exact
      cases exact

theorem abs_apply_mul (sign : Sign) (significand : Nat) (exponent : Int) :
    |(sign.apply significand : ℚ) * 2 ^ exponent| = significand * 2 ^ exponent := by
  have scale : (0 : ℚ) < 2 ^ exponent := zpow_pos two_pos exponent
  cases sign <;> simp [Sign.apply, abs_mul, abs_of_pos scale]

/-! ### Normal numbers -/

/-- A rational number that is a normal double. -/
def IsNormalRational (q : ℚ) : Prop :=
  ∃ sign significand exponent, IsNormal significand exponent ∧
    q = Sign.apply sign significand * 2 ^ exponent

theorem mul_two_zpow_inj {m n shift : Nat} {exponent : Int}
    (same : (m : ℚ) * 2 ^ (exponent + shift) = n * 2 ^ exponent) : m * 2 ^ shift = n := by
  have nonzero : (2 : ℚ) ^ exponent ≠ 0 := zpow_ne_zero exponent two_ne_zero
  rw [zpow_add₀ two_ne_zero, zpow_natCast, mul_comm ((2 : ℚ) ^ exponent), ← mul_assoc] at same
  exact_mod_cast mul_right_cancel₀ nonzero same

theorem totalExponent_scaled {m : Nat} (positive : 0 < m) (exponent : Int) (shift : Nat) :
    totalExponent (m * 2 ^ shift) exponent = totalExponent m (exponent + shift) := by
  have nonzero : m ≠ 0 := Nat.ne_of_gt positive
  have log2 : (m * 2 ^ shift).log2 = m.log2 + shift := by
    have lower := Nat.mul_le_mul_right (2 ^ shift) (Nat.log2_self_le nonzero)
    have upper := Nat.mul_lt_mul_of_pos_right (Nat.lt_log2_self (n := m)) (Nat.two_pow_pos shift)
    rw [Nat.log2_eq_iff (Nat.ne_of_gt (Nat.mul_pos positive (Nat.two_pow_pos shift))), Nat.pow_add,
      Nat.add_right_comm, Nat.pow_add]
    exact ⟨lower, upper⟩
  rw [totalExponent, totalExponent, log2]
  omega

namespace IsNormal

variable {significand : Nat} {exponent : Int}

/-- Normal numbers need no rounding, however they are scaled. -/
theorem round_eq (normal : IsNormal significand exponent) (sign : Sign) {m : Nat} {e : Int}
    (same : (m : ℚ) * 2 ^ e = significand * 2 ^ exponent) :
    UnpackedFloat.round .binary64 sign m e = .finite sign significand exponent normal.pos := by
  rcases le_total exponent e with above | below
  · -- the significand has too few bits, and is shifted up
    obtain ⟨shift, rfl⟩ := Int.exists_add_of_le above
    obtain rfl := mul_two_zpow_inj same
    have positive : 0 < m := Nat.pos_of_mul_pos_right normal.pos
    have target := normal.targetExponent_scaled 0
    rw [Nat.pow_zero, Nat.mul_one, Int.natCast_zero, Int.sub_zero,
      totalExponent_scaled positive] at target
    have distance : (exponent + shift - exponent).toNat = shift := by omega
    have rounded := normal.roundWithAccuracy_scaled sign 0
    rw [Nat.pow_zero, Nat.mul_one, Int.natCast_zero, Int.sub_zero] at rounded
    rw [UnpackedFloat.round, target, decreaseExponent, distance, Nat.shiftLeft_eq,
      Int.add_sub_cancel]
    exact rounded
  · -- it has too many, and those to be dropped are zeros
    obtain ⟨shift, rfl⟩ := Int.exists_add_of_le below
    obtain rfl := mul_two_zpow_inj same.symm
    have target := normal.targetExponent_scaled shift
    have distance : (e - (e + shift)).toNat = 0 := by omega
    have rounded := normal.roundWithAccuracy_scaled sign shift
    rw [Int.add_sub_cancel] at target rounded
    rw [UnpackedFloat.round, target, decreaseExponent, distance, Nat.shiftLeft_zero,
      Int.natCast_zero, Int.sub_zero]
    exact rounded

theorem normalize_eq (normal : IsNormal significand exponent) {sign : Sign} (zeroSign : Sign)
    {m e : Int} (same : (m : ℚ) * 2 ^ e = sign.apply significand * 2 ^ exponent) :
    UnpackedFloat.normalize .binary64 m e zeroSign =
      .finite sign significand exponent normal.pos := by
  have scale : (0 : ℚ) < 2 ^ e := zpow_pos two_pos e
  have value : (0 : ℚ) < significand * 2 ^ exponent :=
    mul_pos (Nat.cast_pos.mpr normal.pos) (zpow_pos two_pos exponent)
  rw [UnpackedFloat.normalize]
  cases sign with
  | positive =>
      rw [Sign.apply, Int.cast_natCast] at same
      have positive : 0 < m := by
        rw [← same] at value
        exact_mod_cast (pos_iff_pos_of_mul_pos value).mpr scale
      rw [Int.compare_eq_gt.mpr positive]
      apply normal.round_eq
      rw [← same, ← Int.cast_natCast, Int.toNat_of_nonneg (Int.le_of_lt positive)]
  | negative =>
      rw [Sign.apply, Int.cast_neg, Int.cast_natCast, neg_mul, ← neg_eq_iff_eq_neg,
        ← neg_mul] at same
      have negative : m < 0 := by
        rw [← same] at value
        have opposite : (0 : ℚ) < -m := (pos_iff_pos_of_mul_pos value).mpr scale
        exact_mod_cast neg_pos.mp opposite
      rw [Int.compare_eq_lt.mpr negative]
      apply normal.round_eq
      rw [← same, ← Int.cast_natCast, Int.toNat_of_nonneg (by omega), Int.cast_neg]

theorem exactValue?_pack (normal : IsNormal significand exponent) (sign : Sign) :
    exactValue? (.ofModel (Float.Model.pack (.finite sign significand exponent normal.pos))) =
      some ((sign.apply significand : ℚ) * 2 ^ exponent) := by
  change rational? (Float.Model.pack (.finite sign significand exponent normal.pos)).unpack = _
  rw [normal.unpack_pack]
  rfl

end IsNormal

/-- The significand and the exponent of a double are normal or those of a small number. -/
theorem isNormal_or_small_of_unpack {x : Float} {sign : Sign} {significand : Nat} {exponent : Int}
    {positive : 0 < significand}
    (unpacked : x.toModel.unpack = .finite sign significand exponent positive) :
    IsNormal significand exponent ∨ significand < fractionCount ∧ exponent = -1074 := by
  have value := valueOf_eq_ofUnpacked x
  rw [unpacked, Value.ofUnpacked, valueOf, Value.ofBits] at value
  have fraction : x.toBits.toNat % fractionCount < fractionCount := Nat.mod_lt _ (by decide)
  split at value
  · split at value <;> cases value
  · split at value
    · obtain ⟨-, rfl, rfl⟩ := Value.finite.inj value
      exact .inr ⟨fraction, rfl⟩
    · obtain ⟨-, rfl, rfl⟩ := Value.finite.inj value
      left
      constructor <;> omega

theorem isNormal_of_isNormalRational {x : Float} {sign : Sign} {significand : Nat} {exponent : Int}
    {positive : 0 < significand}
    (unpacked : x.toModel.unpack = .finite sign significand exponent positive)
    (normal : IsNormalRational (sign.apply significand * 2 ^ exponent)) :
    IsNormal significand exponent := by
  rcases isNormal_or_small_of_unpack unpacked with found | ⟨small, rfl⟩
  · exact found
  · -- a number with fewer bits is smaller than any normal one
    obtain ⟨other, m, e, isNormal, same⟩ := normal
    have magnitudes : (significand : ℚ) * 2 ^ (-1074 : Int) = m * 2 ^ e := by
      rw [← abs_apply_mul sign, same, abs_apply_mul]
    have less : (significand : ℚ) < m := by exact_mod_cast Nat.lt_of_lt_of_le small isNormal.leading
    have scales : (2 : ℚ) ^ (-1074 : Int) ≤ 2 ^ e := zpow_le_zpow_right₀ one_le_two isNormal.least
    have apart : (significand : ℚ) * 2 ^ (-1074 : Int) < m * 2 ^ e :=
      mul_lt_mul less scales (zpow_pos two_pos _) (Nat.cast_nonneg m)
    exact absurd magnitudes (ne_of_lt apart)

/-! ### Differences -/

theorem apply_shiftLeft (sign : Sign) (significand : Nat) {exponent target : Int}
    (lower : target ≤ exponent) :
    (sign.apply (significand <<< (exponent - target).toNat : Nat) : ℚ) * 2 ^ target =
      sign.apply significand * 2 ^ exponent := by
  obtain ⟨shift, rfl⟩ := Int.exists_add_of_le lower
  have distance : (target + shift - target).toNat = shift := by omega
  rw [distance, Nat.shiftLeft_eq, zpow_add₀ two_ne_zero, zpow_natCast]
  cases sign with
  | positive =>
      simp only [Sign.apply]
      push_cast
      ring
  | negative =>
      simp only [Sign.apply]
      push_cast
      ring

theorem apply_neg (sign : Sign) (significand : Nat) :
    ((-sign).apply significand : ℚ) = -(sign.apply significand : ℚ) := by
  cases sign with
  | positive => exact Int.cast_neg (significand : Int)
  | negative =>
      change ((significand : Int) : ℚ) = -((-(significand : Int) : Int) : ℚ)
      rw [Int.cast_neg, neg_neg]

theorem IsNormalRational.neg {q : ℚ} (normal : IsNormalRational q) : IsNormalRational (-q) := by
  obtain ⟨sign, significand, exponent, isNormal, rfl⟩ := normal
  exact ⟨-sign, significand, exponent, isNormal, by rw [apply_neg, neg_mul]⟩

theorem apply_mul_ne_zero (sign : Sign) {significand : Nat} (positive : 0 < significand)
    (exponent : Int) : (sign.apply significand : ℚ) * 2 ^ exponent ≠ 0 := by
  rw [← abs_pos, abs_apply_mul]
  exact mul_pos (Nat.cast_pos.mpr positive) (zpow_pos two_pos exponent)

/-- A normal number does not change when it is rounded and packed. -/
theorem rational?_normalize {m e : Int} {q : ℚ} (zeroSign : Sign) (value : (m : ℚ) * 2 ^ e = q)
    (fits : q = 0 ∨ IsNormalRational q) :
    rational? (Float.Model.pack (UnpackedFloat.normalize .binary64 m e zeroSign)).unpack =
      some q := by
  rcases fits with rfl | ⟨sign, significand, exponent, normal, rfl⟩
  · obtain rfl : m = 0 := by
      exact_mod_cast (mul_eq_zero.mp value).resolve_right (zpow_ne_zero e two_ne_zero)
    have zero : UnpackedFloat.normalize .binary64 0 e zeroSign = .zero zeroSign := by
      simp [UnpackedFloat.normalize]
    rw [zero]
    cases zeroSign <;> rfl
  · rw [normal.normalize_eq zeroSign value]
    exact normal.exactValue?_pack sign

/-- A difference that is a normal number is exact. -/
theorem exactValue?_sub {x y : Float} {p q : ℚ} (left : exactValue? x = some p)
    (right : exactValue? y = some q) (fits : p - q = 0 ∨ IsNormalRational (p - q)) :
    exactValue? (x - y) = some (p - q) := by
  change rational? (Float.Model.pack (UnpackedFloat.sub .binary64 x.toModel.unpack
    y.toModel.unpack)).unpack = _
  rcases exists_of_exactValue? left with
    ⟨sign, unpacked, rfl⟩ | ⟨sign, significand, exponent, positive, unpacked, rfl⟩
  · rcases exists_of_exactValue? right with
      ⟨other, otherUnpacked, rfl⟩ | ⟨other, m, e, otherPositive, otherUnpacked, rfl⟩
    · rw [unpacked, otherUnpacked, sub_zero]
      cases sign <;> cases other <;> rfl
    · rw [zero_sub] at fits ⊢
      have nonzero := neg_ne_zero.mpr (apply_mul_ne_zero other otherPositive e)
      have normal := (fits.resolve_left nonzero).neg
      rw [neg_neg] at normal
      have isNormal := isNormal_of_isNormalRational otherUnpacked normal
      have packed := isNormal.exactValue?_pack (-other)
      rw [unpacked, otherUnpacked]
      rw [apply_neg, neg_mul] at packed
      exact packed
  · rcases exists_of_exactValue? right with
      ⟨other, otherUnpacked, rfl⟩ | ⟨other, m, e, otherPositive, otherUnpacked, rfl⟩
    · rw [otherUnpacked, sub_zero, ← left, unpacked]
      change rational? (Float.Model.pack (.finite sign significand exponent positive)).unpack = _
      rw [← unpacked, pack_unpack]
      rfl
    · rw [unpacked, otherUnpacked]
      apply rational?_normalize _ _ fits
      rw [Int.cast_sub, sub_mul, apply_shiftLeft sign significand (Int.min_le_left exponent e),
        apply_shiftLeft other m (Int.min_le_right exponent e)]

/-- There is one double for each normal number. -/
theorem eq_of_exactValue? {x y : Float} {q : ℚ} (left : exactValue? x = some q)
    (right : exactValue? y = some q) (normal : IsNormalRational q) : x = y := by
  obtain ⟨sign, significand, exponent, isNormal, same⟩ := normal
  have unpack_eq {z : Float} (exact : exactValue? z = some q) :
      z.toModel.unpack = .finite sign significand exponent isNormal.pos := by
    rcases exists_of_exactValue? exact with ⟨_, -, zero⟩ | ⟨other, m, e, positive, unpacked, value⟩
    · exact absurd (same.symm.trans zero) (apply_mul_ne_zero sign isNormal.pos exponent)
    · have otherNormal := isNormal_of_isNormalRational unpacked
        ⟨sign, significand, exponent, isNormal, value.symm.trans same⟩
      rw [unpacked, ← otherNormal.normalize_eq .positive rfl]
      exact isNormal.normalize_eq .positive (value.symm.trans same)
  rw [← unpack_inj, unpack_eq left, unpack_eq right]

/-! ### Whole numbers and their halves -/

section

variable {n : Nat}

theorem shifted_mul_zpow (n shift : Nat) :
    ((n * 2 ^ headroom n : Nat) : ℚ) * 2 ^ (-(headroom n : Int) - shift) = n / 2 ^ shift := by
  rw [Nat.cast_mul, Nat.cast_pow, Nat.cast_ofNat, zpow_sub₀ two_ne_zero, zpow_neg, zpow_natCast,
    zpow_natCast]
  field_simp

theorem isNormal_lowered (positive : 0 < n) (bounded : n < 2 ^ 53) {shift : Nat}
    (few : shift ≤ 1022) : IsNormal (n * 2 ^ headroom n) (-(headroom n : Int) - shift) := by
  have normal := isNormal_shifted positive bounded
  have room : headroom n ≤ 52 := Nat.sub_le _ _
  exact ⟨normal.leading, normal.bounded, by omega, by omega⟩

theorem isNormalRational_div (positive : 0 < n) (bounded : n < 2 ^ 53) {shift : Nat}
    (few : shift ≤ 1022) : IsNormalRational (n / 2 ^ shift) :=
  ⟨.positive, _, _, isNormal_lowered positive bounded few, (shifted_mul_zpow n shift).symm⟩

theorem exactValue?_ofNat (bounded : n < 2 ^ 53) : exactValue? (Float.ofNat n) = some (n : ℚ) := by
  rcases Nat.eq_zero_or_pos n with rfl | positive
  · rfl
  have value := shifted_mul_zpow n 0
  rw [Nat.cast_zero, sub_zero, pow_zero, div_one] at value
  rw [exactValue?, unpack_ofNat positive bounded]
  exact congrArg some value

theorem fits_natCast (bounded : n < 2 ^ 53) : (n : ℚ) = 0 ∨ IsNormalRational n := by
  rcases Nat.eq_zero_or_pos n with rfl | positive
  · exact .inl Nat.cast_zero
  · have normal := isNormalRational_div positive bounded (Nat.zero_le 1022)
    rw [pow_zero, div_one] at normal
    exact .inr normal

theorem fits_half {n : Int} (bounded : n.natAbs < 2 ^ 53) :
    (n / 2 : ℚ) = 0 ∨ IsNormalRational (n / 2) := by
  by_cases zero : n = 0
  · left
    rw [zero, Int.cast_zero, zero_div]
  · right
    have normal :=
      isNormalRational_div (Int.natAbs_pos.mpr zero) bounded (Nat.one_le_ofNat (n := 1022))
    rw [pow_one] at normal
    rcases Int.natAbs_eq n with same | same
    · rw [same, Int.cast_natCast]
      exact normal
    · rw [same, Int.cast_neg, Int.cast_natCast, neg_div]
      exact normal.neg

/-- Differences of halves are exact as long as they are below `2 ^ 52`. -/
theorem exactValue?_sub_halves {x y : Float} {a b : Int} (left : exactValue? x = some (a / 2 : ℚ))
    (right : exactValue? y = some (b / 2 : ℚ)) (bounded : (a - b).natAbs < 2 ^ 53) :
    exactValue? (x - y) = some ((a - b : Int) / 2 : ℚ) := by
  have difference : (a / 2 : ℚ) - b / 2 = (a - b : Int) / 2 := by
    push_cast
    ring
  rw [← difference]
  apply exactValue?_sub left right
  rw [difference]
  exact fits_half bounded

theorem divCore_two {significand : Nat} {exponent : Int} (normal : IsNormal significand exponent)
    (high : -1072 ≤ exponent) :
    divCore .binary64 significand exponent fractionCount (-51) =
      (significand * 2, exponent - 2, .exact) := by
  have log2 := normal.log2_scaled 0
  rw [Nat.pow_zero, Nat.mul_one] at log2
  have total : totalExponent fractionCount (-51) = 2 := by decide
  have target : min (exponent - -51) (Format.binary64.targetExponent
      (totalExponent significand exponent - totalExponent fractionCount (-51))) = exponent - 2 := by
    rw [total, totalExponent, log2]
    simp only [Format.targetExponent, Format.mantissaBits, Format.minExponent]
    omega
  have distance : (exponent - -51 - (exponent - 2)).toNat = 53 := by omega
  have shifted : significand <<< 53 = significand * 2 * fractionCount := by
    rw [Nat.shiftLeft_eq, Nat.mul_assoc]
    rfl
  simp only [divCore, target, distance, shifted]
  rw [Nat.mul_div_cancel _ (by decide), Nat.mul_mod_left]
  rfl

theorem exactValue?_div_two {x : Float} (exact : exactValue? x = some (n : ℚ))
    (bounded : n < 2 ^ 53) :
    exactValue? (x / Float.ofNat 2) = some (n / 2 : ℚ) := by
  have two :
      (Float.ofNat 2).toModel.unpack = .finite .positive fractionCount (-51) (by decide) := rfl
  change rational? (Float.Model.pack (UnpackedFloat.div .binary64 x.toModel.unpack
    (Float.ofNat 2).toModel.unpack)).unpack = _
  rcases Nat.eq_zero_or_pos n with rfl | positive
  · rw [Nat.cast_zero] at exact ⊢
    rcases exists_of_exactValue? exact with ⟨sign, unpacked, -⟩ | ⟨sign, m, e, nonzero, -, value⟩
    · rw [unpacked, two, zero_div]
      cases sign <;> rfl
    · exact absurd value.symm (apply_mul_ne_zero sign nonzero e)
  · have normal := isNormal_shifted positive bounded
    have isRational := (fits_natCast bounded).resolve_left (Nat.cast_ne_zero.mpr (by omega))
    obtain rfl := eq_of_exactValue? exact (exactValue?_ofNat bounded) isRational
    have room : headroom n ≤ 52 := Nat.sub_le _ _
    have lower := isNormal_lowered positive bounded (Nat.one_le_ofNat (n := 1022))
    have rounded := lower.roundWithAccuracy_scaled .positive 1
    have exponent : -(headroom n : Int) - (1 : Nat) - (1 : Nat) = -(headroom n : Int) - 2 := by
      omega
    rw [pow_one, exponent] at rounded
    have signs : Sign.positive / Sign.positive = .positive := rfl
    rw [unpack_ofNat positive bounded, two, UnpackedFloat.div, divCore_two normal (by omega), signs]
    dsimp only
    rw [rounded]
    refine (lower.exactValue?_pack .positive).trans ?_
    have value := shifted_mul_zpow n 1
    rw [pow_one] at value
    exact congrArg some value

end

end Unfolding.Number
