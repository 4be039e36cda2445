import Unfolding.Number.Numeral
import Unfolding.Proofs.Number.Rational

/-!
Rounding to the nearest whole number, and doubles to hundredths.
-/

namespace Unfolding.Number

/-- The whole number nearest to a rational one; halfway between two, the even one. -/
structure RoundsTo (q : ℚ) (n : Int) : Prop where
  near : |q - n| ≤ 1 / 2
  even : |q - n| = 1 / 2 → Even n

namespace RoundsTo

variable {q : ℚ} {m n : Int}

theorem neg (rounds : RoundsTo q n) : RoundsTo (-q) (-n) := by
  have distance : |-q - ((-n : Int) : ℚ)| = |q - n| := by
    rw [Int.cast_neg, neg_sub_neg, abs_sub_comm]
  constructor
  · rw [distance]
    exact rounds.near
  · rw [distance, even_neg]
    exact rounds.even

theorem of_lt (near : |q - n| < 1 / 2) : RoundsTo q n :=
  ⟨le_of_lt near, fun half => absurd half (ne_of_lt near)⟩

theorem le (rounds : RoundsTo q m) (other : RoundsTo q n) : m ≤ n := by
  by_contra above
  have apart : (n : ℚ) + 1 ≤ m := by exact_mod_cast Int.lt_of_not_ge above
  have left := abs_le.mp rounds.near
  have right := abs_le.mp other.near
  -- the number lies halfway between two neighbours, which cannot both be even
  have even : Even m := rounds.even (by rw [abs_eq (by norm_num)]; right; linarith)
  have otherEven : Even n := other.even (by rw [abs_eq (by norm_num)]; left; linarith)
  have neighbours : m = n + 1 := by
    have equal : (m : ℚ) = n + 1 := by linarith
    exact_mod_cast equal
  rw [neighbours, Int.even_add_one] at even
  exact even otherEven

theorem unique (rounds : RoundsTo q m) (other : RoundsTo q n) : m = n :=
  Int.le_antisymm (rounds.le other) (other.le rounds)

theorem neg_of_neg (rounds : RoundsTo q n) (below : n < 0) : q < 0 := by
  have distance := abs_le.mp rounds.near
  have whole : (n : ℚ) ≤ -1 := by exact_mod_cast Int.le_sub_one_of_lt below
  linarith

theorem pos_of_pos (rounds : RoundsTo q n) (above : 0 < n) : 0 < q := by
  have opposite := rounds.neg.neg_of_neg (Int.neg_neg_of_pos above)
  linarith

/-- A negative number becomes negative or zero, and no other becomes negative. -/
theorem lt_zero_iff (rounds : RoundsTo q n) : n < 0 ↔ q < 0 ∧ 0 < n.natAbs := by
  constructor
  · intro below
    exact ⟨rounds.neg_of_neg below, by omega⟩
  · rintro ⟨negative, nonzero⟩
    by_contra notBelow
    exact lt_asymm negative (rounds.pos_of_pos (by omega))

/-- Rounding does not turn the sign. -/
theorem abs (rounds : RoundsTo q n) : RoundsTo |q| |n| := by
  rcases lt_trichotomy n 0 with below | rfl | above
  · rw [abs_of_neg below, abs_of_neg (rounds.neg_of_neg below)]
    exact rounds.neg
  · rcases abs_choice q with same | opposite
    · rw [same]
      exact rounds
    · rw [opposite]
      exact rounds.neg
  · rw [abs_of_pos above, abs_of_pos (rounds.pos_of_pos above)]
    exact rounds

end RoundsTo

/-- Rounding goes by how the rest compares with one half. -/
theorem roundsTo_pick (lower : Nat) {rest denominator : Nat} (less : rest < denominator) :
    RoundsTo (lower + rest / denominator)
      (Tie.toEven.pick lower (compare (2 * rest) denominator) : Nat) := by
  have scale : (0 : ℚ) < denominator := Nat.cast_pos.mpr (Nat.zero_lt_of_lt less)
  have fraction : (0 : ℚ) ≤ rest / denominator ∧ (rest : ℚ) / denominator < 1 := by
    constructor
    · positivity
    · rw [div_lt_one scale]
      exact_mod_cast less
  cases order : compare (2 * rest) denominator with
  | lt =>
      have below : (rest : ℚ) / denominator < 1 / 2 := by
        rw [div_lt_div_iff₀ scale two_pos]
        have half : 2 * rest < denominator := Nat.compare_eq_lt.mp order
        exact_mod_cast (by omega : rest * 2 < 1 * denominator)
      apply RoundsTo.of_lt
      simp only [Tie.pick, Int.cast_natCast]
      rw [add_sub_cancel_left, abs_of_nonneg fraction.1]
      exact below
  | gt =>
      have above : 1 / 2 < (rest : ℚ) / denominator := by
        rw [div_lt_div_iff₀ two_pos scale]
        have half : denominator < 2 * rest := Nat.compare_eq_gt.mp order
        exact_mod_cast (by omega : 1 * denominator < rest * 2)
      apply RoundsTo.of_lt
      simp only [Tie.pick]
      rw [Int.cast_natCast, Nat.cast_add, Nat.cast_one, add_sub_add_left_eq_sub, abs_lt]
      constructor <;> linarith
  | eq =>
      have half : (rest : ℚ) / denominator = 1 / 2 := by
        rw [div_eq_div_iff (ne_of_gt scale) two_ne_zero]
        have half : 2 * rest = denominator := Nat.compare_eq_eq.mp order
        exact_mod_cast (by omega : rest * 2 = 1 * denominator)
      simp only [Tie.pick, half]
      split
      · rename_i even
        refine ⟨?_, fun _ => (Int.even_coe_nat lower).mpr (Nat.even_iff.mpr even)⟩
        rw [Int.cast_natCast, add_sub_cancel_left]
        norm_num
      · rename_i odd
        refine ⟨?_, fun _ => ?_⟩
        · rw [Int.cast_natCast, Nat.cast_add, Nat.cast_one, add_sub_add_left_eq_sub]
          norm_num
        · rw [Int.even_coe_nat, Nat.even_add_one, Nat.even_iff]
          exact odd

theorem roundsTo_roundQuotient (numerator : Nat) {denominator : Nat} (positive : 0 < denominator) :
    RoundsTo (numerator / denominator) (roundQuotient .toEven numerator denominator) := by
  have divided : (numerator : ℚ) / denominator =
      (numerator / denominator : Nat) + (numerator % denominator : Nat) / (denominator : ℚ) := by
    have scale : (denominator : ℚ) ≠ 0 := Nat.cast_ne_zero.mpr (Nat.ne_of_gt positive)
    have whole : (numerator : ℚ) =
        denominator * (numerator / denominator : Nat) + (numerator % denominator : Nat) := by
      exact_mod_cast (Nat.div_add_mod numerator denominator).symm
    rw [div_eq_iff scale, add_mul, div_mul_cancel₀ _ scale, mul_comm _ (denominator : ℚ)]
    exact whole
  rw [divided]
  exact roundsTo_pick _ (Nat.mod_lt numerator positive)

theorem scaled_div (significand : Nat) (exponent : Int) :
    (scaledNumerator significand exponent : ℚ) / scaledDenominator exponent =
      significand * 2 ^ exponent := by
  rw [scaledNumerator, scaledDenominator, Nat.one_shiftLeft, Nat.shiftLeft_eq]
  push_cast
  obtain ⟨shift, rfl | rfl⟩ := Int.eq_nat_or_neg exponent
  · simp
  · simp [div_eq_mul_inv]

theorem roundsTo_hundredths (significand : Nat) (exponent : Int) :
    RoundsTo (100 * (significand * 2 ^ exponent)) (hundredths significand exponent) := by
  have positive : 0 < scaledDenominator exponent := by
    rw [scaledDenominator, Nat.one_shiftLeft]
    exact Nat.two_pow_pos _
  have rounded := roundsTo_roundQuotient (100 * scaledNumerator significand exponent) positive
  rw [Nat.cast_mul, Nat.cast_ofNat, mul_div_assoc, scaled_div] at rounded
  exact rounded

/-- A finite double has a sign and the magnitude of its significand and exponent. -/
theorem valueOf_of_exactValue? {x : Float} {q : ℚ} (exact : exactValue? x = some q) :
    ∃ negative significand exponent, valueOf x = .finite negative significand exponent ∧
      q = if negative then -(significand * 2 ^ exponent : ℚ) else significand * 2 ^ exponent := by
  rw [valueOf_eq_ofUnpacked]
  rcases exists_of_exactValue? exact with
    ⟨sign, unpacked, rfl⟩ | ⟨sign, significand, exponent, positive, unpacked, rfl⟩
  · rw [unpacked]
    refine ⟨_, _, _, rfl, ?_⟩
    simp
  · rw [unpacked]
    refine ⟨_, _, _, rfl, ?_⟩
    cases sign <;> simp [Float.Model.UnpackedFloat.Sign.apply]

end Unfolding.Number
