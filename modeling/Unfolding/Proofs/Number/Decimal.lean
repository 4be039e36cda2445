import Mathlib

/-!
Decimal numerals.

A numeral has no zeros in front and none behind the places after its point, and zero has
no sign.  So there is at most one numeral of a number, and a numeral can be read back
from its text.
-/

namespace Unfolding.Number

/-! ### Digits -/

/-- The natural number that digits stand for. -/
def digitsNumber (digits : List Char) : Nat := Nat.ofDigitChars 10 digits 0

/-- The number of a single digit. -/
def digitNumber (c : Char) : Nat := c.toNat - '0'.toNat

theorem digitsNumber_concat (digits : List Char) (c : Char) :
    digitsNumber (digits ++ [c]) = 10 * digitsNumber digits + digitNumber c := by
  rw [digitsNumber, Nat.ofDigitChars_append, Nat.ofDigitChars_cons, Nat.ofDigitChars_nil]
  rfl

theorem digitsNumber_append (digits more : List Char) :
    digitsNumber (digits ++ more) = 10 ^ more.length * digitsNumber digits + digitsNumber more := by
  rw [digitsNumber, Nat.ofDigitChars_append, Nat.ofDigitChars_eq_ofDigitChars_zero]
  rfl

theorem digitNumber_lt {c : Char} (digit : c.isDigit = true) : digitNumber c < 10 := by
  have bounds := Char.isDigit_iff_toNat.mp digit
  simp only [digitNumber, Char.reduceToNat] at *
  omega

theorem digitNumber_injective {c d : Char} (digit : c.isDigit = true) (other : d.isDigit = true)
    (same : digitNumber c = digitNumber d) : c = d := by
  have bounds := Char.isDigit_iff_toNat.mp digit
  have otherBounds := Char.isDigit_iff_toNat.mp other
  apply Char.toNat_inj.mp
  simp only [digitNumber, Char.reduceToNat] at *
  omega

section

variable {digits other : List Char}

theorem digitsNumber_lt (isDigit : ∀ c ∈ digits, c.isDigit = true) :
    digitsNumber digits < 10 ^ digits.length := by
  induction digits using List.reverseRecOn with
  | nil => exact Nat.one_pos
  | append_singleton front c inductionHypothesis =>
      rw [List.forall_mem_append, List.forall_mem_singleton] at isDigit
      have small := inductionHypothesis isDigit.1
      have last := digitNumber_lt isDigit.2
      rw [digitsNumber_concat, List.length_append, List.length_singleton, Nat.pow_succ]
      omega

/-- As many digits stand for the same number only if they are the same. -/
theorem digitsNumber_injective (isDigit : ∀ c ∈ digits, c.isDigit = true)
    (otherIsDigit : ∀ c ∈ other, c.isDigit = true) (length : digits.length = other.length)
    (same : digitsNumber digits = digitsNumber other) : digits = other := by
  induction digits using List.reverseRecOn generalizing other with
  | nil => exact (List.length_eq_zero_iff.mp length.symm).symm
  | append_singleton front c inductionHypothesis =>
      rcases List.eq_nil_or_concat' other with rfl | ⟨otherFront, d, rfl⟩
      · simp at length
      rw [List.forall_mem_append, List.forall_mem_singleton] at isDigit otherIsDigit
      rw [List.length_append, List.length_append, List.length_singleton, List.length_singleton,
        Nat.add_right_cancel_iff] at length
      have last := digitNumber_lt isDigit.2
      have otherLast := digitNumber_lt otherIsDigit.2
      rw [digitsNumber_concat, digitsNumber_concat] at same
      rw [inductionHypothesis isDigit.1 otherIsDigit.1 length (by omega),
        digitNumber_injective isDigit.2 otherIsDigit.2 (by omega)]

theorem digitNumber_pos {c : Char} (digit : c.isDigit = true) (nonzero : c ≠ '0') :
    0 < digitNumber c := by
  apply Nat.pos_of_ne_zero
  intro zero
  exact nonzero (digitNumber_injective digit rfl zero)

/-- Without a zero in front, the number of digits is told by the number. -/
theorem pow_le_digitsNumber (isDigit : ∀ c ∈ digits, c.isDigit = true)
    (nonempty : digits ≠ []) (leading : digits.head? ≠ some '0') :
    10 ^ (digits.length - 1) ≤ digitsNumber digits := by
  induction digits using List.reverseRecOn with
  | nil => exact absurd rfl nonempty
  | append_singleton front c inductionHypothesis =>
      rw [List.forall_mem_append, List.forall_mem_singleton] at isDigit
      rw [digitsNumber_concat, List.length_append, List.length_singleton, Nat.add_sub_cancel]
      cases front with
      | nil =>
          have positive := digitNumber_pos isDigit.2 (by simpa using leading)
          simp only [List.length_nil, Nat.pow_zero]
          omega
      | cons first rest =>
          have large := inductionHypothesis isDigit.1 (List.cons_ne_nil first rest) leading
          rw [List.length_cons, Nat.add_sub_cancel] at large
          rw [List.length_cons, Nat.pow_succ]
          omega

theorem digitsNumber_mod_ten (isDigit : ∀ c ∈ digits, c.isDigit = true) (nonempty : digits ≠ [])
    (trailing : digits.getLast? ≠ some '0') : digitsNumber digits % 10 ≠ 0 := by
  rcases List.eq_nil_or_concat' digits with rfl | ⟨front, c, rfl⟩
  · exact absurd rfl nonempty
  · rw [List.forall_mem_append, List.forall_mem_singleton] at isDigit
    have small := digitNumber_lt isDigit.2
    have positive := digitNumber_pos isDigit.2 (by simpa using trailing)
    rw [digitsNumber_concat]
    omega

end

/-! ### Numerals -/

/-- The decimal numeral of a rational number. -/
@[ext]
structure DecimalNumeral where
  negative : Bool
  /-- The digits in front of the point. -/
  whole : List Char
  /-- The digits behind the point. -/
  places : List Char
  isDigit_whole : ∀ c ∈ whole, c.isDigit = true
  isDigit_places : ∀ c ∈ places, c.isDigit = true
  whole_ne_nil : whole ≠ []
  /-- No zero stands in front of other digits. -/
  leading : whole.head? = some '0' → whole = ['0']
  /-- No place at the end is zero. -/
  trailing : places.getLast? ≠ some '0'
  /-- There is no minus zero. -/
  signed : negative = true → ¬ (whole = ['0'] ∧ places = [])

namespace DecimalNumeral

/-- The point and the places, if there are any. -/
def pointed (places : List Char) : List Char := if places = [] then [] else '.' :: places

variable (numeral other : DecimalNumeral)

/-- The text of a numeral, with a point only if there are places. -/
def text : List Char :=
  (if numeral.negative then ['-'] else []) ++ numeral.whole ++ pointed numeral.places

/-- The number without its sign. -/
def magnitude : ℚ :=
  digitsNumber numeral.whole + digitsNumber numeral.places / 10 ^ numeral.places.length

def value : ℚ := if numeral.negative then -numeral.magnitude else numeral.magnitude

variable {numeral other}

theorem whole_eq (same : digitsNumber numeral.whole = digitsNumber other.whole) :
    numeral.whole = other.whole := by
  -- without leading zeros the numbers have the same length; zero has one digit
  have length_le {first second : DecimalNumeral}
      (same : digitsNumber first.whole = digitsNumber second.whole) :
      first.whole.length ≤ second.whole.length := by
    have nonempty := List.length_pos_iff.mpr second.whole_ne_nil
    by_cases zero : first.whole.head? = some '0'
    · rw [first.leading zero]
      exact nonempty
    · have large := pow_le_digitsNumber first.isDigit_whole first.whole_ne_nil zero
      have small := digitsNumber_lt second.isDigit_whole
      have lengths :=
        (Nat.pow_lt_pow_iff_right (by decide)).mp (Nat.lt_of_le_of_lt large (same ▸ small))
      omega
  exact digitsNumber_injective numeral.isDigit_whole other.isDigit_whole
    (Nat.le_antisymm (length_le same) (length_le same.symm)) same

/-! The digits of a numeral as a whole number, and how many of them are places. -/

theorem magnitude_eq (numeral : DecimalNumeral) :
    numeral.magnitude =
      digitsNumber (numeral.whole ++ numeral.places) / 10 ^ numeral.places.length := by
  rw [magnitude, digitsNumber_append]
  push_cast
  field_simp

theorem scaled_mod_ten (nonempty : numeral.places ≠ []) :
    digitsNumber (numeral.whole ++ numeral.places) % 10 ≠ 0 := by
  apply digitsNumber_mod_ten
  · exact List.forall_mem_append.mpr ⟨numeral.isDigit_whole, numeral.isDigit_places⟩
  · exact List.append_ne_nil_of_right_ne_nil _ nonempty
  · rw [List.getLast?_append_of_ne_nil _ nonempty]
    exact numeral.trailing

theorem magnitude_pos (nonzero : ¬ (numeral.whole = ['0'] ∧ numeral.places = [])) :
    0 < numeral.magnitude := by
  have positive : 0 < digitsNumber (numeral.whole ++ numeral.places) := by
    by_cases places : numeral.places = []
    · have other : numeral.whole.head? ≠ some '0' :=
        fun zero => nonzero ⟨numeral.leading zero, places⟩
      rw [places, List.append_nil]
      exact Nat.lt_of_lt_of_le (Nat.pow_pos (by decide))
        (pow_le_digitsNumber numeral.isDigit_whole numeral.whole_ne_nil other)
    · have last := scaled_mod_ten places
      omega
  rw [magnitude_eq]
  exact div_pos (Nat.cast_pos.mpr positive) (by positivity)

theorem magnitude_nonneg (numeral : DecimalNumeral) : 0 ≤ numeral.magnitude := by
  rw [magnitude_eq]
  positivity

theorem abs_value (numeral : DecimalNumeral) : |numeral.value| = numeral.magnitude := by
  rw [value]
  split
  · rw [abs_neg, abs_of_nonneg numeral.magnitude_nonneg]
  · rw [abs_of_nonneg numeral.magnitude_nonneg]

/-- The sign is that of the number. -/
theorem negative_iff : numeral.negative = true ↔ numeral.value < 0 := by
  constructor
  · intro negative
    rw [value, if_pos negative]
    exact neg_lt_zero.mpr (magnitude_pos (numeral.signed negative))
  · intro below
    by_contra positive
    rw [value, if_neg positive] at below
    exact absurd below (not_lt_of_ge numeral.magnitude_nonneg)

/-- A numeral has no more places than its number needs. -/
theorem length_places_le (same : numeral.magnitude = other.magnitude) :
    numeral.places.length ≤ other.places.length := by
  by_contra fewer
  obtain ⟨extra, length⟩ := Nat.exists_eq_add_of_lt (Nat.lt_of_not_le fewer)
  have nonempty : numeral.places ≠ [] := by
    intro empty
    simp [empty] at fewer
  rw [magnitude_eq, magnitude_eq, length, div_eq_div_iff (by positivity) (by positivity)] at same
  have scaled : digitsNumber (numeral.whole ++ numeral.places) =
      digitsNumber (other.whole ++ other.places) * 10 ^ extra * 10 := by
    have scale : 0 < 10 ^ other.places.length := Nat.pow_pos (by decide)
    apply Nat.eq_of_mul_eq_mul_right scale
    have whole : digitsNumber (numeral.whole ++ numeral.places) * 10 ^ other.places.length =
        digitsNumber (other.whole ++ other.places) * 10 ^ (other.places.length + extra + 1) := by
      exact_mod_cast same
    rw [whole]
    ring
  exact scaled_mod_ten nonempty (by rw [scaled, Nat.mul_mod_left])

/-- A number has one numeral. -/
theorem value_injective (same : numeral.value = other.value) : numeral = other := by
  have signs : numeral.negative = other.negative := by
    rw [Bool.eq_iff_iff, negative_iff, negative_iff, same]
  have magnitudes : numeral.magnitude = other.magnitude := by
    rw [← abs_value, same, abs_value]
  have lengths := Nat.le_antisymm (length_places_le magnitudes) (length_places_le magnitudes.symm)
  rw [magnitude_eq, magnitude_eq, lengths, div_left_inj' (by positivity), Nat.cast_inj,
    digitsNumber_append, digitsNumber_append, lengths] at magnitudes
  have small := digitsNumber_lt numeral.isDigit_places
  have otherSmall := digitsNumber_lt other.isDigit_places
  rw [lengths] at small
  have scale : 0 < 10 ^ other.places.length := Nat.pow_pos (by decide)
  -- whole part and places are quotient and remainder of the same number
  obtain ⟨quotient, remainder⟩ := (Nat.div_mod_unique scale).mpr ⟨Nat.add_comm _ _, small⟩
  obtain ⟨otherQuotient, otherRemainder⟩ :=
    (Nat.div_mod_unique scale).mpr ⟨Nat.add_comm _ _, otherSmall⟩
  rw [magnitudes] at quotient remainder
  ext1
  · exact signs
  · exact whole_eq (quotient.symm.trans otherQuotient)
  · exact digitsNumber_injective numeral.isDigit_places other.isDigit_places lengths
      (remainder.symm.trans otherRemainder)

/-! ### Texts -/

theorem pointed_injective {places others : List Char} (same : pointed places = pointed others) :
    places = others := by
  unfold pointed at same
  split at same <;> split at same
  · simp_all
  · cases same
  · cases same
  · exact (List.cons.inj same).2

theorem takeWhile_whole (numeral : DecimalNumeral) :
    (numeral.whole ++ pointed numeral.places).takeWhile Char.isDigit = numeral.whole := by
  have stopped : (pointed numeral.places).takeWhile Char.isDigit = [] := by
    unfold pointed
    split <;> rfl
  rw [List.takeWhile_append_of_pos numeral.isDigit_whole, stopped, List.append_nil]

theorem head?_text (numeral : DecimalNumeral) :
    numeral.text.head? = some '-' ↔ numeral.negative = true := by
  cases sign : numeral.negative with
  | true => simp [text, sign]
  | false =>
      obtain ⟨first, rest, whole⟩ := List.exists_cons_of_ne_nil numeral.whole_ne_nil
      have digit : first.isDigit = true := numeral.isDigit_whole first (whole ▸ List.mem_cons_self)
      have notMinus : first ≠ '-' := by
        rintro rfl
        cases digit
      simp [text, sign, whole, notMinus]

theorem text_ne_minus_zero (numeral : DecimalNumeral) : numeral.text ≠ ['-', '0'] := by
  intro minusZero
  have negative : numeral.negative = true := by
    rw [← head?_text, minusZero]
    rfl
  have unsigned : numeral.whole ++ pointed numeral.places = ['0'] := by
    rw [text, if_pos negative] at minusZero
    exact (List.cons.inj minusZero).2
  have whole : numeral.whole = ['0'] := by
    rw [← takeWhile_whole, unsigned]
    rfl
  rw [whole] at unsigned
  exact numeral.signed negative ⟨whole, pointed_injective (List.append_cancel_left unsigned)⟩

theorem text_injective (same : numeral.text = other.text) : numeral = other := by
  have signs : numeral.negative = other.negative := by
    rw [Bool.eq_iff_iff, ← head?_text, ← head?_text, same]
  have unsigned :
      numeral.whole ++ pointed numeral.places = other.whole ++ pointed other.places := by
    rw [text, text, signs, List.append_assoc, List.append_assoc] at same
    exact List.append_cancel_left same
  have wholes : numeral.whole = other.whole := by
    rw [← takeWhile_whole, unsigned, takeWhile_whole]
  rw [wholes] at unsigned
  ext1
  · exact signs
  · exact wholes
  · exact pointed_injective (List.append_cancel_left unsigned)

end DecimalNumeral

end Unfolding.Number
