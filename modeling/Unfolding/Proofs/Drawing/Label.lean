import Unfolding.Drawing.Label
import Unfolding.Proofs.Number.Decimal
import Unfolding.Proofs.Number.Hundredths
import Unfolding.Proofs.Number.Numeral

/-!
The labels of calls.

A label holds the one numeral of its value rounded to hundredths.  It is made by writing
two places and removing zeros and the point from the end.
-/

namespace Unfolding

namespace Number

/-! ### Removing characters from the end -/

theorem dropTrailing_concat_self (c : Char) (text : List Char) :
    dropTrailing c (text ++ [c]) = dropTrailing c text := by
  simp [dropTrailing]

theorem dropTrailing_concat_of_ne {c last : Char} (other : last ≠ c) (text : List Char) :
    dropTrailing c (text ++ [last]) = text ++ [last] := by
  simp [dropTrailing, other]

theorem dropTrailing_append_of_not_mem {c : Char} {digits : List Char} (nonempty : digits ≠ [])
    (absent : c ∉ digits) (text : List Char) :
    dropTrailing c (text ++ digits) = text ++ digits := by
  obtain ⟨front, last, rfl⟩ := (List.eq_nil_or_concat' digits).resolve_left nonempty
  rw [← List.append_assoc]
  apply dropTrailing_concat_of_ne
  rintro rfl
  exact absent (List.mem_append_right front (List.mem_singleton.mpr rfl))

/-! ### Numerals of hundredths -/

theorem head?_toDigits {n : Nat} (zero : (Nat.toDigits 10 n).head? = some '0') : n = 0 := by
  induction n using Nat.strongRecOn with
  | ind n inductionHypothesis =>
      by_cases single : n < 10
      · simpa [Nat.toDigits_of_lt_base single] using zero
      · rw [Nat.toDigits_of_base_le (by decide) (Nat.le_of_not_lt single),
          List.head?_append_of_ne_nil _ Nat.toDigits_ne_nil] at zero
        have empty := inductionHypothesis (n / 10) (by omega) zero
        omega

/-- The places of a number of hundredths without the zeros at the end. -/
def placesOf (n : Nat) : List Char :=
  if n % 10 ≠ 0 then [Nat.digitChar (n / 10 % 10), Nat.digitChar (n % 10)]
  else if n / 10 % 10 ≠ 0 then [Nat.digitChar (n / 10 % 10)]
  else []

theorem isDigit_placesOf (n : Nat) : ∀ c ∈ placesOf n, c.isDigit = true := by
  have tenths : n / 10 % 10 < 10 := Nat.mod_lt _ (by decide)
  have last : n % 10 < 10 := Nat.mod_lt _ (by decide)
  unfold placesOf
  split
  · simp [Nat.isDigit_digitChar, tenths, last]
  · split
    · simp [Nat.isDigit_digitChar, tenths]
    · simp

theorem getLast?_placesOf (n : Nat) : (placesOf n).getLast? ≠ some '0' := by
  unfold placesOf
  split
  · rename_i last
    simpa using last
  · split
    · rename_i tenths
      simpa using tenths
    · simp

theorem placesOf_eq_nil {n : Nat} (empty : placesOf n = []) : n % 100 = 0 := by
  unfold placesOf at empty
  split at empty
  · cases empty
  · split at empty
    · cases empty
    · omega

theorem digitsNumber_placesOf (n : Nat) :
    digitsNumber (placesOf n) * 100 = n % 100 * 10 ^ (placesOf n).length := by
  have tenths := Nat.toNat_digitChar_sub_48_of_lt_ten (Nat.mod_lt (n / 10) (by decide : 0 < 10))
  have last := Nat.toNat_digitChar_sub_48_of_lt_ten (Nat.mod_lt n (by decide : 0 < 10))
  unfold placesOf
  split
  · simp only [digitsNumber, Nat.ofDigitChars_cons, Nat.ofDigitChars_nil, Char.reduceToNat, tenths,
      last, List.length_cons, List.length_nil]
    omega
  · split
    · simp only [digitsNumber, Nat.ofDigitChars_cons, Nat.ofDigitChars_nil, Char.reduceToNat,
        tenths, List.length_cons, List.length_nil]
      omega
    · simp only [digitsNumber, Nat.ofDigitChars_nil, List.length_nil]
      omega

/-- The numeral of a number of hundredths. -/
def hundredthsNumeral (negative : Bool) (n : Nat) : DecimalNumeral where
  negative := negative && n != 0
  whole := digitsOf (n / 100)
  places := placesOf n
  isDigit_whole _ := Nat.isDigit_of_mem_toDigits (by decide) (by decide)
  isDigit_places := isDigit_placesOf n
  whole_ne_nil := Nat.toDigits_ne_nil
  leading zero := by
    rw [digitsOf, head?_toDigits zero, Nat.toDigits_zero]
  trailing := getLast?_placesOf n
  signed := by
    rintro negative ⟨whole, places⟩
    have small : n / 100 = 0 := toDigits_injective (whole.trans (Nat.toDigits_zero 10).symm)
    have last := placesOf_eq_nil places
    have zero : n = 0 := by omega
    simp [zero] at negative

theorem magnitude_hundredthsNumeral (negative : Bool) (n : Nat) :
    (hundredthsNumeral negative n).magnitude = n / 100 := by
  have whole : digitsNumber (digitsOf (n / 100)) = n / 100 := Nat.ofDigitChars_ten_toDigits
  have places : (digitsNumber (placesOf n) : ℚ) / 10 ^ (placesOf n).length =
      (n % 100 : Nat) / 100 := by
    rw [div_eq_div_iff (by positivity) (by norm_num)]
    exact_mod_cast digitsNumber_placesOf n
  have parts : (n : ℚ) = 100 * (n / 100 : Nat) + (n % 100 : Nat) := by
    exact_mod_cast (Nat.div_add_mod n 100).symm
  rw [DecimalNumeral.magnitude, hundredthsNumeral, whole, places, parts]
  ring

theorem value_hundredthsNumeral (negative : Bool) (n : Nat) :
    (hundredthsNumeral negative n).value = ((if negative then -n else n : Int) : ℚ) / 100 := by
  rw [DecimalNumeral.value, magnitude_hundredthsNumeral]
  by_cases zero : n = 0
  · simp [hundredthsNumeral, zero]
  · cases negative <;> simp [hundredthsNumeral, zero, neg_div]

end Number

namespace Label

open Number

theorem digitChar_ne_point {digit : Nat} (small : digit < 10) : Nat.digitChar digit ≠ '.' := by
  intro point
  have isDigit : (Nat.digitChar digit).isDigit = true := by simp [Nat.isDigit_digitChar, small]
  rw [point] at isDigit
  cases isDigit

theorem trim_twoPlaces (negative : Bool) (n : Nat) :
    trim (twoPlaces negative n) =
      (if negative then ['-'] else []) ++ digitsOf (n / 100) ++
        DecimalNumeral.pointed (placesOf n) := by
  have tenths := digitChar_ne_point (Nat.mod_lt (n / 10) (by decide : 0 < 10))
  have last := digitChar_ne_point (Nat.mod_lt n (by decide : 0 < 10))
  have nonempty : digitsOf (n / 100) ≠ [] := Nat.toDigits_ne_nil
  have noPoint : '.' ∉ digitsOf (n / 100) := by
    intro point
    cases Nat.isDigit_of_mem_toDigits (by decide) (by decide) point
  have written : twoPlaces negative n =
      (if negative then ['-'] else []) ++ digitsOf (n / 100) ++ ['.'] ++
        [Nat.digitChar (n / 10 % 10)] ++ [Nat.digitChar (n % 10)] := by
    cases negative <;> simp [twoPlaces, writeHundredths]
  have zeroDigit : Nat.digitChar 0 = '0' := rfl
  rw [written, trim]
  generalize (if negative then ['-'] else []) = sign
  by_cases lastZero : n % 10 = 0
  · rw [lastZero, zeroDigit, dropTrailing_concat_self]
    by_cases tenthsZero : n / 10 % 10 = 0
    · -- the point is left at the end, and the digits in front of it stop the trimming
      rw [tenthsZero, zeroDigit, dropTrailing_concat_self,
        dropTrailing_concat_of_ne (by decide), dropTrailing_concat_self,
        dropTrailing_append_of_not_mem nonempty noPoint]
      simp [placesOf, DecimalNumeral.pointed, lastZero, tenthsZero]
    · rw [dropTrailing_concat_of_ne (by simpa using tenthsZero), dropTrailing_concat_of_ne tenths]
      simp [placesOf, DecimalNumeral.pointed, lastZero, tenthsZero]
  · rw [dropTrailing_concat_of_ne (by simpa using lastZero), dropTrailing_concat_of_ne last]
    simp [placesOf, DecimalNumeral.pointed, lastZero]

theorem numeral_eq {x : Float} {negative : Bool} {significand : Nat} {exponent : Int}
    (value : valueOf x = .finite negative significand exponent) :
    numeral x = (hundredthsNumeral negative (hundredths significand exponent)).text := by
  simp only [numeral, value, trim_twoPlaces]
  generalize hundredths significand exponent = n
  by_cases zero : n = 0
  · cases negative <;> simp [zero, DecimalNumeral.text, hundredthsNumeral, digitsOf, placesOf,
      DecimalNumeral.pointed]
  · have trimmed : (if negative then ['-'] else []) ++ digitsOf (n / 100) ++
        DecimalNumeral.pointed (placesOf n) = (hundredthsNumeral negative n).text := by
      simp [DecimalNumeral.text, hundredthsNumeral, zero]
    rw [trimmed, if_neg (DecimalNumeral.text_ne_minus_zero _)]

end Label

section

open Number

variable {x : Float} {v : ℚ}

/-- A label holds a numeral in hundredths, and it is that of the rounded value. -/
theorem exists_label_numeral (exact : exactValue? x = some v) :
    ∃ (numeral : DecimalNumeral) (n : Int),
      label x = String.ofList ('T' :: '(' :: numeral.text ++ [')']) ∧
        RoundsTo (100 * v) n ∧ numeral.value = n / 100 := by
  obtain ⟨negative, significand, exponent, value, rfl⟩ := valueOf_of_exactValue? exact
  refine ⟨hundredthsNumeral negative (hundredths significand exponent), _, ?_, ?_,
    value_hundredthsNumeral _ _⟩
  · rw [label, Label.numeral_eq value]
  · have rounds := roundsTo_hundredths significand exponent
    cases negative with
    | false => simpa using rounds
    | true => simpa using rounds.neg

theorem label_text_injective {text other : List Char}
    (same : String.ofList ('T' :: '(' :: text ++ [')']) =
      String.ofList ('T' :: '(' :: other ++ [')'])) : text = other := by
  have lists := String.ofList_injective same
  simpa using lists

/-- The numeral of a rounded value is told by its magnitude and its sign. -/
theorem eq_numeral_iff {numeral : DecimalNumeral} {n : Int} (rounds : RoundsTo (100 * v) n)
    (value : numeral.value = n / 100) (other : DecimalNumeral) :
    other = numeral ↔ other.magnitude = n.natAbs / 100 ∧
      (other.negative = true ↔ v < 0 ∧ 0 < n.natAbs) := by
  have magnitude : numeral.magnitude = n.natAbs / 100 := by
    rw [← DecimalNumeral.abs_value, value, abs_div, Nat.cast_natAbs, Int.cast_abs]
    norm_num
  have sign : numeral.negative = true ↔ v < 0 ∧ 0 < n.natAbs := by
    have hundred : 100 * v < 0 ↔ v < 0 := by
      constructor <;> intro below <;> linarith
    rw [DecimalNumeral.negative_iff, value, ← hundred, ← rounds.lt_zero_iff,
      div_lt_iff₀ (by norm_num), zero_mul, Int.cast_lt_zero]
  constructor
  · rintro rfl
    exact ⟨magnitude, sign⟩
  · rintro ⟨otherMagnitude, otherSign⟩
    apply DecimalNumeral.value_injective
    have signs : other.negative = numeral.negative := by
      rw [Bool.eq_iff_iff, otherSign, sign]
    rw [DecimalNumeral.value, DecimalNumeral.value, signs, otherMagnitude, magnitude]

theorem label_eq_iff {y : Float} {w : ℚ} (exact : exactValue? x = some v)
    (otherExact : exactValue? y = some w) :
    label x = label y ↔ ∃ n, RoundsTo (100 * v) n ∧ RoundsTo (100 * w) n := by
  obtain ⟨numeral, n, written, rounds, value⟩ := exists_label_numeral exact
  obtain ⟨other, k, otherWritten, otherRounds, otherValue⟩ := exists_label_numeral otherExact
  rw [written, otherWritten]
  constructor
  · intro same
    have numerals := DecimalNumeral.text_injective (label_text_injective same)
    have hundredths : (n : ℚ) = k := by
      rw [numerals, otherValue] at value
      linarith
    rw [← Int.cast_inj.mp hundredths] at otherRounds
    exact ⟨n, rounds, otherRounds⟩
  · rintro ⟨hundredths, left, right⟩
    have numerals : numeral = other := by
      apply DecimalNumeral.value_injective
      rw [value, otherValue, rounds.unique left, otherRounds.unique right]
    rw [numerals]

/-- The label of a finite value holds its numeral, rounded to hundredths with ties to even, and
no other numeral has this magnitude and sign.  Values have the same label exactly if they round
to the same hundredth. -/
theorem label_of_finite (finite : x.isFinite = true) :
    ∃ v, exactValue? x = some v ∧
      (∃ m : Nat, RoundsTo (100 * |v|) m ∧
        ∃ numeral : DecimalNumeral,
          label x = String.ofList ('T' :: '(' :: numeral.text ++ [')']) ∧
          ∀ other : DecimalNumeral, other = numeral ↔
            other.magnitude = m / 100 ∧ (other.negative = true ↔ v < 0 ∧ 0 < m)) ∧
      ∀ y w, exactValue? y = some w →
        (label x = label y ↔ ∃ n, RoundsTo (100 * v) n ∧ RoundsTo (100 * w) n) := by
  obtain ⟨v, exact⟩ := Option.ne_none_iff_exists'.mp (exactValue?_ne_none_iff.mpr finite)
  obtain ⟨numeral, n, written, rounds, value⟩ := exists_label_numeral exact
  have magnitude : RoundsTo (100 * |v|) n.natAbs := by
    have absolute : |100 * v| = 100 * |v| := by rw [abs_mul, abs_of_pos (by norm_num)]
    rw [Int.natCast_natAbs, ← absolute]
    exact rounds.abs
  exact ⟨v, exact, ⟨n.natAbs, magnitude, numeral, written, eq_numeral_iff rounds value⟩,
    fun _ _ otherExact => label_eq_iff exact otherExact⟩

/-- Halfway between two hundredths, below zero. -/
theorem label_of_minus_eighth :
    (-0.125 : Float).isFinite = true ∧ label (-0.125) = "T(-0.12)" ∧
      ∃ v, exactValue? (-0.125) = some v ∧
        (∃ m : Nat, RoundsTo (100 * |v|) m ∧
          ∃ numeral : DecimalNumeral,
            label (-0.125) = String.ofList ('T' :: '(' :: numeral.text ++ [')']) ∧
            ∀ other : DecimalNumeral, other = numeral ↔
              other.magnitude = m / 100 ∧ (other.negative = true ↔ v < 0 ∧ 0 < m)) ∧
        ∀ y w, exactValue? y = some w →
          (label (-0.125) = label y ↔ ∃ n, RoundsTo (100 * v) n ∧ RoundsTo (100 * w) n) :=
  ⟨by decide, by decide +kernel, label_of_finite (by decide)⟩

end

end Unfolding
