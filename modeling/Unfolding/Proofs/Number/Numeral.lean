import Unfolding.Number.Numeral

/-!
Decimal numerals inside longer texts.

A numeral that no digit follows can be read off the front of a text in one way.
-/

namespace Unfolding.Number

/-- The text does not go on with a digit. -/
def EndsNumeral (text : List Char) : Prop := ∀ c ∈ text.head?, c.isDigit = false

theorem endsNumeral_nil : EndsNumeral [] := by
  intro c member
  cases member

theorem endsNumeral_cons {c : Char} (other : c.isDigit = false) (text : List Char) :
    EndsNumeral (c :: text) := by
  intro first member
  cases member
  exact other

theorem toDigits_injective {m n : Nat} (same : Nat.toDigits 10 m = Nat.toDigits 10 n) : m = n := by
  calc
    m = Nat.ofDigitChars 10 (Nat.toDigits 10 m) 0 := Nat.ofDigitChars_ten_toDigits.symm
    _ = Nat.ofDigitChars 10 (Nat.toDigits 10 n) 0 := by rw [same]
    _ = n := Nat.ofDigitChars_ten_toDigits

theorem takeWhile_toDigits_append (n : Nat) {text : List Char} (ended : EndsNumeral text) :
    (Nat.toDigits 10 n ++ text).takeWhile Char.isDigit = Nat.toDigits 10 n := by
  have digits : ∀ c ∈ Nat.toDigits 10 n, c.isDigit := fun c member =>
    Nat.isDigit_of_mem_toDigits (by decide) (by decide) member
  have stopped : text.takeWhile Char.isDigit = [] := by
    cases text with
    | nil => rfl
    | cons c text => simp [ended c rfl]
  rw [List.takeWhile_append_of_pos digits, stopped, List.append_nil]

theorem toDigits_append_injective {m n : Nat} {text other : List Char} (ended : EndsNumeral text)
    (otherEnded : EndsNumeral other)
    (same : Nat.toDigits 10 m ++ text = Nat.toDigits 10 n ++ other) : m = n ∧ text = other := by
  have numerals : Nat.toDigits 10 m = Nat.toDigits 10 n := by
    rw [← takeWhile_toDigits_append m ended, same, takeWhile_toDigits_append n otherEnded]
  refine ⟨toDigits_injective numerals, ?_⟩
  rw [numerals] at same
  exact List.append_cancel_left same

theorem not_endsNumeral_toDigits_append (n : Nat) (text : List Char) :
    ¬ EndsNumeral (Nat.toDigits 10 n ++ text) := by
  intro ended
  cases digits : Nat.toDigits 10 n with
  | nil => exact Nat.toDigits_ne_nil digits
  | cons digit more =>
      have isDigit : digit.isDigit = true :=
        Nat.isDigit_of_mem_toDigits (by decide) (by decide) (digits ▸ List.mem_cons_self)
      rw [digits] at ended
      have other : digit.isDigit = false := ended digit rfl
      rw [isDigit] at other
      cases other

end Unfolding.Number
