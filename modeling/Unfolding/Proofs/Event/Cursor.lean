import Unfolding.Event.Record

/-!
Reading at a cursor.

A cursor stays in its bytes, and what is read there depends on the bytes from the
cursor on alone.  So a string of bytes can be read as if it began at the cursor.
-/

namespace Unfolding

namespace Event

namespace Cursor

variable {cursor : Cursor} {width : Nat}

/-- The cursor stands at a byte or right behind the last one. -/
def IsInside (cursor : Cursor) : Prop := cursor.position ≤ cursor.data.size

theorem isInside_ofBytes (bytes : Bytes) : (ofBytes bytes).IsInside := Nat.zero_le _

@[simp]
theorem left_ofBytes (bytes : Bytes) : (ofBytes bytes).left = bytes := rfl

@[simp]
theorem left_advance (cursor : Cursor) (width : Nat) :
    (cursor.advance width).left = cursor.left.drop width := by
  rw [left, left, List.drop_drop]
  rfl

theorem length_left (cursor : Cursor) :
    cursor.left.length = cursor.data.size - cursor.position := by
  rw [left, List.length_drop, Array.length_toList]

theorem IsInside.advance (inside : cursor.IsInside) (enough : width ≤ cursor.left.length) :
    (cursor.advance width).IsInside := by
  rw [length_left] at enough
  exact Nat.add_le_of_le_sub' inside enough

/-- Taking bytes is taking them from the front of those that are left. -/
theorem take_eq (inside : cursor.IsInside) (width : Nat) :
    cursor.take width =
      if width ≤ cursor.left.length then (some (cursor.left.take width), cursor.advance width)
      else (none, cursor) := by
  have enough : cursor.position + width ≤ cursor.data.size ↔ width ≤ cursor.left.length := by
    rw [length_left, Nat.le_sub_iff_add_le' inside]
  have taken : (cursor.data.extract cursor.position (cursor.position + width)).toList =
      cursor.left.take width := by
    rw [Array.toList_extract, List.extract, Nat.add_sub_cancel_left, left]
  simp only [take, enough, taken]

theorem IsInside.take (inside : cursor.IsInside) (width : Nat) :
    (cursor.take width).2.IsInside := by
  rw [take_eq inside]
  split
  · rename_i enough
    exact inside.advance enough
  · exact inside

theorem IsInside.run {α : Type} (inside : cursor.IsInside) (reading : Reading α) :
    (reading.run cursor).2.IsInside :=
  reading.run_keeps IsInside (fun _ width inside => inside.take width) inside

end Cursor

namespace Reading

variable {α β : Type}

/-- Two cursors with the same bytes left read the same. -/
theorem run_congr {first second : Cursor} (insideFirst : first.IsInside)
    (insideSecond : second.IsInside) (same : first.left = second.left) (reading : Reading α) :
    (reading.run first).1 = (reading.run second).1 ∧
      (reading.run first).2.left = (reading.run second).2.left := by
  induction reading generalizing first second with
  | done value => exact ⟨rfl, same⟩
  | fail => exact ⟨rfl, same⟩
  | take width rest inductionHypothesis =>
      rw [run, run, Cursor.take_eq insideFirst, Cursor.take_eq insideSecond, same]
      by_cases enough : width ≤ second.left.length
      · simp only [if_pos enough]
        apply inductionHypothesis
        · exact insideFirst.advance (same ▸ enough)
        · exact insideSecond.advance enough
        · rw [Cursor.left_advance, Cursor.left_advance, same]
      · simp only [if_neg enough]
        exact ⟨trivial, same⟩

theorem runOn_left {cursor : Cursor} (inside : cursor.IsInside) (reading : Reading α) :
    reading.runOn cursor.left = ((reading.run cursor).1, (reading.run cursor).2.left) := by
  have same :=
    run_congr (Cursor.isInside_ofBytes cursor.left) inside (Cursor.left_ofBytes _) reading
  exact Prod.ext same.1 same.2

/-! ### Reading at the front -/

theorem runOn_take (width : Nat) (rest : Bytes → Reading α) (bytes : Bytes) :
    (take width rest).runOn bytes =
      if width ≤ bytes.length then (rest (bytes.take width)).runOn (bytes.drop width)
      else (none, bytes) := by
  have inside := Cursor.isInside_ofBytes bytes
  rw [runOn, run, Cursor.take_eq inside, Cursor.left_ofBytes]
  by_cases enough : width ≤ bytes.length
  · simp only [if_pos enough]
    have behind := runOn_left (inside.advance enough) (rest (bytes.take width))
    rw [Cursor.left_advance, Cursor.left_ofBytes] at behind
    exact behind.symm
  · simp only [if_neg enough, Cursor.left_ofBytes]

theorem runOn_bind (first : Reading α) (rest : α → Reading β) (bytes : Bytes) :
    (first >>= rest).runOn bytes =
      match first.runOn bytes with
      | (none, left) => (none, left)
      | (some value, left) => (rest value).runOn left := by
  induction first generalizing bytes with
  | done value => rfl
  | fail => rfl
  | take width next inductionHypothesis =>
      have taken : (take width next >>= rest) = take width fun taken => next taken >>= rest := rfl
      rw [taken, runOn_take, runOn_take]
      split
      · exact inductionHypothesis _ _
      · rfl

end Reading

/-! ### Decoding -/

namespace Cursor

variable {cursor : Cursor}

theorem IsInside.next (inside : cursor.IsInside) : cursor.next.2.IsInside :=
  inside.run readRecord

theorem next_left (inside : cursor.IsInside) :
    Event.next cursor.left = (cursor.next.1, cursor.next.2.left) :=
  Reading.runOn_left inside readRecord

theorem events_of_next_eq_none (failed : cursor.next.1 = none) : cursor.events = [] := by
  rw [events]
  split
  · rfl
  · rename_i event behind read
    rw [read] at failed
    cases failed

theorem events_of_next_eq_some {event : Event} (found : cursor.next.1 = some event) :
    cursor.events = event :: cursor.next.2.events := by
  rw [events]
  split
  · rename_i behind failed
    rw [failed] at found
    cases found
  · rename_i first behind read
    rw [read] at found ⊢
    cases found
    rfl

theorem events_congr {first second : Cursor} (insideFirst : first.IsInside)
    (insideSecond : second.IsInside) (same : first.left = second.left) :
    first.events = second.events := by
  fun_induction events first generalizing second with
  | case1 first behind failed =>
      have answers : first.next.1 = second.next.1 :=
        (Reading.run_congr insideFirst insideSecond same readRecord).1
      rw [failed] at answers
      rw [events_of_next_eq_none answers.symm]
  | case2 first event behind read inductionHypothesis =>
      have answers : first.next.1 = second.next.1 ∧ first.next.2.left = second.next.2.left :=
        Reading.run_congr insideFirst insideSecond same readRecord
      have insideBehind := insideFirst.next
      rw [read] at answers insideBehind
      rw [events_of_next_eq_some answers.1.symm,
        inductionHypothesis insideBehind insideSecond.next answers.2]

end Cursor

theorem decode_of_next_eq_none {bytes : Bytes} (failed : (next bytes).1 = none) :
    decode bytes = [] :=
  Cursor.events_of_next_eq_none failed

theorem decode_of_next_eq_some {bytes rest : Bytes} {event : Event}
    (read : next bytes = (some event, rest)) : decode bytes = event :: decode rest := by
  have inside := Cursor.isInside_ofBytes bytes
  have front := Cursor.next_left inside
  rw [Cursor.left_ofBytes, read] at front
  have found : some event = (Cursor.ofBytes bytes).next.1 := congrArg Prod.fst front
  have left : rest = (Cursor.ofBytes bytes).next.2.left := congrArg Prod.snd front
  rw [decode, Cursor.events_of_next_eq_some found.symm, decode, left]
  exact congrArg _ (Cursor.events_congr inside.next (Cursor.isInside_ofBytes _) rfl)

end Event

end Unfolding
