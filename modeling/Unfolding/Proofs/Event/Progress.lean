import Unfolding.Proofs.Event.Grammar
import Mathlib.Data.Set.Operations
import Mathlib.Order.Bounds.Defs

/-!
Reading on and on.

A reading that fails leaves the cursor at the field that was cut short, and the next
reading takes the byte there for a tag.  So readings can go on in the middle of a
record.  Each of them spends a byte at least, and none more than the longest record
has.
-/

namespace Unfolding.Event

/-- The cursor after a number of readings, whatever these have given. -/
def cursorAfter (bytes : Bytes) : (count : Nat) → Cursor
  | 0 => .ofBytes bytes
  | count + 1 => (cursorAfter bytes count).next.2

/-! ### One reading -/

theorem announcedLength_bounds {tag : UInt8} {length : Nat}
    (announced : announcedLength tag = some length) : 1 ≤ length ∧ length ≤ 21 := by
  unfold announcedLength at announced
  split at announced
  all_goals cases announced
  all_goals decide

theorem exists_spent (bytes : Bytes) : ∃ spent ≤ 21, (next bytes).2 = bytes.drop spent := by
  cases bytes with
  | nil => exact ⟨0, Nat.zero_le 21, rfl⟩
  | cons tag bytes =>
      cases announced : announcedLength tag with
      | none =>
          -- an unknown tag is spent, and nothing behind it
          refine ⟨1, by decide, ?_⟩
          rw [next_cons, readFields_of_announcedLength_eq_none announced]
          rfl
      | some length =>
          have bounds := announcedLength_bounds announced
          have announcedFields : announcedLength tag = some (length - 1 + 1) := by
            rw [announced, Nat.sub_add_cancel bounds.1]
          rcases (Reading.HasWidth.readFields announcedFields).exists_spent bytes with
            ⟨spent, bounded, left⟩
          refine ⟨spent + 1, by omega, ?_⟩
          rw [next_cons, left, List.drop_succ_cons]

theorem length_next_of_some {bytes : Bytes} {event : Event} (given : (next bytes).1 = some event) :
    (next bytes).2.length + event.record.length = bytes.length := by
  rcases stops_or_next_eq bytes with stops | ⟨spelling, rest, parts, read⟩
  · rw [stops.next_eq_none] at given
    cases given
  · rw [read] at given ⊢
    cases given
    rw [parts, List.length_append, spelling.length_bytes, Nat.add_comm]

namespace Cursor

variable {cursor : Cursor}

/-- The bytes that are left tell how far the cursor has come. -/
theorem length_left_next (inside : cursor.IsInside) :
    (Event.next cursor.left).2.length + cursor.next.2.position = cursor.data.size := by
  have same : cursor.next.2.data = cursor.data := Reading.data_run readRecord cursor
  rw [next_left inside, length_left, ← same]
  exact Nat.sub_add_cancel inside.next

theorem position_next_le (inside : cursor.IsInside) :
    cursor.next.2.position ≤ cursor.position + 21 := by
  rcases exists_spent cursor.left with ⟨spent, bounded, left⟩
  have behind := length_left_next inside
  rw [left, List.length_drop, length_left] at behind
  omega

theorem position_next_of_some (inside : cursor.IsInside) {event : Event}
    (given : cursor.next.1 = some event) :
    cursor.next.2.position = cursor.position + event.record.length := by
  have read : (Event.next cursor.left).1 = some event := by rw [next_left inside, given]
  have behind := length_left_next inside
  have spent := length_next_of_some read
  have here := length_left cursor
  have within : cursor.position ≤ cursor.data.size := inside
  omega

end Cursor

/-! ### Many readings -/

variable (bytes : Bytes) (count : Nat)

theorem data_cursorAfter : (cursorAfter bytes count).data = bytes.toArray := by
  induction count with
  | zero => rfl
  | succ count inductionHypothesis =>
      exact (Reading.data_run readRecord _).trans inductionHypothesis

theorem isInside_cursorAfter : (cursorAfter bytes count).IsInside := by
  induction count with
  | zero => exact Cursor.isInside_ofBytes bytes
  | succ count inductionHypothesis => exact inductionHypothesis.next

theorem size_cursorAfter : (cursorAfter bytes count).data.size = bytes.length := by
  rw [data_cursorAfter, List.size_toArray]

theorem left_cursorAfter :
    (cursorAfter bytes count).left = bytes.drop (cursorAfter bytes count).position := by
  rw [Cursor.left, data_cursorAfter]

theorem answers_cursorAfter (start : Nat) :
    Cursor.answers count (cursorAfter bytes start) =
      (List.range' start count).map fun i => (cursorAfter bytes i).next.1 := by
  induction count generalizing start with
  | zero => rfl
  | succ count inductionHypothesis =>
      rw [List.range'_succ, List.map_cons, ← inductionHypothesis (start + 1)]
      rfl

/-- Every reading that finds a byte brings the end nearer. -/
theorem min_le_position_cursorAfter :
    min count bytes.length ≤ (cursorAfter bytes count).position := by
  induction count with
  | zero => exact Nat.le_trans (Nat.min_le_left _ _) (Nat.zero_le _)
  | succ count inductionHypothesis =>
      have size := size_cursorAfter bytes count
      rcases Nat.lt_or_ge (cursorAfter bytes count).position bytes.length with inside | ended
      · have later := Cursor.position_lt_next (size.symm ▸ inside)
        rw [cursorAfter]
        omega
      · rw [cursorAfter, Cursor.next_of_size_le (size.symm ▸ ended)]
        exact Nat.le_trans (Nat.min_le_right _ _) ended

/-- No record is longer than that of a limit that was reached. -/
theorem isGreatest_length_record :
    IsGreatest (Set.range fun event : Event => event.record.length) 21 := by
  refine ⟨⟨.limitReached 0 0 0, rfl⟩, ?_⟩
  rintro length ⟨event, rfl⟩
  rcases event.exists_tag with ⟨tag, fields, -, announced⟩
  exact (announcedLength_bounds announced).2

/-- However often it is read, a string of bytes is read from its front to its end,
a byte at least and the longest record at most at a time. -/
theorem readings_advance (bytes : Bytes) :
    (∀ count, readTimes count bytes =
      (List.range count).map fun i => (cursorAfter bytes i).next.1) ∧
    (cursorAfter bytes 0).position = 0 ∧
    (∀ count, (cursorAfter bytes count).data = bytes.toArray ∧
      (cursorAfter bytes count).position ≤ bytes.length ∧
      (cursorAfter bytes count).left = bytes.drop (cursorAfter bytes count).position) ∧
    (∀ count, next (bytes.drop (cursorAfter bytes count).position) =
      ((cursorAfter bytes count).next.1, bytes.drop (cursorAfter bytes (count + 1)).position)) ∧
    (∀ count, (cursorAfter bytes count).position < bytes.length →
      (cursorAfter bytes count).position + 1 ≤ (cursorAfter bytes (count + 1)).position ∧
        (cursorAfter bytes (count + 1)).position ≤ (cursorAfter bytes count).position + 21) ∧
    IsGreatest (Set.range fun event : Event => event.record.length) 21 ∧
    (∀ count event, (cursorAfter bytes count).next.1 = some event →
      (cursorAfter bytes (count + 1)).position =
        (cursorAfter bytes count).position + event.record.length) ∧
    ∀ count, bytes.length ≤ count →
      (cursorAfter bytes count).next = (none, cursorAfter bytes count) := by
  have size := size_cursorAfter bytes
  have within (count : Nat) : (cursorAfter bytes count).position ≤ bytes.length :=
    size count ▸ isInside_cursorAfter bytes count
  refine ⟨?_, rfl, ?_, ?_, ?_, isGreatest_length_record, ?_, ?_⟩
  · intro count
    rw [List.range_eq_range']
    exact answers_cursorAfter bytes count 0
  · intro count
    exact ⟨data_cursorAfter bytes count, within count, left_cursorAfter bytes count⟩
  · intro count
    rw [← left_cursorAfter, ← left_cursorAfter]
    exact Cursor.next_left (isInside_cursorAfter bytes count)
  · intro count inside
    exact ⟨Cursor.position_lt_next ((size count).symm ▸ inside),
      Cursor.position_next_le (isInside_cursorAfter bytes count)⟩
  · intro count event given
    exact Cursor.position_next_of_some (isInside_cursorAfter bytes count) given
  · intro count enough
    apply Cursor.next_of_size_le
    have spent := min_le_position_cursorAfter bytes count
    rw [Nat.min_eq_right enough] at spent
    exact (size count).symm ▸ spent

end Unfolding.Event
