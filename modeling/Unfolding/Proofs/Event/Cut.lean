import Unfolding.Proofs.Event.Grammar

/-!
Recordings that break off.

A recording may be cut at any byte, also inside a number.  The tag of a record
announces its length, so the record that was cut is not mistaken for another
one.  What is read from the bytes that are left is the longest beginning of the
events whose records they hold in full.
-/

namespace Unfolding.Event

theorem recordAll_cons (event : Event) (events : List Event) :
    recordAll (event :: events) = event.record ++ recordAll events := rfl

/-- Among the beginnings of `events` whose records take at most `room` bytes,
`kept` is the longest. -/
structure IsLongestWithin (room : Nat) (events kept : List Event) : Prop where
  begins : kept <+: events
  fits : (recordAll kept).length ≤ room
  longest : ∀ other, other <+: events → (recordAll other).length ≤ room → other <+: kept

namespace IsLongestWithin

variable {room : Nat} {event : Event} {events kept : List Event}

theorem nil (room : Nat) : IsLongestWithin room [] [] where
  begins := List.prefix_rfl
  fits := Nat.zero_le room
  longest _ begins _ := begins

/-- Where the first record has no room, nothing is kept. -/
theorem none_of_lt (short : room < event.record.length) :
    IsLongestWithin room (event :: events) [] where
  begins := List.nil_prefix
  fits := Nat.zero_le room
  longest := by
    intro other begins fits
    cases other with
    | nil => exact List.prefix_rfl
    | cons first others =>
        have same : first = event := (List.cons_prefix_cons.mp begins).1
        rw [recordAll_cons, List.length_append, same] at fits
        exact absurd (Nat.le_of_add_right_le fits) (Nat.not_le_of_lt short)

/-- Where the first record has room, the others share what is left. -/
theorem cons (whole : event.record.length ≤ room)
    (rest : IsLongestWithin (room - event.record.length) events kept) :
    IsLongestWithin room (event :: events) (event :: kept) where
  begins := List.cons_prefix_cons.mpr ⟨rfl, rest.begins⟩
  fits := by
    rw [recordAll_cons, List.length_append]
    exact Nat.add_le_of_le_sub' whole rest.fits
  longest := by
    intro other begins fits
    cases other with
    | nil => exact List.nil_prefix
    | cons first others =>
        have parts : first = event ∧ others <+: events := List.cons_prefix_cons.mp begins
        rw [recordAll_cons, List.length_append, parts.1] at fits
        exact List.cons_prefix_cons.mpr
          ⟨parts.1, rest.longest others parts.2 (Nat.le_sub_of_add_le' fits)⟩

end IsLongestWithin

/-! ### Records that break off -/

/-- At a record that breaks off, wherever it does, reading stops. -/
theorem stops_take_record {event : Event} {length : Nat} (short : length < event.record.length) :
    Stops (event.record.take length) := by
  rcases event.exists_tag with ⟨tag, fields, record_eq, announced⟩
  cases length with
  | zero => exact .empty
  | succ length =>
      have begun : event.record.take (length + 1) = tag :: fields.take length := by
        rw [record_eq, List.take_succ_cons]
      rw [begun]
      apply Stops.cutShort announced
      rw [← begun, List.length_take]
      exact Nat.lt_of_le_of_lt (Nat.min_le_left _ _) short

theorem decode_take_of_le {event : Event} {rest : Bytes} {room : Nat}
    (whole : event.record.length ≤ room) :
    decode ((event.record ++ rest).take room) =
      event :: decode (rest.take (room - event.record.length)) := by
  rw [List.take_append, List.take_of_length_le whole, decode_record_append]

theorem decode_take_of_lt {event : Event} {rest : Bytes} {room : Nat}
    (short : room < event.record.length) : decode ((event.record ++ rest).take room) = [] := by
  rw [List.take_append_of_le_length (Nat.le_of_lt short)]
  exact decode_of_next_eq_none (stops_take_record short).next_eq_none

/-- A recording that is cut anywhere loses the events whose records are no longer
whole, and nothing else. -/
theorem cut_recording_loses_tail (events : List Event) (room : Nat) :
    IsLongestWithin room events (decode ((recordAll events).take room)) := by
  induction events generalizing room with
  | nil =>
      have nothing : decode ((recordAll []).take room) = [] := by
        rw [recordAll, List.flatMap_nil, List.take_nil, decode_nil]
      rw [nothing]
      exact .nil room
  | cons event events inductionHypothesis =>
      rw [recordAll_cons]
      by_cases whole : event.record.length ≤ room
      · rw [decode_take_of_le whole]
        exact .cons whole (inductionHypothesis _)
      · have short : room < event.record.length := Nat.lt_of_not_le whole
        rw [decode_take_of_lt short]
        exact .none_of_lt short

end Unfolding.Event
