import Unfolding.Generation
import Unfolding.Proofs.Event.Cursor

/-!
Records give back the events that were recorded.

Every reader is described by the bytes that it takes from the front, whatever
stands behind them.  Records carry no length and no separator, so this is what
keeps the reading of one record from running into the next.
-/

namespace Unfolding

namespace Event

/-- In front of anything, the reader takes exactly `bytes` and gives `value`. -/
def Reading.Takes {α : Type} (reading : Reading α) (bytes : Bytes) (value : α) : Prop :=
  ∀ rest, reading.runOn (bytes ++ rest) = (some value, rest)

/-! ### Words -/

@[simp]
theorem length_wordBytes (width n : Nat) : (wordBytes width n).length = width := by
  induction width generalizing n with
  | zero => rfl
  | succ width inductionHypothesis =>
      rw [wordBytes, List.length_cons, inductionHypothesis]

theorem wordOfBytes_wordBytes {width n : Nat} (bounded : n < Nat.pow 256 width) :
    wordOfBytes (wordBytes width n) = n := by
  induction width generalizing n with
  | zero =>
      have zero : n = 0 := by simpa using bounded
      subst n
      rfl
  | succ width inductionHypothesis =>
      have quotient : n / 256 < Nat.pow 256 width := by
        apply Nat.div_lt_of_lt_mul
        rw [Nat.mul_comm]
        exact bounded
      have byte : (UInt8.ofNat n).toNat = n % 256 := by simp
      rw [wordBytes, wordOfBytes, inductionHypothesis quotient, byte]
      omega

/-! ### Readers -/

namespace Reading.Takes

variable {α β : Type}

theorem pure (value : α) : Takes (Pure.pure value : Reading α) [] value :=
  fun _ => rfl

theorem bind {first : Reading α} {rest : α → Reading β} {bytes more : Bytes} {value : α}
    {result : β} (taken : Takes first bytes value) (takenRest : Takes (rest value) more result) :
    Takes (first >>= rest) (bytes ++ more) result := by
  intro left
  rw [List.append_assoc, runOn_bind, taken (more ++ left)]
  exact takenRest left

/-- The last reader of a sequence, whose value is only passed on. -/
theorem andThen {first : Reading α} {bytes : Bytes} {value : α} (taken : Takes first bytes value)
    (use : α → β) : Takes (first >>= fun value => Pure.pure (use value)) bytes (use value) := by
  have finished : Takes (first >>= fun value => Pure.pure (use value)) (bytes ++ []) (use value) :=
    taken.bind (pure (use value))
  rwa [List.append_nil] at finished

theorem readBytes (bytes : Bytes) : Takes (readBytes bytes.length) bytes bytes := by
  intro rest
  have enough : bytes.length ≤ (bytes ++ rest).length := by simp
  rw [Event.readBytes, runOn_take, if_pos enough, List.take_left, List.drop_left]
  rfl

theorem readWord (width : Nat) {n : Nat} (bounded : n < Nat.pow 256 width) :
    Takes (readWord width) (wordBytes width n) n := by
  have taken := readBytes (wordBytes width n)
  rw [length_wordBytes] at taken
  have word := taken.andThen wordOfBytes
  rwa [wordOfBytes_wordBytes bounded] at word

theorem readUInt32 (n : UInt32) : Takes readUInt32 (wordBytes 4 n.toNat) n := by
  have word := (readWord 4 n.toNat_lt).andThen Nat.toUInt32
  have same : n.toNat.toUInt32 = n := by simp
  rwa [same] at word

theorem readUInt64 (n : UInt64) : Takes readUInt64 (wordBytes 8 n.toNat) n := by
  have word := (readWord 8 n.toNat_lt).andThen Nat.toUInt64
  have same : n.toNat.toUInt64 = n := by simp
  rwa [same] at word

theorem readByte (byte : UInt8) : Takes (Event.readWord 1) [byte] byte.toNat := by
  have taken := readWord 1 byte.toNat_lt
  have single : wordBytes 1 byte.toNat = [byte] := by simp [wordBytes]
  rwa [single] at taken

theorem readFlag (flag : Bool) : Takes readFlag [flagByte flag] flag := by
  cases flag <;> exact (readByte _).andThen _

theorem readFamily (family : Family) : Takes readFamily [familyByte family] family := by
  cases family with
  | divideConquer => exact (readFlag false).andThen _
  | linearShift => exact (readFlag true).andThen _

theorem readOption (n : Option UInt32) : Takes readOption (optionBytes n) n := by
  cases n with
  | none => exact (readFlag false).bind ((readUInt32 0).andThen _)
  | some n => exact (readFlag true).bind ((readUInt32 n).andThen _)

theorem readTagged {tag : Nat} {fields : Bytes} {event : Event} (small : tag < 256)
    (read : Takes (readFields tag) fields event) :
    Takes readRecord (UInt8.ofNat tag :: fields) event :=
  (readWord 1 small).bind read

/-- A record is read back as the event it was written for, and no byte behind
it is touched. -/
theorem readRecord (event : Event) : Takes readRecord event.record event := by
  cases event with
  | depthSettled family natural requested effective atHorizon =>
      have fields : Takes (readFields 1) _
          (.depthSettled family natural requested effective atHorizon) :=
        (readFamily family).bind <| (readUInt32 natural).bind <| (readOption requested).bind <|
          (readUInt32 effective).bind <| (readFlag atHorizon).andThen _
      simpa [record] using readTagged (by decide) fields
  | levelBuilt level nodes baseCases =>
      have fields : Takes (readFields 2) _ (.levelBuilt level nodes baseCases) :=
        (readUInt32 level).bind <| (readUInt32 nodes).bind <| (readUInt32 baseCases).andThen _
      simpa [record] using readTagged (by decide) fields
  | limitReached limit emitted level =>
      have fields : Takes (readFields 3) _ (.limitReached limit emitted level) :=
        (readUInt64 limit).bind <| (readUInt64 emitted).bind <| (readUInt32 level).andThen _
      simpa [record] using readTagged (by decide) fields
  | repeatsCounted groups annotated =>
      have fields : Takes (readFields 4) _ (.repeatsCounted groups annotated) :=
        (readUInt32 groups).bind <| (readUInt32 annotated).andThen _
      simpa [record] using readTagged (by decide) fields
  | drawn family totalNodes totalLevels truncated =>
      have fields : Takes (readFields 5) _ (.drawn family totalNodes totalLevels truncated) :=
        (readFamily family).bind <| (readUInt64 totalNodes).bind <|
          (readUInt32 totalLevels).bind <| (readFlag truncated).andThen _
      simpa [record] using readTagged (by decide) fields

end Reading.Takes

/-! ### Decoding -/

/-- Decoding goes on behind a whole record. -/
theorem decode_record_append (event : Event) (rest : Bytes) :
    decode (event.record ++ rest) = event :: decode rest :=
  decode_of_next_eq_some (Reading.Takes.readRecord event rest)

@[simp]
theorem decode_nil : decode [] = [] := decode_of_next_eq_none rfl

theorem decode_recordAll_append (events : List Event) (rest : Bytes) :
    decode (recordAll events ++ rest) = events ++ decode rest := by
  induction events with
  | nil => rfl
  | cons event events inductionHypothesis =>
      calc
        decode (recordAll (event :: events) ++ rest)
            = decode (event.record ++ (recordAll events ++ rest)) := by simp [recordAll]
        _ = event :: (events ++ decode rest) := by
            rw [decode_record_append, inductionHypothesis]

theorem recordAll_append (first second : List Event) :
    recordAll (first ++ second) = recordAll first ++ recordAll second :=
  List.flatMap_append

end Event

/-! ### Recorders -/

namespace Recorder

theorem toList_bytes_feedAll (recorder : Recorder) (events : List Event) :
    (recorder.feedAll events).bytes.toList = recorder.bytes.toList ++ Event.recordAll events := by
  induction events generalizing recorder with
  | nil => simp [feedAll, Event.recordAll]
  | cons event events inductionHypothesis =>
      change ((recorder.feed event).feedAll events).bytes.toList = _
      rw [inductionHypothesis]
      simp [feed, Event.recordAll]

/-- One recorder can follow any number of runs. -/
theorem toList_bytes_foldl_feedAll (runs : List Run) (recorder : Recorder) :
    (runs.foldl (fun recorder run => recorder.feedAll run.events) recorder).bytes.toList =
      recorder.bytes.toList ++ Event.recordAll (runs.flatMap Run.events) := by
  induction runs generalizing recorder with
  | nil => simp [Event.recordAll]
  | cons run runs inductionHypothesis =>
      rw [List.foldl_cons, inductionHypothesis, toList_bytes_feedAll, List.flatMap_cons,
        Event.recordAll_append, List.append_assoc]

end Recorder

/-- Recorded events are read back in full, whatever is written behind them. -/
theorem Event.recording_round_trip :
    (∀ (recorder : Recorder) (events : List Event),
      (recorder.feedAll events).bytes.toList = recorder.bytes.toList ++ recordAll events) ∧
    (∀ (events : List Event) (rest : Bytes),
      decode (recordAll events ++ rest) = events ++ decode rest) ∧
    (∀ events : List Event, decode (recordAll events) = events) ∧
    (∀ first second : List Event,
      recordAll (first ++ second) = recordAll first ++ recordAll second) ∧
    (∀ runs : List Run,
      (runs.foldl (fun recorder run => recorder.feedAll run.events) ({} : Recorder)).events =
        runs.flatMap Run.events) := by
  have whole (events : List Event) : decode (recordAll events) = events := by
    simpa using decode_recordAll_append events []
  refine ⟨Recorder.toList_bytes_feedAll, decode_recordAll_append, whole, recordAll_append, ?_⟩
  intro runs
  rw [Recorder.events, Recorder.toList_bytes_foldl_feedAll]
  exact whole (runs.flatMap Run.events)

end Unfolding
