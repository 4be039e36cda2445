import Unfolding.Event.Basic

/-!
Events as binary records.

A record is a tag from 1 to 5 followed by its fields.  Numbers stand in four or
eight bytes, least significant first.  A family or a truth value takes one
byte, and an optional number takes a byte for its presence and four for its
value, zero when it is absent.

Records are read one after another at a cursor.  Where a record is cut short or its
tag is unknown, reading stops, and the cursor stays behind the bytes that were taken.
-/

namespace Unfolding

abbrev Bytes := List UInt8

namespace Event

/-- The bytes of a number, least significant first. -/
def wordBytes : (width : Nat) → Nat → Bytes
  | 0, _ => []
  | width + 1, n => UInt8.ofNat n :: wordBytes width (n / 256)

/-- The number that bytes stand for, least significant first. -/
def wordOfBytes : Bytes → Nat
  | [] => 0
  | byte :: bytes => byte.toNat + 256 * wordOfBytes bytes

def flagByte (flag : Bool) : UInt8 := if flag then 1 else 0

def familyByte : Family → UInt8
  | .divideConquer => 0
  | .linearShift => 1

def optionBytes : Option UInt32 → Bytes
  | none => 0 :: wordBytes 4 0
  | some n => 1 :: wordBytes 4 n.toNat

/-- The record of an event. -/
def record : Event → Bytes
  | .depthSettled family natural requested effective atHorizon =>
      1 :: familyByte family :: wordBytes 4 natural.toNat ++ optionBytes requested ++
        wordBytes 4 effective.toNat ++ [flagByte atHorizon]
  | .levelBuilt level nodes baseCases =>
      2 :: wordBytes 4 level.toNat ++ wordBytes 4 nodes.toNat ++ wordBytes 4 baseCases.toNat
  | .limitReached limit emitted level =>
      3 :: wordBytes 8 limit.toNat ++ wordBytes 8 emitted.toNat ++ wordBytes 4 level.toNat
  | .repeatsCounted groups annotated =>
      4 :: wordBytes 4 groups.toNat ++ wordBytes 4 annotated.toNat
  | .drawn family totalNodes totalLevels truncated =>
      5 :: familyByte family :: wordBytes 8 totalNodes.toNat ++ wordBytes 4 totalLevels.toNat ++
        [flagByte truncated]

/-- The records of events, one after another. -/
def recordAll (events : List Event) : Bytes := events.flatMap record

/-- A place in a string of bytes. -/
structure Cursor where
  data : Array UInt8
  position : Nat := 0

namespace Cursor

def ofBytes (bytes : Bytes) : Cursor where
  data := bytes.toArray

/-- The bytes that have not been read. -/
def left (cursor : Cursor) : Bytes := cursor.data.toList.drop cursor.position

/-- The place behind some number of bytes. -/
def advance (cursor : Cursor) (width : Nat) : Cursor where
  data := cursor.data
  position := cursor.position + width

/-- Take some number of bytes, or none if fewer are left. -/
def take (cursor : Cursor) (width : Nat) : Option Bytes × Cursor :=
  if cursor.position + width ≤ cursor.data.size then
    (some (cursor.data.extract cursor.position (cursor.position + width)).toList,
      cursor.advance width)
  else (none, cursor)

theorem data_take (cursor : Cursor) (width : Nat) : (cursor.take width).2.data = cursor.data := by
  unfold take
  split <;> rfl

theorem position_le_take (cursor : Cursor) (width : Nat) :
    cursor.position ≤ (cursor.take width).2.position := by
  unfold take
  split
  · exact Nat.le_add_right _ _
  · exact Nat.le_refl _

end Cursor

/-- A reader has its value, or it fails, or it takes bytes and goes on with them. -/
inductive Reading (α : Type) : Type where
  | done (value : α)
  | fail
  | take (width : Nat) (rest : Bytes → Reading α)

namespace Reading

variable {α β : Type}

/-- Read with one reader and then with another. -/
def bind : Reading α → (α → Reading β) → Reading β
  | .done value, next => next value
  | .fail, _ => .fail
  | .take width rest, next => .take width fun taken => (rest taken).bind next

instance : Monad Reading where
  pure := .done
  bind := .bind

/-- Read at a cursor.  A reader may fail, and what it took before is not given
back. -/
def run : Reading α → Cursor → Option α × Cursor
  | .done value, cursor => (some value, cursor)
  | .fail, cursor => (none, cursor)
  | .take width rest, cursor =>
      match cursor.take width with
      | (none, cursor) => (none, cursor)
      | (some taken, cursor) => (rest taken).run cursor

/-- Read at the front of some bytes, and tell which are left. -/
def runOn (reading : Reading α) (bytes : Bytes) : Option α × Bytes :=
  let (value, cursor) := reading.run (.ofBytes bytes)
  (value, cursor.left)

/-- What is kept whenever bytes are taken is kept by every reader. -/
theorem run_keeps (Holds : Cursor → Prop)
    (kept : ∀ cursor width, Holds cursor → Holds (cursor.take width).2) (reading : Reading α)
    {cursor : Cursor} (holds : Holds cursor) : Holds (reading.run cursor).2 := by
  induction reading generalizing cursor with
  | done value => exact holds
  | fail => exact holds
  | take width rest inductionHypothesis =>
      have behindHolds := kept cursor width holds
      rw [run]
      split
      · rename_i behind failed
        rwa [failed] at behindHolds
      · rename_i taken behind succeeded
        rw [succeeded] at behindHolds
        exact inductionHypothesis taken behindHolds

theorem data_run (reading : Reading α) (cursor : Cursor) :
    (reading.run cursor).2.data = cursor.data := by
  apply run_keeps (fun behind => behind.data = cursor.data) _ reading rfl
  intro behind width same
  rw [Cursor.data_take, same]

theorem position_le_run (reading : Reading α) (cursor : Cursor) :
    cursor.position ≤ (reading.run cursor).2.position := by
  apply run_keeps (fun behind => cursor.position ≤ behind.position) _ reading (Nat.le_refl _)
  intro behind width later
  exact Nat.le_trans later (behind.position_le_take width)

end Reading

def readBytes (width : Nat) : Reading Bytes := .take width .done

def readWord (width : Nat) : Reading Nat := do
  return wordOfBytes (← readBytes width)

def readUInt32 : Reading UInt32 := do
  return (← readWord 4).toUInt32

def readUInt64 : Reading UInt64 := do
  return (← readWord 8).toUInt64

/-- Every byte but zero stands for truth. -/
def readFlag : Reading Bool := do
  return (← readWord 1) != 0

/-- Every byte but zero stands for the linear-shift family. -/
def readFamily : Reading Family := do
  return if ← readFlag then .linearShift else .divideConquer

def readOption : Reading (Option UInt32) := do
  let present ← readFlag
  let value ← readUInt32
  return if present then some value else none

/-- Read the fields of the record with a tag. -/
def readFields : (tag : Nat) → Reading Event
  | 1 => do
      let family ← readFamily
      let natural ← readUInt32
      let requested ← readOption
      let effective ← readUInt32
      return .depthSettled family natural requested effective (← readFlag)
  | 2 => do
      let level ← readUInt32
      let nodes ← readUInt32
      return .levelBuilt level nodes (← readUInt32)
  | 3 => do
      let limit ← readUInt64
      let emitted ← readUInt64
      return .limitReached limit emitted (← readUInt32)
  | 4 => do
      let groups ← readUInt32
      return .repeatsCounted groups (← readUInt32)
  | 5 => do
      let family ← readFamily
      let totalNodes ← readUInt64
      let totalLevels ← readUInt32
      return .drawn family totalNodes totalLevels (← readFlag)
  | _ => .fail

def readRecord : Reading Event := do
  readFields (← readWord 1)

theorem readRecord_eq : readRecord = .take 1 fun tag => readFields (wordOfBytes tag) := rfl

/-- The next event, if a whole record stands at the front, and the bytes left. -/
def next (bytes : Bytes) : Option Event × Bytes := readRecord.runOn bytes

namespace Cursor

/-- The next event, if a whole record stands at the cursor. -/
def next (cursor : Cursor) : Option Event × Cursor := readRecord.run cursor

theorem next_of_size_le {cursor : Cursor} (ended : cursor.data.size ≤ cursor.position) :
    cursor.next = (none, cursor) := by
  have untagged : cursor.take 1 = (none, cursor) := if_neg (Nat.not_lt_of_le ended)
  rw [next, readRecord_eq, Reading.run, untagged]

/-- Reading spends at least the tag, unless no byte is left. -/
theorem position_lt_next {cursor : Cursor} (inside : cursor.position < cursor.data.size) :
    cursor.position < cursor.next.2.position := by
  have tagged : cursor.take 1 = (some _, cursor.advance 1) := if_pos inside
  rw [next, readRecord_eq, Reading.run, tagged]
  exact Reading.position_le_run _ (cursor.advance 1)

/-- The events of the whole records from the cursor on. -/
def events (cursor : Cursor) : List Event :=
  match _read : cursor.next with
  | (none, _) => []
  | (some event, behind) => event :: behind.events
termination_by cursor.data.size - cursor.position
decreasing_by
  have behind_eq : behind = cursor.next.2 := by rw [_read]
  have inside : cursor.position < cursor.data.size := by
    apply Nat.lt_of_not_le
    intro ended
    rw [next_of_size_le ended] at _read
    cases _read
  rw [behind_eq, next, Reading.data_run]
  exact Nat.sub_lt_sub_left inside (position_lt_next inside)

/-- The answers of reading some number of times, whether records are whole or
not. -/
def answers : (count : Nat) → Cursor → List (Option Event)
  | 0, _ => []
  | count + 1, cursor =>
      let (event, behind) := cursor.next
      event :: answers count behind

end Cursor

/-- The events of the whole records at the front. -/
def decode (bytes : Bytes) : List Event := (Cursor.ofBytes bytes).events

def readTimes (count : Nat) (bytes : Bytes) : List (Option Event) :=
  Cursor.answers count (.ofBytes bytes)

end Event

/-- A recorder holds the records of all events that it was fed. -/
structure Recorder where
  bytes : Array UInt8 := #[]

namespace Recorder

/-- Write the record of an event behind the bytes that are there. -/
def feed (recorder : Recorder) (event : Event) : Recorder where
  bytes := recorder.bytes ++ event.record

def feedAll (recorder : Recorder) (events : List Event) : Recorder := events.foldl feed recorder

/-- The events recorded so far. -/
def events (recorder : Recorder) : List Event := Event.decode recorder.bytes.toList

end Recorder

end Unfolding
