import Unfolding.Proofs.Event.RoundTrip

/-!
The grammar of recordings.

A record can be spelled in several ways, since a family, a truth value or the
presence of a number may be any byte, and the number behind an absence may be
any number.  Reading takes spellings from the front until none stands there.
Writing the events again gives the canonical spelling of each.
-/

namespace Unfolding

namespace Event

/-- The fields of a record as they stand in its bytes. -/
inductive Spelling where
  | depthSettled (family : UInt8) (natural : UInt32) (presence : UInt8)
      (requested effective : UInt32) (atHorizon : UInt8)
  | levelBuilt (level nodes baseCases : UInt32)
  | limitReached (limit emitted : UInt64) (level : UInt32)
  | repeatsCounted (groups annotated : UInt32)
  | drawn (family : UInt8) (totalNodes : UInt64) (totalLevels : UInt32) (truncated : UInt8)
  deriving Repr, DecidableEq

/-- Zero stands for divide-and-conquer, every other byte for linear-shift. -/
def spelledFamily (byte : UInt8) : Family :=
  if byte = 0 then .divideConquer else .linearShift

def spelledOption (presence : UInt8) (value : UInt32) : Option UInt32 :=
  if presence = 0 then none else some value

def IsBit (byte : UInt8) : Prop := byte = 0 ∨ byte = 1

namespace Spelling

def bytes : Spelling → Bytes
  | .depthSettled family natural presence requested effective atHorizon =>
      1 :: family :: wordBytes 4 natural.toNat ++ presence :: wordBytes 4 requested.toNat ++
        wordBytes 4 effective.toNat ++ [atHorizon]
  | .levelBuilt level nodes baseCases =>
      2 :: wordBytes 4 level.toNat ++ wordBytes 4 nodes.toNat ++ wordBytes 4 baseCases.toNat
  | .limitReached limit emitted level =>
      3 :: wordBytes 8 limit.toNat ++ wordBytes 8 emitted.toNat ++ wordBytes 4 level.toNat
  | .repeatsCounted groups annotated =>
      4 :: wordBytes 4 groups.toNat ++ wordBytes 4 annotated.toNat
  | .drawn family totalNodes totalLevels truncated =>
      5 :: family :: wordBytes 8 totalNodes.toNat ++ wordBytes 4 totalLevels.toNat ++ [truncated]

/-- The event that a spelling tells. -/
def event : Spelling → Event
  | .depthSettled family natural presence requested effective atHorizon =>
      .depthSettled (spelledFamily family) natural (spelledOption presence requested) effective
        (atHorizon != 0)
  | .levelBuilt level nodes baseCases => .levelBuilt level nodes baseCases
  | .limitReached limit emitted level => .limitReached limit emitted level
  | .repeatsCounted groups annotated => .repeatsCounted groups annotated
  | .drawn family totalNodes totalLevels truncated =>
      .drawn (spelledFamily family) totalNodes totalLevels (truncated != 0)

/-- Families, truth values and presences are zero or one, and zero stands in
the place of an absent number. -/
def IsCanonical : Spelling → Prop
  | .depthSettled family _ presence requested _ atHorizon =>
      IsBit family ∧ IsBit presence ∧ (presence = 0 → requested = 0) ∧ IsBit atHorizon
  | .drawn family _ _ truncated => IsBit family ∧ IsBit truncated
  | .levelBuilt .. | .limitReached .. | .repeatsCounted .. => True

end Spelling

/-- The length of the records with a tag, the tag included. -/
def announcedLength : (tag : UInt8) → Option Nat
  | 1 => some 16
  | 2 => some 13
  | 3 => some 21
  | 4 => some 9
  | 5 => some 15
  | _ => none

/-- No whole record stands at the front. -/
inductive Stops : Bytes → Prop
  | empty : Stops []
  | unknownTag {tag : UInt8} {bytes : Bytes} (outside : tag < 1 ∨ 5 < tag) : Stops (tag :: bytes)
  | cutShort {tag : UInt8} {bytes : Bytes} {length : Nat}
      (announced : announcedLength tag = some length)
      (short : (tag :: bytes).length < length) : Stops (tag :: bytes)

/-! ### Readers of fixed width -/

/-- Unless it runs out of bytes, the reader takes `width` of them, whatever they
are. -/
inductive Reading.HasWidth {α : Type} : Reading α → Nat → Prop
  | done (value : α) : HasWidth (.done value) 0
  | take {width more : Nat} {rest : Bytes → Reading α}
      (fixed : ∀ taken, HasWidth (rest taken) more) : HasWidth (.take width rest) (width + more)

namespace Reading.HasWidth

variable {α β : Type} {reading : Reading α} {width : Nat} {bytes : Bytes}

theorem fails (fixed : HasWidth reading width) (short : bytes.length < width) :
    (reading.runOn bytes).1 = none := by
  induction fixed generalizing bytes with
  | done value => exact absurd short (Nat.not_lt_zero _)
  | @take width more rest _ inductionHypothesis =>
      rw [runOn_take]
      split
      · apply inductionHypothesis
        rw [List.length_drop]
        omega
      · rfl

/-- Also where it fails, the reader takes no more than its width. -/
theorem exists_spent (fixed : HasWidth reading width) (bytes : Bytes) :
    ∃ spent ≤ width, (reading.runOn bytes).2 = bytes.drop spent := by
  induction fixed generalizing bytes with
  | done value => exact ⟨0, Nat.le_refl 0, rfl⟩
  | @take width more rest _ inductionHypothesis =>
      rw [runOn_take]
      split
      · rcases inductionHypothesis (bytes.take width) (bytes.drop width) with
          ⟨spent, bounded, left⟩
        refine ⟨width + spent, Nat.add_le_add_left bounded width, ?_⟩
        rw [left, List.drop_drop]
      · exact ⟨0, Nat.zero_le _, rfl⟩

theorem bind {first : Reading α} {rest : α → Reading β} {more : Nat}
    (fixed : HasWidth first width) (fixedRest : ∀ value, HasWidth (rest value) more) :
    HasWidth (first >>= rest) (width + more) := by
  induction fixed with
  | done value =>
      rw [Nat.zero_add]
      exact fixedRest value
  | take _ inductionHypothesis =>
      rw [Nat.add_assoc]
      exact .take inductionHypothesis

theorem andThen {first : Reading α} (fixed : HasWidth first width) (use : α → β) :
    HasWidth (first >>= fun value => Pure.pure (use value)) width :=
  fixed.bind fun value => done (use value)

theorem readBytes (width : Nat) : HasWidth (Event.readBytes width) width := .take .done

theorem readWord (width : Nat) : HasWidth (readWord width) width :=
  (readBytes width).andThen _

theorem readUInt32 : HasWidth readUInt32 4 := (readWord 4).andThen _

theorem readUInt64 : HasWidth readUInt64 8 := (readWord 8).andThen _

theorem readFlag : HasWidth readFlag 1 := (readWord 1).andThen _

theorem readFamily : HasWidth readFamily 1 := readFlag.andThen _

theorem readOption : HasWidth readOption 5 := readFlag.bind fun _ => readUInt32.andThen _

/-- Behind its tag a record has the width that the tag announces. -/
theorem readFields {tag : UInt8} {width : Nat}
    (announced : announcedLength tag = some (width + 1)) :
    HasWidth (readFields tag.toNat) width := by
  unfold announcedLength at announced
  split at announced
  all_goals cases announced
  · exact readFamily.bind fun _ => readUInt32.bind fun _ => readOption.bind fun _ =>
      readUInt32.bind fun _ => readFlag.andThen _
  · exact readUInt32.bind fun _ => readUInt32.bind fun _ => readUInt32.andThen _
  · exact readUInt64.bind fun _ => readUInt64.bind fun _ => readUInt32.andThen _
  · exact readUInt32.bind fun _ => readUInt32.andThen _
  · exact readFamily.bind fun _ => readUInt64.bind fun _ => readUInt32.bind fun _ =>
      readFlag.andThen _

end Reading.HasWidth

theorem next_cons (tag : UInt8) (bytes : Bytes) :
    next (tag :: bytes) = (readFields tag.toNat).runOn bytes := by
  have tagged : 1 ≤ (tag :: bytes).length := Nat.le_add_left 1 _
  rw [next, readRecord_eq, Reading.runOn_take, if_pos tagged]
  rfl

theorem announcedLength_eq_none_iff {tag : UInt8} :
    announcedLength tag = none ↔ tag < 1 ∨ 5 < tag := by
  unfold announcedLength
  split
  case h_6 => grind
  all_goals decide

/-- Every record announces its own length. -/
theorem exists_tag (event : Event) :
    ∃ tag fields, event.record = tag :: fields ∧
      announcedLength tag = some event.record.length := by
  cases event with
  | depthSettled family natural requested effective atHorizon =>
      have option : (optionBytes requested).length = 5 := by
        cases requested <;> simp [optionBytes]
      exact ⟨1, _, rfl, by simp [record, option, announcedLength]⟩
  | levelBuilt level nodes baseCases => exact ⟨2, _, rfl, by simp [record, announcedLength]⟩
  | limitReached limit emitted level => exact ⟨3, _, rfl, by simp [record, announcedLength]⟩
  | repeatsCounted groups annotated => exact ⟨4, _, rfl, by simp [record, announcedLength]⟩
  | drawn family totalNodes totalLevels truncated =>
      exact ⟨5, _, rfl, by simp [record, announcedLength]⟩

theorem readFields_of_announcedLength_eq_none {tag : UInt8} (unknown : announcedLength tag = none) :
    readFields tag.toNat = .fail := by
  have outside : tag.toNat < 1 ∨ 5 < tag.toNat := announcedLength_eq_none_iff.mp unknown
  unfold readFields
  split
  case h_6 => rfl
  all_goals omega

theorem Stops.next_eq_none {bytes : Bytes} (stops : Stops bytes) : (next bytes).1 = none := by
  cases stops with
  | empty => rfl
  | unknownTag outside =>
      rw [next_cons, readFields_of_announcedLength_eq_none
        (announcedLength_eq_none_iff.mpr outside)]
      rfl
  | @cutShort tag bytes length announced short =>
      obtain ⟨width, rfl⟩ : ∃ width, length = width + 1 :=
        Nat.exists_eq_add_one.mpr (Nat.zero_lt_of_lt short)
      rw [next_cons]
      exact (Reading.HasWidth.readFields announced).fails (Nat.lt_of_succ_lt_succ short)

/-! ### Reading a spelling -/

theorem wordOfBytes_lt (bytes : Bytes) : wordOfBytes bytes < Nat.pow 256 bytes.length := by
  induction bytes with
  | nil => exact Nat.one_pos
  | cons byte bytes inductionHypothesis =>
      have small := byte.toNat_lt
      have longer : Nat.pow 256 (bytes.length + 1) = Nat.pow 256 bytes.length * 256 := rfl
      rw [wordOfBytes, List.length_cons, longer]
      omega

/-- Every string of bytes spells a number of its width. -/
theorem wordBytes_wordOfBytes (bytes : Bytes) :
    wordBytes bytes.length (wordOfBytes bytes) = bytes := by
  induction bytes with
  | nil => rfl
  | cons byte bytes inductionHypothesis =>
      have small := byte.toNat_lt
      have quotient : (byte.toNat + 256 * wordOfBytes bytes) / 256 = wordOfBytes bytes := by omega
      have first : UInt8.ofNat (byte.toNat + 256 * wordOfBytes bytes) = byte := by
        apply UInt8.toNat_inj.mp
        rw [UInt8.toNat_ofNat']
        omega
      rw [List.length_cons, wordBytes, wordOfBytes, quotient, first, inductionHypothesis]

section Cuts

variable {motive : Bytes → Prop} {more : Nat} {bytes : Bytes}

@[elab_as_elim]
theorem byte_cases (enough : more + 1 ≤ bytes.length)
    (cut : ∀ (byte : UInt8) (rest : Bytes), more ≤ rest.length → motive (byte :: rest)) :
    motive bytes := by
  cases bytes with
  | nil => exact absurd enough (Nat.not_succ_le_zero more)
  | cons byte rest => exact cut byte rest (Nat.le_of_succ_le_succ enough)

@[elab_as_elim]
theorem word_cases {width : Nat} (enough : more + width ≤ bytes.length)
    (cut : ∀ n < Nat.pow 256 width, ∀ rest : Bytes, more ≤ rest.length →
      motive (wordBytes width n ++ rest)) : motive bytes := by
  have sized : (bytes.take width).length = width := List.length_take_of_le (by omega)
  have bounded := wordOfBytes_lt (bytes.take width)
  have word := wordBytes_wordOfBytes (bytes.take width)
  rw [sized] at bounded word
  have whole := cut _ bounded (bytes.drop width) (by rw [List.length_drop]; omega)
  rwa [word, List.take_append_drop] at whole

@[elab_as_elim]
theorem uint32_cases (enough : more + 4 ≤ bytes.length)
    (cut : ∀ (n : UInt32) (rest : Bytes), more ≤ rest.length →
      motive (wordBytes 4 n.toNat ++ rest)) : motive bytes := by
  refine word_cases enough fun n bounded rest left => ?_
  have whole := cut n.toUInt32 rest left
  rwa [Nat.toUInt32, UInt32.toNat_ofNat_of_lt' bounded] at whole

@[elab_as_elim]
theorem uint64_cases (enough : more + 8 ≤ bytes.length)
    (cut : ∀ (n : UInt64) (rest : Bytes), more ≤ rest.length →
      motive (wordBytes 8 n.toNat ++ rest)) : motive bytes := by
  refine word_cases enough fun n bounded rest left => ?_
  have whole := cut n.toUInt64 rest left
  rwa [Nat.toUInt64, UInt64.toNat_ofNat_of_lt' bounded] at whole

end Cuts

namespace Spelling

theorem length_bytes_pos (spelling : Spelling) : 0 < spelling.bytes.length := by
  cases spelling <;> exact Nat.succ_pos _

/-- A record that is not cut short is spelled in some way. -/
theorem exists_of_announcedLength {tag : UInt8} {bytes : Bytes} {length : Nat}
    (announced : announcedLength tag = some length) (whole : length ≤ (tag :: bytes).length) :
    ∃ (spelling : Spelling) (rest : Bytes), tag :: bytes = spelling.bytes ++ rest := by
  unfold announcedLength at announced
  split at announced
  all_goals cases announced
  all_goals have enough := Nat.le_of_succ_le_succ whole
  · refine byte_cases enough fun family bytes enough => ?_
    refine uint32_cases enough fun natural bytes enough => ?_
    refine byte_cases enough fun presence bytes enough => ?_
    refine uint32_cases enough fun requested bytes enough => ?_
    refine uint32_cases enough fun effective bytes enough => ?_
    refine byte_cases enough fun atHorizon bytes enough => ?_
    exact ⟨.depthSettled family natural presence requested effective atHorizon, bytes,
      by simp [Spelling.bytes]⟩
  · refine uint32_cases enough fun level bytes enough => ?_
    refine uint32_cases enough fun nodes bytes enough => ?_
    refine uint32_cases enough fun baseCases bytes enough => ?_
    exact ⟨.levelBuilt level nodes baseCases, bytes, by simp [Spelling.bytes]⟩
  · refine uint64_cases enough fun limit bytes enough => ?_
    refine uint64_cases enough fun emitted bytes enough => ?_
    refine uint32_cases enough fun level bytes enough => ?_
    exact ⟨.limitReached limit emitted level, bytes, by simp [Spelling.bytes]⟩
  · refine uint32_cases enough fun groups bytes enough => ?_
    refine uint32_cases enough fun annotated bytes enough => ?_
    exact ⟨.repeatsCounted groups annotated, bytes, by simp [Spelling.bytes]⟩
  · refine byte_cases enough fun family bytes enough => ?_
    refine uint64_cases enough fun totalNodes bytes enough => ?_
    refine uint32_cases enough fun totalLevels bytes enough => ?_
    refine byte_cases enough fun truncated bytes enough => ?_
    exact ⟨.drawn family totalNodes totalLevels truncated, bytes, by simp [Spelling.bytes]⟩

end Spelling

namespace Reading.Takes

theorem readSpelledFlag (byte : UInt8) : Takes Event.readFlag [byte] (byte != 0) := by
  have flag : Takes Event.readFlag [byte] (byte.toNat != 0) := (readByte byte).andThen _
  have nonzero : (byte.toNat != 0) = (byte != 0) := by
    rw [Bool.eq_iff_iff, bne_iff_ne, bne_iff_ne, ne_eq, ne_eq, ← UInt8.toNat_inj]
    rfl
  rwa [nonzero] at flag

theorem readSpelledFamily (byte : UInt8) : Takes Event.readFamily [byte] (spelledFamily byte) := by
  have family := (readSpelledFlag byte).andThen
    fun flag => if flag then Family.linearShift else .divideConquer
  by_cases zero : byte = 0
  · subst zero
    exact family
  · rw [spelledFamily, if_neg zero]
    rwa [bne_iff_ne.mpr zero] at family

theorem readSpelledOption (presence : UInt8) (value : UInt32) :
    Takes Event.readOption (presence :: wordBytes 4 value.toNat)
      (spelledOption presence value) := by
  have option : Takes Event.readOption (presence :: wordBytes 4 value.toNat)
      (if presence != 0 then some value else none) :=
    (readSpelledFlag presence).bind ((readUInt32 value).andThen _)
  by_cases zero : presence = 0
  · subst zero
    exact option
  · rw [spelledOption, if_neg zero]
    rwa [bne_iff_ne.mpr zero] at option

/-- A record is read as the event that its spelling tells. -/
theorem readSpelling (spelling : Spelling) :
    Takes Event.readRecord spelling.bytes spelling.event := by
  cases spelling with
  | depthSettled family natural presence requested effective atHorizon =>
      have fields : Takes (Event.readFields 1) _ (Spelling.event (.depthSettled ..)) :=
        (readSpelledFamily family).bind <| (readUInt32 natural).bind <|
          (readSpelledOption presence requested).bind <| (readUInt32 effective).bind <|
            (readSpelledFlag atHorizon).andThen _
      simpa [Spelling.bytes] using readTagged (by decide) fields
  | levelBuilt level nodes baseCases => exact readRecord (.levelBuilt level nodes baseCases)
  | limitReached limit emitted level => exact readRecord (.limitReached limit emitted level)
  | repeatsCounted groups annotated => exact readRecord (.repeatsCounted groups annotated)
  | drawn family totalNodes totalLevels truncated =>
      have fields : Takes (Event.readFields 5) _ (Spelling.event (.drawn ..)) :=
        (readSpelledFamily family).bind <| (readUInt64 totalNodes).bind <|
          (readUInt32 totalLevels).bind <| (readSpelledFlag truncated).andThen _
      simpa [Spelling.bytes] using readTagged (by decide) fields

end Reading.Takes

/-- At every place either reading stops or a spelling is read. -/
theorem stops_or_next_eq (bytes : Bytes) :
    Stops bytes ∨ ∃ (spelling : Spelling) (rest : Bytes),
      bytes = spelling.bytes ++ rest ∧ next bytes = (some spelling.event, rest) := by
  cases bytes with
  | nil => exact .inl .empty
  | cons tag bytes =>
      cases announced : announcedLength tag with
      | none => exact .inl (.unknownTag (announcedLength_eq_none_iff.mp announced))
      | some length =>
          by_cases short : (tag :: bytes).length < length
          · exact .inl (.cutShort announced short)
          · obtain ⟨spelling, rest, same⟩ :=
              Spelling.exists_of_announcedLength announced (Nat.le_of_not_lt short)
            rw [same]
            exact .inr ⟨spelling, rest, rfl, Reading.Takes.readSpelling spelling rest⟩

/-! ### Decoding -/

theorem decode_spellings_append (spellings : List Spelling) (rest : Bytes) :
    decode (spellings.flatMap Spelling.bytes ++ rest) =
      spellings.map Spelling.event ++ decode rest := by
  induction spellings with
  | nil => rfl
  | cons spelling spellings inductionHypothesis =>
      rw [List.flatMap_cons, List.append_assoc,
        decode_of_next_eq_some (Reading.Takes.readSpelling spelling _), inductionHypothesis]
      rfl

/-- Decoding cuts every string of bytes into spellings and a rest where it stops. -/
theorem exists_spellings (bytes : Bytes) :
    ∃ (spellings : List Spelling) (rest : Bytes),
      bytes = spellings.flatMap Spelling.bytes ++ rest ∧
      decode bytes = spellings.map Spelling.event ∧ Stops rest := by
  rcases stops_or_next_eq bytes with stops | ⟨spelling, behind, same, read⟩
  · exact ⟨[], bytes, rfl, decode_of_next_eq_none stops.next_eq_none, stops⟩
  · have shorter : behind.length < bytes.length := by
      rw [same, List.length_append]
      exact Nat.lt_add_of_pos_left spelling.length_bytes_pos
    rcases exists_spellings behind with ⟨spellings, rest, parts, decoded, stops⟩
    refine ⟨spelling :: spellings, rest, ?_, ?_, stops⟩
    · rw [same, List.flatMap_cons, List.append_assoc, ← parts]
    · rw [decode_of_next_eq_some read, decoded, List.map_cons]
termination_by bytes.length

/-! ### Canonical spellings -/

theorem flagByte_eq_iff {byte : UInt8} : byte = flagByte (byte != 0) ↔ IsBit byte := by
  by_cases zero : byte = 0 <;> simp [flagByte, IsBit, zero]

theorem familyByte_eq_iff {byte : UInt8} : byte = familyByte (spelledFamily byte) ↔ IsBit byte := by
  by_cases zero : byte = 0 <;> simp [familyByte, spelledFamily, IsBit, zero]

theorem wordBytes_uint32_injective {m n : UInt32}
    (same : wordBytes 4 m.toNat = wordBytes 4 n.toNat) : m = n := by
  apply UInt32.toNat_inj.mp
  calc
    m.toNat = wordOfBytes (wordBytes 4 m.toNat) := (wordOfBytes_wordBytes m.toNat_lt).symm
    _ = wordOfBytes (wordBytes 4 n.toNat) := by rw [same]
    _ = n.toNat := wordOfBytes_wordBytes n.toNat_lt

theorem optionBytes_eq_iff {presence : UInt8} {value : UInt32} :
    presence :: wordBytes 4 value.toNat = optionBytes (spelledOption presence value) ↔
      IsBit presence ∧ (presence = 0 → value = 0) := by
  by_cases zero : presence = 0
  · subst zero
    have absent : wordBytes 4 value.toNat = wordBytes 4 0 ↔ value = 0 := by
      constructor
      · exact wordBytes_uint32_injective (n := 0)
      · rintro rfl
        rfl
    simp [spelledOption, optionBytes, IsBit, absent]
  · simp [spelledOption, optionBytes, IsBit, zero]

namespace Spelling

theorem length_spelledOption (presence : UInt8) (value : UInt32) :
    (optionBytes (spelledOption presence value)).length = 5 := by
  unfold spelledOption
  split <;> simp [optionBytes]

theorem length_bytes (spelling : Spelling) :
    spelling.bytes.length = spelling.event.record.length := by
  cases spelling <;> simp [bytes, event, record, length_spelledOption]

/-- Writing an event again gives back its spelling exactly if that was canonical. -/
theorem bytes_eq_record_iff (spelling : Spelling) :
    spelling.bytes = spelling.event.record ↔ spelling.IsCanonical := by
  cases spelling with
  | depthSettled family natural presence requested effective atHorizon =>
      have option : presence :: wordBytes 4 requested.toNat ++
            (wordBytes 4 effective.toNat ++ [atHorizon]) =
          optionBytes (spelledOption presence requested) ++
            (wordBytes 4 effective.toNat ++ [flagByte (atHorizon != 0)]) ↔
          (IsBit presence ∧ (presence = 0 → requested = 0)) ∧ IsBit atHorizon := by
        rw [← optionBytes_eq_iff, ← flagByte_eq_iff]
        constructor
        · intro same
          obtain ⟨options, rest⟩ := List.append_inj same (by simp [length_spelledOption])
          exact ⟨options, by simpa using rest⟩
        · rintro ⟨options, flags⟩
          rw [options, ← flags]
      simp only [bytes, event, record, IsCanonical, List.cons_append, List.append_assoc,
        List.cons.injEq, List.append_cancel_left_eq, familyByte_eq_iff, true_and] at option ⊢
      rw [option, and_assoc]
  | levelBuilt level nodes baseCases => exact iff_of_true rfl trivial
  | limitReached limit emitted level => exact iff_of_true rfl trivial
  | repeatsCounted groups annotated => exact iff_of_true rfl trivial
  | drawn family totalNodes totalLevels truncated =>
      simp [bytes, event, record, IsCanonical, familyByte_eq_iff, flagByte_eq_iff]

theorem flatMap_bytes_eq_recordAll_iff (spellings : List Spelling) :
    spellings.flatMap bytes = recordAll (spellings.map event) ↔
      ∀ spelling ∈ spellings, spelling.IsCanonical := by
  induction spellings with
  | nil => simp [recordAll]
  | cons spelling spellings inductionHypothesis =>
      have whole : recordAll ((spelling :: spellings).map event) =
          spelling.event.record ++ recordAll (spellings.map event) := rfl
      rw [List.flatMap_cons, whole, List.forall_mem_cons, ← inductionHypothesis,
        ← bytes_eq_record_iff]
      constructor
      · intro same
        exact List.append_inj same spelling.length_bytes
      · rintro ⟨first, rest⟩
        rw [← first, rest]

theorem length_flatMap_bytes (spellings : List Spelling) :
    (spellings.flatMap bytes).length = (recordAll (spellings.map event)).length := by
  simp [recordAll, List.length_flatMap, Function.comp_def, length_bytes]

end Spelling

theorem decode_eq_iff {bytes : Bytes} {events : List Event} :
    decode bytes = events ↔
      ∃ (spellings : List Spelling) (rest : Bytes),
        bytes = spellings.flatMap Spelling.bytes ++ rest ∧ Stops rest ∧
        events = spellings.map Spelling.event := by
  constructor
  · rintro rfl
    obtain ⟨spellings, rest, parts, decoded, stops⟩ := exists_spellings bytes
    exact ⟨spellings, rest, parts, stops, decoded⟩
  · rintro ⟨spellings, rest, rfl, stops, rfl⟩
    rw [decode_spellings_append, decode_of_next_eq_none stops.next_eq_none, List.append_nil]

/-- Decoding accepts exactly the grammar, and recording what was decoded makes
the accepted bytes canonical. -/
theorem decoding_canonicalises (bytes : Bytes) :
    (∀ events, decode bytes = events ↔
      ∃ (spellings : List Spelling) (rest : Bytes),
        bytes = spellings.flatMap Spelling.bytes ++ rest ∧ Stops rest ∧
        events = spellings.map Spelling.event) ∧
    ∃ (accepted rest : Bytes) (spellings : List Spelling),
      bytes = accepted ++ rest ∧
      accepted.length = (recordAll (decode bytes)).length ∧
      decode accepted = decode bytes ∧
      (next rest).1 = none ∧ Stops rest ∧
      decode (recordAll (decode bytes)) = decode bytes ∧
      accepted = spellings.flatMap Spelling.bytes ∧
      decode bytes = spellings.map Spelling.event ∧
      (accepted = recordAll (decode bytes) ↔ ∀ spelling ∈ spellings, spelling.IsCanonical) := by
  obtain ⟨spellings, rest, parts, decoded, stops⟩ := exists_spellings bytes
  refine ⟨fun _ => decode_eq_iff, spellings.flatMap Spelling.bytes, rest, spellings, parts, ?_, ?_,
    stops.next_eq_none, stops, ?_, rfl, decoded, ?_⟩
  · rw [decoded, Spelling.length_flatMap_bytes]
  · have alone := decode_spellings_append spellings []
    rwa [List.append_nil, decode_nil, List.append_nil, ← decoded] at alone
  · have again := decode_recordAll_append (decode bytes) []
    rwa [List.append_nil, decode_nil, List.append_nil] at again
  · rw [decoded]
    exact Spelling.flatMap_bytes_eq_recordAll_iff spellings

end Event

end Unfolding
