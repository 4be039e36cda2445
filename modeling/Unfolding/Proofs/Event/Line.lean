import Unfolding.Event.Line
import Unfolding.Proofs.Number.Numeral

/-!
Printed lines tell the events.

A line begins with the kind of its event.  Behind that its fields can be cut off the
front one after another: fixed words stand between them, and no word begins with a
digit that could belong to the number before it.
-/

namespace Unfolding

namespace Event

/-- What is written can be cut off the front of a text in one way only, if the text
goes on as `Follows` tells. -/
def CutsOff {α : Type} (write : α → String) (Follows : List Char → Prop) : Prop :=
  ∀ {value other : α} {rest otherRest : List Char},
    (write value).toList ++ rest = (write other).toList ++ otherRest →
      Follows rest → Follows otherRest → value = other ∧ rest = otherRest

/-! ### Fields -/

namespace CutsOff

variable {α : Type} {write : α → String} {Follows : List Char → Prop}

/-- A word in front of a field is the same for all values. -/
theorem behind (cuts : CutsOff write Follows) {word : String} {value other : α}
    {rest otherRest : List Char}
    (same : word.toList ++ ((write value).toList ++ rest) =
      word.toList ++ ((write other).toList ++ otherRest))
    (followed : Follows rest) (otherFollowed : Follows otherRest) :
    value = other ∧ rest = otherRest :=
  cuts (List.append_cancel_left same) followed otherFollowed

theorem numeral : CutsOff (toString : Nat → String) Number.EndsNumeral := by
  intro value other rest otherRest same ended otherEnded
  simp only [Nat.toString_eq_repr, Nat.toList_repr] at same
  exact Number.toDigits_append_injective ended otherEnded same

theorem uint32 : CutsOff (fun n : UInt32 => toString n.toNat) Number.EndsNumeral := by
  intro value other rest otherRest same ended otherEnded
  rcases numeral same ended otherEnded with ⟨values, rests⟩
  exact ⟨UInt32.toNat_inj.mp values, rests⟩

theorem uint64 : CutsOff (fun n : UInt64 => toString n.toNat) Number.EndsNumeral := by
  intro value other rest otherRest same ended otherEnded
  rcases numeral same ended otherEnded with ⟨values, rests⟩
  exact ⟨UInt64.toNat_inj.mp values, rests⟩

theorem title : CutsOff Family.title fun _ => True := by
  intro value other rest otherRest same _ _
  cases value <;> cases other <;> simp_all [Family.title]

/-- A numeral begins with a digit, so it is not taken for the word `none`. -/
theorem request : CutsOff requestText Number.EndsNumeral := by
  intro value other rest otherRest same ended otherEnded
  have absent (text : List Char) : Number.EndsNumeral ("none".toList ++ text) :=
    Number.endsNumeral_cons rfl _
  have present (depth : UInt32) (text : List Char) :
      ¬ Number.EndsNumeral ((requestText (some depth)).toList ++ text) := by
    simp only [requestText, Nat.toString_eq_repr, Nat.toList_repr]
    exact Number.not_endsNumeral_toDigits_append depth.toNat text
  cases value with
  | none =>
      cases other with
      | none => exact ⟨rfl, List.append_cancel_left same⟩
      | some depth => exact absurd (same ▸ absent rest) (present depth otherRest)
  | some depth =>
      cases other with
      | none => exact absurd (same ▸ absent otherRest) (present depth rest)
      | some otherDepth =>
          rcases uint32 same ended otherEnded with ⟨depths, rests⟩
          exact ⟨congrArg some depths, rests⟩

/-- A mark begins with a blank, so it is told from the end of the line. -/
theorem mark (word : String) :
    CutsOff (fun applies => markText applies word) fun rest => rest.head? = some '\n' := by
  intro value other rest otherRest same ended otherEnded
  have blank (text : List Char) : ((markText true word).toList ++ text).head? = some ' ' := by
    simp [markText]
  cases value with
  | false =>
      cases other with
      | false => exact ⟨rfl, same⟩
      | true =>
          have marked : rest = (markText true word).toList ++ otherRest := same
          rw [marked, blank] at ended
          cases ended
  | true =>
      cases other with
      | false =>
          have marked : (markText true word).toList ++ rest = otherRest := same
          rw [← marked, blank] at otherEnded
          cases otherEnded
      | true => exact ⟨rfl, List.append_cancel_left same⟩

end CutsOff

theorem endsNumeral_markText (applies : Bool) (word : String) {rest : List Char}
    (ended : Number.EndsNumeral rest) :
    Number.EndsNumeral ((markText applies word).toList ++ rest) := by
  cases applies with
  | false => exact ended
  | true =>
      simp only [markText, if_true, String.toList_append]
      exact Number.endsNumeral_cons rfl _

/-! ### Lines -/

/-- The three characters in which the kinds of lines differ. -/
def initials : Event → List Char
  | .depthSettled .. => ['[', 'd', 'e']
  | .levelBuilt .. => ['[', 'l', 'e']
  | .limitReached .. => ['[', 'l', 'i']
  | .repeatsCounted .. => ['[', 'd', 'u']
  | .drawn .. => ['[', 'l', 'a']

theorem take_printed_append (event : Event) (rest : List Char) :
    (event.printed.toList ++ rest).take 3 = event.initials := by
  unfold printed line
  cases event
  all_goals
    simp only [String.toList_append, List.append_assoc]
    exact List.take_append_of_le_length (by decide)

/-- A printed line is cut off a text in one way only. -/
theorem printed_append_injective {event other : Event} {rest otherRest : List Char}
    (same : event.printed.toList ++ rest = other.printed.toList ++ otherRest) :
    event = other ∧ rest = otherRest := by
  have kinds : event.initials = other.initials := by
    rw [← take_printed_append event rest, same, take_printed_append]
  have blank (text : List Char) : Number.EndsNumeral (' ' :: text) :=
    Number.endsNumeral_cons rfl text
  have lineBreak (text : List Char) : Number.EndsNumeral ('\n' :: text) :=
    Number.endsNumeral_cons rfl text
  unfold printed line at same
  cases event with
  | depthSettled family natural requested effective atHorizon =>
      cases other with
      | depthSettled =>
          simp only [String.toList_append, List.append_assoc] at same
          rcases CutsOff.title.behind same trivial trivial with ⟨rfl, afterFamily⟩
          rcases CutsOff.uint32.behind afterFamily (blank _) (blank _) with ⟨rfl, afterNatural⟩
          rcases CutsOff.request.behind afterNatural (blank _) (blank _) with ⟨rfl, afterRequest⟩
          rcases CutsOff.uint32.behind afterRequest (endsNumeral_markText _ _ (lineBreak _))
            (endsNumeral_markText _ _ (lineBreak _)) with ⟨rfl, afterEffective⟩
          rcases CutsOff.mark "HORIZON" afterEffective rfl rfl with ⟨rfl, ended⟩
          exact ⟨rfl, List.append_cancel_left ended⟩
      | _ => cases kinds
  | levelBuilt level nodes baseCases =>
      cases other with
      | levelBuilt =>
          simp only [String.toList_append, List.append_assoc] at same
          rcases CutsOff.uint32.behind same (blank _) (blank _) with ⟨rfl, afterLevel⟩
          rcases CutsOff.uint32.behind afterLevel (blank _) (blank _) with ⟨rfl, afterNodes⟩
          rcases CutsOff.uint32.behind afterNodes (lineBreak _) (lineBreak _) with ⟨rfl, ended⟩
          exact ⟨rfl, List.append_cancel_left ended⟩
      | _ => cases kinds
  | limitReached limit emitted level =>
      cases other with
      | limitReached =>
          simp only [String.toList_append, List.append_assoc] at same
          rcases CutsOff.uint32.behind same (blank _) (blank _) with ⟨rfl, afterLevel⟩
          rcases CutsOff.uint64.behind afterLevel (blank _) (blank _) with ⟨rfl, afterEmitted⟩
          rcases CutsOff.uint64.behind afterEmitted (Number.endsNumeral_cons rfl _)
            (Number.endsNumeral_cons rfl _) with ⟨rfl, ended⟩
          exact ⟨rfl, List.append_cancel_left (List.append_cancel_left ended)⟩
      | _ => cases kinds
  | repeatsCounted groups annotated =>
      cases other with
      | repeatsCounted =>
          simp only [String.toList_append, List.append_assoc] at same
          rcases CutsOff.uint32.behind same (blank _) (blank _) with ⟨rfl, afterGroups⟩
          rcases CutsOff.uint32.behind afterGroups (lineBreak _) (lineBreak _) with ⟨rfl, ended⟩
          exact ⟨rfl, List.append_cancel_left ended⟩
      | _ => cases kinds
  | drawn family totalNodes totalLevels truncated =>
      cases other with
      | drawn =>
          simp only [String.toList_append, List.append_assoc] at same
          rcases CutsOff.title.behind same trivial trivial with ⟨rfl, afterFamily⟩
          rcases CutsOff.uint64.behind afterFamily (blank _) (blank _) with ⟨rfl, afterNodes⟩
          rcases CutsOff.uint32.behind afterNodes (endsNumeral_markText _ _ (lineBreak _))
            (endsNumeral_markText _ _ (lineBreak _)) with ⟨rfl, afterLevels⟩
          rcases CutsOff.mark "TRUNCATED" afterLevels rfl rfl with ⟨rfl, ended⟩
          exact ⟨rfl, List.append_cancel_left ended⟩
      | _ => cases kinds

/-! ### Texts -/

theorem toList_printedAll_cons (event : Event) (events : List Event) :
    (printedAll (event :: events)).toList = event.printed.toList ++ (printedAll events).toList := by
  rw [printedAll, List.map_cons, String.join_cons, String.toList_append, printedAll]

theorem toList_printed (event : Event) : event.printed.toList = event.line.toList ++ ['\n'] :=
  String.toList_append

theorem printedAll_injective {events others : List Event}
    (same : (printedAll events).toList = (printedAll others).toList) : events = others := by
  induction events generalizing others with
  | nil =>
      cases others with
      | nil => rfl
      | cons other others =>
          rw [toList_printedAll_cons, toList_printed] at same
          simp [printedAll] at same
  | cons event events inductionHypothesis =>
      cases others with
      | nil =>
          rw [toList_printedAll_cons, toList_printed] at same
          simp [printedAll] at same
      | cons other others =>
          rw [toList_printedAll_cons, toList_printedAll_cons] at same
          rcases printed_append_injective same with ⟨rfl, rest⟩
          rw [inductionHypothesis rest]

theorem lineBreak_not_mem_toDigits (n : Nat) : '\n' ∉ Nat.toDigits 10 n := by
  intro member
  have digit : '\n'.isDigit = true := Nat.isDigit_of_mem_toDigits (by decide) (by decide) member
  cases digit

theorem lineBreak_not_mem_title (family : Family) : '\n' ∉ family.title.toList := by
  cases family <;> decide

theorem lineBreak_not_mem_requestText (requested : Option UInt32) :
    '\n' ∉ (requestText requested).toList := by
  cases requested with
  | none => decide
  | some depth => simp [requestText, lineBreak_not_mem_toDigits]

theorem lineBreak_not_mem_markText (applies : Bool) {mark : String} (plain : '\n' ∉ mark.toList) :
    '\n' ∉ (markText applies mark).toList := by
  cases applies with
  | false => simp [markText]
  | true => simp [markText, plain]

/-- Lines hold no line breaks. -/
theorem lineBreak_not_mem_line (event : Event) : '\n' ∉ event.line.toList := by
  unfold line
  cases event
  all_goals
    simp [lineBreak_not_mem_toDigits, lineBreak_not_mem_title, lineBreak_not_mem_requestText,
      lineBreak_not_mem_markText]

/-- The lines of a text.  Each ends at a line break, and what stands behind the last
line break is a line if it is not empty. -/
def linesOf (text : String) : List String :=
  let pieces := text.toList.splitOn '\n'
  (if pieces.getLast? = some [] then pieces.dropLast else pieces).map String.ofList

theorem splitOn_printedAll (events : List Event) :
    (printedAll events).toList.splitOn '\n' = events.map (·.line.toList) ++ [[]] := by
  induction events with
  | nil => rfl
  | cons event events inductionHypothesis =>
      have plain : ∀ c ∈ event.line.toList, (c == '\n') = false := by
        intro c member
        apply beq_eq_false_iff_ne.mpr
        rintro rfl
        exact lineBreak_not_mem_line event member
      rw [toList_printedAll_cons, toList_printed, List.append_assoc, List.singleton_append,
        List.splitOn, List.splitOnP_append_cons_of_forall_mem plain '\n' rfl, ← List.splitOn,
        inductionHypothesis]
      rfl

theorem linesOf_printedAll (events : List Event) :
    linesOf (printedAll events) = events.map line := by
  unfold linesOf
  simp [splitOn_printedAll, Function.comp_def]

/-- The printed text of events tells which they were, and shows each on a line of its
own. -/
theorem printed_text_tells_events :
    (∀ events others : List Event, printedAll events = printedAll others → events = others) ∧
    ∀ events : List Event, linesOf (printedAll events) = events.map line ∧
      (linesOf (printedAll events)).length = events.length := by
  refine ⟨fun _ _ same => printedAll_injective (congrArg String.toList same), ?_⟩
  intro events
  have lines := linesOf_printedAll events
  exact ⟨lines, by rw [lines, List.length_map]⟩

end Event

end Unfolding
