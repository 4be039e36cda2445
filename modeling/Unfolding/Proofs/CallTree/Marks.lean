import Unfolding.Proofs.CallTree.Repetition
import Unfolding.Proofs.Number.Equality
import Unfolding.Proofs.Words.Columns

/-!
Marks that keep up with a growing tree.

Repetitions may be noted again and again while calls are added, and what was noted is
never taken back.  No call is ever removed, so a call that repeats goes on repeating,
and noting the repetitions anew replaces every mark that is out of date.
-/

namespace Unfolding

namespace CallTree

/-- The arguments of all calls, in the order of the slots. -/
def arguments (tree : CallTree) : List Float := tree.calls.toList.map Call.argument

/-- The tree without what was noted about repetitions. -/
def withoutMarks (tree : CallTree) : CallTree :=
  { tree with calls := tree.calls.map fun call => { call with repeats := none } }

/-- The argument of the call that an edit adds. -/
def Edit.argument? : Edit → Option Float
  | .addRoot _ argument _ => some argument
  | .addChild _ _ argument _ => some argument
  | .markRepeats => none

/-! ### Arguments after an edit -/

theorem map_argumentKey_arguments (tree : CallTree) :
    tree.arguments.map argumentKey = tree.argumentKeys := List.map_map

theorem arguments_markRepeats (tree : CallTree) :
    tree.markRepeats.1.arguments = tree.arguments := by
  have kept : ∀ call ∈ tree.calls,
      (noteRepeats tree.argumentCounts call).argument = call.argument := by
    intro call _
    rcases exists_noteRepeats tree.argumentCounts call with ⟨repeats, noted⟩
    rw [noted]
  simpa [arguments, markRepeats] using kept

theorem argumentKeys_markRepeats (tree : CallTree) :
    tree.markRepeats.1.argumentKeys = tree.argumentKeys := by
  rw [← map_argumentKey_arguments, arguments_markRepeats, map_argumentKey_arguments]

theorem exists_getElem?_of_markRepeats {tree : CallTree} {slot : Nat} {call : Call}
    (place : tree.markRepeats.1.calls[slot]? = some call) :
    ∃ old, tree.calls[slot]? = some old := by
  have sized : tree.markRepeats.1.size = tree.size := Array.size_map
  exact lt_size_iff.mp (sized ▸ lt_size_iff.mpr ⟨call, place⟩)

section Additions

variable {tree result : CallTree} {id : String} {argument : Float} {isBase : Bool} {parent : Nat}

theorem arguments_of_addRoot (added : tree.addRoot id argument isBase = .ok result) :
    result.arguments = [argument] := by
  rw [arguments, (exists_of_addRoot added).2]
  rfl

theorem arguments_of_addChild (added : tree.addChild parent id argument isBase = .ok result) :
    result.arguments = tree.arguments ++ [argument] := by
  rcases getElem?_of_addChild added with ⟨caller, found, -⟩
  have column : result.calls.map Call.argument = (tree.calls.map Call.argument).push argument :=
    map_calls_of_addChild_of_forgets (fun _ _ => rfl) found added
  simpa [arguments] using congrArg Array.toList column

end Additions

/-- Edits bring no arguments into the tree but their own. -/
theorem mem_arguments_of_edit {tree result : CallTree} {change : Edit} {argument : Float}
    (changed : tree.edit change = .ok result) (member : argument ∈ result.arguments) :
    argument ∈ tree.arguments ∨ change.argument? = some argument := by
  cases change with
  | addRoot id own isBase =>
      rw [arguments_of_addRoot changed, List.mem_singleton] at member
      exact .inr (congrArg some member.symm)
  | addChild parent id own isBase =>
      rw [arguments_of_addChild changed, List.mem_append, List.mem_singleton] at member
      exact member.imp_right fun same => congrArg some same.symm
  | markRepeats =>
      cases changed
      rw [arguments_markRepeats] at member
      exact .inl member

theorem mem_arguments_of_attempt {tree : CallTree} {change : Edit} {argument : Float}
    (member : argument ∈ (tree.attempt change).arguments) :
    argument ∈ tree.arguments ∨ change.argument? = some argument := by
  unfold attempt at member
  cases changed : tree.edit change with
  | error fault =>
      rw [changed] at member
      exact .inl member
  | ok result =>
      rw [changed] at member
      exact mem_arguments_of_edit changed member

theorem exists_edit_of_mem_arguments {tree : CallTree} {changes : List Edit} {argument : Float}
    (member : argument ∈ (tree.attemptAll changes).arguments) :
    argument ∈ tree.arguments ∨ ∃ change ∈ changes, change.argument? = some argument := by
  induction changes generalizing tree with
  | nil => exact .inl member
  | cons change changes inductionHypothesis =>
      rcases inductionHypothesis member with before | ⟨later, laterMember, own⟩
      · rcases mem_arguments_of_attempt before with earlier | own
        · exact .inl earlier
        · exact .inr ⟨change, List.mem_cons_self, own⟩
      · exact .inr ⟨later, List.mem_cons_of_mem change laterMember, own⟩

/-! ### Marks after an edit -/

namespace MarksWithin

variable {tree result : CallTree}

theorem of_empty (empty : tree.calls = #[]) : tree.MarksWithin := by
  intro call member
  simp [empty] at member

/-- Where a call is added, the counts can only grow. -/
theorem addChild {parent : Nat} {id : String} {argument : Float} {isBase : Bool}
    (within : tree.MarksWithin) (added : tree.addChild parent id argument isBase = .ok result) :
    result.MarksWithin := by
  have grown (key : UInt64) : tree.argumentKeys.count key ≤ result.argumentKeys.count key := by
    rw [← map_argumentKey_arguments, ← map_argumentKey_arguments, arguments_of_addChild added,
      List.map_append, List.count_append]
    exact Nat.le_add_right _ _
  have kept {call : Call} (member : call ∈ tree.calls) (count : Nat)
      (noted : call.repeats = some count) :
      1 < count ∧ count ≤ result.argumentKeys.count (argumentKey call.argument) :=
    (within call member count noted).imp_right fun bounded => Nat.le_trans bounded (grown _)
  rcases getElem?_of_addChild added with ⟨caller, found, calls⟩
  intro call member count noted
  rcases Array.getElem?_of_mem member with ⟨slot, place⟩
  rw [calls] at place
  split at place
  · cases place
    cases noted
  · split at place
    · cases place
      exact kept (Array.mem_of_getElem? found) count noted
    · exact kept (Array.mem_of_getElem? place) count noted

theorem markRepeats (within : tree.MarksWithin) : tree.markRepeats.1.MarksWithin := by
  intro call member count noted
  rcases Array.getElem?_of_mem member with ⟨slot, place⟩
  rcases exists_getElem?_of_markRepeats place with ⟨old, found⟩
  rw [within.getElem?_markRepeats found] at place
  cases place
  rw [argumentKeys_markRepeats]
  dsimp only at noted ⊢
  split at noted
  · rename_i several
    cases noted
    exact ⟨several, Nat.le_refl _⟩
  · cases noted

theorem edit {change : Edit} (within : tree.MarksWithin) (changed : tree.edit change = .ok result) :
    result.MarksWithin := by
  cases change with
  | addRoot id argument isBase => exact (Unmarked.addRoot changed).marksWithin
  | addChild parent id argument isBase => exact within.addChild changed
  | markRepeats =>
      cases changed
      exact within.markRepeats

theorem attemptAll (within : tree.MarksWithin) (changes : List Edit) :
    (tree.attemptAll changes).MarksWithin :=
  attemptAll_keeps edit within changes

end MarksWithin

/-! ### Noting twice -/

theorem noteRepeats_noteRepeats (counts : Std.TreeMap UInt64 Nat) (call : Call) :
    noteRepeats counts (noteRepeats counts call) = noteRepeats counts call := by
  simp only [noteRepeats]
  split <;> simp only

/-- What was noted just now is not changed by noting it again. -/
theorem markRepeats_markRepeats (tree : CallTree) :
    tree.markRepeats.1.markRepeats = tree.markRepeats := by
  have counts : tree.markRepeats.1.argumentCounts = tree.argumentCounts := by
    rw [argumentCounts_eq_foldl, argumentKeys_markRepeats, ← argumentCounts_eq_foldl]
  have calls : tree.markRepeats.1.calls.map (noteRepeats tree.argumentCounts) =
      tree.markRepeats.1.calls := by
    simp [markRepeats, noteRepeats_noteRepeats]
  rw [markRepeats, counts, calls]
  rfl

theorem withoutMarks_markRepeats (tree : CallTree) :
    tree.markRepeats.1.withoutMarks = tree.withoutMarks := by
  have forgotten (call : Call) :
      { noteRepeats tree.argumentCounts call with repeats := none } =
        { call with repeats := none } := by
    rcases exists_noteRepeats tree.argumentCounts call with ⟨repeats, noted⟩
    rw [noted]
  simp [withoutMarks, markRepeats, Function.comp_def, forgotten]

end CallTree

/-! ### Numbers and their keys -/

theorem count_map_argumentKey {numbers : List Float}
    (numeric : ∀ x ∈ numbers, x.isNaN = false) (y : Float) :
    (numbers.map argumentKey).count (argumentKey y) = numbers.count y := by
  rw [List.count_eq_countP, List.countP_map, List.count_eq_countP]
  apply List.countP_congr
  intro x member
  simp only [Function.comp_apply, beq_iff_eq]
  exact argumentKey_eq_iff (numeric x member) y

section Distinct

variable {α β : Type} [BEq α] [BEq β]

/-- Distinct items have distinct images if the images are told apart as the items are. -/
theorem map_eraseDups {image : α → β} : (items : List α) →
    (∀ a ∈ items, ∀ b ∈ items, (image a == image b) = (a == b)) →
      items.eraseDups.map image = (items.map image).eraseDups
  | [], _ => by simp
  | first :: rest, agree => by
      have others : (rest.filter fun item => !item == first).map image =
          (rest.map image).filter fun item => !item == image first := by
        rw [List.filter_map]
        apply congrArg
        apply List.filter_congr
        intro item member
        rw [Function.comp_apply,
          agree item (List.mem_cons_of_mem first member) first List.mem_cons_self]
      have kept : ∀ item ∈ rest.filter (fun item => !item == first), item ∈ first :: rest :=
        fun item member => List.mem_cons_of_mem first (List.mem_of_mem_filter member)
      rw [List.eraseDups_cons, List.map_cons, List.map_cons, List.eraseDups_cons, ← others,
        map_eraseDups (rest.filter fun item => !item == first) fun a inside b alsoInside =>
          agree a (kept a inside) b (kept b alsoInside)]
  termination_by items => items.length
  decreasing_by exact Nat.lt_succ_of_le (List.length_filter_le _ _)

theorem nodup_eraseDups [LawfulBEq α] : (items : List α) → items.eraseDups.Nodup
  | [] => by simp
  | first :: rest => by
      rw [List.eraseDups_cons, List.nodup_cons]
      refine ⟨?_, nodup_eraseDups (rest.filter fun item => !item == first)⟩
      simp [List.mem_eraseDups]
  termination_by items => items.length
  decreasing_by exact Nat.lt_succ_of_le (List.length_filter_le _ _)

end Distinct

namespace CallTree

variable {tree : CallTree}

/-- The groups are the numbers that more than one call has. -/
theorem groups_eq_of_numeric (numeric : ∀ x ∈ tree.arguments, x.isNaN = false) :
    tree.markRepeats.2.groups = (tree.arguments.eraseDups.filter
      fun argument => 1 < tree.arguments.count argument).length := by
  have distinct : tree.arguments.eraseDups.map argumentKey = tree.argumentKeys.eraseDups := by
    rw [← map_argumentKey_arguments]
    apply map_eraseDups
    intro x member y _
    rw [Bool.eq_iff_iff, beq_iff_eq]
    exact argumentKey_eq_iff (numeric x member) y
  have keys : tree.argumentKeys.dedup.Perm (tree.arguments.eraseDups.map argumentKey) := by
    rw [distinct]
    apply (List.perm_ext_iff_of_nodup (List.nodup_dedup _) (nodup_eraseDups _)).mpr
    intro key
    rw [List.mem_dedup, List.mem_eraseDups]
  calc
    tree.markRepeats.2.groups =
        (tree.argumentKeys.dedup.filter fun key => 1 < tree.argumentKeys.count key).length :=
      groups_markRepeats tree
    _ = ((tree.arguments.eraseDups.map argumentKey).filter
          fun key => 1 < tree.argumentKeys.count key).length :=
      (keys.filter _).length_eq
    _ = _ := by
      rw [List.filter_map, List.length_map]
      simp only [Function.comp_def, ← map_argumentKey_arguments, count_map_argumentKey numeric]

/-- A mark counts the calls with the same number for their argument. -/
theorem repeats_eq_some_iff (within : tree.MarksWithin)
    (numeric : ∀ x ∈ tree.arguments, x.isNaN = false) {call : Call}
    (member : call ∈ tree.markRepeats.1.calls) (count : Nat) :
    call.repeats = some count ↔ 1 < count ∧ tree.arguments.count call.argument = count := by
  rcases Array.getElem?_of_mem member with ⟨slot, place⟩
  rcases exists_getElem?_of_markRepeats place with ⟨old, found⟩
  rw [within.getElem?_markRepeats found] at place
  cases place
  simp only [← map_argumentKey_arguments, count_map_argumentKey numeric]
  split
  · simp only [Option.some.injEq]
    omega
  · simp only [reduceCtorEq, false_iff]
    omega

/-- Where a call was marked before, its mark does not become smaller. -/
theorem MarksWithin.exists_more (within : tree.MarksWithin) {slot count : Nat} {call : Call}
    (found : tree.calls[slot]? = some call) (noted : call.repeats = some count) :
    ∃ more ≥ count, tree.markRepeats.1.calls[slot]? = some { call with repeats := some more } := by
  rcases within call (Array.mem_of_getElem? found) count noted with ⟨several, bounded⟩
  refine ⟨_, bounded, ?_⟩
  rw [within.getElem?_markRepeats found]
  simp only [if_pos (Nat.lt_of_lt_of_le several bounded)]

/-- However a tree has grown and been marked before, noting its repetitions counts the
calls that have the same number for their argument.  It takes no mark back and
changes nothing else, and done again it changes nothing at all. -/
theorem history_counts_repeats (family : Family) (changes : List Edit)
    (numeric : ∀ change ∈ changes, ∀ argument, change.argument? = some argument →
      argument.isNaN = false) :
    let before := attemptAll { family } changes
    let marked := before.markRepeats.1
    let repetition := before.markRepeats.2
    attemptAll { family } (changes ++ [.markRepeats]) = marked ∧
    (∀ call ∈ marked.calls, ∀ count, call.repeats = some count ↔
      1 < count ∧ marked.arguments.count call.argument = count) ∧
    repetition.groups = (marked.arguments.eraseDups.filter
      fun argument => 1 < marked.arguments.count argument).length ∧
    repetition.annotated = marked.calls.toList.countP (·.repeats.isSome) ∧
    marked.withoutMarks = before.withoutMarks ∧
    (∀ (slot count : Nat) (call : Call), before.calls[slot]? = some call →
      call.repeats = some count →
        ∃ more ≥ count, marked.calls[slot]? = some { call with repeats := some more }) ∧
    marked.markRepeats = (marked, repetition) ∧
    marked.size ≤ capacity := by
  intro before marked repetition
  have within : before.MarksWithin := (MarksWithin.of_empty rfl).attemptAll changes
  have numbers : ∀ x ∈ before.arguments, x.isNaN = false := by
    intro x member
    rcases exists_edit_of_mem_arguments member with old | ⟨change, inside, own⟩
    · cases old
    · exact numeric change inside x own
  have same : marked.arguments = before.arguments := arguments_markRepeats before
  have ended : attemptAll { family } (changes ++ [.markRepeats]) = marked := List.foldl_append
  rw [same]
  refine ⟨ended, ?_, groups_eq_of_numeric numbers, within.annotated_markRepeats,
    withoutMarks_markRepeats before, ?_, markRepeats_markRepeats before, ?_⟩
  · intro call member count
    exact repeats_eq_some_iff within numbers member count
  · intro slot count call found noted
    exact within.exists_more found noted
  · have empty : ({ family } : CallTree).size ≤ capacity := Nat.zero_le capacity
    rw [← ended]
    exact size_attemptAll_le empty _

/-- Both zeros are one number, also where the second is added after the first has been
looked at. -/
theorem history_counts_repeats_zeros :
    let changes : List Edit := [.addRoot "n" 0.0 false, .addChild 0 "n.0" 1.0 false, .markRepeats,
      .addChild 1 "n.0.0" (-0.0) true, .addChild 7 "n.7" 1.0 true]
    let before := attemptAll { family := .linearShift } changes
    (∀ change ∈ changes, ∀ argument, change.argument? = some argument →
      argument.isNaN = false) ∧
    before.markRepeats.2.groups = 1 ∧ before.markRepeats.2.annotated = 2 ∧
    before.markRepeats.1.markRepeats = before.markRepeats := by
  intro changes before
  have numeric : ∀ change ∈ changes, ∀ argument, change.argument? = some argument →
      argument.isNaN = false := by
    intro change member argument own
    simp only [changes, List.mem_cons, List.not_mem_nil, or_false] at member
    rcases member with rfl | rfl | rfl | rfl | rfl
    all_goals cases own
    all_goals rfl
  rcases history_counts_repeats .linearShift changes numeric with
    ⟨-, -, groups, annotated, -, -, again, -⟩
  exact ⟨numeric, groups.trans (by decide +kernel), annotated.trans (by decide +kernel), again⟩

end CallTree

end Unfolding
