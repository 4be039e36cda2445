import Unfolding.Proofs.Expansion.Recursion
import Unfolding.Proofs.Generation
import Unfolding.Proofs.Number.Exact

/-!
Repeated arguments of linear-shift recurrences.

The arguments of the calls are integers, but they are told apart as doubles.  The
marks count the calls with equal doubles.  They count the calls with equal
arguments exactly if no two arguments of the tree are rounded to one double, and
up to `2 ^ 53` none are.
-/

namespace Unfolding

/-! ### Marks that count -/

namespace CallTree

variable {α β : Type} [DecidableEq α] [DecidableEq β] {tree : CallTree} {paths : List CallPath}

/-- The marks count the calls of equal value, where the slots of the tree hold
`paths`. -/
def MarksCount (tree : CallTree) (paths : List CallPath) (value : CallPath → α) : Prop :=
  ∀ (slot : Nat) (path : CallPath), paths[slot]? = some path →
    ∃ call, tree.calls[slot]? = some call ∧
      ∀ count, call.repeats = some count ↔
        1 < count ∧ paths.countP (fun other => value other = value path) = count

theorem countP_lt_of_coarser {fine : CallPath → α} {coarse : CallPath → β}
    (coarser : ∀ path other, fine path = fine other → coarse path = coarse other)
    {path confused : CallPath} (member : confused ∈ paths)
    (same : coarse confused = coarse path) (differ : fine confused ≠ fine path) :
    paths.countP (fun other => fine other = fine path) <
      paths.countP fun other => coarse other = coarse path := by
  have agreeing : (paths.filter fun other => fine other = fine path).countP
      (fun other => coarse other = coarse path) =
      paths.countP fun other => fine other = fine path := by
    rw [List.countP_filter]
    apply List.countP_congr
    intro other _
    simp only [Bool.and_eq_true, decide_eq_true_eq, and_iff_right_iff_imp]
    exact coarser other path
  have confusedOnes : 0 < (paths.filter fun other => !decide (fine other = fine path)).countP
      fun other => coarse other = coarse path := by
    apply List.countP_pos_iff.mpr
    exact ⟨confused, by simp [member, differ], by simp [same]⟩
  rw [List.countP_eq_countP_filter_add paths (fun other => coarse other = coarse path)
    fun other => fine other = fine path, agreeing]
  exact Nat.lt_add_of_pos_right confusedOnes

/-- Marks that count by one value count by a finer one exactly if it tells no
more calls apart. -/
theorem MarksCount.finer_iff {fine : CallPath → α} {coarse : CallPath → β}
    (counted : tree.MarksCount paths coarse)
    (coarser : ∀ path other, fine path = fine other → coarse path = coarse other) :
    tree.MarksCount paths fine ↔
      ∀ path ∈ paths, ∀ other ∈ paths, coarse path = coarse other → fine path = fine other := by
  constructor
  · intro finely confused confusedMember path member same
    apply Decidable.byContradiction
    intro differ
    obtain ⟨slot, place⟩ := List.getElem?_of_mem member
    obtain ⟨call, found, marked⟩ := counted slot path place
    obtain ⟨sameCall, sameFound, finelyMarked⟩ := finely slot path place
    obtain rfl : call = sameCall := Option.some.inj (found.symm.trans sameFound)
    -- the mark of `path` counts `confused` as well, so it is too large for the finer value
    have fewer := countP_lt_of_coarser coarser confusedMember same differ
    have itself : 0 < paths.countP fun other => fine other = fine path :=
      List.countP_pos_iff.mpr ⟨path, member, by simp⟩
    have mark := (marked _).mpr ⟨Nat.lt_of_le_of_lt itself fewer, rfl⟩
    exact Nat.ne_of_lt fewer ((finelyMarked _).mp mark).2
  · intro apart slot path place
    obtain ⟨call, found, marked⟩ := counted slot path place
    refine ⟨call, found, ?_⟩
    intro count
    have member := List.mem_of_getElem? place
    have counts : paths.countP (fun other => fine other = fine path) =
        paths.countP fun other => coarse other = coarse path := by
      apply List.countP_congr
      intro other otherMember
      simp only [decide_eq_true_eq]
      exact ⟨coarser other path, apart other otherMember path member⟩
    rw [counts, marked]

/-- There are no marks exactly if every call is the only one of its value. -/
theorem MarksCount.unmarked_iff {value : CallPath → α} (counted : tree.MarksCount paths value)
    (size : tree.size = paths.length) (nodup : paths.Nodup) :
    tree.Unmarked ↔
      ∀ path ∈ paths, ∀ other ∈ paths, value path = value other → path = other := by
  have once (path : CallPath) : paths.countP (fun other => id other = id path) ≤ 1 := by
    calc
      _ = paths.count path := List.countP_congr (by simp)
      _ ≤ 1 := List.nodup_iff_count_le_one.mp nodup path
  have byPath : tree.Unmarked ↔ tree.MarksCount paths id := by
    constructor
    · intro unmarked slot path place
      obtain ⟨call, found, -⟩ := counted slot path place
      refine ⟨call, found, ?_⟩
      intro count
      have none := unmarked call (Array.mem_of_getElem? found)
      have single := once path
      rw [none]
      constructor
      · nofun
      · rintro ⟨several, counts⟩
        omega
    · intro marked call member
      obtain ⟨slot, found⟩ := Array.getElem?_of_mem member
      have inside : slot < paths.length := size ▸ lt_size_iff.mpr ⟨call, found⟩
      obtain ⟨sameCall, sameFound, counts⟩ := marked slot _ (List.getElem?_eq_getElem inside)
      obtain rfl : call = sameCall := Option.some.inj (found.symm.trans sameFound)
      cases noted : call.repeats with
      | none => rfl
      | some count =>
          obtain ⟨several, counted⟩ := (counts count).mp noted
          have single := once paths[slot]
          omega
  rw [byPath]
  exact counted.finer_iff fun _ _ same => congrArg value same

end CallTree

/-! ### Exact and stored arguments -/

theorem argumentKey_ofNat_inj {n other : Nat} :
    argumentKey (Float.ofNat n) = argumentKey (Float.ofNat other) ↔
      Float.ofNat n = Float.ofNat other := by
  unfold argumentKey
  rw [Number.ofNat_add_zero, Number.ofNat_add_zero]
  exact Float.toBits_inj

namespace LinearShift

variable {r : LinearShift} {paths : List CallPath} {first depth : Nat}

/-- The double that the argument at a path is rounded to. -/
def storedArgument (r : LinearShift) (first : Int) (path : CallPath) : Float :=
  Float.ofInt (r.exactArgument first path)

/-- Arguments that are rounded to the same double are equal. -/
def StoresApart (r : LinearShift) (first : Int) (paths : List CallPath) : Prop :=
  ∀ path ∈ paths, ∀ other ∈ paths,
    r.storedArgument first path = r.storedArgument first other →
      r.exactArgument first path = r.exactArgument first other

theorem storedArgument_natCast (first : Nat) (path : CallPath) :
    r.storedArgument first path = Float.ofNat (r.argumentAt first path) := by
  rw [storedArgument, exactArgument_natCast]
  rfl

theorem argumentAt_le (first : Nat) (path : CallPath) : r.argumentAt first path ≤ first := by
  have bound : r.argumentAt first path ≤ first - path.length * 0 :=
    r.argumentAt_le_of_shifts_ge first fun i _ => Nat.zero_le (r.shiftAt i)
  rwa [Nat.mul_zero] at bound

theorem storesApart_of_le (bounded : first ≤ 2 ^ 53) (paths : List CallPath) :
    r.StoresApart first paths := by
  intro path _ other _ same
  rw [storedArgument_natCast, storedArgument_natCast, Number.ofNat_inj
    (Nat.le_trans (argumentAt_le first path) bounded)
    (Nat.le_trans (argumentAt_le first other) bounded)] at same
  rw [exactArgument_natCast, exactArgument_natCast, same]

theorem marksCount_storedArgument {tree : CallTree}
    (follows : tree.Follows (r.outline first) paths) (unmarked : tree.Unmarked) :
    tree.markRepeats.1.MarksCount paths (r.storedArgument first) := by
  intro slot path place
  obtain ⟨call, found, described⟩ := follows.call place
  refine ⟨_, CallTree.getElem?_markRepeats unmarked found, ?_⟩
  intro count
  have keys : tree.argumentKeys = paths.map fun path =>
      argumentKey (Float.ofNat (r.argumentAt first path)) :=
    follows.map_calls fun described => congrArg argumentKey described.argument
  have argument : call.argument = Float.ofNat (r.argumentAt first path) := described.argument
  have counts : tree.argumentKeys.count (argumentKey call.argument) =
      paths.countP fun other => r.storedArgument first other = r.storedArgument first path := by
    rw [keys, argument, List.count_eq_countP, List.countP_map]
    apply List.countP_congr
    intro other _
    simp only [Function.comp_apply, beq_iff_eq, decide_eq_true_eq, storedArgument_natCast,
      argumentKey_ofNat_inj]
  simp only [counts]
  split
  · simp only [Option.some.injEq]
    omega
  · simp only [reduceCtorEq, false_iff]
    omega

theorem eq_replicate_of_single (single : r.shifts.length = 1) {path : CallPath}
    (made : r.IsMade first depth path) : path = List.replicate path.length 0 := by
  apply List.eq_replicate_of_mem
  intro i member
  have inside := made.positions i member
  omega

theorem shiftAt_pos (valid : r.check = .ok ()) {i : Nat} (inside : i < r.shifts.length) :
    0 < r.shiftAt i := by
  rw [shiftAt_eq_toNat (List.getElem?_eq_getElem inside)]
  exact shift_pos valid (List.getElem_mem inside)

/-- Along a single shift the arguments fall until they end. -/
theorem argumentAt_lt_of_single (valid : r.check = .ok ()) (single : r.shifts.length = 1)
    {path longer : CallPath} (made : r.IsMade first depth path)
    (longerMade : r.IsMade first depth longer) (shorter : path.length < longer.length) :
    r.argumentAt first longer < r.argumentAt first path := by
  have path_eq := eq_replicate_of_single single made
  have longer_eq := eq_replicate_of_single single longerMade
  have extended : path ++ List.replicate (longer.length - path.length) 0 = longer := by
    rw [path_eq, longer_eq, List.replicate_append_replicate]
    simp [Nat.add_sub_cancel' (Nat.le_of_lt shorter)]
  -- only calls above the base cases are followed by others, so this argument is not yet zero
  have above := longerMade.above path ⟨_, extended⟩ fun same =>
    Nat.ne_of_lt shorter (congrArg List.length same)
  have argument : r.argumentAt first path = first - path.length * r.shiftAt 0 :=
    (congrArg _ path_eq).trans (r.argumentAt_replicate first _ _)
  have longerArgument : r.argumentAt first longer = first - longer.length * r.shiftAt 0 :=
    (congrArg _ longer_eq).trans (r.argumentAt_replicate first _ _)
  have positive : 0 < r.shiftAt 0 := shiftAt_pos valid (by omega)
  have further : (path.length + 1) * r.shiftAt 0 ≤ longer.length * r.shiftAt 0 :=
    Nat.mul_le_mul_right _ shorter
  rw [Nat.add_mul] at further
  omega

theorem argumentAt_injective_of_single (valid : r.check = .ok ()) (single : r.shifts.length = 1)
    {path other : CallPath} (made : r.IsMade first depth path)
    (otherMade : r.IsMade first depth other)
    (same : r.argumentAt first path = r.argumentAt first other) : path = other := by
  rcases Nat.lt_trichotomy path.length other.length with shorter | level | longer
  · have falls := argumentAt_lt_of_single valid single made otherMade shorter
    omega
  · rw [eq_replicate_of_single single made, eq_replicate_of_single single otherMade, level]
  · have falls := argumentAt_lt_of_single valid single otherMade made longer
    omega

/-! ### Unfolded recurrences -/

section

variable {initial : Float} {nodeLimit : UInt64} {expansion : Expansion}

/-- The slots of an expanded tree hold calls of the recurrence, each once. -/
theorem exists_listed (run : r.expand initial depth nodeLimit = .ok expansion) :
    ∃ paths, expansion.tree.Follows (r.outline (Number.wholePart initial)) paths ∧ paths.Nodup ∧
      ∀ path ∈ paths, r.IsMade (Number.wholePart initial) depth path := by
  rcases (r.outcome_of_expand run).exists_sweep with ⟨paths, done, waiting, sweep, follows, -⟩
  exact ⟨paths, follows, sweep.nodup, fun _ => sweep.isMade_of_mem⟩

theorem marksCount_ofExpansion (budget : DepthBudget) (growth : Growth)
    (run : r.expand initial depth nodeLimit = .ok expansion)
    (follows : expansion.tree.Follows (r.outline first) paths) :
    (Unfolded.ofExpansion budget (some growth) expansion).tree.MarksCount paths
      (r.storedArgument first) := by
  have calls : (Unfolded.markHorizon budget expansion.tree).calls = expansion.tree.calls := by
    unfold Unfolded.markHorizon
    split <;> rfl
  have unmarked : expansion.tree.Unmarked :=
    Recurrence.unmarked_of_expand (r := .linearShift r) run
  exact marksCount_storedArgument (follows.of_calls_eq calls) (unmarked.of_calls_eq calls)

end

/-- The marks of an unfolded recurrence count equal doubles.  They count equal
arguments exactly if no two arguments are rounded together. -/
theorem marks_count_equal_doubles (r : LinearShift) (view : View) (nodeLimit : UInt64)
    (valid : r.check = .ok ()) (accepted : checkInitialSize view.initial = .ok ()) :
    let first := view.initial.toModel.toInt64.toInt
    ∃ unfolded paths, (Recurrence.linearShift r).unfold view nodeLimit = .ok unfolded ∧
      unfolded.tree.size = paths.length ∧
      (∀ (slot : Nat) (path : CallPath), paths[slot]? = some path →
        ∃ call, unfolded.tree.calls[slot]? = some call ∧ r.IsCallAt first paths path call) ∧
      unfolded.tree.MarksCount paths (r.storedArgument first) ∧
      (unfolded.tree.MarksCount paths (r.exactArgument first) ↔ r.StoresApart first paths) ∧
      (r.shifts.length = 1 → (unfolded.tree.Unmarked ↔ r.StoresApart first paths)) ∧
      (first ≤ 2 ^ 53 → r.StoresApart first paths) := by
  intro first
  have first_eq : first = (Number.wholePart view.initial : Int) :=
    (Number.wholePart_eq_toInt64 accepted).symm
  rw [first_eq]
  obtain ⟨natural, atHorizon, -, settles⟩ :=
    Recurrence.exists_natural (r := .linearShift r) valid accepted
  obtain ⟨budget, settled⟩ : ∃ budget,
      (Recurrence.linearShift r).depth view.initial view.maxDepth = .ok budget :=
    ⟨_, settles view.maxDepth⟩
  obtain ⟨expansion, run, ran⟩ := Recurrence.unfold_eq_ok view nodeLimit settled
  obtain ⟨paths, expansionFollows, nodup, made⟩ := r.exists_listed run
  have follows : (Unfolded.ofExpansion budget (Recurrence.linearShift r).growth?
      expansion).tree.Follows (r.outline (Number.wholePart view.initial)) paths :=
    Unfolded.follows_ofExpansion expansionFollows
  have counted := marksCount_ofExpansion budget (.ofShiftCount r.shifts.length) run
    expansionFollows
  refine ⟨_, paths, ran, follows.size, ?_, counted, ?_, ?_, ?_⟩
  · intro slot path place
    obtain ⟨call, found, described⟩ := follows.call place
    exact ⟨call, found, isCallAt_of_describes made described (List.mem_of_getElem? place)⟩
  · exact counted.finer_iff fun _ _ same => congrArg Float.ofInt same
  · intro single
    refine (counted.unmarked_iff follows.size nodup).trans ?_
    apply forall₂_congr
    intro path member
    apply forall₂_congr
    intro other otherMember
    apply imp_congr_right
    intro _
    rw [exactArgument_natCast, exactArgument_natCast, Int.ofNat_inj]
    constructor
    · rintro rfl
      rfl
    · exact argumentAt_injective_of_single valid single (made path member) (made other otherMember)
  · intro bounded
    exact storesApart_of_le (by exact_mod_cast bounded) paths

theorem marks_count_equal_doubles_at_limit :
    (ofShifts [1] 0).check = .ok () ∧ checkInitialSize 9007199254740992 = .ok () ∧
      ∃ unfolded, (Recurrence.linearShift (.ofShifts [1] 0)).unfold
          { initial := 9007199254740992, maxDepth := some 2 } 100 = .ok unfolded ∧
        unfolded.tree.Unmarked := by
  have valid : (ofShifts [1] 0).check = .ok () := rfl
  have accepted : checkInitialSize 9007199254740992 = .ok () := rfl
  obtain ⟨unfolded, paths, ran, -, -, -, -, single, apart⟩ :=
    marks_count_equal_doubles (ofShifts [1] 0)
      { initial := 9007199254740992, maxDepth := some 2 } 100 valid accepted
  exact ⟨valid, accepted, unfolded, ran, (single rfl).mpr (apart (by decide +kernel))⟩

/-- Above `2 ^ 53` steps by one are lost, and calls are marked that have no equal. -/
theorem unit_shift_marked_above_limit :
    ∃ unfolded, (Recurrence.linearShift (.ofShifts [1] 0)).unfold
        { initial := 9007199254740994, maxDepth := some 2 } 100 = .ok unfolded ∧
      ∃ call ∈ unfolded.tree.calls, call.id = "n.0" ∧ call.repeats = some 2 := by
  have settled : (Recurrence.linearShift (.ofShifts [1] 0)).depth 9007199254740994 (some 2) =
      .ok (.within depthHorizon true (some 2)) := rfl
  obtain ⟨expansion, run, ran⟩ := Recurrence.unfold_eq_ok
    { initial := 9007199254740994, maxDepth := some 2 } 100 settled
  refine ⟨_, ran, ?_⟩
  have outcome := outcome_of_expand run
  have fits : expansion.stop = none :=
    (outcome.stop_eq_none_iff (by decide)).mpr (by decide +kernel)
  cases outcome with
  | cut sweep follows truncated stopped shallow full => exact absurd fits stopped
  | @complete paths done sweep follows whole unstopped within =>
      have listed :
          paths.Perm ((ofShifts [1] 0).callPaths 2 (Number.wholePart 9007199254740994)) := by
        apply (List.perm_ext_iff_of_nodup sweep.nodup nodup_callPaths).mpr
        intro path
        rw [mem_callPaths_iff]
        exact sweep.mem_iff
      obtain ⟨slot, place⟩ := List.getElem?_of_mem (listed.mem_iff.mpr
        (show [0] ∈ (ofShifts [1] 0).callPaths 2 (Number.wholePart 9007199254740994) by
          decide +kernel))
      obtain ⟨call, found, marked⟩ := marksCount_ofExpansion (.within depthHorizon true (some 2))
        (.ofShiftCount 1) run follows slot [0] place
      obtain ⟨same, sameFound, described⟩ := (Unfolded.follows_ofExpansion follows).call place
      obtain rfl : call = same := Option.some.inj (found.symm.trans sameFound)
      refine ⟨call, Array.mem_of_getElem? found, described.id, (marked 2).mpr ⟨by decide, ?_⟩⟩
      rw [listed.countP_eq]
      decide +kernel

end LinearShift

end Unfolding
