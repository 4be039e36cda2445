import Unfolding.CallTree.Levels
import Unfolding.Proofs.CallTree.Links
import Mathlib.Algebra.BigOperators.Group.Finset.Piecewise
import Mathlib.Algebra.Ring.Nat

/-!
The counts of the levels of a call tree.
-/

namespace Unfolding

namespace CallTree

/-- The number of calls on a level. -/
def callsOn (tree : CallTree) (level : Nat) : Nat := tree.calls.toList.countP (·.level = level)

/-- The number of base cases on a level. -/
def basesOn (tree : CallTree) (level : Nat) : Nat :=
  tree.calls.toList.countP fun call => call.level = level ∧ call.isBase

/-! ### The deepest level -/

section

variable {calls : List Call} {count : Nat}

theorem le_foldl_max :
    count ≤ calls.foldl (fun count call => max count (call.level + 1)) count := by
  induction calls generalizing count with
  | nil => exact Nat.le_refl count
  | cons call calls inductionHypothesis =>
      exact Nat.le_trans (Nat.le_max_left _ _) inductionHypothesis

theorem level_lt_foldl_max {call : Call} (member : call ∈ calls) :
    call.level < calls.foldl (fun count call => max count (call.level + 1)) count := by
  induction calls generalizing count with
  | nil => cases member
  | cons first calls inductionHypothesis =>
      rcases List.mem_cons.mp member with rfl | member
      · exact Nat.lt_of_lt_of_le (Nat.lt_of_succ_le (Nat.le_max_right count _)) le_foldl_max
      · exact inductionHypothesis member

theorem foldl_max_mem (calls : List Call) (count : Nat) :
    calls.foldl (fun count call => max count (call.level + 1)) count = count ∨
      ∃ call ∈ calls, calls.foldl (fun count call => max count (call.level + 1)) count =
        call.level + 1 := by
  induction calls generalizing count with
  | nil => exact .inl rfl
  | cons call calls inductionHypothesis =>
      rw [List.foldl_cons]
      rcases inductionHypothesis (max count (call.level + 1)) with
        start | ⟨deepest, member, reached⟩
      · rcases Nat.le_total (call.level + 1) count with old | new
        · left
          rw [start, Nat.max_eq_left old]
        · right
          exact ⟨call, List.mem_cons_self, by rw [start, Nat.max_eq_right new]⟩
      · right
        exact ⟨deepest, List.mem_cons_of_mem call member, reached⟩

end

variable {tree : CallTree}

theorem levelCount_eq_foldl (tree : CallTree) :
    tree.levelCount = tree.calls.toList.foldl (fun count call => max count (call.level + 1)) 0 := by
  rw [levelCount, Array.foldl_toList]

theorem level_lt_levelCount {call : Call} (member : call ∈ tree.calls.toList) :
    call.level < tree.levelCount := by
  rw [levelCount_eq_foldl]
  exact level_lt_foldl_max member

/-- Some call stands on the deepest level. -/
theorem exists_deepest (nonempty : 0 < tree.size) :
    ∃ (slot : Nat) (call : Call), tree.calls[slot]? = some call ∧
      call.level + 1 = tree.levelCount := by
  rw [levelCount_eq_foldl]
  obtain ⟨root, found⟩ := lt_size_iff.mp nonempty
  rcases foldl_max_mem tree.calls.toList 0 with none | ⟨call, member, reached⟩
  · have positive := level_lt_levelCount (Array.mem_def.mp (Array.mem_of_getElem? found))
    rw [levelCount_eq_foldl, none] at positive
    exact absurd positive (Nat.not_lt_zero _)
  · obtain ⟨slot, place⟩ := Array.getElem?_of_mem (Array.mem_def.mpr member)
    exact ⟨slot, call, place, reached.symm⟩

theorem levelCount_pos (nonempty : 0 < tree.size) : 0 < tree.levelCount := by
  obtain ⟨slot, call, -, deepest⟩ := exists_deepest nonempty
  omega

theorem levelCount_markRepeats (tree : CallTree) :
    tree.markRepeats.1.levelCount = tree.levelCount := by
  rw [levelCount_eq_foldl, levelCount_eq_foldl]
  change (tree.calls.map (noteRepeats tree.argumentCounts)).toList.foldl _ 0 = _
  rw [Array.toList_map, List.foldl_map]
  congr
  funext count call
  obtain ⟨repeats, noted⟩ := exists_noteRepeats tree.argumentCounts call
  rw [noted]

/-! ### Counts -/

theorem getElem?_foldl_add (calls : List Call) (counts : Array LevelCount) (level : Nat) :
    (calls.foldl (fun counts call => counts.modify call.level (·.add call.isBase)) counts)[level]? =
      counts[level]?.map fun count =>
        { calls := count.calls + calls.countP (·.level = level)
          bases := count.bases +
            calls.countP fun call => call.level = level ∧ call.isBase } := by
  induction calls generalizing counts with
  | nil => simp
  | cons call calls inductionHypothesis =>
      rw [List.foldl_cons, inductionHypothesis, Array.getElem?_modify, List.countP_cons,
        List.countP_cons]
      by_cases here : call.level = level
      · cases call.isBase
        all_goals simp [here, LevelCount.add, Function.comp_def, Nat.add_assoc, Nat.add_comm 1]
      · simp [here]

theorem toList_levels (tree : CallTree) :
    tree.levels.toList = (List.range tree.levelCount).map fun level =>
      { calls := tree.callsOn level, bases := tree.basesOn level } := by
  apply List.ext_getElem?
  intro level
  rw [levels, ← Array.foldl_toList, Array.getElem?_toList, getElem?_foldl_add,
    Array.getElem?_replicate, List.getElem?_map]
  by_cases inside : level < tree.levelCount
  · simp [inside, callsOn, basesOn]
  · simp [inside]

theorem toList_map_calls_levels (tree : CallTree) :
    (tree.levels.map LevelCount.calls).toList = (List.range tree.levelCount).map tree.callsOn := by
  rw [Array.toList_map, toList_levels, List.map_map]
  rfl

theorem callsOn_eq_zero {level : Nat} (deep : tree.levelCount ≤ level) :
    tree.callsOn level = 0 := by
  rw [callsOn, List.countP_eq_zero]
  intro call member here
  have shallow := level_lt_levelCount member
  rw [of_decide_eq_true here] at shallow
  omega

theorem callsOn_pos_iff {level : Nat} :
    0 < tree.callsOn level ↔ ∃ (slot : Nat), tree.level? slot = some level := by
  rw [callsOn, List.countP_pos_iff]
  constructor
  · rintro ⟨call, member, here⟩
    obtain ⟨slot, found⟩ := Array.getElem?_of_mem (Array.mem_def.mpr member)
    exact ⟨slot, by rw [level?, found, Option.map_some, of_decide_eq_true here]⟩
  · rintro ⟨slot, here⟩
    obtain ⟨call, found, rfl⟩ := Option.map_eq_some_iff.mp here
    exact ⟨call, Array.mem_def.mp (Array.mem_of_getElem? found), decide_eq_true rfl⟩

theorem callsOn_le (tree : CallTree) (level : Nat) : tree.callsOn level ≤ tree.size :=
  List.countP_le_length

theorem basesOn_le (tree : CallTree) (level : Nat) : tree.basesOn level ≤ tree.size :=
  List.countP_le_length

/-- Every call is counted on one level. -/
theorem sum_callsOn (tree : CallTree) :
    ((List.range tree.levelCount).map tree.callsOn).sum = tree.size := by
  have total (calls : List Call) (bound : Nat) (within : ∀ call ∈ calls, call.level < bound) :
      (∑ level ∈ Finset.range bound, calls.countP (·.level = level)) = calls.length := by
    induction calls with
    | nil => simp
    | cons call calls inductionHypothesis =>
        rw [List.forall_mem_cons] at within
        simp [List.countP_cons, Finset.sum_add_distrib, inductionHypothesis within.2, within.1]
  exact (total tree.calls.toList tree.levelCount fun _ => level_lt_levelCount).trans
    Array.length_toList

/-! ### Trees with the same levels -/

section

variable {other : CallTree}

theorem callsOn_eq_of_levels
    (same : tree.calls.toList.map Call.level = other.calls.toList.map Call.level) :
    tree.callsOn = other.callsOn := by
  funext level
  have counts := congrArg (List.countP (· = level)) same
  rwa [List.countP_map, List.countP_map] at counts

theorem levelCount_eq_of_levels
    (same : tree.calls.toList.map Call.level = other.calls.toList.map Call.level) :
    tree.levelCount = other.levelCount := by
  have deepest := congrArg (List.foldl (fun count level => max count (level + 1)) 0) same
  rwa [List.foldl_map, List.foldl_map, ← levelCount_eq_foldl, ← levelCount_eq_foldl] at deepest

end

/-! ### Levels of linked trees -/

namespace Linked

theorem level?_zero (linked : tree.Linked) (nonempty : 0 < tree.size) :
    tree.level? 0 = some 0 :=
  (linked.root nonempty (linked.parent?_eq_none_of_eq_zero rfl)).2

/-- A call below the first level has a caller on the level above. -/
theorem exists_parent_above (linked : tree.Linked) {slot level : Nat}
    (here : tree.level? slot = some (level + 1)) :
    ∃ parent, tree.parent? slot = some parent ∧ tree.level? parent = some level := by
  have inside := lt_size_of_level? here
  have notRoot : 0 < slot := by
    apply Nat.pos_of_ne_zero
    rintro rfl
    rw [linked.level?_zero inside] at here
    cases here
  obtain ⟨parent, made⟩ := linked.exists_parent notRoot inside
  have levels := (linked.caller made).2
  rw [here] at levels
  obtain ⟨parentLevel, above, next⟩ := Option.map_eq_some_iff.mp levels.symm
  obtain rfl := Nat.succ.inj next
  exact ⟨parent, made, above⟩

/-- There is a call on every level above a call. -/
theorem exists_level (linked : tree.Linked) {slot level above : Nat}
    (here : tree.level? slot = some level) (higher : above ≤ level) :
    ∃ slot, tree.level? slot = some above := by
  induction level generalizing slot with
  | zero => exact ⟨slot, by rw [here, Nat.le_zero.mp higher]⟩
  | succ level inductionHypothesis =>
      by_cases same : above = level + 1
      · exact ⟨slot, by rw [here, same]⟩
      · obtain ⟨parent, -, parentHere⟩ := linked.exists_parent_above here
        exact inductionHypothesis parentHere (by omega)

/-- No level is empty. -/
theorem callsOn_pos (linked : tree.Linked) {level : Nat} (inside : level < tree.levelCount) :
    0 < tree.callsOn level := by
  have nonempty : 0 < tree.size := by
    apply Nat.pos_of_ne_zero
    intro empty
    have noCalls : tree.calls = #[] := Array.eq_empty_of_size_eq_zero empty
    simp [levelCount, noCalls] at inside
  obtain ⟨slot, call, found, deepest⟩ := exists_deepest nonempty
  have here : tree.level? slot = some call.level := by rw [level?, found, Option.map_some]
  exact callsOn_pos_iff.mpr (linked.exists_level here (by omega))

/-- Every level has a call of its own. -/
theorem levelCount_le (linked : tree.Linked) : tree.levelCount ≤ tree.size := by
  have occupied : ∀ count ∈ (List.range tree.levelCount).map tree.callsOn, 1 ≤ count := by
    simp only [List.mem_map, List.mem_range]
    rintro count ⟨level, inside, rfl⟩
    exact linked.callsOn_pos inside
  have counted := List.length_le_sum_of_one_le _ occupied
  rwa [List.length_map, List.length_range, sum_callsOn] at counted

end Linked

end CallTree

end Unfolding
