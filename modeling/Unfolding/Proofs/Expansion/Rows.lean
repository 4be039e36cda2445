import Unfolding.Proofs.CallTree.Levels
import Unfolding.Proofs.Generation

/-!
The widths of rows.

A linear-shift tree gets its widths by counting its calls.  A divide-and-conquer
tree gets them while it grows, from the widths of the rows above.  Both are the
numbers of calls on the levels.
-/

namespace Unfolding

/-- Every row is as wide as there are calls on its level. -/
def CallTree.RowsCounted (tree : CallTree) : Prop :=
  ∀ level, tree.rowWidth level = tree.callsOn level

theorem CallTree.RowsCounted.markRepeats {tree : CallTree} (counted : tree.RowsCounted) :
    tree.markRepeats.1.RowsCounted := by
  intro level
  have same : tree.markRepeats.1.callsOn level = tree.callsOn level := by
    change (tree.calls.map (noteRepeats tree.argumentCounts)).toList.countP _ = _
    rw [Array.toList_map, List.countP_map]
    apply List.countP_congr
    intro call _
    obtain ⟨repeats, noted⟩ := exists_noteRepeats tree.argumentCounts call
    rw [Function.comp_apply, noted]
  rw [same]
  exact counted level

/-- The deepest level has a row. -/
theorem CallTree.RowsCounted.levelCount_le {tree : CallTree} (counted : tree.RowsCounted) :
    tree.levelCount ≤ tree.rowWidths.size := by
  by_contra more
  have nonempty : 0 < tree.size := by
    apply Nat.pos_of_ne_zero
    intro empty
    have none : tree.calls = #[] := Array.eq_empty_of_size_eq_zero empty
    simp [CallTree.levelCount, none] at more
  obtain ⟨slot, call, found, deepest⟩ := exists_deepest nonempty
  have occupied : 0 < tree.callsOn call.level :=
    callsOn_pos_iff.mpr ⟨slot, by rw [level?, found, Option.map_some]⟩
  have beyond : tree.rowWidths.size ≤ call.level := by omega
  rw [← counted, rowWidth, Array.getD_eq_getD_getElem?, Array.getElem?_eq_none beyond] at occupied
  exact absurd occupied (Nat.lt_irrefl 0)

namespace LinearShift

theorem levelCount_le_of_expand {r : LinearShift} {initial : Float} {depth : Nat}
    {nodeLimit : UInt64} {expansion : Expansion}
    (run : r.expand initial depth nodeLimit = .ok expansion) :
    expansion.tree.levelCount ≤ depth + 1 := by
  have outcome := r.outcome_of_expand run
  rcases outcome.exists_sweep with ⟨listed, done, waiting, sweep, follows, -⟩
  obtain ⟨slot, call, found, deepest⟩ := CallTree.exists_deepest outcome.size_pos
  obtain ⟨path, place, described⟩ := follows.key_of_call found
  have level : call.level = path.length := described.level
  have within := (sweep.isMade_of_mem (List.mem_of_getElem? place)).within
  omega

theorem rowsCounted_giveWidths (tree : CallTree) : (giveWidths tree).RowsCounted := by
  intro level
  change (tree.levels.map LevelCount.calls).getD level 0 = tree.callsOn level
  rw [Array.getD_eq_getD_getElem?, ← Array.getElem?_toList,
    CallTree.toList_map_calls_levels, List.getElem?_map]
  by_cases inside : level < tree.levelCount
  · rw [List.getElem?_range inside]
    rfl
  · rw [List.getElem?_eq_none (by simpa using inside),
      CallTree.callsOn_eq_zero (Nat.le_of_not_lt inside)]
    rfl

theorem rowsCounted_of_expand {r : LinearShift} {initial : Float} {depth : Nat}
    {nodeLimit : UInt64} {expansion : Expansion}
    (run : r.expand initial depth nodeLimit = .ok expansion) : expansion.tree.RowsCounted := by
  unfold expand at run
  split at run
  · cases run
  · split at run
    · cases run
    · cases run
      exact rowsCounted_giveWidths _

end LinearShift

namespace DivideConquer

variable {r : DivideConquer} {initial : Float}

theorem countP_rowCalls (row count level : Nat) :
    (rowCalls row count).countP (·.1 = level) = if row = level then count else 0 := by
  unfold rowCalls
  rw [List.countP_map]
  by_cases here : row = level
  · simp [here, Function.comp_def]
  · simp [here, Function.comp_def]

theorem countP_callsThrough (last level : Nat) :
    (r.callsThrough last).countP (·.1 = level) = if level ≤ last then r.widthAt level else 0 := by
  induction last with
  | zero =>
      rw [callsThrough, countP_rowCalls]
      by_cases top : level = 0
      · simp [top, widthAt]
      · simp [top, Ne.symm top]
  | succ last inductionHypothesis =>
      rw [callsThrough, List.countP_append, inductionHypothesis, countP_rowCalls]
      rcases Nat.lt_trichotomy level (last + 1) with above | here | below
      · simp [Nat.le_of_lt_succ above, Nat.le_of_lt above, Nat.ne_of_gt above]
      · simp [here]
      · have deep : ¬ level ≤ last := by omega
        simp [deep, Nat.not_le_of_lt below, Nat.ne_of_lt below]

theorem rowsCounted_of_follows {tree : CallTree} {last : Nat}
    (follows : tree.Follows (r.outline initial) (r.callsThrough last))
    (widths : tree.rowWidths.toList = (List.range (last + 1)).map r.widthAt) :
    tree.RowsCounted := by
  intro level
  have levels : tree.calls.toList.map Call.level = (r.callsThrough last).map Prod.fst :=
    follows.map_calls fun described => described.level
  have counted : tree.callsOn level = (r.callsThrough last).countP (·.1 = level) := by
    have counts := congrArg (List.countP (· = level)) levels
    rwa [List.countP_map, List.countP_map] at counts
  rw [counted, countP_callsThrough, CallTree.rowWidth, Array.getD_eq_getD_getElem?,
    ← Array.getElem?_toList, widths, List.getElem?_map]
  by_cases inside : level ≤ last
  · rw [List.getElem?_range (Nat.lt_succ_of_le inside), if_pos inside]
    rfl
  · rw [List.getElem?_eq_none (by simp; omega), if_neg inside]
    rfl

theorem Outcome.rowsCounted {depth : Nat} {expansion : Expansion}
    (outcome : r.Outcome initial depth expansion) : expansion.tree.RowsCounted := by
  rcases outcome.exists_last with ⟨last, follows, -, widths, -⟩
  exact rowsCounted_of_follows follows widths

/-! A row is added for each level, so there are no more of them than the depth allows. -/

section Depth

variable {above row : Row} {tree result : CallTree} {expansion : Expansion}

theorem rowWidths_of_foldlM_addCall {indices : List Nat}
    (added : indices.foldlM (r.addCall above row) tree = .ok result) :
    result.rowWidths = tree.rowWidths := by
  induction indices generalizing tree with
  | nil =>
      cases added
      rfl
  | cons index indices inductionHypothesis =>
      obtain ⟨extended, first, rest⟩ := exists_of_foldlM_addCall added
      obtain ⟨parent, made⟩ := exists_of_addCall first
      rw [inductionHypothesis rest]
      exact (congrArg CallTree.rowWidths (CallTree.eq_of_addChild made) :)

theorem size_rowWidths_of_addRow (added : r.addRow above row tree = .ok result) :
    result.rowWidths.size = tree.rowWidths.size + 1 := by
  unfold addRow at added
  split at added
  · cases added
  · rename_i extended calls
    cases added
    rw [Array.size_push, rowWidths_of_foldlM_addCall calls]

theorem size_rowWidths_of_addRows {limit left : Nat}
    (added : r.addRows limit left above tree = .ok expansion) :
    expansion.tree.rowWidths.size ≤ tree.rowWidths.size + left := by
  induction left generalizing above tree with
  | zero =>
      cases added
      exact Nat.le_refl _
  | succ left inductionHypothesis =>
      rcases cases_of_addRows added with rfl | ⟨-, rfl⟩ | ⟨extended, -, row, rest⟩
      · exact Nat.le_add_right _ _
      · exact Nat.le_add_right _ _
      · have more := inductionHypothesis rest
        rwa [size_rowWidths_of_addRow row, Nat.add_right_comm, Nat.add_assoc] at more

theorem levelCount_le_of_expand {depth : Nat} {nodeLimit : UInt64}
    (run : r.expand initial depth nodeLimit = .ok expansion) :
    expansion.tree.levelCount ≤ depth + 1 := by
  have counted := (r.outcome_of_expand run).rowsCounted.levelCount_le
  unfold expand at run
  dsimp only at run
  split at run
  · cases run
  · rename_i rooted added
    have rows := size_rowWidths_of_addRows run
    have single : rooted.rowWidths = #[1] :=
      (congrArg CallTree.rowWidths (CallTree.eq_of_addRoot added) :)
    rw [single] at rows
    exact Nat.le_trans counted (Nat.add_comm 1 depth ▸ rows)

end Depth

end DivideConquer

/-- No call is made below the depth. -/
theorem Recurrence.levelCount_le_of_expand {r : Recurrence} {initial : Float} {depth : Nat}
    {nodeLimit : UInt64} {expansion : Expansion}
    (run : r.expand initial depth nodeLimit = .ok expansion) :
    expansion.tree.levelCount ≤ depth + 1 := by
  cases r with
  | divideConquer r => exact r.levelCount_le_of_expand run
  | linearShift r => exact r.levelCount_le_of_expand run

theorem Recurrence.rowsCounted_of_expand {r : Recurrence} {initial : Float} {depth : Nat}
    {nodeLimit : UInt64} {expansion : Expansion}
    (run : r.expand initial depth nodeLimit = .ok expansion) : expansion.tree.RowsCounted := by
  cases r with
  | divideConquer r =>
      exact (r.outcome_of_expand run).rowsCounted
  | linearShift r => exact r.rowsCounted_of_expand run

namespace Unfolded

variable {budget : DepthBudget} {growth : Option Growth} {expansion : Expansion}

theorem rowsCounted_ofExpansion (counted : expansion.tree.RowsCounted) :
    (ofExpansion budget growth expansion).tree.RowsCounted :=
  ofExpansion_keeps CallTree.RowsCounted (fun counted => counted)
    CallTree.RowsCounted.markRepeats counted

end Unfolded

end Unfolding
