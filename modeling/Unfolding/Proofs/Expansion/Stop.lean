import Unfolding.Proofs.CallTree.Levels
import Unfolding.Proofs.Depth
import Unfolding.Proofs.Expansion.Additions
import Unfolding.Proofs.Expansion.Subtraction

/-!
What an expansion tells about the node limit.

Where the limit stops an expansion is noted in the middle of the work, but nothing
is added to the tree afterwards.
-/

namespace Unfolding

/-- An expansion is truncated if it was stopped, and it was stopped at the end of
its tree. -/
structure Expansion.TellsStop (expansion : Expansion) : Prop where
  truncated : expansion.tree.isTruncated = expansion.stop.isSome
  emitted : ∀ {stop}, expansion.stop = some stop → stop.emitted = expansion.tree.size
  deepest : ∀ {stop}, expansion.stop = some stop → stop.level + 1 = expansion.tree.levelCount

namespace DivideConquer

variable {r : DivideConquer} {initial : Float} {tree : CallTree} {depth last : Nat}
variable {expansion : Expansion}

theorem levelCount_of_follows (branches : 0 < r.branching.toNat)
    (follows : tree.Follows (r.outline initial) (r.callsThrough last)) :
    tree.levelCount = last + 1 := by
  have member : (last, 0) ∈ r.callsThrough last :=
    mem_callsThrough_iff.mpr ⟨Nat.le_refl last, widthAt_pos branches last⟩
  obtain ⟨slot, place⟩ := List.getElem?_of_mem member
  obtain ⟨call, found, described⟩ := follows.call place
  have level : call.level = last := described.level
  have reached := CallTree.level_lt_levelCount (Array.mem_def.mp (Array.mem_of_getElem? found))
  have nonempty : 0 < tree.size := Nat.zero_lt_of_lt (CallTree.lt_size_iff.mpr ⟨call, found⟩)
  obtain ⟨deepestSlot, deepest, deepestFound, levels⟩ := CallTree.exists_deepest nonempty
  obtain ⟨key, keyPlace, deepestDescribed⟩ := follows.key_of_call deepestFound
  have deepestLevel : deepest.level = key.1 := deepestDescribed.level
  have within := (mem_callsThrough_iff.mp (List.mem_of_getElem? keyPlace)).1
  omega

theorem Outcome.tellsStop (branches : 0 < r.branching.toNat)
    (outcome : r.Outcome initial depth expansion) : expansion.TellsStop := by
  cases outcome with
  | complete follows above ended within whole unstopped widths =>
      constructor
      · rw [whole, unstopped, Option.isSome_none]
      all_goals
        intro stop stopped
        rw [unstopped] at stopped
        cases stopped
  | cut follows above truncated stopped widths =>
      have levels := levelCount_of_follows branches follows
      constructor
      · rw [truncated, stopped, Option.isSome_some]
      all_goals
        intro stop same
        cases stopped.symm.trans same
      · rfl
      · exact levels.symm

end DivideConquer

namespace LinearShift

variable {r : LinearShift} {depth limit : Nat} {frontier : Frontier} {expansion : Expansion}
variable {stop : LimitStop}

/-- The size and the deepest level that are noted are those of the final tree. -/
theorem stop_of_step (stepped : r.step depth limit frontier = .ok (.finished expansion))
    (stopped : expansion.stop = some stop) :
    stop = { emitted := expansion.tree.size, level := expansion.tree.levelCount - 1 } := by
  rcases eq_of_step_finished stepped with rfl | rfl
  · cases stopped
  · cases stopped
    rfl

theorem stop_of_addWaiting (run : r.addWaiting depth limit frontier = .ok expansion)
    (stopped : expansion.stop = some stop) :
    stop = { emitted := expansion.tree.size, level := expansion.tree.levelCount - 1 } := by
  fun_induction LinearShift.addWaiting r depth limit frontier with
  | case1 frontier fault stepped => cases run
  | case2 frontier finished stepped =>
      cases run
      exact stop_of_step stepped stopped
  | case3 frontier next stepped inductionHypothesis => exact inductionHypothesis run

theorem tellsStop_of_expand {initial : Float} {nodeLimit : UInt64}
    (run : r.expand initial depth nodeLimit = .ok expansion) : expansion.TellsStop := by
  have outcome := outcome_of_expand run
  have levels := CallTree.levelCount_pos outcome.size_pos
  have noted {stop : LimitStop} (stopped : expansion.stop = some stop) :
      stop = { emitted := expansion.tree.size, level := expansion.tree.levelCount - 1 } := by
    unfold expand at run
    split at run
    · cases run
    · split at run
      · cases run
      · rename_i waited
        cases run
        have told := stop_of_addWaiting waited stopped
        exact told
  refine ⟨outcome.isTruncated_eq_isSome_stop, ?_, ?_⟩
  · intro stop stopped
    rw [noted stopped]
  · intro stop stopped
    rw [noted stopped]
    exact Nat.sub_add_cancel levels

end LinearShift

theorem Recurrence.tellsStop_of_expand {r : Recurrence} {initial : Float} {depth : Nat}
    {nodeLimit : UInt64} {expansion : Expansion} (valid : r.check = .ok ())
    (run : r.expand initial depth nodeLimit = .ok expansion) : expansion.TellsStop := by
  cases r with
  | divideConquer r =>
      exact (r.outcome_of_expand run).tellsStop (DivideConquer.reduction_of_check valid).1
  | linearShift r => exact r.tellsStop_of_expand run

end Unfolding
