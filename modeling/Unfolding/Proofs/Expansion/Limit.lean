import Unfolding.Proofs.Expansion.Regularity
import Unfolding.Proofs.Expansion.Tightening

/-!
Expansions under a node limit.

No tree outgrows its limit, apart from a root under the limit zero.  A linear-shift
expansion stops at the first call whose own calls do not fit, a divide-and-conquer
expansion at the first row that does not fit, and neither leaves out anything else.
-/

namespace Unfolding

namespace LinearShift

variable {r : LinearShift} {first depth limit : Nat}

theorem size_le_of_addWaiting {frontier : Frontier} {expansion : Expansion}
    (within : frontier.tree.size ≤ max 1 limit)
    (run : r.addWaiting depth limit frontier = .ok expansion) :
    expansion.tree.size ≤ max 1 limit := by
  fun_induction LinearShift.addWaiting r depth limit frontier with
  | case1 frontier fault stepped => cases run
  | case2 frontier finished stepped =>
      cases run
      rw [CallTree.size, calls_of_finished stepped]
      exact within
  | case3 frontier next stepped inductionHypothesis =>
      refine inductionHypothesis ?_ run
      rcases step_continued stepped with ⟨-, bounded⟩ | ⟨same, -⟩
      · exact Nat.le_trans bounded (Nat.le_max_right 1 limit)
      · rw [same]
        exact within

section

variable {initial : Float} {nodeLimit : UInt64} {expansion : Expansion}

theorem size_le_callLimit (run : r.expand initial depth nodeLimit = .ok expansion) :
    expansion.tree.size ≤ max 1 (callLimit nodeLimit) := by
  obtain ⟨frontier, started, sweeps⟩ :=
    r.start_sweeps (Number.wholePart initial) depth (callLimit nodeLimit)
  unfold expand at run
  rw [started] at run
  dsimp only at run
  split at run
  · cases run
  · rename_i waited
    cases run
    apply size_le_of_addWaiting _ waited
    rw [sweeps.follows.size]
    exact sweeps.within

end

namespace Sweep

variable {listed done waiting : List CallPath} {path : CallPath} {call : Call}

/-- A call makes all of its calls or none. -/
theorem size_children (sweep : r.Sweep first depth listed done waiting)
    (described : (r.outline first).Describes listed path call) :
    call.children.size =
      if path ∈ done ∧ path.length < depth then r.shifts.length else 0 := by
  split
  · rename_i turn
    apply described.size_children (Nat.le_refl _)
    intro i bounded
    exact iff_of_true (sweep.concat_mem_iff.mpr ⟨turn.1, turn.2, bounded⟩) bounded
  · rename_i noTurn
    apply described.size_children (Nat.zero_le _)
    intro i _
    refine iff_of_false (fun made => ?_) (Nat.not_lt_zero i)
    obtain ⟨had, shallow, -⟩ := sweep.concat_mem_iff.mp made
    exact noTurn ⟨had, shallow⟩

/-- Where nothing waits, all calls above the depth have made theirs, but for the base
cases. -/
theorem size_children_of_finished (sweep : r.Sweep first depth listed done [])
    (described : (r.outline first).Describes listed path call) (member : path ∈ listed)
    (notBase : call.isBase = false) (shallow : call.level < depth) :
    call.children.size = r.shifts.length := by
  rw [described.isBase] at notBase
  rw [described.level] at shallow
  have above := isBase_eq_false_iff.mp notBase
  have had : path ∈ done := by
    rw [← List.append_nil done, sweep.mem_open_iff]
    exact ⟨member, above⟩
  rw [sweep.size_children described, if_pos ⟨had, shallow⟩]

end Sweep

end LinearShift

namespace DivideConquer

variable {r : DivideConquer} {above row : Row} {tree result : CallTree} {expansion : Expansion}

theorem size_of_addRow (added : r.addRow above row tree = .ok result) :
    result.size = tree.size + row.width := by
  unfold addRow at added
  split at added
  · cases added
  · rename_i extended calls
    cases added
    have sized := size_of_foldlM_addCall calls
    rwa [List.length_range] at sized

theorem size_le_of_addRows {limit left : Nat} (sized : tree.size ≤ max 1 limit)
    (run : r.addRows limit left above tree = .ok expansion) :
    expansion.tree.size ≤ max 1 limit := by
  induction left generalizing above tree with
  | zero =>
      cases run
      exact sized
  | succ left inductionHypothesis =>
      rcases cases_of_addRows run with rfl | ⟨-, rfl⟩ | ⟨extended, fits, added, rest⟩
      · exact sized
      · exact sized
      · have grown := size_of_addRow added
        exact inductionHypothesis (by omega) rest

/-- The limit stops an expansion above its depth, before a row that does not fit. -/
theorem stop_of_addRows {limit left : Nat} (width : above.width = r.widthAt above.level)
    (run : r.addRows limit left above tree = .ok expansion) {stop : LimitStop}
    (stopped : expansion.stop = some stop) :
    stop.level < above.level + left ∧
      limit < expansion.tree.size + r.widthAt (stop.level + 1) := by
  induction left generalizing above tree with
  | zero =>
      cases run
      cases stopped
  | succ left inductionHypothesis =>
      have nextWidth : (r.nextRow above tree).width = r.widthAt (above.level + 1) :=
        congrArg (· * r.branching.toNat) width
      rcases cases_of_addRows run with rfl | ⟨wide, rfl⟩ | ⟨extended, -, -, rest⟩
      · cases stopped
      · cases stopped
        rw [nextWidth] at wide
        have full : limit < tree.size + r.widthAt (above.level + 1) := by omega
        exact ⟨Nat.lt_add_of_pos_right (Nat.succ_pos left), full⟩
      · obtain ⟨shallow, full⟩ := inductionHypothesis nextWidth rest
        have next : above.level + 1 + left = above.level + (left + 1) := Nat.add_right_comm ..
        exact ⟨next ▸ shallow, full⟩

variable {initial : Float} {depth : Nat} {nodeLimit : UInt64}

/-- Every expansion adds rows below a single root. -/
theorem exists_addRows_of_expand (run : r.expand initial depth nodeLimit = .ok expansion) :
    ∃ tree : CallTree, tree.size = 1 ∧
      r.addRows (callLimit nodeLimit) depth { level := 0, first := 0, width := 1, size := initial }
        tree = .ok expansion := by
  unfold expand at run
  dsimp only at run
  split at run
  · cases run
  · rename_i rooted added
    refine ⟨rooted, ?_, run⟩
    obtain ⟨-, calls⟩ := CallTree.exists_of_addRoot added
    rw [CallTree.size, calls]
    rfl

theorem size_le_callLimit (run : r.expand initial depth nodeLimit = .ok expansion) :
    expansion.tree.size ≤ max 1 (callLimit nodeLimit) := by
  obtain ⟨tree, single, rows⟩ := exists_addRows_of_expand run
  apply size_le_of_addRows _ rows
  rw [single]
  exact Nat.le_max_left 1 _

/-- A stop is above the depth, below a row that makes calls, and these do not fit. -/
theorem stop_of_expand (run : r.expand initial depth nodeLimit = .ok expansion) {stop : LimitStop}
    (stopped : expansion.stop = some stop) :
    stop.level < depth ∧ r.isBase (r.sizeAt initial stop.level) = false ∧
      callLimit nodeLimit < expansion.tree.size + r.branching.toNat ^ (stop.level + 1) ∧
      expansion.tree.Follows (r.outline initial) (r.callsThrough stop.level) := by
  obtain ⟨tree, -, rows⟩ := exists_addRows_of_expand run
  obtain ⟨shallow, full⟩ := stop_of_addRows rfl rows stopped
  rw [Nat.zero_add] at shallow
  rw [widthAt_eq_pow] at full
  cases r.outcome_of_expand run with
  | complete follows above ended within whole unstopped widths =>
      rw [stopped] at unstopped
      cases unstopped
  | cut follows above truncated atLast widths =>
      cases stopped.symm.trans atLast
      exact ⟨shallow, above _ (Nat.le_refl _), full, follows⟩

end DivideConquer

namespace Recurrence

variable {r : Recurrence} {initial : Float} {depth : Nat} {nodeLimit : UInt64}
  {expansion : Expansion}

theorem size_le_callLimit (run : r.expand initial depth nodeLimit = .ok expansion) :
    expansion.tree.size ≤ max 1 (callLimit nodeLimit) := by
  cases r with
  | divideConquer r => exact r.size_le_callLimit run
  | linearShift r => exact r.size_le_callLimit run

end Recurrence

end Unfolding
