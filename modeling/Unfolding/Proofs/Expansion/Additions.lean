import Unfolding.Generation
import Unfolding.Proofs.CallTree.Links
import Unfolding.Proofs.CallTree.Repetition

/-!
An unfolding does nothing but add calls.  What every addition keeps holds of
the unfolded tree, unless it hangs on the widths of rows or on truncation.
-/

namespace Unfolding

/-- Kept by everything that an unfolding does to a tree. -/
structure CallTree.IsKept (Holds : CallTree → Prop) : Prop where
  addRoot : ∀ {tree result : CallTree} {id : String} {argument : Float} {isBase : Bool},
    Holds tree → tree.addRoot id argument isBase = .ok result → Holds result
  addChild : ∀ {tree result : CallTree} {parent : Nat} {id : String} {argument : Float}
    {isBase : Bool}, Holds tree → tree.addChild parent id argument isBase = .ok result →
      Holds result
  of_calls_eq : ∀ {tree result : CallTree}, Holds tree → result.calls = tree.calls →
    result.family = tree.family → Holds result

open CallTree (IsKept)

variable {Holds : CallTree → Prop}

namespace DivideConquer

variable {r : DivideConquer} {above row : Row} {tree result : CallTree} {expansion : Expansion}

/-- A call is added below some call of the row above. -/
theorem exists_of_addCall {index : Nat} (added : r.addCall above row tree index = .ok result) :
    ∃ parent, tree.addChild parent (callId row.level index) row.size (r.isBase row.size) =
      .ok result := by
  unfold addCall at added
  dsimp only at added
  split at added
  · exact ⟨_, added⟩
  · cases added

/-- The calls of a row are added one by one. -/
theorem exists_of_foldlM_addCall {index : Nat} {indices : List Nat}
    (added : (index :: indices).foldlM (r.addCall above row) tree = .ok result) :
    ∃ extended, r.addCall above row tree index = .ok extended ∧
      indices.foldlM (r.addCall above row) extended = .ok result := by
  rw [List.foldlM_cons] at added
  cases first : r.addCall above row tree index with
  | error fault =>
      rw [first] at added
      cases added
  | ok extended =>
      rw [first] at added
      exact ⟨extended, rfl, added⟩

/-- A row of base cases ends the work, and so does a row that does not fit.  Any other
row is added. -/
theorem cases_of_addRows {limit left : Nat}
    (run : r.addRows limit (left + 1) above tree = .ok expansion) :
    expansion = { tree, stop := none } ∨
      (¬ (r.nextRow above tree).width ≤ limit - tree.size ∧
        expansion = .stopped tree above.level) ∨
      ∃ extended, (r.nextRow above tree).width ≤ limit - tree.size ∧
        r.addRow above (r.nextRow above tree) tree = .ok extended ∧
        r.addRows limit left (r.nextRow above tree) extended = .ok expansion := by
  unfold addRows at run
  dsimp only at run
  split at run
  · cases run
    exact .inl rfl
  · split at run
    · rename_i fits
      split at run
      · cases run
      · rename_i extended added
        exact .inr (.inr ⟨extended, fits, added, run⟩)
    · rename_i wide
      cases run
      exact .inr (.inl ⟨wide, rfl⟩)

theorem addCall_keeps (kept : IsKept Holds) {index : Nat} (holds : Holds tree)
    (added : r.addCall above row tree index = .ok result) : Holds result := by
  obtain ⟨parent, made⟩ := exists_of_addCall added
  exact kept.addChild holds made

theorem foldlM_addCall_keeps (kept : IsKept Holds) {indices : List Nat} (holds : Holds tree)
    (added : indices.foldlM (r.addCall above row) tree = .ok result) : Holds result := by
  induction indices generalizing tree with
  | nil =>
      cases added
      exact holds
  | cons index indices inductionHypothesis =>
      obtain ⟨extended, first, rest⟩ := exists_of_foldlM_addCall added
      exact inductionHypothesis (addCall_keeps kept holds first) rest

theorem size_of_foldlM_addCall {indices : List Nat}
    (added : indices.foldlM (r.addCall above row) tree = .ok result) :
    result.size = tree.size + indices.length := by
  induction indices generalizing tree with
  | nil =>
      cases added
      rfl
  | cons index indices inductionHypothesis =>
      obtain ⟨extended, first, rest⟩ := exists_of_foldlM_addCall added
      obtain ⟨parent, made⟩ := exists_of_addCall first
      calc result.size
        _ = extended.size + indices.length := inductionHypothesis rest
        _ = tree.size + 1 + indices.length := by rw [CallTree.size_addChild made]
        _ = tree.size + (index :: indices).length := by
            rw [List.length_cons, Nat.add_right_comm, Nat.add_assoc]

theorem addRow_keeps (kept : IsKept Holds) (holds : Holds tree)
    (added : r.addRow above row tree = .ok result) : Holds result := by
  unfold addRow at added
  split at added
  · cases added
  · rename_i extended rows
    cases added
    exact kept.of_calls_eq (foldlM_addCall_keeps kept holds rows) rfl rfl

theorem addRows_keeps (kept : IsKept Holds) {limit left : Nat} (holds : Holds tree)
    (added : r.addRows limit left above tree = .ok expansion) : Holds expansion.tree := by
  induction left generalizing above tree with
  | zero =>
      cases added
      exact holds
  | succ left inductionHypothesis =>
      rcases cases_of_addRows added with rfl | ⟨-, rfl⟩ | ⟨extended, -, row, rest⟩
      · exact holds
      · exact kept.of_calls_eq holds rfl rfl
      · exact inductionHypothesis (addRow_keeps kept holds row) rest

theorem expand_keeps (kept : IsKept Holds) (start : Holds { family := .divideConquer })
    {initial : Float} {depth : Nat} {nodeLimit : UInt64}
    (run : r.expand initial depth nodeLimit = .ok expansion) : Holds expansion.tree := by
  unfold expand at run
  dsimp only at run
  split at run
  · cases run
  · rename_i rooted added
    have empty : Holds { family := .divideConquer, rowWidths := #[1] } :=
      kept.of_calls_eq start rfl rfl
    exact addRows_keeps kept (kept.addRoot empty added) run

end DivideConquer

namespace LinearShift

/-- The tree as a step leaves it. -/
def Progress.tree : Progress → CallTree
  | .finished expansion => expansion.tree
  | .continued frontier => frontier.tree

variable {r : LinearShift} {tree result : CallTree} {expansion : Expansion}

theorem addCalls_keeps (kept : IsKept Holds) {caller : Waiting} {id : String} {index : Nat}
    {shifts : List UInt32} {queue rest : Queue Waiting} (holds : Holds tree)
    (added : r.addCalls caller id index shifts tree queue = .ok (result, rest)) :
    Holds result := by
  induction shifts generalizing index tree queue with
  | nil =>
      cases added
      exact holds
  | cons shift shifts inductionHypothesis =>
      unfold addCalls at added
      dsimp only at added
      split at added
      · cases added
      · rename_i extended grown
        exact inductionHypothesis (kept.addChild holds grown) added

theorem step_keeps (kept : IsKept Holds) {depth limit : Nat} {frontier : Frontier}
    {progress : Progress} (holds : Holds frontier.tree)
    (stepped : r.step depth limit frontier = .ok progress) : Holds progress.tree := by
  cases progress with
  | finished expansion =>
      rcases eq_of_step_finished stepped with rfl | rfl
      · exact holds
      · exact kept.of_calls_eq holds rfl rfl
  | continued next =>
      obtain ⟨waiting, rest, call, -, -, ⟨-, rfl⟩ | ⟨-, -, added⟩⟩ :=
        exists_of_step_continued stepped
      · exact holds
      · exact addCalls_keeps kept holds added

theorem addWaiting_keeps (kept : IsKept Holds) {depth limit : Nat} {frontier : Frontier}
    (holds : Holds frontier.tree) (run : r.addWaiting depth limit frontier = .ok expansion) :
    Holds expansion.tree := by
  fun_induction LinearShift.addWaiting r depth limit frontier with
  | case1 frontier fault stepped => cases run
  | case2 frontier finished stepped =>
      cases run
      exact step_keeps kept holds stepped
  | case3 frontier next stepped inductionHypothesis =>
      exact inductionHypothesis (step_keeps kept holds stepped) run

theorem expand_keeps (kept : IsKept Holds) (start : Holds { family := .linearShift })
    {initial : Float} {depth : Nat} {nodeLimit : UInt64}
    (run : r.expand initial depth nodeLimit = .ok expansion) : Holds expansion.tree := by
  unfold expand LinearShift.start at run
  dsimp only at run
  cases added : CallTree.addRoot { family := .linearShift } "n"
      (Float.ofNat (Number.wholePart initial)) (r.isBase (Number.wholePart initial)) with
  | error fault =>
      rw [added] at run
      cases run
  | ok rooted =>
      rw [added] at run
      dsimp only at run
      split at run
      · cases run
      · rename_i waited
        cases run
        exact kept.of_calls_eq (addWaiting_keeps kept (kept.addRoot start added) waited) rfl rfl

end LinearShift

namespace Recurrence

variable {r : Recurrence} {initial : Float} {depth : Nat} {nodeLimit : UInt64}
variable {expansion : Expansion}

theorem expand_keeps (kept : IsKept Holds) (start : Holds { family := r.family })
    (run : r.expand initial depth nodeLimit = .ok expansion) : Holds expansion.tree := by
  cases r with
  | divideConquer r => exact r.expand_keeps kept start run
  | linearShift r => exact r.expand_keeps kept start run

theorem linked_of_expand (run : r.expand initial depth nodeLimit = .ok expansion) :
    expansion.tree.Linked := by
  have kept : IsKept CallTree.Linked :=
    ⟨fun _ => .addRoot, CallTree.Linked.addChild, fun linked same _ => linked.of_calls_eq same⟩
  exact expand_keeps kept (.of_empty rfl) run

theorem family_of_expand (run : r.expand initial depth nodeLimit = .ok expansion) :
    expansion.tree.family = r.family := by
  have kept : IsKept fun tree => tree.family = r.family := by
    refine ⟨?_, ?_, fun holds _ same => same.trans holds⟩
    · intro tree result id argument isBase holds added
      exact (CallTree.family_of_addRoot added).trans holds
    · intro tree result parent id argument isBase holds added
      exact (CallTree.family_of_addChild added).trans holds
  exact expand_keeps kept rfl run

/-- No tree outgrows its capacity. -/
theorem size_le_of_expand (run : r.expand initial depth nodeLimit = .ok expansion) :
    expansion.tree.size ≤ CallTree.capacity := by
  have kept : IsKept fun tree => tree.size ≤ CallTree.capacity := by
    refine ⟨?_, ?_, ?_⟩
    · intro tree result id argument isBase _ added
      exact CallTree.size_le_of_addRoot added
    · intro tree result parent id argument isBase _ added
      exact CallTree.size_le_of_addChild added
    · intro tree result sized same _
      rw [CallTree.size, same]
      exact sized
  exact expand_keeps kept (Nat.zero_le _) run

theorem unmarked_of_expand (run : r.expand initial depth nodeLimit = .ok expansion) :
    expansion.tree.Unmarked := by
  have kept : IsKept CallTree.Unmarked :=
    ⟨fun _ => .addRoot, CallTree.Unmarked.addChild,
      fun unmarked same _ => unmarked.of_calls_eq same⟩
  exact expand_keeps kept (by simp [CallTree.Unmarked]) run

end Recurrence

/-! ### Before a drawing -/

namespace Unfolded

variable {budget : DepthBudget} {growth : Option Growth} {expansion : Expansion}

/-- What the marks of truncation and of repeated arguments keep holds of an
unfolded tree. -/
theorem ofExpansion_keeps (Holds : CallTree → Prop)
    (truncated : ∀ {tree}, Holds tree → Holds { tree with isTruncated := true })
    (repeated : ∀ {tree}, Holds tree → Holds tree.markRepeats.1) (holds : Holds expansion.tree) :
    Holds (ofExpansion budget growth expansion).tree := by
  have marked : Holds (markHorizon budget expansion.tree) := by
    unfold markHorizon
    split
    · exact truncated holds
    · exact holds
  cases growth with
  | none => exact marked
  | some growth => exact repeated marked

theorem linked_ofExpansion (linked : expansion.tree.Linked) :
    (ofExpansion budget growth expansion).tree.Linked :=
  ofExpansion_keeps CallTree.Linked (fun linked => linked.of_calls_eq rfl)
    CallTree.Linked.markRepeats linked

theorem family_ofExpansion :
    (ofExpansion budget growth expansion).tree.family = expansion.tree.family :=
  ofExpansion_keeps (·.family = expansion.tree.family) (fun same => same) (fun same => same) rfl

end Unfolded

end Unfolding
