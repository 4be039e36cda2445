import Unfolding.Generation
import Unfolding.Proofs.Depth
import Unfolding.Proofs.Drawing.Leaves
import Unfolding.Proofs.Expansion.Additions
import Unfolding.Proofs.Expansion.Subtraction

/-!
From the calls of a recurrence to its drawing.

Every call gets a position, so a recurrence whose depth can be settled is drawn.
What an outline says of the tree before it is drawn, the drawing shows.
-/

namespace Unfolding

variable {Key : Type}

/-! ### Positions -/

namespace CallTree

variable {α β : Type} (tree : CallTree)

theorem size_sweepUp (unknown : β) (value : Nat → List β → β) :
    (tree.sweepUp unknown value).size = tree.size := by
  unfold sweepUp
  induction List.range tree.size with
  | nil => exact Array.size_replicate
  | cons slot slots inductionHypothesis =>
      rw [List.foldr_cons, Array.size_setIfInBounds]
      exact inductionHypothesis

theorem size_levelIndices : tree.levelIndices.size = tree.size := by
  unfold levelIndices
  refine Array.foldl_induction
    (motive := fun count (state : Array Nat × Array Nat) => state.2.size = count) rfl ?_
  intro slot state sized
  rw [Array.size_push, sized]

theorem size_slots [Coordinate α] (placement : Placement) :
    (placement.slots tree : Array α).size = tree.size := by
  cases placement with
  | grid =>
      change (Array.zipWith _ tree.calls tree.levelIndices).size = tree.size
      rw [Array.size_zipWith, size_levelIndices]
      exact Nat.min_self _
  | centred =>
      change (Array.map _ _).size = tree.size
      rw [Array.size_map]
      exact tree.size_sweepUp _ _

theorem size_positions (placement : Placement) (orientation : Orientation) (style : Style) :
    (placement.positions tree orientation style).size = tree.size := by
  unfold Placement.positions
  rw [Array.size_zipWith, size_slots]
  exact Nat.min_self _

end CallTree

/-! ### Drawings -/

namespace Unfolded

variable {outline : Outline Key} {keys : List Key} {budget : DepthBudget} {growth : Option Growth}
variable {expansion : Expansion}

theorem follows_ofExpansion (follows : expansion.tree.Follows outline keys) :
    (ofExpansion budget growth expansion).tree.Follows outline keys :=
  ofExpansion_keeps (·.Follows outline keys) (fun follows => follows.of_calls_eq rfl)
    CallTree.Follows.markRepeats follows

theorem isTruncated_ofExpansion :
    (ofExpansion budget growth expansion).tree.isTruncated =
      (budget.isHorizonBound || expansion.tree.isTruncated) := by
  have marked : (markHorizon budget expansion.tree).isTruncated =
      (budget.isHorizonBound || expansion.tree.isTruncated) := by
    unfold markHorizon
    cases budget.isHorizonBound <;> rfl
  cases growth with
  | none => exact marked
  | some growth => exact marked

theorem draw_eq_ok (unfolded : Unfolded) (orientation : Orientation) (style : Style) :
    ∃ drawing, unfolded.draw orientation style = .ok drawing ∧
      drawing.metadata.isTruncated = unfolded.tree.isTruncated := by
  unfold draw
  dsimp only [Drawing.ofPositions]
  rw [if_pos (CallTree.size_positions ..)]
  exact ⟨_, rfl, rfl⟩

end Unfolded

namespace Recurrence

theorem generate_eq (r : Recurrence) (view : View) (style : Style) :
    r.generate view style =
      match r.unfold view style.nodeLimit with
      | .error fault => .error fault
      | .ok unfolded => unfolded.draw view.orientation style := by
  unfold generate run unfold
  cases r.depth view.initial view.maxDepth with
  | error fault => rfl
  | ok budget =>
      dsimp only
      cases r.unfoldWithin view.initial budget style.nodeLimit with
      | error fault => rfl
      | ok unfolded =>
          dsimp only
          cases unfolded.draw view.orientation style <;> rfl

theorem expand_eq_ok (r : Recurrence) (initial : Float) (depth : Nat) (nodeLimit : UInt64) :
    ∃ expansion, r.expand initial depth nodeLimit = .ok expansion := by
  cases r with
  | divideConquer r =>
      obtain ⟨expansion, run, -⟩ := r.expand_outcome initial depth nodeLimit
      exact ⟨expansion, run⟩
  | linearShift r =>
      obtain ⟨expansion, run, -⟩ := r.expand_outcome initial depth nodeLimit
      exact ⟨expansion, run⟩

variable {r : Recurrence} {view : View} {style : Style} {drawing : Drawing} {budget : DepthBudget}
variable {nodeLimit : UInt64} {unfolded : Unfolded}

/-- Once its depth is settled, nothing keeps a recurrence from being unfolded. -/
theorem unfold_eq_ok (view : View) (nodeLimit : UInt64)
    (settled : r.depth view.initial view.maxDepth = .ok budget) :
    ∃ expansion, r.expand view.initial budget.effective nodeLimit = .ok expansion ∧
      r.unfold view nodeLimit = .ok (.ofExpansion budget r.growth? expansion) := by
  obtain ⟨expansion, run⟩ := r.expand_eq_ok view.initial budget.effective nodeLimit
  refine ⟨expansion, run, ?_⟩
  rw [unfold, settled]
  dsimp only [unfoldWithin]
  rw [run]

/-- Nor from being drawn. -/
theorem generate_eq_ok (settled : r.depth view.initial view.maxDepth = .ok budget) :
    ∃ drawing, r.generate view style = .ok drawing := by
  obtain ⟨expansion, -, ran⟩ := unfold_eq_ok view style.nodeLimit settled
  obtain ⟨drawing, drawn, -⟩ := (Unfolded.ofExpansion budget r.growth? expansion).draw_eq_ok
    view.orientation style
  refine ⟨drawing, ?_⟩
  rw [generate_eq, ran]
  exact drawn

/-- The steps behind an unfolded recurrence. -/
theorem exists_of_unfold (ran : r.unfold view nodeLimit = .ok unfolded) :
    ∃ budget expansion, r.depth view.initial view.maxDepth = .ok budget ∧
      r.expand view.initial budget.effective nodeLimit = .ok expansion ∧
      unfolded = .ofExpansion budget r.growth? expansion := by
  cases settled : r.depth view.initial view.maxDepth with
  | error fault =>
      rw [unfold, settled] at ran
      cases ran
  | ok budget =>
      obtain ⟨expansion, run, same⟩ := unfold_eq_ok view nodeLimit settled
      exact ⟨budget, expansion, rfl, run, Except.ok.inj (ran.symm.trans same)⟩

/-- The steps behind a drawing. -/
theorem exists_of_generate (generated : r.generate view style = .ok drawing) :
    ∃ budget expansion, r.depth view.initial view.maxDepth = .ok budget ∧
      r.expand view.initial budget.effective style.nodeLimit = .ok expansion ∧
      (Unfolded.ofExpansion budget r.growth? expansion).draw view.orientation style =
        .ok drawing := by
  rw [generate_eq] at generated
  cases ran : r.unfold view style.nodeLimit with
  | error fault =>
      rw [ran] at generated
      cases generated
  | ok unfolded =>
      rw [ran] at generated
      obtain ⟨budget, expansion, settled, run, rfl⟩ := exists_of_unfold ran
      exact ⟨budget, expansion, settled, run, generated⟩

end Recurrence

end Unfolding
