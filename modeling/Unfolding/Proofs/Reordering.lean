import Unfolding.Proofs.Event.Narrative
import Unfolding.Proofs.Expansion.Reordering

/-!
Drawings of linear-shift recurrences with reordered shifts.

The figures about a drawing that do not tell arguments apart follow from the
levels of its calls.  The others follow from the levels and the arguments
together, in any order.
-/

namespace Unfolding

/-- The values shown on a level. -/
def Drawing.valuesOn (drawing : Drawing) (level : Nat) : List Float :=
  (drawing.nodes.toList.filter (·.level = level)).map Node.value

theorem Drawing.metadataOf_eq_of_levels {tree other : CallTree} {findings otherFindings : Findings}
    (levels : other.calls.toList.map Call.level = tree.calls.toList.map Call.level)
    (family : other.family = tree.family) (truncated : other.isTruncated = tree.isTruncated)
    (growth : otherFindings.growth = findings.growth)
    (depth : otherFindings.effectiveDepth = findings.effectiveDepth) :
    metadataOf other otherFindings =
      { metadataOf tree findings with
        repeatedArguments := otherFindings.repetition.map Repetition.groups } := by
  have sized : other.size = tree.size := by
    have lengths := congrArg List.length levels
    rwa [List.length_map, List.length_map] at lengths
  have levelCount := CallTree.levelCount_eq_of_levels levels
  unfold metadataOf
  rw [sized, CallTree.toList_map_calls_levels, CallTree.toList_map_calls_levels, levelCount,
    CallTree.callsOn_eq_of_levels levels, family, truncated, growth, depth]

namespace Unfolded

variable {budget : DepthBudget} {growth : Option Growth} {expansion : Expansion}

/-- What does not depend on the marks of repeated arguments is kept. -/
theorem map_calls_ofExpansion {β : Type} {ofCall : Call → β}
    (forgets : ∀ call repeats, ofCall { call with repeats } = ofCall call) :
    (ofExpansion budget growth expansion).tree.calls.toList.map ofCall =
      expansion.tree.calls.toList.map ofCall := by
  refine ofExpansion_keeps
    (fun tree => tree.calls.toList.map ofCall = expansion.tree.calls.toList.map ofCall)
    (fun same => same) ?_ rfl
  intro tree same
  have unmarked (call : Call) :
      ofCall (CallTree.noteRepeats tree.argumentCounts call) = ofCall call := by
    obtain ⟨repeats, noted⟩ := CallTree.exists_noteRepeats tree.argumentCounts call
    rw [noted, forgets]
  change (tree.calls.map (CallTree.noteRepeats tree.argumentCounts)).toList.map ofCall = _
  rw [← same, Array.toList_map, List.map_map]
  exact List.map_congr_left fun call _ => unmarked call

end Unfolded

/-- The level of a call, whether it is a base case, and its argument. -/
def standingOf (call : Call) : Nat × Bool × Float := (call.level, call.isBase, call.argument)

namespace LinearShift

variable {r other : LinearShift} {initial : Float} {depth : Nat} {nodeLimit : UInt64}
variable {expansion reordered : Expansion} {budget : DepthBudget} {growth : Growth}
variable {orientation : Orientation} {style : Style} {drawing redrawn : Drawing}

theorem map_standingOf {first : Nat} {listed : List CallPath}
    (follows : expansion.tree.Follows (r.outline first) listed) :
    expansion.tree.calls.toList.map standingOf =
      (listed.map (r.standing first)).map fun (level, argument) =>
        (level, r.isBase argument, Float.ofNat argument) := by
  rw [List.map_map]
  refine follows.map_calls fun {path call} described => ?_
  have level : call.level = path.length := described.level
  have isBase : call.isBase = r.isBase (r.argumentAt first path) := described.isBase
  have argument : call.argument = Float.ofNat (r.argumentAt first path) := described.argument
  rw [standingOf, level, isBase, argument]
  rfl

namespace Reorders

theorem depth_eq (reorders : r.Reorders other) (valid : r.check = .ok ())
    (requested : Option UInt32) : other.depth initial requested = r.depth initial requested := by
  rw [LinearShift.depth, LinearShift.depth, valid, reorders.check valid]

/-- Without a stop, the calls of the two trees are the same up to their order. -/
theorem standingOf_perm (reorders : r.Reorders other) (valid : r.check = .ok ())
    (run : r.expand initial depth nodeLimit = .ok expansion)
    (otherRun : other.expand initial depth nodeLimit = .ok reordered)
    (unstopped : expansion.stop = none) :
    (reordered.tree.calls.toList.map standingOf).Perm
      (expansion.tree.calls.toList.map standingOf) := by
  obtain ⟨listed, done, waiting, sweep, follows, whole, -⟩ :=
    (outcome_of_expand run).exists_sweep
  obtain ⟨otherListed, otherDone, otherWaiting, otherSweep, otherFollows, otherWhole, -⟩ :=
    (outcome_of_expand otherRun).exists_sweep
  obtain rfl := whole unstopped
  obtain rfl := otherWhole ((reorders.stop_eq_none_iff valid run otherRun).mpr unstopped)
  rw [map_standingOf follows, map_standingOf otherFollows, reorders.isBase_eq]
  apply List.Perm.map
  calc otherListed.map (other.standing (Number.wholePart initial))
    _ |>.Perm ((other.callPaths depth (Number.wholePart initial)).map
        (other.standing (Number.wholePart initial))) := otherSweep.perm_callPaths.map _
    _ |>.Perm ((r.callPaths depth (Number.wholePart initial)).map
        (r.standing (Number.wholePart initial))) := (reorders.standing_perm _ _).symm
    _ |>.Perm (listed.map (r.standing (Number.wholePart initial))) :=
        (sweep.perm_callPaths.map _).symm

/-- The figures about a drawing, apart from the repeated arguments, follow from
the levels. -/
theorem metadata_eq (reorders : r.Reorders other) (valid : r.check = .ok ())
    (run : r.expand initial depth nodeLimit = .ok expansion)
    (otherRun : other.expand initial depth nodeLimit = .ok reordered)
    (drawn : (Unfolded.ofExpansion budget (some growth) expansion).draw orientation style =
      .ok drawing)
    (otherDrawn : (Unfolded.ofExpansion budget (some growth) reordered).draw orientation style =
      .ok redrawn) :
    redrawn.metadata =
      { drawing.metadata with repeatedArguments := redrawn.metadata.repeatedArguments } := by
  rw [(Drawing.parts_of_ofPositions drawn).2, (Drawing.parts_of_ofPositions otherDrawn).2]
  apply Drawing.metadataOf_eq_of_levels _ _ _ rfl rfl
  · rw [Unfolded.map_calls_ofExpansion fun _ _ => rfl,
      Unfolded.map_calls_ofExpansion fun _ _ => rfl]
    exact (reorders.levels_eq valid run otherRun).symm
  · rw [Unfolded.family_ofExpansion, Unfolded.family_ofExpansion,
      Recurrence.family_of_expand (r := .linearShift r) run,
      Recurrence.family_of_expand (r := .linearShift other) otherRun]
    rfl
  · rw [Unfolded.isTruncated_ofExpansion, Unfolded.isTruncated_ofExpansion,
      (tellsStop_of_expand run).truncated, (tellsStop_of_expand otherRun).truncated,
      reorders.stop_eq valid run otherRun]

end Reorders

end LinearShift

/-! ### The same calls in another order -/

namespace Unfolded

variable {budget : DepthBudget} {growth : Growth} {expansion reordered : Expansion}
variable {orientation : Orientation} {style : Style} {drawing redrawn : Drawing}

theorem repeatedArguments_eq
    (same : (reordered.tree.calls.toList.map standingOf).Perm
      (expansion.tree.calls.toList.map standingOf))
    (drawn : (ofExpansion budget (some growth) expansion).draw orientation style = .ok drawing)
    (redrew : (ofExpansion budget (some growth) reordered).draw orientation style = .ok redrawn) :
    redrawn.metadata.repeatedArguments = drawing.metadata.repeatedArguments := by
  have keys (tree : CallTree) : (markHorizon budget tree).argumentKeys =
      (tree.calls.toList.map standingOf).map fun (_, _, argument) => argumentKey argument := by
    rw [List.map_map, markHorizon]
    split <;> rfl
  rw [(Drawing.parts_of_ofPositions drawn).2, (Drawing.parts_of_ofPositions redrew).2]
  apply congrArg some
  apply CallTree.groups_eq_of_perm
  rw [keys, keys]
  exact same.map _

/-- What is shown of the calls of an expansion. -/
theorem map_standing_nodes
    (drawn : (ofExpansion budget (some growth) expansion).draw orientation style = .ok drawing) :
    drawing.nodes.toList.map (fun node => (node.level, node.isBase, node.value)) =
      expansion.tree.calls.toList.map standingOf := by
  rw [← map_calls_ofExpansion fun _ _ => rfl]
  exact Drawing.map_nodes drawn fun _ _ => rfl

end Unfolded

namespace Drawing

variable {drawing redrawn : Drawing}

theorem basesOn_eq_of_perm
    (same : (redrawn.nodes.toList.map fun node => (node.level, node.isBase, node.value)).Perm
      (drawing.nodes.toList.map fun node => (node.level, node.isBase, node.value)))
    (level : Nat) : redrawn.basesOn level = drawing.basesOn level := by
  have counts := same.countP_eq fun (shown, isBase, _) => decide (shown = level ∧ isBase)
  rwa [List.countP_map, List.countP_map] at counts

theorem valuesOn_perm
    (same : (redrawn.nodes.toList.map fun node => (node.level, node.isBase, node.value)).Perm
      (drawing.nodes.toList.map fun node => (node.level, node.isBase, node.value)))
    (level : Nat) : (redrawn.valuesOn level).Perm (drawing.valuesOn level) := by
  have values :=
    (same.filter fun (shown, _) => decide (shown = level)).map fun (_, _, value) => value
  rwa [List.filter_map, List.filter_map, List.map_map, List.map_map] at values

end Drawing

/-- Reordering the shifts changes nothing that is counted level by level, not even
under a node limit.  Unless the limit stops the calls, every level has the same base
cases and the same arguments, and as many arguments repeat. -/
theorem LinearShift.generate_reordered {r other : LinearShift} (reorders : r.Reorders other)
    (valid : r.check = .ok ()) (view : View)
    (accepted : checkInitialSize view.initial = .ok ()) (style : Style) :
    ∃ unfolded reordered drawing redrawn,
      (Recurrence.linearShift r).unfold view style.nodeLimit = .ok unfolded ∧
      (Recurrence.linearShift other).unfold view style.nodeLimit = .ok reordered ∧
      (Recurrence.linearShift r).generate view style = .ok drawing ∧
      (Recurrence.linearShift other).generate view style = .ok redrawn ∧
      reordered.budget = unfolded.budget ∧
      reordered.stop = unfolded.stop ∧
      redrawn.metadata =
        { drawing.metadata with repeatedArguments := redrawn.metadata.repeatedArguments } ∧
      (unfolded.stop = none →
        redrawn.metadata = drawing.metadata ∧
        ∀ level, redrawn.basesOn level = drawing.basesOn level ∧
          (redrawn.valuesOn level).Perm (drawing.valuesOn level)) := by
  obtain ⟨budget, settled⟩ : ∃ budget, r.depth view.initial view.maxDepth = .ok budget :=
    ⟨_, LinearShift.depth_eq_ok_iff.mpr ⟨valid, accepted, rfl⟩⟩
  have otherSettled : other.depth view.initial view.maxDepth = .ok budget := by
    rw [reorders.depth_eq valid, settled]
  obtain ⟨expansion, run, unfolds⟩ :=
    Recurrence.unfold_eq_ok (r := .linearShift r) view style.nodeLimit settled
  obtain ⟨reordered, otherRun, otherUnfolds⟩ :=
    Recurrence.unfold_eq_ok (r := .linearShift other) view style.nodeLimit otherSettled
  have growth : Recurrence.growth? (.linearShift other) = Recurrence.growth? (.linearShift r) := by
    rw [Recurrence.growth?, Recurrence.growth?, reorders.length_eq]
  rw [growth] at otherUnfolds
  obtain ⟨drawing, drawn, -⟩ := Unfolded.draw_eq_ok
    (.ofExpansion budget (Recurrence.growth? (.linearShift r)) expansion) view.orientation style
  obtain ⟨redrawn, otherDrawn, -⟩ := Unfolded.draw_eq_ok
    (.ofExpansion budget (Recurrence.growth? (.linearShift r)) reordered) view.orientation style
  have figures := reorders.metadata_eq valid run otherRun drawn otherDrawn
  refine ⟨_, _, drawing, redrawn, unfolds, otherUnfolds, ?_, ?_, rfl,
    reorders.stop_eq valid run otherRun, figures, ?_⟩
  · rw [Recurrence.generate_eq, unfolds]
    exact drawn
  · rw [Recurrence.generate_eq, otherUnfolds]
    exact otherDrawn
  · intro unstopped
    have calls := reorders.standingOf_perm valid run otherRun unstopped
    refine ⟨?_, ?_⟩
    · rw [figures, Unfolded.repeatedArguments_eq calls drawn otherDrawn]
    · intro level
      rw [← Unfolded.map_standing_nodes drawn, ← Unfolded.map_standing_nodes otherDrawn] at calls
      exact ⟨Drawing.basesOn_eq_of_perm calls level, Drawing.valuesOn_perm calls level⟩

/-- The Fibonacci calls from 9 on, with the shifts in both orders and no limit in
their way. -/
theorem LinearShift.generate_reordered_fibonacci :
    ∃ drawing redrawn,
      (Recurrence.linearShift (.ofShifts [1, 2] 1)).generate { initial := 9.5 } .standard =
        .ok drawing ∧
      (Recurrence.linearShift (.ofShifts [2, 1] 1)).generate { initial := 9.5 } .standard =
        .ok redrawn ∧
      redrawn.metadata = drawing.metadata ∧
      (redrawn.valuesOn 4).Perm (drawing.valuesOn 4) := by
  have reorders : (LinearShift.ofShifts [1, 2] 1).Reorders (.ofShifts [2, 1] 1) :=
    ⟨List.Perm.swap 2 1 [], rfl, rfl⟩
  obtain ⟨unfolded, reordered, drawing, redrawn, unfolds, -, drawn, redrew, -, -, -, whole⟩ :=
    generate_reordered reorders rfl { initial := 9.5 } rfl .standard
  have unstopped : unfolded.stop = none := by
    obtain ⟨budget, expansion, settled, run, rfl⟩ := Recurrence.exists_of_unfold unfolds
    obtain rfl : DepthBudget.within 9 false none = budget := Except.ok.inj settled
    exact ((LinearShift.outcome_of_expand run).stop_eq_none_iff (by decide)).mpr
      (by decide +kernel)
  obtain ⟨metadata, levels⟩ := whole unstopped
  exact ⟨drawing, redrawn, drawn, redrew, metadata, (levels 4).2⟩

end Unfolding
