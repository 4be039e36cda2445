import Unfolding.Proofs.Drawing.RootedTree
import Unfolding.Proofs.Expansion.Stop
import Unfolding.Proofs.Truncation

/-!
What the events of a run tell about its drawing.

Events are reported at different moments: when the depth is settled, in the middle
of the unfolding, after repeated arguments are counted and after the drawing.  They
stand in a fixed order and agree with the finished drawing.  Numbers are reported
as words, and a tree never outgrows them.
-/

namespace Unfolding

/-! ### Narratives -/

namespace Drawing

/-- The number of base cases on a level. -/
def basesOn (drawing : Drawing) (level : Nat) : Nat :=
  drawing.nodes.toList.countP fun node => node.level = level ∧ node.isBase

/-- The number of nodes with a repeated argument. -/
def repeatCount (drawing : Drawing) : Nat := drawing.nodes.toList.countP (·.repeats.isSome)

end Drawing

namespace Event

/-- The settled depth of a recurrence. -/
def TellsDepth (r : Recurrence) (view : View) : Event → Prop
  | .depthSettled family natural requested effective atHorizon =>
      family = r.family ∧ requested = view.maxDepth ∧
        ∃ budget, r.depth view.initial view.maxDepth = .ok budget ∧
          natural.toNat = budget.natural ∧ effective.toNat = budget.effective ∧
          atHorizon = budget.atHorizon
  | _ => False

/-- The depth that was settled is the natural one and ends at the horizon. -/
def endsAtHorizon : Event → Bool
  | .depthSettled _ natural _ effective atHorizon => atHorizon && effective == natural
  | _ => false

theorem TellsDepth.atHorizon {r : Recurrence} {view : View} {event : Event}
    (told : event.TellsDepth r view) (ends : event.endsAtHorizon = true) :
    ∃ budget, r.depth view.initial view.maxDepth = .ok budget ∧ budget.atHorizon = true := by
  cases event with
  | depthSettled family natural requested effective atHorizon =>
      obtain ⟨-, -, budget, settled, -, -, rfl⟩ := told
      exact ⟨budget, settled, (Bool.and_eq_true_iff.mp ends).1⟩
  | levelBuilt => cases ends
  | limitReached => cases ends
  | repeatsCounted => cases ends
  | drawn => cases ends

/-- The node limit stopped at the last call and the last level of a drawing. -/
def TellsLimit (nodeLimit : UInt64) (drawing : Drawing) : Event → Prop
  | .limitReached limit emitted level =>
      limit = nodeLimit ∧ emitted.toNat = drawing.metadata.totalNodes ∧
        level.toNat + 1 = drawing.metadata.totalLevels
  | _ => False

/-- One level of a drawing. -/
def TellsLevel (drawing : Drawing) (index : Nat) : Event → Prop
  | .levelBuilt level nodes baseCases =>
      level.toNat = index ∧ drawing.metadata.nodesPerLevel[index]? = some nodes.toNat ∧
        baseCases.toNat = drawing.basesOn index
  | _ => False

/-- The repeated arguments of a drawing. -/
def TellsRepeats (drawing : Drawing) : Event → Prop
  | .repeatsCounted groups annotated =>
      drawing.metadata.repeatedArguments = some groups.toNat ∧
        annotated.toNat = drawing.repeatCount
  | _ => False

/-- The totals of a drawing. -/
def TellsDrawing (drawing : Drawing) : Event → Prop
  | .drawn family totalNodes totalLevels truncated =>
      family = drawing.metadata.family ∧ totalNodes.toNat = drawing.metadata.totalNodes ∧
        totalLevels.toNat = drawing.metadata.totalLevels ∧
        truncated = drawing.metadata.isTruncated
  | _ => False

end Event

/-- The events of a finished run. -/
structure Narrative where
  depth : Event
  limit : Option Event
  levels : List Event
  repeats : Option Event
  drawn : Event

/-- The order in which the events are reported. -/
def Narrative.events (narrative : Narrative) : List Event :=
  narrative.depth :: (narrative.limit.toList ++ narrative.levels ++ narrative.repeats.toList) ++
    [narrative.drawn]

/-- A narrative tells of the drawing of a recurrence. -/
structure Narrative.Tells (narrative : Narrative) (r : Recurrence) (view : View) (style : Style)
    (drawing : Drawing) : Prop where
  depth : narrative.depth.TellsDepth r view
  limit : ∀ event ∈ narrative.limit, event.TellsLimit style.nodeLimit drawing
  /-- Every level is told of once, in order. -/
  levelCount : narrative.levels.length = drawing.metadata.totalLevels
  levels : ∀ (index : Nat) (event : Event), narrative.levels[index]? = some event →
    event.TellsLevel drawing index
  repeats : ∀ event ∈ narrative.repeats, event.TellsRepeats drawing
  counted : narrative.repeats.isSome = true ↔ r.family = .linearShift
  drawn : narrative.drawn.TellsDrawing drawing
  truncated : drawing.metadata.isTruncated = true ↔
    narrative.limit.isSome = true ∨ narrative.depth.endsAtHorizon = true

/-! ### Words -/

theorem toNat_toUInt32_of_le {n : Nat} (bounded : n ≤ CallTree.capacity) :
    n.toUInt32.toNat = n :=
  UInt32.toNat_ofNat_of_lt' (Nat.lt_of_le_of_lt bounded (by decide))

theorem toNat_toUInt64_of_le {n : Nat} (bounded : n ≤ CallTree.capacity) :
    n.toUInt64.toNat = n :=
  UInt64.toNat_ofNat_of_lt' (Nat.lt_of_le_of_lt bounded (by decide))

namespace CallTree

variable {tree : CallTree}

theorem length_levelEvents (tree : CallTree) : tree.levelEvents.length = tree.levelCount := by
  simp [levelEvents, toList_levels]

theorem getElem?_levelEvents {level : Nat} {event : Event}
    (reported : tree.levelEvents[level]? = some event) :
    level < tree.levelCount ∧
      event = .levelBuilt level.toUInt32 (tree.callsOn level).toUInt32
        (tree.basesOn level).toUInt32 := by
  obtain ⟨inside, -⟩ := List.getElem?_eq_some_iff.mp reported
  rw [length_levelEvents] at inside
  simp only [levelEvents, toList_levels, List.getElem?_map, List.getElem?_zipIdx,
    List.getElem?_range inside, Option.map_some, Nat.zero_add, LevelCount.event,
    Option.some.injEq] at reported
  exact ⟨inside, reported.symm⟩

end CallTree

/-! ### Single events -/

namespace DepthBudget

variable {r : Recurrence} {view : View} {budget : DepthBudget}

theorem bounds_of_depth (settled : r.depth view.initial view.maxDepth = .ok budget) :
    budget.requested = view.maxDepth ∧ budget.effective ≤ budget.natural ∧
      budget.natural ≤ CallTree.capacity := by
  obtain ⟨requested, within, bounded⟩ := Recurrence.within_of_depth settled
  exact ⟨requested, within, Nat.le_trans bounded (by decide)⟩

theorem tellsDepth_event (settled : r.depth view.initial view.maxDepth = .ok budget) :
    (budget.event r.family).TellsDepth r view := by
  obtain ⟨requested, within, bounded⟩ := bounds_of_depth settled
  exact ⟨rfl, requested, budget, settled, toNat_toUInt32_of_le bounded,
    toNat_toUInt32_of_le (Nat.le_trans within bounded), rfl⟩

theorem endsAtHorizon_event (settled : r.depth view.initial view.maxDepth = .ok budget) :
    (budget.event r.family).endsAtHorizon = budget.isHorizonBound := by
  obtain ⟨-, within, bounded⟩ := bounds_of_depth settled
  -- both depths fit into words, so equal words are equal depths
  have reached : (budget.effective.toUInt32 == budget.natural.toUInt32) = !budget.isCapped := by
    rw [Bool.eq_iff_iff, beq_iff_eq, ← UInt32.toNat_inj, toNat_toUInt32_of_le bounded,
      toNat_toUInt32_of_le (Nat.le_trans within bounded), Bool.not_eq_true', isCapped,
      decide_eq_false_iff_not]
    omega
  rw [isHorizonBound, ← reached]
  rfl

end DepthBudget

namespace Drawing

variable {tree : CallTree} {positions : Array Point} {orientation : Orientation} {style : Style}
variable {findings : Findings} {drawing : Drawing}

theorem basesOn_eq (drawn : ofPositions tree positions orientation style findings = .ok drawing)
    (level : Nat) : drawing.basesOn level = tree.basesOn level := by
  have shown : drawing.nodes.toList.map (fun node => decide (node.level = level ∧ node.isBase)) =
      tree.calls.toList.map fun call => decide (call.level = level ∧ call.isBase) :=
    map_nodes drawn fun _ _ => rfl
  have counts := congrArg (List.countP id) shown
  rwa [List.countP_map, List.countP_map] at counts

theorem repeatCount_eq
    (drawn : ofPositions tree positions orientation style findings = .ok drawing) :
    drawing.repeatCount = tree.calls.toList.countP (·.repeats.isSome) := by
  have shown : drawing.nodes.toList.map (·.repeats.isSome) =
      tree.calls.toList.map (·.repeats.isSome) :=
    map_nodes drawn fun _ _ => rfl
  have counts := congrArg (List.countP id) shown
  rwa [List.countP_map, List.countP_map] at counts

theorem tellsLevel (sized : tree.size ≤ CallTree.capacity) (linked : tree.Linked)
    (drawn : ofPositions tree positions orientation style findings = .ok drawing)
    {index : Nat} {event : Event} (reported : tree.levelEvents[index]? = some event) :
    event.TellsLevel drawing index := by
  obtain ⟨inside, rfl⟩ := CallTree.getElem?_levelEvents reported
  have levels := Nat.le_trans linked.levelCount_le sized
  refine ⟨toNat_toUInt32_of_le (Nat.le_trans (Nat.le_of_lt inside) levels), ?_, ?_⟩
  · rw [(parts_of_ofPositions drawn).2, metadataOf, CallTree.toList_map_calls_levels,
      List.getElem?_map, List.getElem?_range inside, Option.map_some,
      toNat_toUInt32_of_le (Nat.le_trans (tree.callsOn_le index) sized)]
  · rw [basesOn_eq drawn, toNat_toUInt32_of_le (Nat.le_trans (tree.basesOn_le index) sized)]

theorem tellsDrawing (sized : tree.size ≤ CallTree.capacity) (linked : tree.Linked)
    (drawn : ofPositions tree positions orientation style findings = .ok drawing) :
    drawing.metadata.event.TellsDrawing drawing := by
  refine ⟨rfl, ?_, ?_, rfl⟩
  · rw [(parts_of_ofPositions drawn).2]
    exact toNat_toUInt64_of_le sized
  · rw [(parts_of_ofPositions drawn).2]
    exact toNat_toUInt32_of_le (Nat.le_trans linked.levelCount_le sized)

end Drawing

/-! ### Whole runs -/

namespace Unfolded

variable {budget : DepthBudget} {growth : Option Growth} {expansion : Expansion}

theorem budget_ofExpansion : (ofExpansion budget growth expansion).budget = budget := by
  cases growth <;> rfl

theorem growth_ofExpansion : (ofExpansion budget growth expansion).growth = growth := by
  cases growth <;> rfl

theorem stop_ofExpansion : (ofExpansion budget growth expansion).stop = expansion.stop := by
  cases growth <;> rfl

theorem size_ofExpansion :
    (ofExpansion budget growth expansion).tree.size = expansion.tree.size :=
  ofExpansion_keeps (·.size = expansion.tree.size) (fun same => same)
    (fun same => Array.size_map.trans same) rfl

theorem levelCount_ofExpansion :
    (ofExpansion budget growth expansion).tree.levelCount = expansion.tree.levelCount :=
  ofExpansion_keeps (·.levelCount = expansion.tree.levelCount) (fun same => same)
    (fun same => (CallTree.levelCount_markRepeats _).trans same) rfl

theorem repetition_ofExpansion (unmarked : expansion.tree.Unmarked) {repetition : Repetition}
    (counted : (ofExpansion budget growth expansion).repetition = some repetition) :
    repetition.groups ≤ (ofExpansion budget growth expansion).tree.size ∧
      repetition.annotated =
        (ofExpansion budget growth expansion).tree.calls.toList.countP (·.repeats.isSome) := by
  have stillUnmarked : (markHorizon budget expansion.tree).Unmarked := by
    unfold markHorizon
    split
    · exact unmarked.of_calls_eq rfl
    · exact unmarked
  cases growth with
  | none => cases counted
  | some growth =>
      cases counted
      refine ⟨?_, CallTree.annotated_markRepeats stillUnmarked⟩
      exact Nat.le_trans (CallTree.groups_markRepeats_le _) (Nat.le_of_eq Array.size_map.symm)

theorem isSome_repetition_iff {r : Recurrence} :
    (ofExpansion budget r.growth? expansion).repetition.isSome = true ↔
      r.family = .linearShift := by
  cases r with
  | divideConquer r => exact ⟨nofun, nofun⟩
  | linearShift r => exact ⟨fun _ => rfl, fun _ => rfl⟩

variable {orientation : Orientation} {style : Style} {drawing : Drawing} {event : Event}

theorem tellsLimit (stops : expansion.TellsStop) (sized : expansion.tree.size ≤ CallTree.capacity)
    (linked : expansion.tree.Linked)
    (drawn : (ofExpansion budget growth expansion).draw orientation style = .ok drawing)
    (reported : event ∈ (ofExpansion budget growth expansion).stop.map (·.event style.nodeLimit)) :
    event.TellsLimit style.nodeLimit drawing := by
  obtain ⟨stop, stopped, rfl⟩ := Option.map_eq_some_iff.mp reported
  rw [stop_ofExpansion] at stopped
  have emitted := stops.emitted stopped
  have deepest := stops.deepest stopped
  have levels := Nat.le_trans linked.levelCount_le sized
  have metadata := (Drawing.parts_of_ofPositions drawn).2
  refine ⟨rfl, ?_, ?_⟩
  · rw [toNat_toUInt64_of_le (emitted ▸ sized), emitted, metadata]
    exact size_ofExpansion.symm
  · rw [toNat_toUInt32_of_le (by omega), deepest, metadata]
    exact levelCount_ofExpansion.symm

theorem tellsRepeats (unmarked : expansion.tree.Unmarked)
    (sized : (ofExpansion budget growth expansion).tree.size ≤ CallTree.capacity)
    (drawn : (ofExpansion budget growth expansion).draw orientation style = .ok drawing)
    (reported : event ∈ (ofExpansion budget growth expansion).repetition.map Repetition.event) :
    event.TellsRepeats drawing := by
  obtain ⟨repetition, counted, rfl⟩ := Option.map_eq_some_iff.mp reported
  obtain ⟨groups, annotated⟩ := repetition_ofExpansion unmarked counted
  have marked : repetition.annotated ≤ (ofExpansion budget growth expansion).tree.size :=
    annotated ▸ List.countP_le_length
  constructor
  · rw [(Drawing.parts_of_ofPositions drawn).2, toNat_toUInt32_of_le (Nat.le_trans groups sized)]
    exact congrArg (Option.map Repetition.groups) counted
  · rw [toNat_toUInt32_of_le (Nat.le_trans marked sized), annotated,
      Drawing.repeatCount_eq drawn]

theorem isTruncated_iff (stops : expansion.TellsStop)
    (drawn : (ofExpansion budget growth expansion).draw orientation style = .ok drawing) :
    drawing.metadata.isTruncated = true ↔
      expansion.stop.isSome = true ∨ budget.isHorizonBound = true := by
  rw [isTruncated_of_draw drawn, stops.truncated, Bool.or_eq_true, Or.comm]

end Unfolded

namespace Recurrence

variable {r : Recurrence} {view : View} {budget : DepthBudget}

/-- The narrative of an unfolded recurrence and its drawing. -/
def narrative (r : Recurrence) (style : Style) (unfolded : Unfolded) (drawing : Drawing) :
    Narrative where
  depth := unfolded.budget.event r.family
  limit := unfolded.stop.map (·.event style.nodeLimit)
  levels := unfolded.tree.levelEvents
  repeats := unfolded.repetition.map Repetition.event
  drawn := drawing.metadata.event

theorem run_eq_error {fault : Fault} (style : Style)
    (refused : r.depth view.initial view.maxDepth = .error fault) :
    r.run view style = { events := [], outcome := .error fault } := by
  rw [run, refused]

theorem run_eq_ok (style : Style) (settled : r.depth view.initial view.maxDepth = .ok budget) :
    ∃ expansion drawing, r.expand view.initial budget.effective style.nodeLimit = .ok expansion ∧
      (Unfolded.ofExpansion budget r.growth? expansion).draw view.orientation style =
        .ok drawing ∧
      r.run view style =
        { events := (r.narrative style (.ofExpansion budget r.growth? expansion) drawing).events
          outcome := .ok drawing } := by
  obtain ⟨expansion, run⟩ := r.expand_eq_ok view.initial budget.effective style.nodeLimit
  obtain ⟨drawing, drawn, -⟩ :=
    (Unfolded.ofExpansion budget r.growth? expansion).draw_eq_ok view.orientation style
  refine ⟨expansion, drawing, run, drawn, ?_⟩
  unfold Recurrence.run unfoldWithin narrative
  rw [settled, Unfolded.budget_ofExpansion]
  dsimp only
  rw [run]
  dsimp only
  rw [drawn]
  rfl

theorem narrative_tells {style : Style} {expansion : Expansion} {drawing : Drawing}
    (settled : r.depth view.initial view.maxDepth = .ok budget)
    (run : r.expand view.initial budget.effective style.nodeLimit = .ok expansion)
    (drawn : (Unfolded.ofExpansion budget r.growth? expansion).draw view.orientation style =
      .ok drawing) :
    (r.narrative style (.ofExpansion budget r.growth? expansion) drawing).Tells r view style
      drawing := by
  have stops := tellsStop_of_expand (accepted_of_depth settled).1 run
  have linked : (Unfolded.ofExpansion budget r.growth? expansion).tree.Linked :=
    Unfolded.linked_ofExpansion (linked_of_expand run)
  have sized : (Unfolded.ofExpansion budget r.growth? expansion).tree.size ≤
      CallTree.capacity := by
    rw [Unfolded.size_ofExpansion]
    exact size_le_of_expand run
  constructor
  case depth =>
    rw [narrative, Unfolded.budget_ofExpansion]
    exact DepthBudget.tellsDepth_event settled
  case limit =>
    intro event reported
    exact Unfolded.tellsLimit stops (size_le_of_expand run) (linked_of_expand run) drawn reported
  case levelCount =>
    rw [(Drawing.parts_of_ofPositions drawn).2]
    exact CallTree.length_levelEvents _
  case levels =>
    intro index event reported
    exact Drawing.tellsLevel sized linked drawn reported
  case repeats =>
    intro event reported
    exact Unfolded.tellsRepeats (unmarked_of_expand run) sized drawn reported
  case counted =>
    rw [narrative, Option.isSome_map]
    exact Unfolded.isSome_repetition_iff
  case drawn => exact Drawing.tellsDrawing sized linked drawn
  case truncated =>
    rw [narrative, Option.isSome_map, Unfolded.stop_ofExpansion, Unfolded.budget_ofExpansion,
      DepthBudget.endsAtHorizon_event settled]
    exact Unfolded.isTruncated_iff stops drawn

/-- A refused run reports nothing.  The events of any other run stand in order and
tell of its drawing. -/
theorem run_narrates_drawing (r : Recurrence) (view : View) (style : Style) :
    match (r.run view style).outcome with
    | .error _ => (r.run view style).events = []
    | .ok drawing => ∃ narrative : Narrative,
        (r.run view style).events = narrative.events ∧ narrative.Tells r view style drawing := by
  cases settled : r.depth view.initial view.maxDepth with
  | error fault => rw [run_eq_error style settled]
  | ok budget =>
      obtain ⟨expansion, drawing, run, drawn, whole⟩ := run_eq_ok style settled
      rw [whole]
      exact ⟨_, rfl, narrative_tells settled run drawn⟩

/-- A Fibonacci run that the node limit stops, far above the horizon. -/
theorem run_narrates_drawing_fibonacci :
    let run := (linearShift (.ofShifts [1, 2] 1)).run { initial := 9.5 }
      { Style.standard with nodeLimit := 12 }
    ∃ (drawing : Drawing) (narrative : Narrative) (event : Event), run.outcome = .ok drawing ∧
      run.events = narrative.events ∧ narrative.limit = some event ∧
      event.TellsLimit 12 drawing := by
  intro run
  have settled : (linearShift (.ofShifts [1, 2] 1)).depth 9.5 none =
      .ok (.within 9 false none) := rfl
  obtain ⟨drawing, generated⟩ : ∃ drawing, run.outcome = .ok drawing := generate_eq_ok settled
  have told := run_narrates_drawing (linearShift (.ofShifts [1, 2] 1)) { initial := 9.5 }
    { Style.standard with nodeLimit := 12 }
  rw [show Run.outcome _ = .ok drawing from generated] at told
  obtain ⟨narrative, events, tells⟩ := told
  have truncated : drawing.metadata.isTruncated = true :=
    (LinearShift.isTruncated_iff generated settled).mpr (.inr (by decide +kernel))
  rcases tells.truncated.mp truncated with stopped | horizon
  · obtain ⟨event, reported⟩ := Option.isSome_iff_exists.mp stopped
    exact ⟨drawing, narrative, event, generated, events, reported, tells.limit event reported⟩
  · obtain ⟨budget, same, atHorizon⟩ := tells.depth.atHorizon horizon
    cases settled.symm.trans same
    cases atHorizon

end Recurrence

end Unfolding
