import Unfolding.Proofs.Event.Narrative
import Unfolding.Proofs.Expansion.Limit

/-!
What the node limit leaves of a drawing.

A drawing has at most as many nodes as the limit allows, and at least one.  Where the
limit stopped the unfolding, one more step would have gone beyond it; where it did
not, nothing is missing above the depth.
-/

namespace Unfolding

namespace Drawing

/-- The number of edges that start at a node. -/
def outDegree (drawing : Drawing) (node : Node) : Nat :=
  drawing.edges.toList.countP (·.source = node.id)

end Drawing

/-- Some event tells that the node limit stopped the run. -/
def Run.ReportsLimit (run : Run) : Prop :=
  ∃ limit emitted level, Event.limitReached limit emitted level ∈ run.events

/-- A node makes all calls or none.  If the limit was reached, those of one more node
do not fit under it; if not, all nodes above the depth but the base cases have made
theirs. -/
structure LinearShift.FillsLimit (r : LinearShift) (limit depth : Nat) (reached : Prop)
    (drawing : Drawing) : Prop where
  whole : ∀ node ∈ drawing.nodes,
    drawing.outDegree node = 0 ∨ drawing.outDegree node = r.shifts.length
  full : reached → limit < drawing.metadata.totalNodes + r.shifts.length
  expanded : ¬ reached → ∀ node ∈ drawing.nodes, node.isBase = false → node.level < depth →
    drawing.outDegree node = r.shifts.length

/-- If the limit was reached, the last row makes calls above the depth, but they do not
fit under the limit. -/
def DivideConquer.FillsLimit (r : DivideConquer) (limit depth : Nat) (reached : Prop)
    (drawing : Drawing) : Prop :=
  reached → ∃ last, last + 1 = drawing.metadata.totalLevels ∧ last < depth ∧
    limit < drawing.metadata.totalNodes + r.branching.toNat ^ (last + 1) ∧
    ∀ node ∈ drawing.nodes, node.level = last → node.isBase = false

def Recurrence.FillsLimit : Recurrence → (limit depth : Nat) → (reached : Prop) → Drawing → Prop
  | .divideConquer r => r.FillsLimit
  | .linearShift r => r.FillsLimit

/-! ### Edges -/

/-- Calls that name a caller are those that the caller has made. -/
theorem CallTree.Linked.countP_parent {tree : CallTree} (linked : tree.Linked) {slot : Nat}
    {call : Call} (found : tree.calls[slot]? = some call) :
    tree.calls.toList.countP (·.parent = some slot) = call.children.size := by
  have parents : tree.calls.toList.map Call.parent = (List.range tree.size).map tree.parent? := by
    apply List.ext_getElem (by simp [CallTree.size])
    intro other inside _
    rw [List.length_map, Array.length_toList] at inside
    simp [parent?, inside]
  have counts := congrArg (List.countP (· = some slot)) parents
  rw [List.countP_map, List.countP_map] at counts
  calc tree.calls.toList.countP (·.parent = some slot)
    _ = (List.range tree.size).countP (tree.parent? · = some slot) := counts
    _ = (tree.children slot).length := by
        rw [linked.children, callees, List.countP_eq_length_filter]
    _ = call.children.size := by rw [CallTree.children, found, Array.length_toList]

namespace Drawing

variable {tree : CallTree} {positions : Array Point} {orientation : Orientation} {style : Style}
variable {findings : Findings} {drawing : Drawing}

theorem slot_eq_of_id (distinct : (tree.calls.toList.map Call.id).Nodup) {slot other : Nat}
    {call caller : Call} (found : tree.calls[slot]? = some call)
    (otherFound : tree.calls[other]? = some caller) (same : caller.id = call.id) :
    other = slot := by
  have ids (slot : Nat) :
      (tree.calls.toList.map Call.id)[slot]? = tree.calls[slot]?.map Call.id := by
    rw [List.getElem?_map, Array.getElem?_toList]
  have inside : other < (tree.calls.toList.map Call.id).length := by
    rw [List.length_map, Array.length_toList]
    exact CallTree.lt_size_iff.mpr ⟨caller, otherFound⟩
  apply (List.getElem?_inj inside distinct).mp
  rw [ids, ids, otherFound, found, Option.map_some, Option.map_some, same]

/-- An edge starts at a call if it leads to one that the call has made. -/
theorem source_edge? (distinct : (tree.calls.toList.map Call.id).Nodup) {slot : Nat} {call : Call}
    (found : tree.calls[slot]? = some call) (other : Call) (place : Nat) :
    ((edge? tree style other place).map fun edge => decide (edge.source = call.id)).getD false =
      decide (other.parent = some slot) := by
  cases made : other.parent with
  | none => simp [edge?, made]
  | some parent =>
      cases callerFound : tree.calls[parent]? with
      | none =>
          have elsewhere : parent ≠ slot := by
            rintro rfl
            rw [found] at callerFound
            cases callerFound
          simp [edge?, made, callerFound, elsewhere]
      | some caller =>
          rw [edge?_of_caller made callerFound, Option.map_some, Option.getD_some]
          apply decide_eq_decide.mpr
          rw [Option.some.injEq]
          constructor
          · exact slot_eq_of_id distinct found callerFound
          · rintro rfl
            rw [Option.some.inj (callerFound.symm.trans found)]

theorem outDegree_node (linked : tree.Linked) (distinct : (tree.calls.toList.map Call.id).Nodup)
    (drawn : ofPositions tree positions orientation style findings = .ok drawing) {slot : Nat}
    {call : Call} (found : tree.calls[slot]? = some call) (position : Point) :
    drawing.outDegree (node tree orientation call position) = call.children.size := by
  rw [← linked.countP_parent found, outDegree, (parts_of_ofPositions drawn).1, edgesOf,
    Array.toList_filterMap, Array.toList_zipIdx, List.countP_filterMap]
  have calls : tree.calls.toList = tree.calls.toList.zipIdx.map Prod.fst :=
    (List.zipIdx_map_fst 0 _).symm
  -- an edge comes from the call where it ends, so the calls can be counted in its place
  rw [calls, List.countP_map, ← calls]
  apply List.countP_congr
  intro item _
  exact Bool.eq_iff_iff.mp (source_edge? distinct found item.1 item.2)

end Drawing

namespace Unfolded

variable {budget : DepthBudget} {growth : Option Growth} {expansion : Expansion}
variable {orientation : Orientation} {style : Style} {drawing : Drawing} {shown : Node}

/-- A node shows a call of the outline, with as many edges as the call has made
calls. -/
theorem exists_call_of_draw {Key : Type} {outline : Outline Key} {keys : List Key}
    (linked : expansion.tree.Linked) (follows : expansion.tree.Follows outline keys)
    (drawn : (ofExpansion budget growth expansion).draw orientation style = .ok drawing)
    (member : shown ∈ drawing.nodes) :
    ∃ key call, key ∈ keys ∧ outline.Describes keys key call ∧ shown.level = call.level ∧
      shown.isBase = call.isBase ∧ drawing.outDegree shown = call.children.size := by
  have treeFollows : (ofExpansion budget growth expansion).tree.Follows outline keys :=
    follows_ofExpansion follows
  obtain ⟨slot, place⟩ := Array.getElem?_of_mem member
  obtain ⟨call, position, found, rfl⟩ := Drawing.exists_call drawn place
  obtain ⟨key, keyFound, described⟩ := treeFollows.key_of_call found
  exact ⟨key, call, List.mem_of_getElem? keyFound, described, rfl, rfl,
    Drawing.outDegree_node (linked_ofExpansion linked) treeFollows.nodup_ids drawn found position⟩

theorem level_lt_of_draw
    (drawn : (ofExpansion budget growth expansion).draw orientation style = .ok drawing)
    (member : shown ∈ drawing.nodes) : shown.level < expansion.tree.levelCount := by
  obtain ⟨slot, place⟩ := Array.getElem?_of_mem member
  obtain ⟨call, position, found, rfl⟩ := Drawing.exists_call drawn place
  rw [← levelCount_ofExpansion]
  exact CallTree.level_lt_levelCount (Array.mem_def.mp (Array.mem_of_getElem? found))

end Unfolded

/-! ### Events -/

/-- The limit is only reported by the event that tells of it. -/
theorem Narrative.Tells.mem_limitReached_iff {narrative : Narrative} {r : Recurrence} {view : View}
    {style : Style} {drawing : Drawing} (tells : narrative.Tells r view style drawing) :
    (∃ limit emitted level, Event.limitReached limit emitted level ∈ narrative.events) ↔
      narrative.limit.isSome = true := by
  constructor
  · rintro ⟨limit, emitted, level, member⟩
    simp only [Narrative.events, List.cons_append, List.mem_cons, List.mem_append, List.mem_nil_iff,
      or_false, Option.mem_toList] at member
    -- at any other place of the narrative stands an event of another kind
    rcases member with depth | ((limit | levels) | repeats) | drawn
    · have told := tells.depth
      rw [← depth] at told
      exact told.elim
    · exact Option.isSome_of_mem limit
    · obtain ⟨index, place⟩ := List.getElem?_of_mem levels
      exact (tells.levels index _ place).elim
    · exact (tells.repeats _ repeats).elim
    · have told := tells.drawn
      rw [← drawn] at told
      exact told.elim
  · intro reached
    obtain ⟨event, reported⟩ := Option.isSome_iff_exists.mp reached
    have told := tells.limit event reported
    cases event with
    | limitReached limit emitted level =>
        refine ⟨limit, emitted, level, ?_⟩
        simp [Narrative.events, reported]
    | depthSettled => exact told.elim
    | levelBuilt => exact told.elim
    | repeatsCounted => exact told.elim
    | drawn => exact told.elim

/-! ### Drawings -/

section

variable {budget : DepthBudget} {growth : Option Growth} {expansion : Expansion} {view : View}
  {style : Style} {drawing : Drawing} {reached : Prop}

theorem LinearShift.fillsLimit {r : LinearShift}
    (run : r.expand view.initial budget.effective style.nodeLimit = .ok expansion)
    (drawn : (Unfolded.ofExpansion budget growth expansion).draw view.orientation style =
      .ok drawing)
    (reports : reached ↔ expansion.stop ≠ none) :
    r.FillsLimit (callLimit style.nodeLimit) budget.effective reached drawing := by
  obtain ⟨listed, done, waiting, sweep, follows, finished, full⟩ :=
    (outcome_of_expand run).exists_sweep
  have linked := Recurrence.linked_of_expand (r := .linearShift r) run
  constructor
  case whole =>
    intro shown member
    obtain ⟨path, call, -, described, -, -, degree⟩ :=
      Unfolded.exists_call_of_draw linked follows drawn member
    rw [degree, sweep.size_children described]
    exact (ite_eq_or_eq _ _ _).symm
  case full =>
    intro stopped
    rw [(Drawing.parts_of_ofPositions drawn).2, Drawing.metadataOf, Unfolded.size_ofExpansion,
      follows.size]
    exact full (reports.mp stopped)
  case expanded =>
    intro unstopped shown member notBase shallow
    obtain ⟨path, call, listed, described, level, isBase, degree⟩ :=
      Unfolded.exists_call_of_draw linked follows drawn member
    rw [reports, not_not] at unstopped
    obtain rfl := finished unstopped
    rw [level] at shallow
    rw [isBase] at notBase
    rw [degree, sweep.size_children_of_finished described listed notBase shallow]

theorem DivideConquer.fillsLimit {r : DivideConquer} (valid : r.check = .ok ())
    (run : r.expand view.initial budget.effective style.nodeLimit = .ok expansion)
    (drawn : (Unfolded.ofExpansion budget growth expansion).draw view.orientation style =
      .ok drawing)
    (reports : reached ↔ expansion.stop ≠ none) :
    r.FillsLimit (callLimit style.nodeLimit) budget.effective reached drawing := by
  intro stopped
  obtain ⟨stop, stopped⟩ := Option.ne_none_iff_exists'.mp (reports.mp stopped)
  obtain ⟨shallow, above, full, follows⟩ := stop_of_expand run stopped
  have linked := Recurrence.linked_of_expand (r := .divideConquer r) run
  have metadata := (Drawing.parts_of_ofPositions drawn).2
  refine ⟨stop.level, ?_, shallow, ?_, ?_⟩
  · rw [metadata, Drawing.metadataOf, Unfolded.levelCount_ofExpansion,
      levelCount_of_follows (reduction_of_check valid).1 follows]
  · rw [metadata, Drawing.metadataOf, Unfolded.size_ofExpansion]
    exact full
  · intro shown member here
    obtain ⟨key, call, -, described, level, isBase, -⟩ :=
      Unfolded.exists_call_of_draw linked follows drawn member
    have row : key.1 = stop.level := described.level.symm.trans (level.symm.trans here)
    rw [isBase, described.isBase]
    change r.isBase (r.sizeAt view.initial key.1) = false
    rw [row]
    exact above

end

namespace Recurrence

variable {r : Recurrence} {view : View} {style : Style} {drawing : Drawing}

/-- A drawing keeps to the node limit and to its depth, and fills them. -/
theorem generate_fills_limit (generated : r.generate view style = .ok drawing) :
    let limit := min style.nodeLimit.toNat (2 ^ 32 - 1)
    ∃ budget, r.depth view.initial view.maxDepth = .ok budget ∧
      drawing.metadata.effectiveDepth = budget.effective ∧
      drawing.metadata.totalNodes = drawing.nodes.size ∧
      1 ≤ drawing.metadata.totalNodes ∧ drawing.metadata.totalNodes ≤ max 1 limit ∧
      (∀ node ∈ drawing.nodes, node.level ≤ budget.effective) ∧
      r.FillsLimit limit budget.effective (r.run view style).ReportsLimit drawing := by
  obtain ⟨budget, -, settled, -⟩ := exists_of_generate generated
  obtain ⟨expansion, same, run, drawn, whole⟩ := run_eq_ok style settled
  obtain rfl : same = drawing := by
    rw [generate, whole] at generated
    exact Except.ok.inj generated
  have valid := (accepted_of_depth settled).1
  have metadata := (Drawing.parts_of_ofPositions drawn).2
  have reports : (r.run view style).ReportsLimit ↔ expansion.stop ≠ none := by
    rw [whole]
    refine (narrative_tells settled run drawn).mem_limitReached_iff.trans ?_
    rw [narrative, Option.isSome_map, Unfolded.stop_ofExpansion, Option.isSome_iff_ne_none]
  refine ⟨budget, settled, ?_, ?_, ?_, ?_, ?_, ?_⟩
  · rw [metadata]
    exact congrArg DepthBudget.effective Unfolded.budget_ofExpansion
  · rw [metadata, Drawing.size_nodes drawn]
    rfl
  · obtain ⟨Key, outline, keys, follows, nonempty, -⟩ := exists_follows_of_expand run
    rw [metadata, Drawing.metadataOf, Unfolded.size_ofExpansion, follows.size]
    exact List.length_pos_of_ne_nil nonempty
  · rw [metadata, Drawing.metadataOf, Unfolded.size_ofExpansion]
    exact size_le_callLimit run
  · intro shown member
    have shallow := Unfolded.level_lt_of_draw drawn member
    exact Nat.le_of_lt_succ (Nat.lt_of_lt_of_le shallow (levelCount_le_of_expand run))
  · cases r with
    | divideConquer r => exact r.fillsLimit valid run drawn reports
    | linearShift r => exact r.fillsLimit run drawn reports

/-- Nine more calls do not fit under the limit after four.  Fibonacci calls are made two
by two. -/
theorem generate_fills_limit_twelve :
    let ternary := divideConquer { branching := 3, reduction := 2.5, work := "n", threshold := 1 }
    let fibonacci := linearShift (.ofShifts [1, 2] 1)
    let style := { Style.standard with nodeLimit := 12 }
    (∃ drawing, ternary.generate { initial := 10 } style = .ok drawing ∧
      (ternary.run { initial := 10 } style).ReportsLimit ∧
      ternary.FillsLimit 12 3 (ternary.run { initial := 10 } style).ReportsLimit drawing) ∧
    ∃ drawing, fibonacci.generate { initial := 9.5 } style = .ok drawing ∧
      fibonacci.FillsLimit 12 9 (fibonacci.run { initial := 9.5 } style).ReportsLimit drawing := by
  constructor
  · have settled : (divideConquer ⟨3, 2.5, "n", 1⟩).depth 10 none = .ok (.within 3 false none) :=
      rfl
    obtain ⟨drawing, generated⟩ :
        ∃ drawing, (divideConquer ⟨3, 2.5, "n", 1⟩).generate { initial := 10 }
          { Style.standard with nodeLimit := 12 } = .ok drawing := generate_eq_ok settled
    obtain ⟨budget, same, -, -, -, -, -, fills⟩ := generate_fills_limit generated
    cases settled.symm.trans same
    refine ⟨drawing, generated, ⟨12, 4, 1, ?_⟩, fills⟩
    exact List.mem_of_getElem? (i := 1) (by decide +kernel)
  · have settled : (linearShift (.ofShifts [1, 2] 1)).depth 9.5 none =
        .ok (.within 9 false none) := rfl
    obtain ⟨drawing, generated⟩ :
        ∃ drawing, (linearShift (.ofShifts [1, 2] 1)).generate { initial := 9.5 }
          { Style.standard with nodeLimit := 12 } = .ok drawing := generate_eq_ok settled
    obtain ⟨budget, same, -, -, -, -, -, fills⟩ := generate_fills_limit generated
    cases settled.symm.trans same
    exact ⟨drawing, generated, fills⟩

end Recurrence

end Unfolding
