import Unfolding.Proofs.Expansion.Order
import Unfolding.Proofs.Expansion.Rows

/-!
Drawings are rooted trees.

Nodes and edges of a drawing refer to each other by ids only.  The ids of calls
are distinct, so the drawing of a linked tree can be read as a tree again: every
node but the first has one edge that leads to it, and the edge starts at an
earlier node one level up.
-/

namespace Unfolding

namespace Drawing

/-- The ids of the nodes where edges end. -/
def targets (drawing : Drawing) : List String := drawing.edges.toList.map Edge.target

structure IsRootedTree (drawing : Drawing) : Prop where
  nodeIds : (drawing.nodes.toList.map Node.id).Nodup
  lookup : ∀ node ∈ drawing.nodes, drawing.node? node.id = some node
  edgeIds : (drawing.edges.toList.map Edge.id).Nodup
  edgeCount : drawing.edges.size + 1 = drawing.nodes.size
  root : ∃ root, drawing.nodes[0]? = some root ∧ root.level = 0 ∧ root.id ∉ drawing.targets
  /-- One edge leads to each other node, from an earlier one on the level above. -/
  caller : ∀ {slot : Nat} {node : Node}, 0 < slot → drawing.nodes[slot]? = some node →
    drawing.targets.count node.id = 1 ∧
    ∃ edge ∈ drawing.edges, edge.target = node.id ∧
      ∃ (above : Nat) (caller : Node), above < slot ∧ drawing.nodes[above]? = some caller ∧
        edge.source = caller.id ∧ node.level = caller.level + 1
  edgeOrder : drawing.targets = (drawing.nodes.toList.map Node.id).tail
  dashed : ∀ edge ∈ drawing.edges, ∀ node ∈ drawing.nodes, edge.target = node.id →
    (edge.isDashed = true ↔ node.repeats.isSome = true)
  levelCount : drawing.metadata.nodesPerLevel.length = drawing.metadata.totalLevels
  deepest : (∀ node ∈ drawing.nodes, node.level < drawing.metadata.totalLevels) ∧
    ∃ node ∈ drawing.nodes, node.level + 1 = drawing.metadata.totalLevels
  rows : ∀ {level count : Nat}, drawing.metadata.nodesPerLevel[level]? = some count →
    0 < count ∧ drawing.nodes.toList.countP (·.level = level) = count ∧
    ∀ node ∈ drawing.nodes, node.level = level → node.rowWidth = count
  total : drawing.metadata.nodesPerLevel.sum = drawing.metadata.totalNodes ∧
    drawing.metadata.totalNodes = drawing.nodes.size

/-! ### Edges of linked trees -/

section Edges

variable {tree : CallTree}

theorem getElem?_filterMap_of_isSome {α β : Type} {f : α → Option β} {items : List α}
    (whole : ∀ item ∈ items, (f item).isSome) (i : Nat) :
    (items.filterMap f)[i]? = items[i]?.bind f := by
  induction items generalizing i with
  | nil => rfl
  | cons item items inductionHypothesis =>
      rw [List.forall_mem_cons] at whole
      obtain ⟨value, found⟩ := Option.isSome_iff_exists.mp whole.1
      rw [List.filterMap_cons_some found]
      cases i with
      | zero => exact found.symm
      | succ i => exact inductionHypothesis whole.2 i

theorem edge?_of_caller {style : Style} {call caller : Call} {slot parent : Nat}
    (made : call.parent = some parent) (found : tree.calls[parent]? = some caller) :
    edge? tree style call slot = some {
      id := "e-" ++ toString slot
      source := caller.id
      target := call.id
      strokeWidth := style.edgeStrokeWidth
      isDashed := call.repeats.isSome } := by
  simp [edge?, made, found]

/-- The edges of a linked tree are those of the calls behind the root. -/
theorem getElem?_edgesOf (linked : tree.Linked) (style : Style) (i : Nat) :
    (edgesOf tree style)[i]? = tree.calls[i + 1]?.bind (edge? tree style · (i + 1)) := by
  rw [edgesOf, ← Array.getElem?_toList, Array.toList_filterMap, Array.toList_zipIdx,
    ← Array.getElem?_toList]
  cases calls : tree.calls.toList with
  | nil => rfl
  | cons root rest =>
      have place (slot : Nat) : tree.calls[slot]? = (root :: rest)[slot]? := by
        rw [← calls, Array.getElem?_toList]
      have rootless : edge? tree style root 0 = none := by
        have none := linked.parent?_eq_none_of_eq_zero rfl
        rw [CallTree.parent?, place 0] at none
        simp [edge?, show root.parent = .none from none]
      have whole : ∀ item ∈ rest.zipIdx 1, (edge? tree style item.1 item.2).isSome := by
        rintro ⟨call, slot⟩ member
        obtain ⟨behind, found⟩ := List.mk_mem_zipIdx_iff_le_and_getElem?_sub.mp member
        obtain ⟨slot, rfl⟩ := Nat.exists_eq_add_of_le' behind
        obtain ⟨parent, caller, made, -, callerFound, -⟩ :=
          linked.exists_caller (Nat.succ_pos slot) ((place (slot + 1)).trans found)
        rw [edge?_of_caller made callerFound]
        rfl
      rw [List.zipIdx_cons, List.filterMap_cons]
      simp only [rootless]
      rw [getElem?_filterMap_of_isSome whole, List.getElem?_zipIdx, List.getElem?_cons_succ,
        Nat.add_comm 1 i]
      cases rest[i]? <;> rfl

end Edges

/-! ### Drawings of linked trees -/

section

variable {tree : CallTree} {positions : Array Point} {orientation : Orientation} {style : Style}
variable {findings : Findings} {drawing : Drawing}

/-- What is read off the nodes can be read off the calls. -/
theorem map_nodes (drawn : ofPositions tree positions orientation style findings = .ok drawing)
    {β : Type} {ofNode : Node → β} {ofCall : Call → β}
    (agree : ∀ call position, ofNode (node tree orientation call position) = ofCall call) :
    drawing.nodes.toList.map ofNode = tree.calls.toList.map ofCall := by
  apply List.ext_getElem?
  intro slot
  rw [List.getElem?_map, List.getElem?_map, Array.getElem?_toList, Array.getElem?_toList]
  cases place : drawing.nodes[slot]? with
  | none =>
      have outside := Array.getElem?_eq_none_iff.mp place
      rw [size_nodes drawn] at outside
      rw [Array.getElem?_eq_none outside]
      rfl
  | some shown =>
      obtain ⟨call, position, found, rfl⟩ := exists_call drawn place
      rw [found, Option.map_some, Option.map_some, agree]

theorem exists_edge (linked : tree.Linked)
    (drawn : ofPositions tree positions orientation style findings = .ok drawing) {i : Nat}
    {call : Call} (found : tree.calls[i + 1]? = some call) :
    ∃ (parent : Nat) (caller : Call), parent < i + 1 ∧ tree.calls[parent]? = some caller ∧
      call.level = caller.level + 1 ∧ drawing.edges[i]? = some {
        id := "e-" ++ toString (i + 1)
        source := caller.id
        target := call.id
        strokeWidth := style.edgeStrokeWidth
        isDashed := call.repeats.isSome } := by
  obtain ⟨parent, caller, made, earlier, callerFound, levels⟩ :=
    linked.exists_caller (Nat.succ_pos i) found
  refine ⟨parent, caller, earlier, callerFound, levels, ?_⟩
  rw [(parts_of_ofPositions drawn).1, getElem?_edgesOf linked, found, Option.bind_some,
    edge?_of_caller made callerFound]

theorem getElem?_edges_eq_none (linked : tree.Linked)
    (drawn : ofPositions tree positions orientation style findings = .ok drawing) {i : Nat}
    (outside : tree.calls[i + 1]? = none) : drawing.edges[i]? = none := by
  rw [(parts_of_ofPositions drawn).1, getElem?_edgesOf linked, outside, Option.bind_none]

/-- Every edge is that of a call behind the root. -/
theorem exists_call_of_edge (linked : tree.Linked)
    (drawn : ofPositions tree positions orientation style findings = .ok drawing) {i : Nat}
    {edge : Edge} (place : drawing.edges[i]? = some edge) :
    ∃ call, tree.calls[i + 1]? = some call ∧ edge.id = "e-" ++ toString (i + 1) ∧
      edge.target = call.id ∧ edge.isDashed = call.repeats.isSome := by
  cases found : tree.calls[i + 1]? with
  | none =>
      rw [getElem?_edges_eq_none linked drawn found] at place
      cases place
  | some call =>
      obtain ⟨parent, caller, -, -, -, same⟩ := exists_edge linked drawn found
      rw [place] at same
      cases same
      exact ⟨call, rfl, rfl, rfl, rfl⟩

theorem targets_eq (linked : tree.Linked)
    (drawn : ofPositions tree positions orientation style findings = .ok drawing) :
    drawing.targets = (tree.calls.toList.map Call.id).tail := by
  apply List.ext_getElem?
  intro i
  rw [targets, List.getElem?_map, List.getElem?_tail, List.getElem?_map, Array.getElem?_toList,
    Array.getElem?_toList]
  cases found : tree.calls[i + 1]? with
  | none =>
      rw [getElem?_edges_eq_none linked drawn found]
      rfl
  | some call =>
      obtain ⟨parent, caller, -, -, -, place⟩ := exists_edge linked drawn found
      rw [place]
      rfl

theorem nodup_edgeIds (linked : tree.Linked)
    (drawn : ofPositions tree positions orientation style findings = .ok drawing) :
    (drawing.edges.toList.map Edge.id).Nodup := by
  have ids : drawing.edges.toList.map Edge.id =
      (List.range drawing.edges.size).map fun i => "e-" ++ toString (i + 1) := by
    apply List.ext_getElem (by simp)
    intro i inside _
    rw [List.length_map, Array.length_toList] at inside
    obtain ⟨call, -, id, -⟩ :=
      exists_call_of_edge linked drawn (Array.getElem?_eq_getElem inside)
    simpa using id
  rw [ids]
  apply List.nodup_range.map
  intro i j same
  have texts := congrArg String.toList same
  simp only [String.toList_append, Nat.toString_eq_repr, Nat.toList_repr] at texts
  exact Nat.succ.inj (Number.toDigits_injective (List.append_cancel_left texts))

/-- A node is found under its id where ids are distinct. -/
theorem node?_eq_some (distinct : (drawing.nodes.toList.map Node.id).Nodup) {shown : Node}
    (member : shown ∈ drawing.nodes) : drawing.node? shown.id = some shown := by
  cases found : drawing.node? shown.id with
  | none =>
      have absent := Array.find?_eq_none.mp found shown member
      simp at absent
  | some other =>
      have named : other.id = shown.id := by simpa using Array.find?_some found
      have otherMember := Array.mem_of_find?_eq_some found
      rw [List.inj_on_of_nodup_map distinct (Array.mem_def.mp otherMember)
        (Array.mem_def.mp member) named]

/-! ### Figures -/

theorem getElem?_nodesPerLevel
    (drawn : ofPositions tree positions orientation style findings = .ok drawing)
    {level count : Nat} (counted : drawing.metadata.nodesPerLevel[level]? = some count) :
    level < tree.levelCount ∧ tree.callsOn level = count := by
  rw [(parts_of_ofPositions drawn).2, metadataOf, CallTree.toList_map_calls_levels,
    List.getElem?_map] at counted
  obtain ⟨same, place, rfl⟩ := Option.map_eq_some_iff.mp counted
  obtain ⟨inside, rfl⟩ := List.getElem?_eq_some_iff.mp place
  rw [List.length_range] at inside
  rw [List.getElem_range]
  exact ⟨inside, rfl⟩

theorem countP_nodes (drawn : ofPositions tree positions orientation style findings = .ok drawing)
    (level : Nat) : drawing.nodes.toList.countP (·.level = level) = tree.callsOn level := by
  have levels : drawing.nodes.toList.map Node.level = tree.calls.toList.map Call.level :=
    map_nodes drawn fun _ _ => rfl
  have counts := congrArg (List.countP (· = level)) levels
  rwa [List.countP_map, List.countP_map] at counts

theorem exists_deepest_node (nonempty : 0 < tree.size)
    (drawn : ofPositions tree positions orientation style findings = .ok drawing) :
    (∀ node ∈ drawing.nodes, node.level < drawing.metadata.totalLevels) ∧
      ∃ node ∈ drawing.nodes, node.level + 1 = drawing.metadata.totalLevels := by
  rw [(parts_of_ofPositions drawn).2]
  constructor
  · intro shown member
    obtain ⟨slot, place⟩ := Array.getElem?_of_mem member
    obtain ⟨call, position, found, rfl⟩ := exists_call drawn place
    exact CallTree.level_lt_levelCount (Array.mem_def.mp (Array.mem_of_getElem? found))
  · obtain ⟨slot, call, found, deepest⟩ := CallTree.exists_deepest nonempty
    obtain ⟨position, place⟩ := getElem?_nodes drawn found
    exact ⟨_, Array.mem_of_getElem? place, deepest⟩

/-! ### The whole drawing -/

theorem isRootedTree (linked : tree.Linked) (counted : tree.RowsCounted)
    (distinct : (tree.calls.toList.map Call.id).Nodup) (nonempty : 0 < tree.size)
    (drawn : ofPositions tree positions orientation style findings = .ok drawing) :
    drawing.IsRootedTree := by
  have ids : drawing.nodes.toList.map Node.id = tree.calls.toList.map Call.id :=
    map_nodes drawn fun _ _ => rfl
  have nodeIds : (drawing.nodes.toList.map Node.id).Nodup := ids ▸ distinct
  have targets := targets_eq linked drawn
  have metadata := (parts_of_ofPositions drawn).2
  obtain ⟨first, firstFound⟩ := CallTree.lt_size_iff.mp nonempty
  refine ⟨nodeIds, fun _ => node?_eq_some nodeIds, nodup_edgeIds linked drawn, ?edgeCount, ?root,
    ?caller, targets.trans (congrArg List.tail ids.symm), ?dashed, ?levelCount,
    exists_deepest_node nonempty drawn, ?rows, ?total⟩
  case edgeCount =>
    have lengths := congrArg List.length targets
    rw [Drawing.targets, List.length_map, Array.length_toList, List.length_tail, List.length_map,
      Array.length_toList] at lengths
    rw [lengths, size_nodes drawn]
    exact Nat.succ_pred_eq_of_pos nonempty
  case root =>
    obtain ⟨position, place⟩ := getElem?_nodes drawn firstFound
    refine ⟨_, place, ?_, ?_⟩
    · have top := linked.level?_zero nonempty
      rw [CallTree.level?, firstFound, Option.map_some] at top
      exact Option.some.inj top
    · have calls : tree.calls.toList = first :: tree.calls.toList.tail := by
        apply (List.cons_head?_tail _).symm
        rw [List.head?_eq_getElem?, Array.getElem?_toList, firstFound]
        rfl
      rw [targets, ← List.map_tail]
      rw [calls, List.map_cons, List.nodup_cons] at distinct
      exact distinct.1
  case caller =>
    intro slot shown notRoot place
    obtain ⟨slot, rfl⟩ := Nat.exists_eq_add_of_lt notRoot
    rw [Nat.zero_add] at place
    obtain ⟨call, position, found, rfl⟩ := exists_call drawn place
    obtain ⟨parent, caller, earlier, callerFound, levels, edgePlace⟩ :=
      exists_edge linked drawn found
    obtain ⟨callerPosition, callerPlace⟩ := getElem?_nodes drawn callerFound
    have edgeMember := Array.mem_of_getElem? edgePlace
    constructor
    · apply List.count_eq_one_of_mem
      · rw [targets]
        exact distinct.tail
      · exact List.mem_map_of_mem (Array.mem_def.mp edgeMember)
    · exact ⟨_, edgeMember, rfl, parent, _, by omega, callerPlace, rfl, levels⟩
  case dashed =>
    intro edge edgeMember shown member same
    obtain ⟨i, edgePlace⟩ := Array.getElem?_of_mem edgeMember
    obtain ⟨call, found, -, target, dashed⟩ := exists_call_of_edge linked drawn edgePlace
    obtain ⟨position, place⟩ := getElem?_nodes drawn found
    have shownHere : shown = node tree orientation call position := by
      apply List.inj_on_of_nodup_map nodeIds (Array.mem_def.mp member)
        (Array.mem_def.mp (Array.mem_of_getElem? place))
      exact same.symm.trans target
    rw [dashed, shownHere]
    rfl
  case levelCount =>
    rw [metadata, metadataOf, CallTree.toList_map_calls_levels, List.length_map, List.length_range]
  case rows =>
    intro level count found
    obtain ⟨inside, rfl⟩ := getElem?_nodesPerLevel drawn found
    refine ⟨linked.callsOn_pos inside, countP_nodes drawn level, ?_⟩
    rintro shown member rfl
    obtain ⟨slot, place⟩ := Array.getElem?_of_mem member
    obtain ⟨call, position, -, rfl⟩ := exists_call drawn place
    exact counted call.level
  case total =>
    rw [metadata, metadataOf, CallTree.toList_map_calls_levels, CallTree.sum_callsOn,
      size_nodes drawn]
    exact ⟨rfl, rfl⟩

end

end Drawing

/-! ### Generated drawings -/

namespace CallTree.Follows

variable {Key : Type} {tree : CallTree} {outline : Outline Key} {keys : List Key}

theorem nodup_ids (follows : tree.Follows outline keys) :
    (tree.calls.toList.map Call.id).Nodup := by
  rw [follows.map_calls fun described => described.id]
  exact follows.distinct.map fun _ _ => outline.id_injective

end CallTree.Follows

namespace Recurrence

variable {r : Recurrence} {view : View} {style : Style} {drawing : Drawing}

/-- Whatever is generated is a rooted tree. -/
theorem generate_isRootedTree (generated : r.generate view style = .ok drawing) :
    drawing.IsRootedTree := by
  obtain ⟨budget, expansion, -, run, drawn⟩ := exists_of_generate generated
  obtain ⟨Key, outline, keys, expansionFollows, nonempty, -⟩ := exists_follows_of_expand run
  have follows : (Unfolded.ofExpansion budget r.growth? expansion).tree.Follows outline keys :=
    Unfolded.follows_ofExpansion expansionFollows
  have size : 0 < (Unfolded.ofExpansion budget r.growth? expansion).tree.size := by
    rw [follows.size]
    exact List.length_pos_of_ne_nil nonempty
  exact Drawing.isRootedTree (Unfolded.linked_ofExpansion (linked_of_expand run))
    (Unfolded.rowsCounted_ofExpansion (rowsCounted_of_expand run)) follows.nodup_ids size drawn

/-- A Fibonacci tree that the node limit cuts in the middle of a row. -/
theorem generate_isRootedTree_fibonacci :
    ∃ drawing, (linearShift (.ofShifts [1, 2] 1)).generate { initial := 9.5 }
        { Style.standard with nodeLimit := 12 } = .ok drawing ∧ drawing.IsRootedTree := by
  have settled : (LinearShift.ofShifts [1, 2] 1).depth 9.5 none =
      .ok (.within 9 false none) := rfl
  obtain ⟨drawing, generated⟩ :
      ∃ drawing, (linearShift (.ofShifts [1, 2] 1)).generate { initial := 9.5 }
        { Style.standard with nodeLimit := 12 } = .ok drawing := generate_eq_ok settled
  exact ⟨drawing, generated, generate_isRootedTree generated⟩

end Recurrence

end Unfolding
