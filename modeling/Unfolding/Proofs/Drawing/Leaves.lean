import Unfolding.Drawing.Basic
import Unfolding.Proofs.CallTree.Outline

/-!
Leaves of drawings.

A node is a leaf if no edge starts at it.  Nodes and edges refer to each other
by ids, so in the drawing of a tree that follows an outline the leaves are the
calls without calls of their own.
-/

namespace Unfolding

variable {Key : Type}

/-- No edge starts at a node. -/
def Drawing.IsLeaf (drawing : Drawing) (node : Node) : Prop :=
  ∀ edge ∈ drawing.edges, edge.source ≠ node.id

/-- Some leaf is not a base case. -/
def Drawing.IsCutShort (drawing : Drawing) : Prop :=
  ∃ node ∈ drawing.nodes, drawing.IsLeaf node ∧ node.isBase = false

/-- Every call with a caller has an edge from there. -/
theorem Drawing.exists_mem_edgesOf_iff {tree : CallTree} {style : Style} {id : String} :
    (∃ edge ∈ edgesOf tree style, edge.source = id) ↔
      ∃ (slot : Nat) (call : Call) (parent : Nat) (caller : Call),
        tree.calls[slot]? = some call ∧ call.parent = some parent ∧
          tree.calls[parent]? = some caller ∧ caller.id = id := by
  constructor
  · rintro ⟨edge, drawn, starts⟩
    obtain ⟨⟨call, slot⟩, place, isEdge⟩ := Array.mem_filterMap.mp drawn
    simp only [edge?, Option.bind_eq_bind, Option.bind_eq_some_iff] at isEdge
    obtain ⟨parent, parentEq, caller, callerFound, made⟩ := isEdge
    cases made
    exact ⟨slot, call, parent, caller, Array.mem_zipIdx_iff_getElem?.mp place, parentEq,
      callerFound, starts⟩
  · rintro ⟨slot, call, parent, caller, place, parentEq, callerFound, starts⟩
    have isEdge : ∃ edge, edge? tree style call slot = some edge ∧ edge.source = caller.id := by
      simp [edge?, parentEq, callerFound]
    obtain ⟨edge, isEdge, source⟩ := isEdge
    refine ⟨edge, ?_, source.trans starts⟩
    exact Array.mem_filterMap.mpr ⟨(call, slot), Array.mem_zipIdx_iff_getElem?.mpr place, isEdge⟩

namespace CallTree.Follows

variable {tree : CallTree} {outline : Outline Key} {keys : List Key}

/-- Noting repeated arguments changes nothing that an outline tells. -/
theorem markRepeats (follows : tree.Follows outline keys) :
    tree.markRepeats.1.Follows outline keys where
  distinct := follows.distinct
  size := by
    rw [← follows.size]
    exact Array.size_map
  call := by
    intro slot key found
    obtain ⟨call, place, described⟩ := follows.call found
    refine ⟨noteRepeats tree.argumentCounts call, by simp [CallTree.markRepeats, place], ?_⟩
    unfold noteRepeats
    dsimp only
    split
    · exact ⟨described.id, described.argument, described.level, described.isBase,
        described.parent, described.children⟩
    · exact described

/-- Edges start at the calls that make calls. -/
theorem exists_edge_iff (follows : tree.Follows outline keys) (style : Style) {key : Key}
    (member : key ∈ keys) :
    (∃ edge ∈ Drawing.edgesOf tree style, edge.source = outline.id key) ↔
      ∃ i < outline.arity, outline.child key i ∈ keys := by
  rw [Drawing.exists_mem_edgesOf_iff]
  constructor
  · rintro ⟨slot, call, parent, caller, place, parentEq, callerPlace, named⟩
    obtain ⟨target, targetFound, described⟩ := follows.key_of_call place
    obtain ⟨source, sourceFound, sourceDescribed⟩ := follows.key_of_call callerPlace
    obtain rfl := outline.id_injective (sourceDescribed.id.symm.trans named)
    obtain ⟨same, i, bounded, sameFound, rfl⟩ := (described.parent parent).mp parentEq
    rw [sourceFound] at sameFound
    cases sameFound
    exact ⟨i, bounded, List.mem_of_getElem? targetFound⟩
  · rintro ⟨i, bounded, made⟩
    obtain ⟨slot, found⟩ := List.getElem?_of_mem made
    obtain ⟨parent, parentFound⟩ := List.getElem?_of_mem member
    obtain ⟨call, place, described⟩ := follows.call found
    obtain ⟨caller, callerPlace, callerDescribed⟩ := follows.call parentFound
    have parentEq := (described.parent parent).mpr ⟨key, i, bounded, parentFound, rfl⟩
    exact ⟨slot, call, parent, caller, place, parentEq, callerPlace, callerDescribed.id⟩

end CallTree.Follows

namespace Drawing

variable {tree : CallTree} {outline : Outline Key} {keys : List Key}
variable {positions : Array Point} {orientation : Orientation} {style : Style}
variable {findings : Findings} {drawing : Drawing}

/-- A node shows the call of a key. -/
structure Shows (drawing : Drawing) (outline : Outline Key) (keys : List Key) (node : Node)
    (key : Key) : Prop where
  isBase : node.isBase = outline.isBase key
  isLeaf : drawing.IsLeaf node ↔ outline.Childless keys key

theorem getElem?_nodes {slot : Nat} {call : Call}
    (drawn : ofPositions tree positions orientation style findings = .ok drawing)
    (place : tree.calls[slot]? = some call) :
    ∃ position, drawing.nodes[slot]? = some (node tree orientation call position) := by
  unfold ofPositions at drawn
  split at drawn
  · rename_i sized
    cases drawn
    obtain ⟨inside, -⟩ := Array.getElem?_eq_some_iff.mp place
    have placed : slot < positions.size := sized ▸ inside
    exact ⟨positions[slot], by simp [Array.getElem?_zipWith, place, placed]⟩
  · cases drawn

theorem size_nodes (drawn : ofPositions tree positions orientation style findings = .ok drawing) :
    drawing.nodes.size = tree.size := by
  unfold ofPositions at drawn
  split at drawn
  · rename_i sized
    cases drawn
    simp [sized, CallTree.size]
  · cases drawn

/-- Every node shows a call. -/
theorem exists_call {slot : Nat} {shown : Node}
    (drawn : ofPositions tree positions orientation style findings = .ok drawing)
    (place : drawing.nodes[slot]? = some shown) :
    ∃ call position, tree.calls[slot]? = some call ∧
      shown = node tree orientation call position := by
  obtain ⟨inside, -⟩ := Array.getElem?_eq_some_iff.mp place
  rw [size_nodes drawn] at inside
  have callPlace := Array.getElem?_eq_getElem inside
  obtain ⟨position, same⟩ := getElem?_nodes drawn callPlace
  exact ⟨_, position, callPlace, Option.some.inj (place.symm.trans same)⟩

theorem parts_of_ofPositions
    (drawn : ofPositions tree positions orientation style findings = .ok drawing) :
    drawing.edges = edgesOf tree style ∧ drawing.metadata = metadataOf tree findings := by
  unfold ofPositions at drawn
  split at drawn <;> cases drawn
  exact ⟨rfl, rfl⟩

theorem isLeaf_iff_childless (follows : tree.Follows outline keys)
    (drawn : ofPositions tree positions orientation style findings = .ok drawing)
    {node : Node} {key : Key} (member : key ∈ keys) (named : node.id = outline.id key) :
    drawing.IsLeaf node ↔ outline.Childless keys key := by
  have starts := follows.exists_edge_iff style member
  unfold IsLeaf Outline.Childless
  rw [(parts_of_ofPositions drawn).1, named]
  constructor
  · intro leaf i bounded made
    obtain ⟨edge, drawnEdge, source⟩ := starts.mpr ⟨i, bounded, made⟩
    exact leaf edge drawnEdge source
  · intro childless edge drawnEdge source
    obtain ⟨i, bounded, made⟩ := starts.mp ⟨edge, drawnEdge, source⟩
    exact childless i bounded made

/-- Every call is drawn. -/
theorem exists_node_of_key (follows : tree.Follows outline keys)
    (drawn : ofPositions tree positions orientation style findings = .ok drawing) {key : Key}
    (member : key ∈ keys) : ∃ node ∈ drawing.nodes, drawing.Shows outline keys node key := by
  obtain ⟨slot, found⟩ := List.getElem?_of_mem member
  obtain ⟨call, place, described⟩ := follows.call found
  obtain ⟨position, shown⟩ := getElem?_nodes drawn place
  exact ⟨_, Array.mem_of_getElem? shown, described.isBase,
    isLeaf_iff_childless follows drawn member described.id⟩

/-- Nothing else is drawn. -/
theorem exists_key_of_node (follows : tree.Follows outline keys)
    (drawn : ofPositions tree positions orientation style findings = .ok drawing) {node : Node}
    (shown : node ∈ drawing.nodes) : ∃ key ∈ keys, drawing.Shows outline keys node key := by
  obtain ⟨slot, place⟩ := Array.getElem?_of_mem shown
  obtain ⟨call, position, callPlace, rfl⟩ := exists_call drawn place
  obtain ⟨key, found, described⟩ := follows.key_of_call callPlace
  have member := List.mem_of_getElem? found
  exact ⟨key, member, described.isBase, isLeaf_iff_childless follows drawn member described.id⟩

theorem isCutShort_iff (follows : tree.Follows outline keys)
    (drawn : ofPositions tree positions orientation style findings = .ok drawing) :
    drawing.IsCutShort ↔ outline.IsCutShort keys := by
  constructor
  · rintro ⟨node, shown, leaf, notBase⟩
    obtain ⟨key, member, shows⟩ := exists_key_of_node follows drawn shown
    exact ⟨key, member, shows.isBase ▸ notBase, shows.isLeaf.mp leaf⟩
  · rintro ⟨key, member, notBase, childless⟩
    obtain ⟨node, shown, shows⟩ := exists_node_of_key follows drawn member
    exact ⟨node, shown, shows.isLeaf.mpr childless, shows.isBase.trans notBase⟩

theorem isLeaf_of_isBase (follows : tree.Follows outline keys) (ends : outline.EndsAtBases keys)
    (drawn : ofPositions tree positions orientation style findings = .ok drawing) {node : Node}
    (shown : node ∈ drawing.nodes) (base : node.isBase = true) : drawing.IsLeaf node := by
  obtain ⟨key, member, shows⟩ := exists_key_of_node follows drawn shown
  exact shows.isLeaf.mpr (ends key member (shows.isBase ▸ base))

end Drawing

end Unfolding
