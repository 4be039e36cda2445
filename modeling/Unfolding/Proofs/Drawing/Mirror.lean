import Unfolding.Proofs.Generation

/-!
Drawings in the two orientations.

The orientation is consulted when calls are placed and again when the sides are
chosen where edges attach.  All else is settled without it, so the two drawings
of a tree are mirror images of each other.
-/

namespace Unfolding

/-- Two nodes show the same call, on different sides of the diagonal. -/
structure Node.Mirrors (node other : Node) : Prop where
  id : other.id = node.id
  label : other.label = node.label
  family : other.family = node.family
  value : other.value = node.value
  level : other.level = node.level
  rowWidth : other.rowWidth = node.rowWidth
  isBase : other.isBase = node.isBase
  repeats : other.repeats = node.repeats
  x : other.position.x = node.position.y
  y : other.position.y = node.position.x

namespace Drawing

/-- A drawing from top to bottom and one from left to right are mirror images,
and levels follow each other at the given distance. -/
structure Mirrors (vertical horizontal : Drawing) (levelSpacing : Float) : Prop where
  edges : horizontal.edges = vertical.edges
  metadata : horizontal.metadata = vertical.metadata
  size : horizontal.nodes.size = vertical.nodes.size
  nodes : ∀ {slot : Nat} {node other : Node}, vertical.nodes[slot]? = some node →
    horizontal.nodes[slot]? = some other → node.Mirrors other
  down : ∀ node ∈ vertical.nodes, node.position.y = Float.ofNat node.level * levelSpacing
  across : ∀ node ∈ horizontal.nodes, node.position.x = Float.ofNat node.level * levelSpacing

end Drawing

/-- The node of a call that stands at a slot of its level. -/
def CallTree.nodeAt (tree : CallTree) (orientation : Orientation) (style : Style) (call : Call)
    (slot : Float) : Node :=
  Drawing.node tree orientation call (Placement.position orientation style call.level slot)

theorem CallTree.nodeAt_mirrors (tree : CallTree) (style : Style) (call : Call) (slot : Float) :
    (tree.nodeAt .vertical style call slot).Mirrors (tree.nodeAt .horizontal style call slot) := by
  constructor <;> simp only [nodeAt, Drawing.node, Placement.position, Orientation.point]

namespace Unfolded

variable (unfolded : Unfolded) (style : Style)

/-- The slots along the levels are found without the orientation. -/
theorem draw_eq (orientation : Orientation) :
    unfolded.draw orientation style = .ok {
      nodes := Array.zipWith (unfolded.tree.nodeAt orientation style) unfolded.tree.calls
        (unfolded.tree.family.placement.slots unfolded.tree)
      edges := Drawing.edgesOf unfolded.tree style
      metadata := Drawing.metadataOf unfolded.tree unfolded.findings } := by
  have nodes : Array.zipWith (Drawing.node unfolded.tree orientation) unfolded.tree.calls
      (unfolded.tree.family.placement.positions unfolded.tree orientation style) =
      Array.zipWith (unfolded.tree.nodeAt orientation style) unfolded.tree.calls
        (unfolded.tree.family.placement.slots unfolded.tree) := by
    apply Array.ext_getElem?
    intro slot
    rw [Placement.positions, Array.getElem?_zipWith, Array.getElem?_zipWith, Array.getElem?_zipWith]
    cases unfolded.tree.calls[slot]? with
    | none => rfl
    | some call =>
        cases (unfolded.tree.family.placement.slots unfolded.tree : Array Float)[slot]? <;> rfl
  rw [draw, Drawing.ofPositions, if_pos (CallTree.size_positions ..), nodes]

/-- Each node stands where the slot of its call and its level put it. -/
theorem exists_nodeAt {orientation : Orientation} {drawing : Drawing}
    (drawn : unfolded.draw orientation style = .ok drawing) {slot : Nat} {node : Node}
    (found : drawing.nodes[slot]? = some node) :
    ∃ call cross, unfolded.tree.calls[slot]? = some call ∧
      (unfolded.tree.family.placement.slots unfolded.tree : Array Float)[slot]? = some cross ∧
      node = unfolded.tree.nodeAt orientation style call cross := by
  rw [draw_eq] at drawn
  cases drawn
  rw [Array.getElem?_zipWith] at found
  split at found
  · rename_i call cross callFound crossFound
    exact ⟨call, cross, callFound, crossFound, (Option.some.inj found).symm⟩
  · cases found

theorem mirrors_of_draw {vertical horizontal : Drawing}
    (down : unfolded.draw .vertical style = .ok vertical)
    (across : unfolded.draw .horizontal style = .ok horizontal) :
    vertical.Mirrors horizontal style.levelSpacing := by
  constructor
  case edges =>
    rw [(Drawing.parts_of_ofPositions down).1, (Drawing.parts_of_ofPositions across).1]
  case metadata =>
    rw [(Drawing.parts_of_ofPositions down).2, (Drawing.parts_of_ofPositions across).2]
  case size => rw [Drawing.size_nodes down, Drawing.size_nodes across]
  case nodes =>
    intro slot node other found otherFound
    obtain ⟨call, cross, callFound, crossFound, rfl⟩ := unfolded.exists_nodeAt style down found
    obtain ⟨same, sameCross, sameFound, sameCrossFound, rfl⟩ :=
      unfolded.exists_nodeAt style across otherFound
    cases callFound.symm.trans sameFound
    cases crossFound.symm.trans sameCrossFound
    exact unfolded.tree.nodeAt_mirrors style call cross
  case down =>
    intro node member
    obtain ⟨slot, found⟩ := Array.getElem?_of_mem member
    obtain ⟨call, cross, -, -, rfl⟩ := unfolded.exists_nodeAt style down found
    rfl
  case across =>
    intro node member
    obtain ⟨slot, found⟩ := Array.getElem?_of_mem member
    obtain ⟨call, cross, -, -, rfl⟩ := unfolded.exists_nodeAt style across found
    rfl

end Unfolded

/-- Turning a view is refused for the same reason or mirrors the drawing. -/
theorem Recurrence.generate_turned_mirrors (r : Recurrence) (initial : Float)
    (maxDepth : Option UInt32) (style : Style) :
    (∃ fault, r.generate { initial, maxDepth, orientation := .vertical } style = .error fault ∧
      r.generate { initial, maxDepth, orientation := .horizontal } style = .error fault) ∨
    ∃ vertical horizontal,
      r.generate { initial, maxDepth, orientation := .vertical } style = .ok vertical ∧
      r.generate { initial, maxDepth, orientation := .horizontal } style = .ok horizontal ∧
      vertical.Mirrors horizontal style.levelSpacing := by
  have unturned : r.unfold { initial, maxDepth, orientation := .horizontal } style.nodeLimit =
      r.unfold { initial, maxDepth, orientation := .vertical } style.nodeLimit := rfl
  rw [generate_eq, generate_eq, unturned]
  cases r.unfold { initial, maxDepth, orientation := .vertical } style.nodeLimit with
  | error fault => exact .inl ⟨fault, rfl, rfl⟩
  | ok unfolded =>
      obtain ⟨vertical, down, -⟩ := unfolded.draw_eq_ok .vertical style
      obtain ⟨horizontal, across, -⟩ := unfolded.draw_eq_ok .horizontal style
      exact .inr ⟨vertical, horizontal, down, across, unfolded.mirrors_of_draw style down across⟩

end Unfolding
