import Unfolding.CallTree.Repetition
import Unfolding.Drawing.Label
import Unfolding.Drawing.Slots

/-!
Drawings of call trees: placed and labelled nodes, the edges between them, and
figures about the whole.
-/

namespace Unfolding

/-- How fast the number of calls grows with the argument. -/
inductive Growth where
  | linear
  | exponential
  deriving Repr, DecidableEq

/-- With one shift each call makes one call. -/
def Growth.ofShiftCount (shifts : Nat) : Growth := if shifts ≤ 1 then .linear else .exponential

/-- A call as it is drawn. -/
structure Node where
  id : String
  label : String
  family : Family
  /-- The size of a divide-and-conquer call, the argument of a linear-shift one. -/
  value : Float
  level : Nat
  /-- The number of calls on the level. -/
  rowWidth : Nat
  isBase : Bool
  repeats : Option Nat
  sourceSide : Side
  targetSide : Side
  position : Point

/-- The step from a caller to a call that it makes. -/
structure Edge where
  id : String
  source : String
  target : String
  strokeWidth : Float
  /-- The argument of the target is called more than once. -/
  isDashed : Bool

structure Metadata where
  totalNodes : Nat
  totalLevels : Nat
  nodesPerLevel : List Nat
  /-- The number of arguments with more than one call. -/
  repeatedArguments : Option Nat
  growth : Option Growth
  family : Family
  effectiveDepth : Nat
  isTruncated : Bool

structure Drawing where
  nodes : Array Node
  edges : Array Edge
  metadata : Metadata

/-- What is known of a tree besides its calls. -/
structure Findings where
  repetition : Option Repetition := none
  growth : Option Growth := none
  effectiveDepth : Nat := 0

namespace Drawing

/-- The node of a call. -/
def node (tree : CallTree) (orientation : Orientation) (call : Call) (position : Point) : Node where
  id := call.id
  label := label call.argument
  family := tree.family
  value := call.argument
  level := call.level
  rowWidth := tree.rowWidth call.level
  isBase := call.isBase
  repeats := call.repeats
  sourceSide := orientation.sourceSide
  targetSide := orientation.targetSide
  position

/-- The edge that ends at the call in a slot; none ends at the root. -/
def edge? (tree : CallTree) (style : Style) (call : Call) (slot : Nat) : Option Edge := do
  let parent ← call.parent
  let caller ← tree.calls[parent]?
  return {
    id := "e-" ++ toString slot
    source := caller.id
    target := call.id
    strokeWidth := style.edgeStrokeWidth
    isDashed := call.repeats.isSome }

/-- The edges of a tree, in the order of the slots where they end. -/
def edgesOf (tree : CallTree) (style : Style) : Array Edge :=
  tree.calls.zipIdx.filterMap fun (call, slot) => edge? tree style call slot

def metadataOf (tree : CallTree) (findings : Findings) : Metadata where
  totalNodes := tree.size
  totalLevels := tree.levelCount
  nodesPerLevel := (tree.levels.map LevelCount.calls).toList
  repeatedArguments := findings.repetition.map Repetition.groups
  growth := findings.growth
  family := tree.family
  effectiveDepth := findings.effectiveDepth
  isTruncated := tree.isTruncated

/-- The drawing of a tree with a position for each call. -/
def ofPositions (tree : CallTree) (positions : Array Point) (orientation : Orientation)
    (style : Style) (findings : Findings) : Except Fault Drawing :=
  if positions.size = tree.size then
    .ok {
      nodes := Array.zipWith (node tree orientation) tree.calls positions
      edges := edgesOf tree style
      metadata := metadataOf tree findings }
  else .error (.misuse (.positionCount positions.size tree.size))

/-- The first node with an id. -/
def node? (drawing : Drawing) (id : String) : Option Node :=
  drawing.nodes.find? (·.id == id)

/-- The position of the first node with an id. -/
def position? (drawing : Drawing) (id : String) : Option Point :=
  (drawing.node? id).map Node.position

def root? (drawing : Drawing) : Option Node := drawing.nodes[0]?

end Drawing

end Unfolding
