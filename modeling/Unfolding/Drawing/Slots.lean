import Unfolding.CallTree.Levels
import Unfolding.Drawing.Orientation
import Unfolding.Drawing.Style

/-!
Where calls stand along the cross axis.

On a grid the calls of a level stand side by side around the middle.  In a
centred drawing every leaf is one unit wide, children stand side by side in the
order in which they were added, and a caller stands above the mean of its
children; the root is the origin.

The coordinates are computed over any type with the arithmetic that they need:
drawings use doubles.
-/

namespace Unfolding

/-- Arithmetic of coordinates. -/
class Coordinate (α : Type) extends Add α, Sub α, Div α where
  ofNat : Nat → α

instance : Coordinate Float where
  ofNat := Float.ofNat

namespace CallTree

variable {α β : Type}

/-- A value for each call, from the last slot to the first: each is computed
from its slot and the values of its children. -/
def sweepUp (tree : CallTree) (unknown : β) (value : Nat → List β → β) : Array β :=
  (List.range tree.size).foldr
    (fun slot values =>
      let below := (tree.children slot).map fun child => values.getD child unknown
      values.setIfInBounds slot (value slot below))
    (Array.replicate tree.size unknown)

/-- The number of leaves below each call; a leaf counts itself. -/
def leafCounts (tree : CallTree) : Array Nat :=
  tree.sweepUp 0 fun _ counts => if counts.isEmpty then 1 else counts.foldl (· + ·) 0

/-- Give the children of a call their ranges, side by side from `cursor` on. -/
def startChildren (widths : Array Nat) :
    (cursor : Nat) → List Nat → (starts : Array Nat) → Array Nat
  | _, [], starts => starts
  | cursor, child :: children, starts =>
      startChildren widths (cursor + widths.getD child 0) children
        (starts.setIfInBounds child cursor)

/-- Where the range of each call begins.  The range of a call is divided among
its children. -/
def rangeStarts (tree : CallTree) : Array Nat :=
  let widths := tree.leafCounts
  (List.range tree.size).foldl
    (fun starts slot => startChildren widths (starts.getD slot 0) (tree.children slot) starts)
    (Array.replicate tree.size 0)

/-- The mean of the coordinates of children, summed from the last to the first. -/
def mean [Coordinate α] (coordinates : List α) : α :=
  coordinates.foldr (fun coordinate sum => sum + coordinate) (Coordinate.ofNat 0) /
    Coordinate.ofNat coordinates.length

/-- Leaves stand in the middle of their range, callers above the mean of their
children. -/
def rangeCentres [Coordinate α] (tree : CallTree) : Array α :=
  let starts := tree.rangeStarts
  tree.sweepUp (Coordinate.ofNat 0) fun slot coordinates =>
    if coordinates.isEmpty then
      Coordinate.ofNat (starts.getD slot 0) + Coordinate.ofNat 1 / Coordinate.ofNat 2
    else mean coordinates

/-- The centred drawing, seen from the root. -/
def centredSlots [Coordinate α] (tree : CallTree) : Array α :=
  let centres : Array α := tree.rangeCentres
  let origin := centres.getD 0 (Coordinate.ofNat 0)
  centres.map (· - origin)

/-- The place of the call with an index on a level of a grid. -/
def gridSlot [Coordinate α] (index width : Nat) : α :=
  Coordinate.ofNat index -
    (Coordinate.ofNat width - Coordinate.ofNat 1) / Coordinate.ofNat 2

/-- The index of each call on its level. -/
def levelIndices (tree : CallTree) : Array Nat :=
  (tree.calls.foldl
    (fun (seen, indices) call =>
      let index := seen.getD call.level 0
      (seen.modify call.level (· + 1), indices.push index))
    (Array.replicate tree.levelCount 0, #[])).2

/-- The grid: calls of a level side by side around the middle. -/
def gridSlots [Coordinate α] (tree : CallTree) : Array α :=
  let counts := tree.levels
  Array.zipWith
    (fun call index => gridSlot index (counts.getD call.level {}).calls)
    tree.calls tree.levelIndices

end CallTree

/-- The two ways of placing calls. -/
inductive Placement where
  | grid
  | centred
  deriving Repr, DecidableEq

/-- Divide-and-conquer trees are regular and drawn on a grid. -/
def Family.placement : Family → Placement
  | .divideConquer => .grid
  | .linearShift => .centred

namespace Placement

/-- The cross coordinates of all calls, in units of the sibling spacing. -/
def slots {α : Type} [Coordinate α] (placement : Placement) (tree : CallTree) : Array α :=
  match placement with
  | .grid => tree.gridSlots
  | .centred => tree.centredSlots

/-- The position of a call on a level. -/
def position (orientation : Orientation) (style : Style) (level : Nat) (slot : Float) : Point :=
  orientation.point (Float.ofNat level * style.levelSpacing) (slot * style.siblingSpacing)

/-- The positions of all calls. -/
def positions (placement : Placement) (tree : CallTree) (orientation : Orientation)
    (style : Style) : Array Point :=
  Array.zipWith (fun call slot => position orientation style call.level slot)
    tree.calls (placement.slots tree)

end Placement

end Unfolding
