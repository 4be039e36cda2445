/-!
The two directions in which a tree can be drawn.

The main axis runs from the root to the leaves, the cross axis along a level.
-/

namespace Unfolding

structure Point where
  x : Float
  y : Float

/-- A side of a drawn call, where edges begin or end. -/
inductive Side where
  | top
  | bottom
  | left
  | right
  deriving Repr, DecidableEq

inductive Orientation where
  | vertical
  | horizontal
  deriving Repr, DecidableEq

namespace Orientation

/-- The point with the given coordinates along the two axes. -/
def point (orientation : Orientation) (main cross : Float) : Point :=
  match orientation with
  | .vertical => { x := cross, y := main }
  | .horizontal => { x := main, y := cross }

def flipped : Orientation → Orientation
  | .vertical => .horizontal
  | .horizontal => .vertical

/-- Where edges leave a call. -/
def sourceSide : Orientation → Side
  | .vertical => .bottom
  | .horizontal => .right

/-- Where edges reach a call. -/
def targetSide : Orientation → Side
  | .vertical => .top
  | .horizontal => .left

end Orientation

end Unfolding
