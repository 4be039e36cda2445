/-!
Measures of a drawing.
-/

namespace Unfolding

structure Style where
  /-- The distance between two levels. -/
  levelSpacing : Float
  /-- The distance between two neighbouring slots of a level. -/
  siblingSpacing : Float
  /-- The largest number of calls. -/
  nodeLimit : UInt64
  edgeStrokeWidth : Float

namespace Style

def standard : Style where
  levelSpacing := 100
  siblingSpacing := 80
  nodeLimit := 4096
  edgeStrokeWidth := 1.5

def compact : Style where
  levelSpacing := 60
  siblingSpacing := 40
  nodeLimit := 512
  edgeStrokeWidth := 1

end Style

end Unfolding
