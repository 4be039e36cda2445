import Unfolding.Drawing.Json

/-!
Which part of the tree of a recurrence is drawn, and in which direction.
-/

namespace Unfolding

structure View where
  /-- The size or argument of the first call. -/
  initial : Float
  maxDepth : Option UInt32 := none
  orientation : Orientation := .vertical

def Orientation.ofJson? : Json → Option Orientation
  | .string name =>
      if name = Orientation.vertical.name then some .vertical
      else if name = Orientation.horizontal.name then some .horizontal
      else none
  | _ => none

namespace View

def toJson (view : View) : Json :=
  .object [
    ("maxDepth", .ofOption (fun depth => .ofNat depth.toNat) view.maxDepth),
    ("orientation", .string view.orientation.name),
    ("initialN", .ofFloat view.initial)]

def ofJson? (json : Json) : Option View := do
  let maxDepth ← json.optional? "maxDepth" (Json.nullable? Json.uint32?) none
  let orientation ← json.optional? "orientation" Orientation.ofJson? .vertical
  let initial ← json.required? "initialN" Json.number?
  return { initial, maxDepth, orientation }

end View

end Unfolding
