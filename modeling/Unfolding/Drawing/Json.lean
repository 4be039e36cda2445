import Unfolding.Drawing.Basic
import Unfolding.Json.Printer
import Unfolding.Recurrence.Json

/-!
Drawings as JSON.  The order of the fields is that of the written file; fields
that are unknown are left out.
-/

namespace Unfolding

def Side.name : Side → String
  | .top => "top"
  | .bottom => "bottom"
  | .left => "left"
  | .right => "right"

def Orientation.name : Orientation → String
  | .vertical => "vertical"
  | .horizontal => "horizontal"

def Growth.name : Growth → String
  | .linear => "linear"
  | .exponential => "exponential"

/-- A field that is written only if its value is known. -/
def knownField {α : Type} (name : String) (write : α → Json) : Option α → List (String × Json)
  | none => []
  | some value => [(name, write value)]

def Point.toJson (point : Point) : Json :=
  .object [("x", .ofFloat point.x), ("y", .ofFloat point.y)]

/-- The name of the value of a call. -/
def Family.valueName : Family → String
  | .divideConquer => "size"
  | .linearShift => "argument"

def Node.toJson (node : Node) : Json :=
  .object [
    ("id", .string node.id),
    ("type", .string "recursionNode"),
    ("data", .object (
      [("label", .string node.label),
        (node.family.valueName, .ofFloat node.value),
        ("level", .ofNat node.level),
        ("nodeCount", .ofNat node.rowWidth),
        ("isBaseCase", .bool node.isBase)] ++
      knownField "duplicateCount" Json.ofNat node.repeats ++
      [("sourcePosition", .string node.sourceSide.name),
        ("targetPosition", .string node.targetSide.name)])),
    ("position", node.position.toJson)]

def Edge.toJson (edge : Edge) : Json :=
  .object [
    ("id", .string edge.id),
    ("source", .string edge.source),
    ("target", .string edge.target),
    ("style", .object [
      ("strokeWidth", .ofFloat edge.strokeWidth),
      ("dashed", .bool edge.isDashed)])]

def Metadata.toJson (metadata : Metadata) : Json :=
  .object (
    [("totalNodes", .ofNat metadata.totalNodes),
      ("totalLevels", .ofNat metadata.totalLevels),
      ("nodesPerLevel", .ofList Json.ofNat metadata.nodesPerLevel)] ++
    knownField "duplicateNodes" Json.ofNat metadata.repeatedArguments ++
    knownField "growthType" (fun growth => .string growth.name) metadata.growth ++
    [("family", .string metadata.family.name),
      ("effectiveDepth", .ofNat metadata.effectiveDepth),
      ("truncated", .bool metadata.isTruncated)])

namespace Drawing

def toJson (drawing : Drawing) : Json :=
  .object [
    ("nodes", .ofList Node.toJson drawing.nodes.toList),
    ("edges", .ofList Edge.toJson drawing.edges.toList),
    ("metadata", drawing.metadata.toJson)]

/-- The text of a file that holds the drawing. -/
def fileText (drawing : Drawing) : String := drawing.toJson.fileText

end Drawing

end Unfolding
