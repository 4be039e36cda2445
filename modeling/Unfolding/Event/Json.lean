import Unfolding.Event.Basic
import Unfolding.Json.Printer
import Unfolding.Recurrence.Json

/-!
Events as JSON objects, with their fields in alphabetical order.
-/

namespace Unfolding.Event

def toJson : Event → Json
  | .depthSettled family natural requested effective atHorizon =>
      .object [
        ("atHorizon", .bool atHorizon),
        ("effective", .ofNat effective.toNat),
        ("event", .string "depth"),
        ("family", .string family.name),
        ("natural", .ofNat natural.toNat),
        ("requested", .ofOption (fun depth => .ofNat depth.toNat) requested)]
  | .levelBuilt level nodes baseCases =>
      .object [
        ("baseCases", .ofNat baseCases.toNat),
        ("event", .string "level"),
        ("level", .ofNat level.toNat),
        ("nodes", .ofNat nodes.toNat)]
  | .limitReached limit emitted level =>
      .object [
        ("emitted", .ofNat emitted.toNat),
        ("event", .string "nodeLimit"),
        ("level", .ofNat level.toNat),
        ("limit", .ofNat limit.toNat)]
  | .repeatsCounted groups annotated =>
      .object [
        ("annotated", .ofNat annotated.toNat),
        ("event", .string "duplicates"),
        ("groups", .ofNat groups.toNat)]
  | .drawn family totalNodes totalLevels truncated =>
      .object [
        ("event", .string "layout"),
        ("family", .string family.name),
        ("totalLevels", .ofNat totalLevels.toNat),
        ("totalNodes", .ofNat totalNodes.toNat),
        ("truncated", .bool truncated)]

def listToJson (events : List Event) : Json := .ofList toJson events

/-- The text of a file that holds events. -/
def fileText (events : List Event) : String := (listToJson events).fileText

end Unfolding.Event
