import Unfolding.Json.Basic
import Unfolding.Recurrence.Basic

/-!
Recurrences as JSON objects.  The field `kind` tells the family; fields that no
recurrence has are ignored.
-/

namespace Unfolding

def Family.name : Family → String
  | .divideConquer => "divideConquer"
  | .linearShift => "linearShift"

def DivideConquer.toJson (r : DivideConquer) : Json :=
  .object [
    ("kind", .string Family.divideConquer.name),
    ("a", .ofNat r.branching.toNat),
    ("b", .ofFloat r.reduction),
    ("f", .string r.work),
    ("n0", .integer r.threshold.toInt)]

def DivideConquer.ofJson? (json : Json) : Option DivideConquer := do
  let branching ← json.required? "a" Json.uint32?
  let reduction ← json.required? "b" Json.number?
  let work ← json.required? "f" Json.string?
  let threshold ← json.required? "n0" Json.int64?
  return { branching, reduction, work, threshold }

def LinearShift.toJson (r : LinearShift) : Json :=
  .object [
    ("kind", .string Family.linearShift.name),
    ("shifts", .ofList (fun shift => .ofNat shift.toNat) r.shifts),
    ("coefficients", .ofList .string r.coefficients),
    ("g", .ofOption .string r.extra),
    ("n0", .integer r.threshold.toInt)]

def LinearShift.ofJson? (json : Json) : Option LinearShift := do
  let shifts ← json.required? "shifts" (Json.list? Json.uint32?)
  let coefficients ← json.required? "coefficients" (Json.list? Json.string?)
  let extra ← json.optional? "g" (Json.nullable? Json.string?) none
  let threshold ← json.required? "n0" Json.int64?
  return { shifts, coefficients, extra, threshold }

namespace Recurrence

def toJson : Recurrence → Json
  | .divideConquer r => r.toJson
  | .linearShift r => r.toJson

def ofJson? (json : Json) : Option Recurrence := do
  let kind ← json.required? "kind" Json.string?
  if kind = Family.divideConquer.name then
    (DivideConquer.ofJson? json).map .divideConquer
  else if kind = Family.linearShift.name then
    (LinearShift.ofJson? json).map .linearShift
  else none

end Recurrence

end Unfolding
