/-!
JSON values and how the fields of a request are taken from them.

Whole numbers and doubles are different kinds of number: a count is only read
from a whole number, a size from either.
-/

namespace Unfolding

inductive Json where
  | null
  | bool (value : Bool)
  | integer (value : Int)
  | real (value : Float)
  | string (value : String)
  | array (items : List Json)
  | object (fields : List (String × Json))

namespace Json

def ofNat (n : Nat) : Json := .integer n

/-- A double as a number.  What is not finite has no number and becomes null. -/
def ofFloat (x : Float) : Json := if x.isFinite then .real x else .null

/-- A value that may be absent, written as null when it is. -/
def ofOption {α : Type} (write : α → Json) : Option α → Json
  | none => .null
  | some value => write value

def ofList {α : Type} (write : α → Json) (values : List α) : Json :=
  .array (values.map write)

/-- The field of an object; other values have no fields. -/
def field? (name : String) : Json → Option Json
  | .object fields => fields.lookup name
  | _ => none

def bool? : Json → Option Bool
  | .bool value => some value
  | _ => none

def string? : Json → Option String
  | .string value => some value
  | _ => none

def integer? : Json → Option Int
  | .integer value => some value
  | _ => none

/-- A whole number from zero up to but not including `bound`. -/
def natBelow? (bound : Nat) (json : Json) : Option Nat := do
  let value ← json.integer?
  if 0 ≤ value ∧ value < bound then some value.toNat else none

def uint32? (json : Json) : Option UInt32 :=
  (json.natBelow? UInt32.size).map Nat.toUInt32

def uint64? (json : Json) : Option UInt64 :=
  (json.natBelow? UInt64.size).map Nat.toUInt64

def int64? (json : Json) : Option Int64 := do
  let value ← json.integer?
  if Int64.minValue.toInt ≤ value ∧ value ≤ Int64.maxValue.toInt then some (Int64.ofInt value)
  else none

/-- Any number, rounded to the nearest double. -/
def number? : Json → Option Float
  | .integer value => some (Float.ofInt value)
  | .real value => some value
  | _ => none

/-- An array whose items can all be read. -/
def list? {α : Type} (read : Json → Option α) : Json → Option (List α)
  | .array items => items.mapM read
  | _ => none

/-- A value that may be null. -/
def nullable? {α : Type} (read : Json → Option α) : Json → Option (Option α)
  | .null => some none
  | json => (read json).map some

/-- A field that has to be there. -/
def required? {α : Type} (json : Json) (name : String) (read : Json → Option α) : Option α :=
  (json.field? name).bind read

/-- A field that stands for `default` when it is missing. -/
def optional? {α : Type} (json : Json) (name : String) (read : Json → Option α)
    (default : α) : Option α :=
  match json.field? name with
  | none => some default
  | some value => read value

end Json

end Unfolding
