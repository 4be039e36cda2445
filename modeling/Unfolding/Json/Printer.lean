import Unfolding.Json.Basic
import Unfolding.Number.Numeral

/-!
JSON text: on one line without blanks, or indented by two blanks a level.
Fields are written in the order in which an object holds them.
-/

namespace Unfolding.Json

/-- Numbers are written without an exponent from `0.00001` up to but not
including `1e+16`.  A double always shows that it is one: by a point, or by an
exponent. -/
def numeralForm : Number.NumeralForm where
  isPositional e := -5 ≤ e && e < 16
  showsPoint := true
  tie := .toEven

def hexDigit (n : Nat) : Char := Nat.digitChar (n % 16)

/-- Quotes, backslashes and control characters are escaped, nothing else is. -/
def escapeChar (c : Char) : List Char :=
  match c with
  | '"' => ['\\', '"']
  | '\\' => ['\\', '\\']
  | '\n' => ['\\', 'n']
  | '\r' => ['\\', 'r']
  | '\t' => ['\\', 't']
  | '\x08' => ['\\', 'b']
  | '\x0c' => ['\\', 'f']
  | c =>
      if c.toNat < 32 then
        ['\\', 'u', '0', '0', hexDigit (c.toNat / 16), hexDigit c.toNat]
      else [c]

def quote (text : String) : String :=
  String.ofList ('"' :: text.toList.flatMap escapeChar ++ ['"'])

/-- The text of a value without parts. -/
def scalarText : Json → String
  | .bool true => "true"
  | .bool false => "false"
  | .integer value => toString value
  | .real value => if value.isFinite then numeralForm.write value else "null"
  | .string value => quote value
  | _ => "null"

mutual

/-- The text of a value on one line. -/
def compact : Json → String
  | .array items => "[" ++ ",".intercalate (compactItems items) ++ "]"
  | .object fields => "\x7b" ++ ",".intercalate (compactFields fields) ++ "\x7d"
  | json => scalarText json

def compactItems : List Json → List String
  | [] => []
  | item :: items => compact item :: compactItems items

def compactFields : List (String × Json) → List String
  | [] => []
  | (name, value) :: fields => (quote name ++ ":" ++ compact value) :: compactFields fields

end

/-- A line break followed by the indentation of a nesting level. -/
def newline (level : Nat) : String := "\n" ++ "".pushn ' ' (2 * level)

/-- Parts of a container on lines of their own; nothing between the brackets of
an empty one. -/
def bracketed (level : Nat) (opening closing : String) (parts : List String) : String :=
  if parts.isEmpty then opening ++ closing
  else
    opening ++ newline (level + 1) ++ ("," ++ newline (level + 1)).intercalate parts ++
      newline level ++ closing

mutual

/-- The text of a value over several lines. -/
def indented (level : Nat) : Json → String
  | .array items => bracketed level "[" "]" (indentedItems (level + 1) items)
  | .object fields => bracketed level "\x7b" "\x7d" (indentedFields (level + 1) fields)
  | json => scalarText json

def indentedItems (level : Nat) : List Json → List String
  | [] => []
  | item :: items => indented level item :: indentedItems level items

def indentedFields (level : Nat) : List (String × Json) → List String
  | [] => []
  | (name, value) :: fields =>
      (quote name ++ ": " ++ indented level value) :: indentedFields level fields

end

/-- The text of a file that holds the value: indented, with a line break at the
end. -/
def fileText (json : Json) : String := indented 0 json ++ "\n"

end Unfolding.Json
