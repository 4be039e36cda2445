import Unfolding.Json.Basic

/-!
Reading JSON text.

Each reader takes the characters that are left and returns what it read with
the rest, or nothing if the text is no JSON.
-/

namespace Unfolding.Json

def isBlank (c : Char) : Bool := c == ' ' || c == '\t' || c == '\n' || c == '\r'

def skipBlanks (text : List Char) : List Char := text.dropWhile isBlank

def digitsValue (digits : List Char) : Nat :=
  digits.foldl (fun value c => 10 * value + (c.toNat - '0'.toNat)) 0

/-- Digits at the start of a text, at least one. -/
def readDigits (text : List Char) : Option (List Char × List Char) :=
  match text.span Char.isDigit with
  | ([], _) => none
  | (digits, rest) => some (digits, rest)

/-- The digits before a point: no zero stands in front of others. -/
def readWhole (text : List Char) : Option (List Char × List Char) :=
  match readDigits text with
  | some ('0' :: _ :: _, _) => none
  | read => read

/-- The digits after a point, if there is one. -/
def readFraction : List Char → Option (Option (List Char) × List Char)
  | '.' :: rest => (readDigits rest).map fun (digits, rest) => (some digits, rest)
  | rest => some (none, rest)

/-- A power of ten with its sign, if there is one. -/
def readExponent : List Char → Option (Option Int × List Char)
  | c :: rest =>
      if c == 'e' || c == 'E' then
        let (negative, rest) :=
          match rest with
          | '-' :: rest => (true, rest)
          | '+' :: rest => (false, rest)
          | rest => (false, rest)
        (readDigits rest).map fun (digits, rest) =>
          let value : Int := digitsValue digits
          (some (if negative then -value else value), rest)
      else some (none, c :: rest)
  | [] => some (none, [])

/-- The double nearest to `digits * 10 ^ exponent`, negated if asked. -/
def decimalFloat (negative : Bool) (digits : Nat) (exponent : Int) : Float :=
  let magnitude := Float.ofScientific digits (exponent < 0) exponent.natAbs
  if negative then -magnitude else magnitude

/-- A number is whole if it has neither a fraction nor an exponent.  Minus zero
is a double, since whole numbers have one zero only. -/
def readNumber (text : List Char) : Option (Json × List Char) := do
  let (negative, text) :=
    match text with
    | '-' :: rest => (true, rest)
    | rest => (false, rest)
  let (whole, text) ← readWhole text
  let (fraction, text) ← readFraction text
  let (exponent, text) ← readExponent text
  let value := digitsValue whole
  match fraction, exponent with
  | none, none =>
      if negative then
        some (if value = 0 then .real (-0.0) else .integer (-value), text)
      else some (.integer value, text)
  | fraction, exponent =>
      let places := fraction.getD []
      let digits := digitsValue (whole ++ places)
      some (.real (decimalFloat negative digits (exponent.getD 0 - places.length)), text)

def hexValue? (c : Char) : Option Nat :=
  if '0' ≤ c ∧ c ≤ '9' then some (c.toNat - '0'.toNat)
  else if 'a' ≤ c ∧ c ≤ 'f' then some (c.toNat - 'a'.toNat + 10)
  else if 'A' ≤ c ∧ c ≤ 'F' then some (c.toNat - 'A'.toNat + 10)
  else none

/-- The value of four hexadecimal digits. -/
def hexWord? (a b c d : Char) : Option Nat := do
  return ((← hexValue? a) * 16 + (← hexValue? b)) * 256 + (← hexValue? c) * 16 + (← hexValue? d)

/-- The character of an escape with a single letter. -/
def escaped? : Char → Option Char
  | '"' => some '"'
  | '\\' => some '\\'
  | '/' => some '/'
  | 'b' => some '\x08'
  | 'f' => some '\x0c'
  | 'n' => some '\n'
  | 'r' => some '\r'
  | 't' => some '\t'
  | _ => none

/-- The character of a pair of surrogates. -/
def pairedChar? (high low : Nat) : Option Char :=
  if 0xD800 ≤ high ∧ high < 0xDC00 ∧ 0xDC00 ≤ low ∧ low < 0xE000 then
    some (Char.ofNat (0x10000 + (high - 0xD800) * 0x400 + (low - 0xDC00)))
  else none

/-- The characters of a string up to its closing quote; `read` holds those
already taken, last first. -/
def readString (read : List Char) : List Char → Option (String × List Char)
  | [] => none
  | '"' :: rest => some (String.ofList read.reverse, rest)
  | '\\' :: 'u' :: a :: b :: c :: d :: '\\' :: 'u' :: e :: f :: g :: h :: rest =>
      match hexWord? a b c d, hexWord? e f g h with
      | some high, some low =>
          match pairedChar? high low with
          | some paired => readString (paired :: read) rest
          | none =>
              if high.isValidChar then
                readString (Char.ofNat high :: read) ('\\' :: 'u' :: e :: f :: g :: h :: rest)
              else none
      | _, _ => none
  | '\\' :: 'u' :: a :: b :: c :: d :: rest =>
      match hexWord? a b c d with
      | some code => if code.isValidChar then readString (Char.ofNat code :: read) rest else none
      | none => none
  | '\\' :: c :: rest =>
      match escaped? c with
      | some escaped => readString (escaped :: read) rest
      | none => none
  | c :: rest => if c.toNat < 32 then none else readString (c :: read) rest
termination_by text => text.length

/-- A field replaces an earlier one of the same name. -/
def putField (fields : List (String × Json)) (name : String) (value : Json) :
    List (String × Json) :=
  (name, value) :: fields.filter fun field => field.1 != name

mutual

/-- A value and the blanks around it.  Every call consumes a character, so a
`budget` above the length of the text never runs out. -/
def readValue : (budget : Nat) → List Char → Option (Json × List Char)
  | 0, _ => none
  | budget + 1, text =>
      match skipBlanks text with
      | '\x7b' :: rest =>
          match skipBlanks rest with
          | '\x7d' :: rest => some (.object [], rest)
          | rest => readFields budget [] rest
      | '[' :: rest =>
          match skipBlanks rest with
          | ']' :: rest => some (.array [], rest)
          | rest => readItems budget [] rest
      | '"' :: rest => (readString [] rest).map fun (value, rest) => (.string value, rest)
      | 't' :: 'r' :: 'u' :: 'e' :: rest => some (.bool true, rest)
      | 'f' :: 'a' :: 'l' :: 's' :: 'e' :: rest => some (.bool false, rest)
      | 'n' :: 'u' :: 'l' :: 'l' :: rest => some (.null, rest)
      | rest => readNumber rest

/-- The items of an array after the first `read` of them, last first. -/
def readItems : (budget : Nat) → (read : List Json) → List Char → Option (Json × List Char)
  | 0, _, _ => none
  | budget + 1, read, text =>
      match readValue budget text with
      | none => none
      | some (item, rest) =>
          match skipBlanks rest with
          | ',' :: rest => readItems budget (item :: read) rest
          | ']' :: rest => some (.array (item :: read).reverse, rest)
          | _ => none

/-- The fields of an object after those in `read`, last first. -/
def readFields : (budget : Nat) → (read : List (String × Json)) → List Char →
    Option (Json × List Char)
  | 0, _, _ => none
  | budget + 1, read, text =>
      match skipBlanks text with
      | '"' :: rest =>
          match readString [] rest with
          | none => none
          | some (name, rest) =>
              match skipBlanks rest with
              | ':' :: rest =>
                  match readValue budget rest with
                  | none => none
                  | some (value, rest) =>
                      match skipBlanks rest with
                      | ',' :: rest => readFields budget (putField read name value) rest
                      | '\x7d' :: rest =>
                          some (.object (putField read name value).reverse, rest)
                      | _ => none
              | _ => none
      | _ => none

end

/-- The value that a whole text stands for. -/
def parse? (text : String) : Option Json :=
  let characters := text.toList
  match readValue (characters.length + 1) characters with
  | some (value, rest) => if (skipBlanks rest).isEmpty then some value else none
  | none => none

end Unfolding.Json
