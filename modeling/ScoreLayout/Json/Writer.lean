import ScoreLayout.Decimal.Fixed
import ScoreLayout.Decimal.Shortest
import ScoreLayout.Json.Basic

/-!
# JSON text

Values are written without blanks. A number that is not an integer always has a fraction part or an
exponent, so that it is not read back as an integer. It has an exponent from `10 ^ 16` on and below
`10 ^ -5`, which matters on reading: the digits of a number and the power of ten that scales them
are rounded one by one.

## Main definitions

* `Json.write` — the text of a value.
-/

namespace ScoreLayout.Json

namespace Writer

/-- A character inside a text; quotes, backslashes and control characters are escaped. -/
def escaped (c : Char) : List Char :=
  match c with
  | '"' => ['\\', '"']
  | '\\' => ['\\', '\\']
  | '\n' => ['\\', 'n']
  | '\r' => ['\\', 'r']
  | '\t' => ['\\', 't']
  | c =>
    if c.toNat < 32 then '\\' :: 'u' :: (Decimal.padded 16 4 c.toNat).toList else [c]

/-- A text between quotes. -/
def quoted (s : String) : String := "\"" ++ String.ofList (s.toList.flatMap escaped) ++ "\""

/-- A decimal with a fraction part or an exponent. -/
def decimal (d : Decimal) : String :=
  if d.leadingExponent < -5 ∨ 16 ≤ d.leadingExponent then d.scientific
  else if d.exponent < 0 then d.positional
  else d.positional ++ ".0"

/-- A number that is not an integer; one that is not finite has no text of its own. -/
def number (x : Float) : String :=
  match Binary64.ofFloat? x with
  | some b =>
    let text := decimal (.shortest .even b.mantissa b.exponent)
    if b.negative then "-" ++ text else text
  | none => "null"

end Writer

open Writer

mutual

/-- The text of a value. -/
def write : Json Float → String
  | null | unreadable => "null"
  | bool b => if b then "true" else "false"
  | int z => toString z
  | float x => number x
  | text s => quoted s
  | list items => "[" ++ String.intercalate "," (writeItems items) ++ "]"
  | object fields => "\x7b" ++ String.intercalate "," (writeFields fields) ++ "\x7d"

/-- The texts of items. -/
def writeItems : List (Json Float) → List String
  | [] => []
  | j :: rest => write j :: writeItems rest

/-- The texts of fields with their names. -/
def writeFields : List (String × Json Float) → List String
  | [] => []
  | (name, j) :: rest => (quoted name ++ ":" ++ write j) :: writeFields rest

end

end ScoreLayout.Json
