import ScoreLayout.Json.Basic

/-!
# Reading JSON text

The text of the data format is read into values. A number is the double that its leading digits, up
to a 64-bit word of them, give when multiplied by or divided by a power of ten.

## Main definitions

* `Json.Reader.number?`, `Json.Reader.string?` — the readers of the two kinds of tokens.
* `Json.parse?` — the value of a text, absent when the text is malformed.
-/

namespace ScoreLayout.Json.Reader

/-- The rest of the text after blanks. -/
def skipBlank : List Char → List Char
  | c :: rest => if c = ' ' ∨ c = '\n' ∨ c = '\t' ∨ c = '\r' then skipBlank rest else c :: rest
  | [] => []

/-- The value of a decimal digit. -/
def digit? (c : Char) : Option Nat :=
  if '0' ≤ c ∧ c ≤ '9' then some (c.toNat - '0'.toNat) else none

/-- The leading digits of the text, with the rest. -/
def digits : List Char → List Nat × List Char
  | c :: rest =>
    match digit? c with
    | some d => let (ds, rest) := digits rest; (d :: ds, rest)
    | none => ([], c :: rest)
  | [] => ([], [])

/-- The largest word without a sign. -/
def wordMax : Nat := 18446744073709551615

/-- Digits appended to a significand as long as it fits a word, with the number of those left. -/
def accumulate : Nat → List Nat → Nat × Nat
  | significand, [] => (significand, 0)
  | significand, d :: ds =>
    if significand * 10 + d ≤ wordMax then accumulate (significand * 10 + d) ds
    else (significand, ds.length + 1)

/-- `10 ^ k` as a double. -/
def power (k : Nat) : Float := Float.ofScientific 1 false k

/-- The largest power of ten that is a double. -/
def maxPower : Nat := 308

/-- A double divided by `10 ^ k`, in steps of the largest power. -/
def divideByPower : (fuel : Nat) → Float → Nat → Float
  | 0, x, _ => x
  | fuel + 1, x, k =>
    if k ≤ maxPower then x / power k
    else if x == 0 then x
    else divideByPower fuel (x / power maxPower) (k - maxPower)

/-- The double `significand * 10 ^ exponent`, absent beyond the largest double. -/
def scaled? (significand : Nat) (exponent : Int) : Option Float :=
  let x := Float.ofNat significand
  if exponent < 0 then
    some (divideByPower ((-exponent).toNat / maxPower + 1) x (-exponent).toNat)
  else if exponent.toNat ≤ maxPower then
    let y := x * power exponent.toNat
    if y.isFinite then some y else none
  else if x == 0 then some x
  else none

/-- The exponent part of a number, with the rest; the inner option says whether there is one. -/
def exponent? : List Char → Option (Option Int × List Char)
  | c :: rest =>
    if c = 'e' ∨ c = 'E' then
      let (negative, rest) : Bool × List Char :=
        match rest with
        | '-' :: rest => (true, rest)
        | '+' :: rest => (false, rest)
        | _ => (false, rest)
      match digits rest with
      | ([], _) => none
      | (ds, rest) =>
        let magnitude : Nat := ds.foldl (fun n d => n * 10 + d) 0
        some (some (if negative then -(magnitude : Int) else magnitude), rest)
    else some (none, c :: rest)
  | [] => some (none, [])

/-- The fraction part of a number, with the rest; the inner option says whether there is one. -/
def fraction? : List Char → Option (Option (List Nat) × List Char)
  | '.' :: rest =>
    match digits rest with
    | ([], _) => none
    | (ds, rest) => some (some ds, rest)
  | rest => some (none, rest)

/-- The whole part of a number, which has no needless zero in front, with the rest. -/
def whole? (input : List Char) : Option (List Nat × List Char) :=
  match digits input with
  | ([], _) => none
  | (0 :: _ :: _, _) => none
  | (ds, rest) => some (ds, rest)

/-- The double of a number with its sign. -/
def signedFloat (negative : Bool) : Option Float → Json Float
  | some x => .float (if negative then -x else x)
  | none => .unreadable

/-- The value of a number. One that is written as an integer and fits a word is an integer, except
for a negative zero. -/
def numberValue (negative : Bool) (whole : List Nat) (fraction : Option (List Nat))
    (exponent : Option Int) : Json Float :=
  let (significand, wholeLeft) := accumulate 0 whole
  match fraction, exponent with
  | none, none =>
    if wholeLeft ≠ 0 then signedFloat negative (scaled? significand wholeLeft)
    else if ¬ negative then .int significand
    else if significand = 0 ∨ significand > 9223372036854775808 then
      signedFloat true (scaled? significand 0)
    else .int (-(significand : Int))
  | _, _ =>
    let tail := fraction.getD []
    let (significand, tailLeft) := accumulate significand tail
    let shift : Int := (wholeLeft : Int) - ((tail.length - tailLeft : Nat) : Int)
    signedFloat negative (scaled? significand (shift + exponent.getD 0))

/-- The number at the start of the text, with the rest. -/
def number? (input : List Char) : Option (Json Float × List Char) := do
  let (negative, rest) : Bool × List Char :=
    match input with
    | '-' :: rest => (true, rest)
    | _ => (false, input)
  let (whole, rest) ← whole? rest
  let (fraction, rest) ← fraction? rest
  let (exponent, rest) ← exponent? rest
  return (numberValue negative whole fraction exponent, rest)

/-- The value of a hexadecimal digit. -/
def hexDigit? (c : Char) : Option Nat :=
  if '0' ≤ c ∧ c ≤ '9' then some (c.toNat - '0'.toNat)
  else if 'a' ≤ c ∧ c ≤ 'f' then some (c.toNat - 'a'.toNat + 10)
  else if 'A' ≤ c ∧ c ≤ 'F' then some (c.toNat - 'A'.toNat + 10)
  else none

/-- Four hexadecimal digits at the start of the text, with the rest. -/
def codeUnit? : List Char → Option (Nat × List Char)
  | a :: b :: c :: d :: rest => do
    let (a, b, c, d) := (← hexDigit? a, ← hexDigit? b, ← hexDigit? c, ← hexDigit? d)
    return (((a * 16 + b) * 16 + c) * 16 + d, rest)
  | _ => none

/-- The character of a one-letter escape. -/
def escape? : Char → Option Char
  | '"' => some '"'
  | '\\' => some '\\'
  | '/' => some '/'
  | 'b' => some '\x08'
  | 'f' => some '\x0c'
  | 'n' => some '\n'
  | 'r' => some '\r'
  | 't' => some '\t'
  | _ => none

/-- The first unit of a surrogate pair. -/
def isHighSurrogate (unit : Nat) : Bool := 0xD800 ≤ unit ∧ unit ≤ 0xDBFF

/-- The second unit of a surrogate pair. -/
def isLowSurrogate (unit : Nat) : Bool := 0xDC00 ≤ unit ∧ unit ≤ 0xDFFF

/-- A numeric escape after its first four digits: a character, absent for half a pair, with the
rest. -/
def character? (unit : Nat) (rest : List Char) : Option (Option Char × List Char) :=
  if isHighSurrogate unit then
    match rest with
    | '\\' :: 'u' :: rest' => do
      let (second, rest'') ← codeUnit? rest'
      if isLowSurrogate second then
        some (some (.ofNat (0x10000 + (unit - 0xD800) * 0x400 + (second - 0xDC00))), rest'')
      else some (none, rest'')
    | _ => some (none, rest)
  else if isLowSurrogate unit then some (none, rest)
  else some (some (.ofNat unit), rest)

/-- The characters of a text up to its closing quote, in reverse, with the rest. The inner option is
absent when the text holds half a surrogate pair. -/
def stringFrom? : (fuel : Nat) → Option (List Char) → List Char →
    Option (Option (List Char) × List Char)
  | 0, _, _ => none
  | _, _, [] => none
  | fuel + 1, read, c :: rest =>
    if c = '"' then some (read, rest)
    else if c.toNat < 0x20 then none
    else if c ≠ '\\' then stringFrom? fuel (read.map (c :: ·)) rest
    else
      match rest with
      | 'u' :: rest => do
        let (unit, rest) ← codeUnit? rest
        let (character, rest) ← character? unit rest
        stringFrom? fuel (read.bind fun cs => character.map (· :: cs)) rest
      | e :: rest => do
        let character ← escape? e
        stringFrom? fuel (read.map (character :: ·)) rest
      | [] => none

/-- The text after an opening quote, with the rest. -/
def string? (input : List Char) : Option (Option String × List Char) := do
  let (read, rest) ← stringFrom? input.length (some []) input
  return (read.map fun cs => String.ofList cs.reverse, rest)

/-- The text after a word that it has to start with. -/
def dropWord? : List Char → List Char → Option (List Char)
  | [], rest => some rest
  | _ :: _, [] => none
  | w :: word, c :: rest => if w = c then dropWord? word rest else none

mutual

/-- The value at the start of the text, with the rest. -/
def value? : (fuel : Nat) → List Char → Option (Json Float × List Char)
  | 0, _ => none
  | fuel + 1, input =>
    match skipBlank input with
    | 'n' :: rest => (dropWord? "ull".toList rest).map (.null, ·)
    | 't' :: rest => (dropWord? "rue".toList rest).map (.bool true, ·)
    | 'f' :: rest => (dropWord? "alse".toList rest).map (.bool false, ·)
    | '"' :: rest =>
      (string? rest).map fun (s, rest) => (((s.map .text).getD .unreadable), rest)
    | '[' :: rest =>
      match skipBlank rest with
      | ']' :: rest => some (.list [], rest)
      | _ => (items? fuel rest).map fun (items, rest) => (.list items, rest)
    | '\x7b' :: rest =>
      match skipBlank rest with
      | '\x7d' :: rest => some (.object [], rest)
      | _ =>
        (fields? fuel rest).map fun (fields, rest) =>
          (((fields.map .object).getD .unreadable), rest)
    | rest => number? rest

/-- The items of a list up to its closing bracket, with the rest. -/
def items? : (fuel : Nat) → List Char → Option (List (Json Float) × List Char)
  | 0, _ => none
  | fuel + 1, input => do
    let (item, rest) ← value? fuel input
    match skipBlank rest with
    | ',' :: rest =>
      let (items, rest) ← items? fuel rest
      return (item :: items, rest)
    | ']' :: rest => return ([item], rest)
    | _ => none

/-- The fields of an object up to its closing brace, with the rest. The inner option is absent when
one of the names denotes no text. -/
def fields? : (fuel : Nat) → List Char → Option (Option (List (String × Json Float)) × List Char)
  | 0, _ => none
  | fuel + 1, input => do
    let '"' :: rest := skipBlank input | none
    let (name, rest) ← string? rest
    let ':' :: rest := skipBlank rest | none
    let (value, rest) ← value? fuel rest
    let field := name.map fun name => (name, value)
    match skipBlank rest with
    | ',' :: rest =>
      let (fields, rest) ← fields? fuel rest
      return (field.bind fun field => fields.map (field :: ·), rest)
    | '\x7d' :: rest => return (field.map ([·]), rest)
    | _ => none

end

end Reader

/-- The value of a text, which holds nothing else but blanks. -/
def parse? (input : String) : Option (Json Float) := do
  let chars := input.toList
  let (value, rest) ← Reader.value? (chars.length + 1) chars
  if Reader.skipBlank rest = [] then some value else none

end ScoreLayout.Json
