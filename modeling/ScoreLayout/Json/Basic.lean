import ScoreLayout.Fraction

/-!
# JSON values

Values of the data format in which scores, options and display lists are exchanged. Integers and
other numbers are kept apart, since a field for an integer takes no number with a fraction part or
an exponent.

## Main definitions

* `Json` — values over a scalar type.
* `Json.Decoder` — a reader of values of some type.
* `Json.Record` — the fields of a record, given by name or by position.
-/

namespace ScoreLayout

/-- A value of the data format. -/
inductive Json (α : Type) where
  | null
  | bool (b : Bool)
  /-- A number written without a fraction part and an exponent. -/
  | int (z : Int)
  | float (x : α)
  | text (s : String)
  | list (items : List (Json α))
  | object (fields : List (String × Json α))
  /-- A form that is correct but denotes no value: a number beyond every double, a text with half a
  surrogate pair, or an object with such a text as a name. -/
  | unreadable

namespace Json

/-- A reader of values of type `β`. -/
abbrev Decoder (α β : Type) := Json α → Option β

variable {α β : Type}

/-- A truth value. -/
def toBool? : Decoder α Bool
  | bool b => some b
  | _ => none

/-- A text. -/
def toText? : Decoder α String
  | text s => some s
  | _ => none

/-- An integer between two bounds. -/
def toInt? (low high : Int) : Decoder α Int
  | int z => if low ≤ z ∧ z ≤ high then some z else none
  | _ => none

/-- A natural number within a signed word. -/
def toNat? : Decoder α Nat
  | int z => if 0 ≤ z ∧ z ≤ 18446744073709551615 then some z.toNat else none
  | _ => none

/-- An integer of a signed word. -/
def toWord? : Decoder α Int := toInt? (-9223372036854775808) 9223372036854775807

/-- An integer of eight bits without a sign. -/
def toUInt8? (j : Json α) : Option UInt8 := (toInt? 0 255 j).map fun z => .ofNat z.toNat

/-- An integer of eight bits with a sign. -/
def toInt8? (j : Json α) : Option Int8 := (toInt? (-128) 127 j).map .ofInt

/-- An integer of 32 bits without a sign. -/
def toUInt32? (j : Json α) : Option UInt32 := (toInt? 0 4294967295 j).map fun z => .ofNat z.toNat

/-- An integer of 32 bits with a sign. -/
def toInt32? (j : Json α) : Option Int32 := (toInt? (-2147483648) 2147483647 j).map .ofInt

/-- Any number. -/
def toScalar? [Scalar α] : Decoder α α
  | int z => some (Scalar.ofInt z)
  | float x => some x
  | _ => none

/-- A list whose items one decoder reads. -/
def toList? (item : Decoder α β) : Decoder α (List β)
  | list items => items.mapM item
  | _ => none

/-- A pair, written as a list of two. -/
def toPair? {γ : Type} (first : Decoder α β) (second : Decoder α γ) : Decoder α (β × γ)
  | list [a, b] => do return (← first a, ← second b)
  | _ => none

/-- A value that may be null. -/
def toOption? (value : Decoder α β) : Decoder α (Option β)
  | null => some none
  | j => (value j).map some

/-- One of several names; it may also be written as the only field of an object, with a null. -/
def toName? (names : List (String × β)) : Decoder α β
  | text s | object [(s, null)] => names.lookup s
  | _ => none

/-- One of several names in a value that says its own kind. As the only field of an object, the name
may there also stand with an empty object. -/
def toNameWithin? (names : List (String × β)) : Decoder α β
  | object [(s, object [])] => names.lookup s
  | j => toName? names j

/-- A fraction, written as a list of two words and kept as given. -/
def toFraction? (j : Json α) : Option Fraction := do
  let (num, den) ← toPair? toWord? toWord? j
  Fraction.ofParts? num den

/-- The fields of a record, by name. -/
structure Record (α : Type) where
  fields : List (String × Json α)
  /-- Whether the fields were given by position, so that one can only be missing at the end. -/
  byPosition : Bool

namespace Record

/-- The record with the given field names: an object in which none of them is repeated, or a list
with at most as many items. -/
def ofJson? (names : List String) : Json α → Option (Record α)
  | object fields =>
    if names.all fun name => (fields.filter fun field => field.1 = name).length ≤ 1 then
      some ⟨fields, false⟩
    else none
  | list items =>
    if items.length ≤ names.length then some ⟨names.zip items, true⟩ else none
  | _ => none

/-- The value of a field. -/
def get? (r : Record α) (name : String) : Option (Json α) := r.fields.lookup name

/-- A field that has to be given. -/
def required (r : Record α) (name : String) (value : Decoder α β) : Option β :=
  (r.get? name).bind value

/-- A field with a value that stands for its absence. -/
def withDefault (r : Record α) (name : String) (value : Decoder α β) (default : β) : Option β :=
  match r.get? name with
  | some j => value j
  | none => some default

/-- A field that may be null or missing. -/
def optional (r : Record α) (name : String) (value : Decoder α β) : Option (Option β) :=
  r.withDefault name (toOption? value) none

/-- A field that may be null, and missing where fields are given by name. -/
def nullable (r : Record α) (name : String) (value : Decoder α β) : Option (Option β) :=
  match r.get? name with
  | some j => toOption? value j
  | none => if r.byPosition then none else some none

end Record

/-- A value that its first field or first item names the kind of. -/
def toTagged? (tag : String) : Json α → Option (String × Json α)
  | object fields =>
    match fields.filter fun field => field.1 = tag with
    | [(_, text kind)] => some (kind, object (fields.filter fun field => field.1 ≠ tag))
    | _ => none
  | list (text kind :: items) => some (kind, list items)
  | _ => none

/-- The value of an optional field. -/
def ofOption (value : β → Json α) : Option β → Json α
  | some b => value b
  | none => null

/-- The name of a value in a list of names. -/
def ofName [DecidableEq β] (names : List (String × β)) (b : β) : Json α :=
  match names.find? fun entry => entry.2 = b with
  | some entry => text entry.1
  | none => null

/-- A fraction as a list of two words. -/
def ofFraction (a : Fraction) : Json α := list [int a.num, int a.den]

/-- A natural number. -/
def ofNat (n : Nat) : Json α := int n

end Json

end ScoreLayout
