import ScoreLayout.Json.Reader

/-!
# Whole JSON values

A text may be read as one value before any of it is looked at. Then every part of it has to denote a
value, lists and objects may not be nested too deeply, and of several fields of one name the last
counts.

## Main definitions

* `Json.isWhole` — every part denotes a value.
* `Json.depth` — how deeply lists and objects are nested.
* `Json.distinct` — objects without repeated names.
* `Json.parseWhole?` — a text read as one value.
-/

namespace ScoreLayout.Json

variable {α : Type}

mutual

/-- Whether every part denotes a value. -/
def isWhole : Json α → Bool
  | unreadable => false
  | list items => areWhole items
  | object fields => fieldsAreWhole fields
  | _ => true

/-- Whether items are whole. -/
def areWhole : List (Json α) → Bool
  | [] => true
  | j :: rest => j.isWhole && areWhole rest

/-- Whether the values of fields are whole. -/
def fieldsAreWhole : List (String × Json α) → Bool
  | [] => true
  | (_, j) :: rest => j.isWhole && fieldsAreWhole rest

end

mutual

/-- The number of lists and objects around the innermost value. -/
def depth : Json α → Nat
  | list items => depthOfItems items + 1
  | object fields => depthOfFields fields + 1
  | _ => 0

/-- The greatest depth of items. -/
def depthOfItems : List (Json α) → Nat
  | [] => 0
  | j :: rest => Nat.max j.depth (depthOfItems rest)

/-- The greatest depth of the values of fields. -/
def depthOfFields : List (String × Json α) → Nat
  | [] => 0
  | (_, j) :: rest => Nat.max j.depth (depthOfFields rest)

end

/-- The depth up to which a text is read as one value. -/
def maxDepth : Nat := 127

mutual

/-- The value with only the last of several fields of one name. -/
def distinct : Json α → Json α
  | list items => list (distinctItems items)
  | object fields => object (distinctFields fields)
  | j => j

/-- Items without repeated names. -/
def distinctItems : List (Json α) → List (Json α)
  | [] => []
  | j :: rest => j.distinct :: distinctItems rest

/-- Fields of which each is the last of its name. -/
def distinctFields : List (String × Json α) → List (String × Json α)
  | [] => []
  | (name, j) :: rest =>
    if rest.any fun field => field.1 = name then distinctFields rest
    else (name, j.distinct) :: distinctFields rest

end

/-- A text read as one value. -/
def parseWhole? (input : String) : Option (Json Float) :=
  ((parse? input).filter fun j => j.isWhole && decide (j.depth ≤ maxDepth)).map distinct

end ScoreLayout.Json
