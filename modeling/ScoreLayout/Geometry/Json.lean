import ScoreLayout.Geometry.Box
import ScoreLayout.Json.Basic

/-!
# Rectangles and boxes as JSON

## Main definitions

* `Rect.toJson`, `Rect.ofJson?` — the four coordinates, kept as given.
* `Box.toJson`, `Box.ofJson?` — the anchor and the footprint, null when nothing is drawn.
-/

namespace ScoreLayout

variable {α : Type}

/-- The written names of the axes. -/
def Axis.names : List (String × Axis) := [("horizontal", .horizontal), ("vertical", .vertical)]

/-- A rectangle from its coordinates. -/
def Rect.ofJson? [Scalar α] (j : Json α) : Option (Rect α) := do
  let r ← Json.Record.ofJson? ["x1", "y1", "x2", "y2"] j
  return {
    x1 := ← r.required "x1" Json.toScalar?
    y1 := ← r.required "y1" Json.toScalar?
    x2 := ← r.required "x2" Json.toScalar?
    y2 := ← r.required "y2" Json.toScalar? }

/-- The coordinates of a rectangle. -/
def Rect.toJson (r : Rect α) : Json α :=
  .object [("x1", .float r.x1), ("y1", .float r.y1), ("x2", .float r.x2), ("y2", .float r.y2)]

/-- A box from its fields. -/
def Box.ofJson? [Scalar α] (j : Json α) : Option (Box α) := do
  let r ← Json.Record.ofJson? ["x", "y", "rect"] j
  return {
    x := ← r.required "x" Json.toScalar?
    y := ← r.required "y" Json.toScalar?
    rect := ← r.nullable "rect" Rect.ofJson? }

/-- The fields of a box. -/
def Box.toJson (b : Box α) : Json α :=
  .object [("x", .float b.x), ("y", .float b.y), ("rect", Json.ofOption Rect.toJson b.rect)]

end ScoreLayout
