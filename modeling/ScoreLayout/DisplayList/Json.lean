import ScoreLayout.DisplayList
import ScoreLayout.Geometry.Json

/-!
# Display lists as JSON

## Main definitions

* `DisplayList.toJson`, `DisplayList.ofJson?` — pages with everything drawn on them. The control
  elements of a system may be left out.
-/

namespace ScoreLayout

variable {α : Type}

/-- The fields of a symbol. -/
def DisplayElement.toJson (e : DisplayElement α) : Json α :=
  .object [
    ("id", .text e.id),
    ("kind", .text e.kind),
    ("staff", Json.ofOption (fun n => .int n.toNat) e.staff),
    ("x", .float e.x),
    ("y", .float e.y),
    ("bounds", Json.ofOption Rect.toJson e.bounds)]

/-- The fields of a measure. -/
def DisplayMeasure.toJson (m : DisplayMeasure α) : Json α :=
  .object [
    ("id", .text m.id),
    ("n", .int m.n.toNat),
    ("bounds", m.bounds.toJson),
    ("elements", .list (m.elements.map DisplayElement.toJson))]

/-- The fields of a staff. -/
def DisplayStaff.toJson (s : DisplayStaff α) : Json α :=
  .object [
    ("n", .int s.n.toNat),
    ("y", .float s.y),
    ("height", .float s.height),
    ("hidden", .bool s.hidden)]

/-- The fields of a control element. -/
def DisplayControl.toJson (c : DisplayControl α) : Json α :=
  .object [
    ("id", .text c.id),
    ("kind", .text c.kind),
    ("staff", Json.ofOption (fun n => .int n.toNat) c.staff),
    ("bounds", c.bounds.toJson)]

/-- The fields of a system. -/
def DisplaySystem.toJson (s : DisplaySystem α) : Json α :=
  .object [
    ("system_index", Json.ofNat s.index),
    ("id", .text s.id),
    ("bounds", s.bounds.toJson),
    ("score_def_width", .float s.definitionWidth),
    ("staves", .list (s.staves.map DisplayStaff.toJson)),
    ("measures", .list (s.measures.map DisplayMeasure.toJson)),
    ("controls", .list (s.controls.map DisplayControl.toJson))]

/-- The fields of a page. -/
def DisplayPage.toJson (p : DisplayPage α) : Json α :=
  .object [
    ("page_index", Json.ofNat p.index),
    ("id", .text p.id),
    ("width", .float p.width),
    ("height", .float p.height),
    ("systems", .list (p.systems.map DisplaySystem.toJson))]

/-- The pages of a display list. -/
def DisplayList.toJson (l : DisplayList α) : Json α :=
  .object [("pages", .list (l.pages.map DisplayPage.toJson))]

variable [Scalar α]

/-- A symbol from its fields. -/
def DisplayElement.ofJson? (j : Json α) : Option (DisplayElement α) := do
  let r ← Json.Record.ofJson? ["id", "kind", "staff", "x", "y", "bounds"] j
  return {
    id := ← r.required "id" Json.toText?
    kind := ← r.required "kind" Json.toText?
    staff := ← r.nullable "staff" Json.toUInt32?
    x := ← r.required "x" Json.toScalar?
    y := ← r.required "y" Json.toScalar?
    bounds := ← r.nullable "bounds" Rect.ofJson? }

/-- A measure from its fields. -/
def DisplayMeasure.ofJson? (j : Json α) : Option (DisplayMeasure α) := do
  let r ← Json.Record.ofJson? ["id", "n", "bounds", "elements"] j
  return {
    id := ← r.required "id" Json.toText?
    n := ← r.required "n" Json.toUInt32?
    bounds := ← r.required "bounds" Rect.ofJson?
    elements := ← r.required "elements" (Json.toList? DisplayElement.ofJson?) }

/-- A staff from its fields. -/
def DisplayStaff.ofJson? (j : Json α) : Option (DisplayStaff α) := do
  let r ← Json.Record.ofJson? ["n", "y", "height", "hidden"] j
  return {
    n := ← r.required "n" Json.toUInt32?
    y := ← r.required "y" Json.toScalar?
    height := ← r.required "height" Json.toScalar?
    hidden := ← r.required "hidden" Json.toBool? }

/-- A control element from its fields. -/
def DisplayControl.ofJson? (j : Json α) : Option (DisplayControl α) := do
  let r ← Json.Record.ofJson? ["id", "kind", "staff", "bounds"] j
  return {
    id := ← r.required "id" Json.toText?
    kind := ← r.required "kind" Json.toText?
    staff := ← r.nullable "staff" Json.toUInt32?
    bounds := ← r.required "bounds" Rect.ofJson? }

/-- A system from its fields. -/
def DisplaySystem.ofJson? (j : Json α) : Option (DisplaySystem α) := do
  let r ← Json.Record.ofJson?
    ["system_index", "id", "bounds", "score_def_width", "staves", "measures", "controls"] j
  return {
    index := ← r.required "system_index" Json.toNat?
    id := ← r.required "id" Json.toText?
    bounds := ← r.required "bounds" Rect.ofJson?
    definitionWidth := ← r.required "score_def_width" Json.toScalar?
    staves := ← r.required "staves" (Json.toList? DisplayStaff.ofJson?)
    measures := ← r.required "measures" (Json.toList? DisplayMeasure.ofJson?)
    controls := ← r.withDefault "controls" (Json.toList? DisplayControl.ofJson?) [] }

/-- A page from its fields. -/
def DisplayPage.ofJson? (j : Json α) : Option (DisplayPage α) := do
  let r ← Json.Record.ofJson? ["page_index", "id", "width", "height", "systems"] j
  return {
    index := ← r.required "page_index" Json.toNat?
    id := ← r.required "id" Json.toText?
    width := ← r.required "width" Json.toScalar?
    height := ← r.required "height" Json.toScalar?
    systems := ← r.required "systems" (Json.toList? DisplaySystem.ofJson?) }

/-- A display list from its pages. -/
def DisplayList.ofJson? (j : Json α) : Option (DisplayList α) := do
  let r ← Json.Record.ofJson? ["pages"] j
  return { pages := ← r.required "pages" (Json.toList? DisplayPage.ofJson?) }

end ScoreLayout
