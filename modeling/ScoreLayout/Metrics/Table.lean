import ScoreLayout.Json.Basic
import ScoreLayout.Metrics

/-!
# Metrics from a table

A table gives one footprint to all symbols, one to all barlines and one to all control elements, and
widths for the signatures, all in units.

## Main definitions

* `MetricsTable` — the table.
* `MetricsTable.toMetrics` — the metrics that it stands for.
* `MetricsTable.ofJson` — the table that a value describes.
-/

namespace ScoreLayout

/-- Footprints and widths in units. -/
structure MetricsTable (α : Type) where
  element : Option (Rect α)
  barLine : Option (Rect α)
  control : Option (Rect α)
  clef : α
  /-- What each line of the position of a clef adds to its width. -/
  clefLine : α
  key : α
  meter : α
  graceScale : α

namespace MetricsTable

variable {α : Type} [Scalar α]

/-- The metrics that a table stands for. -/
def toMetrics (t : MetricsTable α) : GlyphMetrics α where
  element _ unit _ := t.element.map fun r => r.scale unit
  barLine _ unit _ := t.barLine.map fun r => r.scale unit
  clefWidth c unit := (t.clef + t.clefLine * Scalar.ofNat c.line.toNat) * unit
  keyWidth _ unit := t.key * unit
  meterWidth _ unit := t.meter * unit
  control _ unit := t.control.map fun r => r.scale unit
  graceScale := t.graceScale

/-- A rectangle from a list of its coordinates. -/
def toRect? : Json α → Option (Rect α)
  | .list [x1, y1, x2, y2] => do
    return ⟨← x1.toScalar?, ← y1.toScalar?, ← x2.toScalar?, ← y2.toScalar?⟩
  | _ => none

/-- A table from its fields. One that is missing or of another form takes its default: no footprint,
no width, or a grace note at three quarters of its size. -/
def ofJson (j : Json α) : MetricsTable α :=
  let field := fun name =>
    match j with
    | .object fields => (fields.lookup name).getD .null
    | _ => .null
  let number := fun name (fallback : α) => (field name).toScalar?.getD fallback
  { element := toRect? (field "element")
    barLine := toRect? (field "barline")
    control := toRect? (field "control")
    clef := number "clef" 0
    clefLine := number "clef_line" 0
    key := number "key" 0
    meter := number "meter" 0
    graceScale := number "grace_scale" 0.75 }

end MetricsTable

end ScoreLayout
