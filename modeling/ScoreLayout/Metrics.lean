import ScoreLayout.Geometry.Rect
import ScoreLayout.Music.Control
import ScoreLayout.Music.Element

/-!
# Glyph metrics

The layout knows no glyphs. A table of metrics gives the footprint of every symbol, relative to its
anchor and in units of half a staff space.

## Main definitions

* `GlyphMetrics` — the footprints and widths that the layout asks for.
* `GlyphMetrics.default` — footprints that need no font.
* `GlyphMetrics.controlFootprint` — the footprint of a control element over a span.
-/

namespace ScoreLayout

/-- The source of footprints. Each function takes the unit as its last argument but the height of
the staff. -/
structure GlyphMetrics (α : Type) where
  /-- The footprint of a symbol, absent when it draws nothing by itself. -/
  element : Element → (unit staffHeight : α) → Option (Rect α)
  barLine : BarLineForm → (unit staffHeight : α) → Option (Rect α)
  clefWidth : Clef → (unit : α) → α
  keyWidth : KeySig → (unit : α) → α
  meterWidth : MeterSig → (unit : α) → α
  /-- The footprint of a control element at one point. -/
  control : Control α → (unit : α) → Option (Rect α)
  /-- The size of grace notes in relation to normal ones. -/
  graceScale : α

namespace GlyphMetrics

variable {α : Type} [Scalar α]

/-- The height of curves and hairpins, in units. -/
def curveHeight : α := 2

/-- The distance between a control element and what it decorates, in units. -/
def controlMargin : α := 1.5

/-- The footprint of a control element from its start and its top on; a spanning one is as wide as
its span. -/
def controlFootprint (m : GlyphMetrics α) (c : Control α) (span unit : α) : Rect α :=
  match c.span? with
  | some _ => Rect.ofCorners 0 0 (Scalar.max span unit) (curveHeight * unit)
  | none =>
    let rect := (m.control c unit).getD (Rect.ofCorners 0 0 unit unit)
    rect.translate 0 (-rect.y1)

/-- The footprint of a grace note from that of a normal one. -/
def graceRect (m : GlyphMetrics α) (rect : Option (Rect α)) : Option (Rect α) :=
  rect.map fun r => r.scale m.graceScale

/-- The width of the dots of a duration. -/
def dotsWidth (d : Duration) (unit : α) : α := Scalar.ofNat d.countedDots * 1.2 * unit

/-- The footprint of a note: its head, with room for a stem, an accidental and dots. -/
def noteRect (n : Note) (unit : α) : Rect α :=
  let head : Rect α := Rect.ofCorners 0 (-unit) (2.5 * unit) unit
  let stemmed := (n.duration.value.map NoteValue.hasStem).getD false
  { x1 := if n.pitch.accidental.isSome then -2 * unit else head.x1
    y1 := if stemmed then -7 * unit else head.y1
    x2 := head.x2 + dotsWidth n.duration unit
    y2 := head.y2 }

/-- The footprint of a rest, with room for dots. -/
def restRect (d : Duration) (unit : α) : Rect α :=
  let sign : Rect α := Rect.ofCorners 0 (-3 * unit) (2 * unit) (3 * unit)
  { sign with x2 := sign.x2 + dotsWidth d unit }

/-- The width of a barline, in units; an invisible one has none. -/
def barLineWidth : BarLineForm → Option α
  | .single | .dashed => some 0.3
  | .double => some 1
  | .final => some 1.5
  | .repeatStart | .repeatEnd => some 2.5
  | .invisible => none

/-- The footprint of a barline, at least a unit high. -/
def barLineRect (form : BarLineForm) (unit staffHeight : α) : Option (Rect α) :=
  (barLineWidth form).map fun width =>
    Rect.ofCorners 0 0 (width * unit) (Scalar.max staffHeight unit)

/-- The width of any clef. -/
def plainClefWidth (unit : α) : α := 3 * unit

/-- The width of a key signature: that of its accidentals. -/
def plainKeyWidth (k : KeySig) (unit : α) : α := Scalar.ofNat k.accidentalCount * 1.2 * unit

/-- The width of a meter signature: that of the digits of its longer number. -/
def plainMeterWidth (m : MeterSig) (unit : α) : α :=
  Scalar.ofNat (Decimal.width (Nat.max m.count.toNat m.unit.toNat)) * 2 * unit

/-- The footprint of a symbol. -/
def elementRect (unit staffHeight : α) : Element → Option (Rect α)
  | .note n => some (noteRect n unit)
  | .rest d _ => some (restRect d unit)
  | .measureRest true _ => some (Rect.ofCorners 0 (-unit) (4 * unit) 0)
  | .multiRest _ true => some (Rect.ofCorners 0 (-unit) (10 * unit) unit)
  | .clef _ =>
    some (Rect.ofCorners 0 (-2 * unit) (plainClefWidth unit) (staffHeight + 2 * unit))
  | .key k =>
    if k.fifths = 0 then none
    else some (Rect.ofCorners 0 (-unit) (plainKeyWidth k unit) staffHeight)
  | .meter m => some (Rect.ofCorners 0 0 (plainMeterWidth m unit) staffHeight)
  | .barLine form => barLineRect form unit staffHeight
  | _ => none

/-- The footprint of words: at least one letter wide. -/
def textRect (text : String) (unit : α) : Rect α :=
  Rect.ofCorners 0 0 (Scalar.ofNat (Nat.max text.length 1) * 1.5 * unit) (2.5 * unit)

/-- Footprints that need no font. -/
def default : GlyphMetrics α where
  element e unit staffHeight := elementRect unit staffHeight e
  barLine := barLineRect
  clefWidth _ unit := plainClefWidth unit
  keyWidth := plainKeyWidth
  meterWidth := plainMeterWidth
  control c unit := c.text?.map fun text => textRect text unit
  graceScale := 0.75

end GlyphMetrics

end ScoreLayout
