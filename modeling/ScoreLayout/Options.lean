import ScoreLayout.Grid.Gap
import ScoreLayout.Json.Reader

/-!
# Layout options

A flat set of named options with defaults. They are read from JSON text, in which unknown names are
passed over, and numbers outside of their range are moved into it.

## Main definitions

* `LayoutOptions` — the options with their defaults.
* `LayoutOptions.normalized` — every number within its range.
* `LayoutOptions.parse?` — options read from text, normalized.
* `LayoutOptions.contentWidth?`, `LayoutOptions.contentHeight` — the room inside the margins.
-/

namespace ScoreLayout

/-- How the content is broken into systems and pages. -/
inductive BreakMode where
  /-- Systems are filled to the page width, pages to the page height; written breaks count. -/
  | auto
  /-- One system on one page. -/
  | unbroken
  /-- Systems as in `auto`, on one page. -/
  | line
  /-- Written breaks only. -/
  | encoded
  /-- As in `auto`, but a written system break counts only in a system that is full enough. -/
  | smart
deriving DecidableEq, Repr

/-- The written names of the break modes. -/
def BreakMode.names : List (String × BreakMode) :=
  [("auto", .auto), ("none", .unbroken), ("line", .line), ("encoded", .encoded), ("smart", .smart)]

/-- What happens with the free height of a page. -/
inductive VerticalMode where
  /-- It is spread over the gaps between systems and staves. -/
  | fill
  /-- It stays at the bottom. -/
  | compact
deriving DecidableEq, Repr

/-- The written names of the vertical modes. -/
def VerticalMode.names : List (String × VerticalMode) := [("fill", .fill), ("compact", .compact)]

/-- The options of a layout. -/
structure LayoutOptions (α : Type) where
  pageWidth : α
  pageHeight : α
  marginLeft : α
  marginRight : α
  marginTop : α
  marginBottom : α
  /-- Half the distance between two staff lines. -/
  unit : α
  /-- The size in percent. -/
  scale : α
  spacingLinear : α
  spacingNonLinear : α
  /-- The least distance between staves, in units. -/
  spacingStaff : α
  /-- The least distance between systems, in units. -/
  spacingSystem : α
  /-- The least distance between slots of content, in units. -/
  minSlotWidth : α
  breaks : BreakMode
  /-- How full a system has to be for a written break to count in mode `smart`. -/
  smartFill : α
  /-- Whether a lone last measure joins the system before it. -/
  noWidow : Bool
  vertical : VerticalMode
  justifyHorizontally : Bool
  /-- The last system stays as it is when it would be stretched by more than the inverse of this;
  zero means that it is always stretched. -/
  minLastFill : α
  systemWeight : α
  staffWeight : α
  /-- The last page stays as it is when at least this part of it is free. -/
  maxVertical : α

namespace LayoutOptions

variable {α : Type} [Scalar α]

/-- The options that hold unless others are given. -/
def default : LayoutOptions α where
  pageWidth := 2100
  pageHeight := 2970
  marginLeft := 50
  marginRight := 50
  marginTop := 50
  marginBottom := 50
  unit := 9
  scale := 100
  spacingLinear := 0.25
  spacingNonLinear := 0.6
  spacingStaff := 8
  spacingSystem := 12
  minSlotWidth := 2
  breaks := .auto
  smartFill := 0.66
  noWidow := false
  vertical := .fill
  justifyHorizontally := true
  minLastFill := 0
  systemWeight := 1
  staffWeight := 1
  maxVertical := 0.3

/-- The options with every number moved into its range. A margin takes less than half of the
page. -/
def normalized (o : LayoutOptions α) : LayoutOptions α :=
  let pageWidth := Scalar.clamp o.pageWidth 100 60000
  let pageHeight := Scalar.clamp o.pageHeight 100 60000
  let maxH := pageWidth / 2 - 1
  let maxV := pageHeight / 2 - 1
  { o with
    pageWidth, pageHeight
    marginLeft := Scalar.clamp o.marginLeft 0 maxH
    marginRight := Scalar.clamp o.marginRight 0 maxH
    marginTop := Scalar.clamp o.marginTop 0 maxV
    marginBottom := Scalar.clamp o.marginBottom 0 maxV
    unit := Scalar.clamp o.unit 1 100
    scale := Scalar.clamp o.scale 1 1000
    spacingLinear := Scalar.clamp o.spacingLinear 0 1
    spacingNonLinear := Scalar.clamp o.spacingNonLinear 0 1
    spacingStaff := Scalar.clamp o.spacingStaff 0 24
    spacingSystem := Scalar.clamp o.spacingSystem 0 48
    minSlotWidth := Scalar.clamp o.minSlotWidth 0 24
    smartFill := Scalar.clamp o.smartFill 0 1
    minLastFill := Scalar.clamp o.minLastFill 0 1
    systemWeight := Scalar.clamp o.systemWeight 0 10
    staffWeight := Scalar.clamp o.staffWeight 0 10
    maxVertical := Scalar.clamp o.maxVertical 0 1 }

/-- The unit after scaling. -/
def scaledUnit (o : LayoutOptions α) : α := o.unit * o.scale / 100

/-- The width inside the margins, absent where systems have no end. -/
def contentWidth? (o : LayoutOptions α) : Option α :=
  if o.breaks = .unbroken then none else some (o.pageWidth - o.marginLeft - o.marginRight)

/-- The height inside the margins. -/
def contentHeight (o : LayoutOptions α) : α := o.pageHeight - o.marginTop - o.marginBottom

/-- The parameters that turn time into width, for a score with the given longest duration. -/
def spacing (o : LayoutOptions α) (longest : Fraction) : Spacing α :=
  let unit := o.scaledUnit
  { linear := o.spacingLinear
    nonLinear := o.spacingNonLinear
    scale := o.scale / 100
    margin := unit
    minSlotWidth := o.minSlotWidth * unit
    longest }

/-- The names of the options. -/
def fieldNames : List String :=
  ["page_width", "page_height", "page_margin_left", "page_margin_right", "page_margin_top",
    "page_margin_bottom", "unit", "scale", "spacing_linear", "spacing_non_linear",
    "spacing_staff", "spacing_system", "min_slot_width", "breaks", "breaks_smart_sb",
    "breaks_no_widow", "justification", "justify_horizontally", "min_last_justification",
    "justification_system", "justification_staff", "justification_max_vertical"]

/-- Options from their fields; any may be left out. -/
def ofJson? (j : Json α) : Option (LayoutOptions α) := do
  let r ← Json.Record.ofJson? fieldNames j
  let d : LayoutOptions α := default
  let number := fun name fallback => r.withDefault name Json.toScalar? fallback
  let truth := fun name fallback => r.withDefault name Json.toBool? fallback
  return {
    pageWidth := ← number "page_width" d.pageWidth
    pageHeight := ← number "page_height" d.pageHeight
    marginLeft := ← number "page_margin_left" d.marginLeft
    marginRight := ← number "page_margin_right" d.marginRight
    marginTop := ← number "page_margin_top" d.marginTop
    marginBottom := ← number "page_margin_bottom" d.marginBottom
    unit := ← number "unit" d.unit
    scale := ← number "scale" d.scale
    spacingLinear := ← number "spacing_linear" d.spacingLinear
    spacingNonLinear := ← number "spacing_non_linear" d.spacingNonLinear
    spacingStaff := ← number "spacing_staff" d.spacingStaff
    spacingSystem := ← number "spacing_system" d.spacingSystem
    minSlotWidth := ← number "min_slot_width" d.minSlotWidth
    breaks := ← r.withDefault "breaks" (Json.toName? BreakMode.names) d.breaks
    smartFill := ← number "breaks_smart_sb" d.smartFill
    noWidow := ← truth "breaks_no_widow" d.noWidow
    vertical := ← r.withDefault "justification" (Json.toName? VerticalMode.names) d.vertical
    justifyHorizontally := ← truth "justify_horizontally" d.justifyHorizontally
    minLastFill := ← number "min_last_justification" d.minLastFill
    systemWeight := ← number "justification_system" d.systemWeight
    staffWeight := ← number "justification_staff" d.staffWeight
    maxVertical := ← number "justification_max_vertical" d.maxVertical }

omit [Scalar α] in
/-- The fields of the options. -/
def toJson (o : LayoutOptions α) : Json α :=
  .object [
    ("page_width", .float o.pageWidth),
    ("page_height", .float o.pageHeight),
    ("page_margin_left", .float o.marginLeft),
    ("page_margin_right", .float o.marginRight),
    ("page_margin_top", .float o.marginTop),
    ("page_margin_bottom", .float o.marginBottom),
    ("unit", .float o.unit),
    ("scale", .float o.scale),
    ("spacing_linear", .float o.spacingLinear),
    ("spacing_non_linear", .float o.spacingNonLinear),
    ("spacing_staff", .float o.spacingStaff),
    ("spacing_system", .float o.spacingSystem),
    ("min_slot_width", .float o.minSlotWidth),
    ("breaks", Json.ofName BreakMode.names o.breaks),
    ("breaks_smart_sb", .float o.smartFill),
    ("breaks_no_widow", .bool o.noWidow),
    ("justification", Json.ofName VerticalMode.names o.vertical),
    ("justify_horizontally", .bool o.justifyHorizontally),
    ("min_last_justification", .float o.minLastFill),
    ("justification_system", .float o.systemWeight),
    ("justification_staff", .float o.staffWeight),
    ("justification_max_vertical", .float o.maxVertical)]

/-- Options read from JSON text, normalized. -/
def parse? (text : String) : Option (LayoutOptions Float) :=
  ((Json.parse? text).bind ofJson?).map normalized

end LayoutOptions

end ScoreLayout
