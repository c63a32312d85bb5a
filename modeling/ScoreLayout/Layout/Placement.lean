import ScoreLayout.Layout.Outcome
import ScoreLayout.Metrics
import ScoreLayout.Options

/-!
# Placement

The distances found by the earlier passes are added up to positions on the page, and everything
drawn gets its box. Control elements tied to symbols wait until the document node is left, when all
symbols have their positions.

## Main definitions

* `SystemFrame`, `MeasureFrame`, `Placing` — the running state of the walk.
* `Placing.enterControl` — a control element at its slot.
* `Document.placeAnchored` — a control element between its symbols.
* `Placing.placeWaiting` — all control elements that have waited.
* `Document.place` — the absolute positions of everything.
-/

namespace ScoreLayout

variable {α : Type} [Scalar α]

/-- The system being visited, with its top left corner on the page. -/
structure SystemFrame (α : Type) where
  system : ScoreSystem α
  x : α
  y : α

/-- The measure being visited, with its left edge on the page. -/
structure MeasureFrame (α : Type) where
  handle : Handle
  measure : Measure α
  x : α

/-- What placement works with and does not change. -/
structure PlacingContext (α : Type) where
  metrics : GlyphMetrics α
  unit : α
  marginLeft : α
  marginTop : α
  /-- The document before the walk. -/
  document : Document α

/-- The running state of placement. -/
structure Placing (α : Type) where
  system : Option (SystemFrame α)
  measure : Option (MeasureFrame α)
  /-- The top line of the staff being visited. -/
  staffY : α
  staffHidden : Bool
  /-- Control elements that wait for the positions of their symbols. -/
  waiting : List Handle
  /-- Control elements that have waited, in their places. -/
  placed : List (Node α)
  fault : Option Fault

/-- The top of a control element that belongs to something between `top` and `bottom`. -/
def Control.y (c : Control α) (unit top bottom height : α) : α :=
  let margin := GlyphMetrics.controlMargin * unit
  match c.placement with
  | .above => top - margin - height
  | .below => bottom + margin

/-- The position of a slot in a measure. -/
def MeasureFrame.xOf (f : MeasureFrame α) (slot : Option SlotKey) : α :=
  f.x + (slot.bind f.measure.grid.xOf?).getD 0

namespace Placing

/-- Nothing entered yet. -/
def start : Placing α := ⟨none, none, 0, false, [], [], none⟩

omit [Scalar α] in
/-- A node as it is once the control elements that have waited are in their places. -/
def latest (s : Placing α) (n : Node α) : Node α :=
  (s.placed.find? (Document.hasHandle n.handle)).getD n

/-- A staff of the system being visited: its place in the stack, and its top line on the page. -/
def staff? (s : Placing α) (staff : UInt32) : Option (StaffSlot α × α) := do
  let frame ← s.system
  let slot ← frame.system.stack.get? staff
  return (slot, frame.y + slot.y)

/-- A system. -/
def enterSystem (c : PlacingContext α) (s : Placing α) (n : Node α) (system : ScoreSystem α) :
    Placing α × Node α :=
  let x := c.marginLeft
  let y := c.marginTop + system.y
  ({ s with system := some ⟨system, x, y⟩ },
    { n with box := ⟨x, y, some (Rect.ofCorners 0 0 system.width system.stack.height)⟩ })

/-- A measure of a system. -/
def enterMeasure (s : Placing α) (n : Node α) (m : Measure α) : Placing α × Node α :=
  match s.system with
  | some frame =>
    let x := frame.x + frame.system.definitionWidth + m.x
    ({ s with measure := some ⟨n.handle, m, x⟩ },
      { n with
        box := ⟨x, frame.y, some (Rect.ofCorners 0 0 m.width frame.system.stack.height)⟩ })
  | none => (s, n)

/-- A staff of a measure. -/
def enterStaff (s : Placing α) (n : Node α) (staff : Staff) : Placing α × Node α :=
  match s.measure, s.staff? staff.n with
  | some frame, some (slot, y) =>
    let rect := Rect.ofCorners 0 0 frame.measure.width slot.height
    ({ s with staffY := y, staffHidden := slot.hidden },
      { n with box := ⟨frame.x, y, if slot.hidden then none else some rect⟩ })
  | _, _ => (s, n)

/-- A symbol. On a hidden staff nothing is drawn. -/
def enterElement (s : Placing α) (n : Node α) : Node α :=
  match s.measure with
  | some frame =>
    let x := frame.xOf n.layout.slot
    let y := s.staffY + n.layout.y
    { n with box := if s.staffHidden then .point x y else n.box.setAnchor x y }
  | none => n

/-- The smallest rectangle around the boxes with content. -/
def contentBounds (below : List (Node α)) : Option (Rect α) :=
  match (below.filter fun n => n.box.HasContent).map fun n => n.box.bounds with
  | [] => none
  | first :: rest => some (rest.foldl Rect.union first)

/-- The end of a symbol: one that groups others is drawn around them. -/
def leaveElement (n : Node α) (below : List (Node α)) : Node α :=
  match n.kind.isContainer, contentBounds below with
  | true, some content =>
    let bounds :=
      match n.box.rect with
      | some own => (own.translate n.box.x n.box.y).union content
      | none => content
    { n with box := { n.box with rect := some (bounds.translate (-n.box.x) (-n.box.y)) } }
  | _, _ => n

/-- A control element: one with a start waits for it, and one with a slot of its measure is placed
there, against its staff. -/
def enterControl (c : PlacingContext α) (s : Placing α) (parent : Option (Node α)) (n : Node α)
    (control : Control α) : Placing α × Node α :=
  if n.layout.omitted then (s, n)
  else if n.layout.startAnchor.isSome then ({ s with waiting := s.waiting ++ [n.handle] }, n)
  else
    match s.measure, n.layout.slot, s.staff? (n.layout.staff.getD 1) with
    | some frame, some key, some (slot, top) =>
      if parent.map Node.handle ≠ some frame.handle ∨ slot.hidden then (s, n)
      else
        let rect := c.metrics.controlFootprint control 0 c.unit
        let y := control.y c.unit top (top + slot.height) rect.height
        (s, { n with box := ⟨frame.xOf (some key), y, some rect⟩ })
    | _, _, _ => (s, n)

end Placing

/-- A control element between the symbols it is tied to. It is as wide as their distance, and lies
outside of them and of the staff of the first. -/
def Node.spanned (c : PlacingContext α) (control : Control α) (staff : Option (Node α))
    (start : Node α) (endX : α) (stop : Rect α) (n : Node α) : Node α :=
  let first := start.box.bounds
  let lines := (staff.map fun s => s.box.bounds).getD first
  let top := Scalar.min (Scalar.min lines.y1 first.y1) stop.y1
  let bottom := Scalar.max (Scalar.max lines.y2 first.y2) stop.y2
  let rect := c.metrics.controlFootprint control (endX - start.box.x) c.unit
  let y := control.y c.unit top bottom rect.height
  { n with
    box := ⟨start.box.x, y, some rect⟩
    layout := { n.layout with staff := start.layout.staff } }

namespace Document

/-- The right edge and the bounds of the end of a control element. One that goes on in another
system ends with the system of its start. -/
def spanEnd? (d : Document α) (start : Node α) (stop : Handle) : Except Fault (α × Rect α) :=
  let startSystem := d.ancestorOfKind? start.handle .system
  let stopSystem := d.ancestorOfKind? stop .system
  if startSystem.map Node.handle = stopSystem.map Node.handle then
    match d.node? stop with
    | some n => .ok (n.box.bounds.x2, n.box.bounds)
    | none => .error .missingNode
  else
    let first := start.box.bounds
    .ok ((startSystem.map fun s => s.box.bounds.x2).getD first.x2, first)

/-- A control element placed between its symbols, unless it begins on a hidden staff. -/
def placeAnchored (c : PlacingContext α) (d : Document α) (h : Handle) :
    Except Fault (Document α) := do
  let some n := d.node? h | .error .missingNode
  match n.kind.control?, n.layout.startAnchor with
  | some control, some startHandle =>
    let some start := d.node? startHandle | .error .missingNode
    let staff := d.ancestorOfKind? startHandle .staff
    if (staff.map fun s => s.box.rect.isNone).getD false then return d
    let (endX, stop) ← d.spanEnd? start (n.layout.endAnchor.getD startHandle)
    return d.modify h (Node.spanned c control staff start endX stop)
  | _, _ => return d

end Document

/-- The waiting control elements placed in the score as it stands. -/
def Placing.placeWaiting (c : PlacingContext α) (s : Placing α) (score : Forest (Node α)) :
    Placing α :=
  let d := c.document.withScore (score.map s.latest)
  match s.waiting.foldlM (Document.placeAnchored c) d with
  | .ok d => { s with waiting := [], placed := s.waiting.filterMap d.node? ++ s.placed }
  | .error f => { s with fault := some f }

/-- The pass that finds all positions. -/
def placingPass (c : PlacingContext α) : Pass (Placing α) (Node α) where
  enter s parent n :=
    match n.kind with
    | .system system =>
      let (s, n) := s.enterSystem c n system
      (s, n, .proceed)
    | .measure m =>
      let (s, n) := s.enterMeasure n m
      (s, n, .proceed)
    | .staff staff =>
      let (s, n) := s.enterStaff n staff
      (s, n, .proceed)
    | .element _ => (s, s.enterElement n, .proceed)
    | .control control =>
      let (s, n) := s.enterControl c parent n control
      (s, n, .skipChildren)
    | _ => (s, n, .proceed)
  leave s whole n below :=
    match n.kind with
    | .document =>
      let s := s.placeWaiting c (whole n below)
      (s, n, below, if s.fault.isSome then .stop else .proceed)
    | .element _ => (s, Placing.leaveElement n (below.roots.map s.latest), below, .proceed)
    | .measure _ => ({ s with measure := none }, n, below, .proceed)
    | .staff _ => ({ s with staffHidden := false }, n, below, .proceed)
    | .system _ => ({ s with system := none }, n, below, .proceed)
    | _ => (s, n, below, .proceed)

/-- The document with the positions of everything. -/
def Document.place (d : Document α) (options : LayoutOptions α) (metrics : GlyphMetrics α) :
    Outcome α :=
  .guarded .placement d fun d =>
    let c : PlacingContext α :=
      ⟨metrics, options.scaledUnit, options.marginLeft, options.marginTop, d⟩
    let (s, score, _) := d.score.run (placingPass c) .start
    let d := d.withScore (score.map s.latest)
    match s.fault with
    | some f => .failed d [] f
    | none => .done { d with stage := .finalized } []

end ScoreLayout
