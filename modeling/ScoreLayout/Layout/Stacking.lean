import ScoreLayout.Layout.Outcome
import ScoreLayout.Metrics
import ScoreLayout.Options

/-!
# Stacking staves

The staves of every system are stacked. A staff is hidden in a system when its definition hides it,
or when it is hidden in all measures of the system that hold it. Symbols and control elements widen
the room of their staff.

A system inside another has staves of its own. Once it is left, what follows in the outer system
counts for no staff any more.

## Main definitions

* `Node.extent?` — the staff of a symbol and what the symbol covers on it.
* `Control.reserved` — the room of a control element beside what it decorates.
* `Stacking` — the running state of the walk.
* `Document.stackStaves` — the staves of every system in their places.
-/

namespace ScoreLayout

variable {α : Type} [Scalar α]

/-- The staff of a symbol that is drawn, with its upper and its lower end below the top line. -/
def Node.extent? (n : Node α) : Option (UInt32 × α × α) := do
  let rect ← n.box.rect
  return (← n.layout.staff, n.layout.y + rect.y1, n.layout.y + rect.y2)

/-- The room that a control element takes beside something that reaches from `top` to `bottom`. -/
def Control.reserved (c : Control α) (metrics : GlyphMetrics α) (unit top bottom : α) : α × α :=
  let room := (metrics.controlFootprint c 0 unit).height + GlyphMetrics.controlMargin * unit
  match c.placement with
  | .above => (top - room, top)
  | .below => (bottom, bottom + room)

/-- The running state of stacking. -/
structure Stacking (α : Type) where
  /-- The staves of the systems being visited, the innermost first. -/
  systems : List (StaffStack α)
  /-- Whether what is met counts for the innermost system. -/
  collecting : Bool
  /-- The staves met in the system, and whether one of each is shown. -/
  shown : List (UInt32 × Bool)
  fault : Option Fault

/-- What stacking works with and does not change. -/
structure StackingContext (α : Type) where
  document : Document α
  metrics : GlyphMetrics α
  unit : α
  /-- The distance between staves. -/
  spacing : α

/-- A staff noted as met, with whether it is shown. -/
def noteShown (staff : UInt32) (visible : Bool) : List (UInt32 × Bool) → List (UInt32 × Bool)
  | [] => [(staff, visible)]
  | (n, seen) :: rest =>
    if n = staff then (n, seen || visible) :: rest else (n, seen) :: noteShown staff visible rest

namespace Stacking

/-- No system entered yet. -/
def start : Stacking α := ⟨[], false, [], none⟩

omit [Scalar α] in
/-- The staves of the system that what is met counts for. -/
def stack? (s : Stacking α) : Option (StaffStack α) :=
  if s.collecting then s.systems.head? else none

omit [Scalar α] in
/-- The state with the staves of the innermost system replaced. -/
def withStack (s : Stacking α) (stack : StaffStack α) : Stacking α :=
  { s with systems := stack :: s.systems.tail }

/-- The staves of a definition, with nothing drawn on them. -/
def definedStaves (definition : ScoreDefinition) (unit : α) : StaffStack α :=
  definition.staves.foldl
    (fun stack s => stack.ensure s.n (staffHeight s.lines unit) s.hidden) .empty

/-- The start of a system. -/
def enterSystem (c : StackingContext α) (s : Stacking α) : Stacking α :=
  { s with
    systems := definedStaves c.document.definition c.unit :: s.systems
    collecting := true
    shown := [] }

/-- A staff of a measure. -/
def enterStaff (c : StackingContext α) (s : Stacking α) (staff : Staff) : Stacking α :=
  match s.stack? with
  | some stack =>
    let height := staffHeight (c.document.definition.linesOf staff.n) c.unit
    { s.withStack (stack.ensure staff.n height false) with
      shown := noteShown staff.n (!staff.hidden) s.shown }
  | none => s

/-- The state with room for an extent on a staff. -/
def reserve (s : Stacking α) (staff : UInt32) (top bottom : α) : Stacking α :=
  match s.stack? with
  | some stack => s.withStack (stack.modify staff fun slot => slot.addExtent top bottom)
  | none => s

/-- A symbol. -/
def enterElement (s : Stacking α) (n : Node α) : Stacking α :=
  match n.extent? with
  | some (staff, top, bottom) => s.reserve staff top bottom
  | none => s

omit [Scalar α] in
/-- A node that has to be there. -/
def existing (d : Document α) (h : Handle) : Except Fault (Node α) :=
  match d.node? h with
  | some n => .ok n
  | none => .error .missingNode

omit [Scalar α] in
/-- The symbols that a control element is tied to. -/
def anchors (l : LayoutState α) : List Handle := l.startAnchor.toList ++ l.endAnchor.toList

omit [Scalar α] in
/-- The staff that a control element is placed against: that of its first symbol, or its own once
it has a slot. -/
def controlStaff? (d : Document α) (l : LayoutState α) : Except Fault (Option UInt32) :=
  match anchors l with
  | first :: _ => (existing d first).map fun n => n.layout.staff
  | [] => .ok (if l.slot.isSome then l.staff else none)

/-- What a control element on a staff has to clear: the lines of the staff, and its symbols on
it. -/
def cleared (anchors : List (Node α)) (staff : UInt32) (height : α) : α × α :=
  let extents := (anchors.filterMap Node.extent?).filter fun e => e.1 = staff
  extents.foldl
    (fun (top, bottom) (_, upper, lower) => (Scalar.min top upper, Scalar.max bottom lower))
    (0, height)

/-- The state with room for a control element, if its staff is one of the system. -/
def reserveControl (c : StackingContext α) (s : Stacking α) (control : Control α)
    (l : LayoutState α) : Except Fault (Stacking α) := do
  let staff ← controlStaff? c.document l
  match (do (← s.stack?).get? (← staff)) with
  | some slot =>
    let symbols ← (anchors l).mapM (existing c.document)
    let (top, bottom) := cleared symbols slot.staff slot.height
    let (top, bottom) := control.reserved c.metrics c.unit top bottom
    return s.reserve slot.staff top bottom
  | none => return s

/-- A control element that is not left out. -/
def enterControl (c : StackingContext α) (s : Stacking α) (n : Node α) (control : Control α) :
    Stacking α :=
  if s.stack?.isNone ∨ n.layout.omitted then s
  else
    match s.reserveControl c control n.layout with
    | .ok s => s
    | .error f => { s with fault := some f }

omit [Scalar α] in
/-- The stack with the staves hidden of which no measure shows one. -/
def hideUnseen (stack : StaffStack α) (shown : List (UInt32 × Bool)) : StaffStack α :=
  shown.foldl
    (fun stack (staff, visible) =>
      stack.modify staff fun slot => { slot with hidden := slot.hidden || !visible })
    stack

/-- The end of a system: its staves get their places. -/
def leaveSystem (c : StackingContext α) (s : Stacking α) (n : Node α) : Stacking α × Node α :=
  match s.systems with
  | stack :: outer =>
    let stack := (hideUnseen stack s.shown).stack c.spacing
    ({ s with systems := outer, collecting := false, shown := [] },
      n.mapKind (.mapSystem fun system => { system with stack }))
  | [] => (s, n)

end Stacking

/-- The pass that stacks the staves of every system. -/
def stackingPass (c : StackingContext α) : Pass (Stacking α) (Node α) where
  enter s _ n :=
    match n.kind with
    | .system _ => (s.enterSystem c, n, .proceed)
    | .staff staff => (s.enterStaff c staff, n, .proceed)
    | .element _ => (s.enterElement n, n, .proceed)
    | .control control =>
      let s := s.enterControl c n control
      (s, n, if s.fault.isSome then .stop else .skipChildren)
    | _ => (s, n, .proceed)
  leave s _ n below :=
    match n.kind with
    | .system _ =>
      let (s, n) := s.leaveSystem c n
      (s, n, below, .proceed)
    | _ => (s, n, below, .proceed)

/-- The document with the staves of every system in their places. -/
def Document.stackStaves (d : Document α) (options : LayoutOptions α) (metrics : GlyphMetrics α) :
    Outcome α :=
  .guarded .stacking d fun d =>
    let unit := options.scaledUnit
    let c : StackingContext α := ⟨d, metrics, unit, options.spacingStaff * unit⟩
    let (s, score, _) := d.score.run (stackingPass c) .start
    let d := d.withScore score
    match s.fault with
    | some f => .failed d [] f
    | none => .done { d with stage := .stacked } []

end ScoreLayout
