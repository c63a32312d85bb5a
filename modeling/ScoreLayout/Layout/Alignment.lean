import ScoreLayout.Layout.Outcome
import ScoreLayout.Metrics

/-!
# Horizontal alignment

Every measure gets its time grid. Onsets are summed up along each layer, and every symbol takes the
slot of its onset, so that what sounds together shares a slot. The signatures in force are threaded
through the whole walk.

Grace notes advance no time and wait for the note they lean on: when it comes, or when the layer
ends, they get slots of their own just before it, the farthest one first.

A measure inside another has a grid of its own. Once it is left, what follows in the outer measure
gets no slots any more.

## Main definitions

* `LayerCursor` — the running state of a layer.
* `AlignState` — the running state of the walk.
* `AlignState.enterElement`, `AlignState.leaveElement` — what happens at a symbol.
* `AlignState.placeControl`, `AlignState.leaveMeasure` — time-stamped controls and the closing of
  the grid.
* `Document.align` — the time grids of all measures.
-/

namespace ScoreLayout

variable {α : Type} [Scalar α]

/-- A chord whose notes are being visited. They share its onset and its slot. -/
structure OpenChord where
  handle : Handle
  onset : Fraction
  /-- The slot, which a grace chord gets only with its principal note. -/
  slot : Option SlotKey
  grace : Bool

/-- A symbol with its footprint relative to the top line of its staff. -/
structure Drawn (α : Type) where
  handle : Handle
  rect : Option (Rect α)

/-- A grace note or grace chord that waits for its principal note: itself and the symbols below it,
as they are drawn so far. -/
abbrev PendingGrace (α : Type) := List (Drawn α)

/-- The running state of a layer. -/
structure LayerCursor (α : Type) where
  time : Fraction
  /-- The ratios of the enclosing tuplets, the innermost first, each with those around it. -/
  tuplets : List TupletRatio
  graces : List (PendingGrace α)
  chord : Option OpenChord
  clef : Clef

/-- The start of a layer. -/
def LayerCursor.ofClef (clef : Clef) : LayerCursor α := ⟨0, [], [], none, clef⟩

omit [Scalar α] in
/-- The ratio in force. -/
def LayerCursor.tuplet (c : LayerCursor α) : TupletRatio := c.tuplets.head?.getD .one

/-- What the walk works with and does not change. -/
structure AlignContext (α : Type) where
  metrics : GlyphMetrics α
  unit : α
  /-- The document before the walk. -/
  document : Document α

omit [Scalar α] in
/-- The number of lines of a staff. -/
def AlignContext.linesOf (c : AlignContext α) (staff : UInt32) : UInt8 :=
  c.document.definition.linesOf staff

/-- The running state of the walk. -/
structure AlignState (α : Type) where
  signatures : Signatures
  /-- The time grids of the measures being visited, the innermost first. -/
  grids : List (MeasureGrid α)
  /-- Whether the innermost measure takes symbols. -/
  collecting : Bool
  /-- The numbers of the staves met in the measure, each once. -/
  staves : List UInt32
  staff : UInt32
  lines : UInt8
  layer : LayerCursor α
  /-- The longest advance met. -/
  longest : Fraction
  /-- Slots found for grace notes, the latest first. -/
  graceSlots : List (Handle × SlotKey)
  marks : List Mark
  fault : Option Fault

namespace AlignState

/-- The start of the walk. -/
def start (definition : ScoreDefinition) : AlignState α where
  signatures := .ofDefinition definition
  grids := []
  collecting := false
  staves := []
  staff := 1
  lines := defaultLines
  layer := .ofClef default
  longest := 0
  graceSlots := []
  marks := []
  fault := none

omit [Scalar α] in
/-- The state with the time grid of the innermost measure changed. -/
def updateGrid (s : AlignState α) (f : MeasureGrid α → Except GridFault (MeasureGrid α)) :
    AlignState α :=
  match s.grids with
  | g :: outer =>
    match f g with
    | .ok g => { s with grids := g :: outer }
    | .error e => { s with fault := some (.grid e) }
  | [] => s

/-- The state with a slot for a key in the time grid. -/
def request (s : AlignState α) (key : SlotKey) : AlignState α := s.updateGrid fun g => g.slot key

/-- The state with a footprint in the slot of a key. -/
def draw (s : AlignState α) (key : SlotKey) (rect : Option (Rect α)) : AlignState α :=
  match rect with
  | some r => s.updateGrid fun g => .ok (g.addFootprint key s.staff r)
  | none => s

omit [Scalar α] in
/-- The state with a mark on a symbol whose duration takes no time. -/
def markDuration (s : AlignState α) (n : Node α) (reason : String) : AlignState α :=
  let mark := Mark.error n.id .invalidDuration
    (n.name ++ " '" ++ n.id ++ "': " ++ reason ++ "; no time advance")
  { s with marks := s.marks ++ [mark] }

omit [Scalar α] in
/-- The state after the duration of a symbol could not be resolved: a mark, or the breakdown of the
walk. -/
def refuse (s : AlignState α) (n : Node α) (reason : DurationError) : AlignState α :=
  match reason.message? with
  | some text => s.markDuration n text
  | none => { s with fault := some .breakdown }

/-- A waiting grace note with its slot, which lies `rank` notes before the principal note. -/
def placeGrace (s : AlignState α) (onset : Fraction) (rank : Nat) (g : PendingGrace α) :
    AlignState α :=
  let key := SlotKey.ofGrace onset rank
  g.foldl
    (fun s d => { s.draw key d.rect with graceSlots := (d.handle, key) :: s.graceSlots })
    (s.request key)

/-- Waiting grace notes with their slots, the first as far away as there are notes. -/
def placeGraces (s : AlignState α) (onset : Fraction) : List (PendingGrace α) → AlignState α
  | [] => s
  | g :: rest => (s.placeGrace onset (rest.length + 1) g).placeGraces onset rest

/-- The state with slots for all waiting grace notes, before the note at `onset`. -/
def flushGraces (s : AlignState α) (onset : Fraction) : AlignState α :=
  let graces := s.layer.graces
  { s with layer := { s.layer with graces := [] } }.placeGraces onset graces

omit [Scalar α] in
/-- The layer moved on by the advance of a symbol. A sum that does not fit is reported; the symbol
then takes no time. -/
def advance (s : AlignState α) (n : Node α) (time : Fraction) : AlignState α × Node α :=
  match s.layer.time.add time with
  | .ok total =>
    ({ s with layer := { s.layer with time := total }, longest := s.longest.max time }, n)
  | .error e => (s.refuse n (.ofWord e), n.mapLayout fun l => { l with duration := 0 })

/-- A symbol with its footprint relative to the top line of its staff. -/
def drawn (n : Node α) : Drawn α := ⟨n.handle, n.box.rect.map fun r => r.translate 0 n.layout.y⟩

/-- A symbol with its onset, its advance and its footprint. Grace notes that wait above it see how
it is drawn. -/
def record (s : AlignState α) (n : Node α) (onset advance : Fraction) (y : α)
    (rect : Option (Rect α)) : AlignState α × Node α :=
  let n := { n with
    layout := { n.layout with onset := some onset, duration := advance, staff := some s.staff, y }
    box := { n.box with rect } }
  let redraw := fun (d : Drawn α) => if d.handle = n.handle then drawn n else d
  ({ s with layer := { s.layer with graces := s.layer.graces.map fun g => g.map redraw } }, n)

/-- A recorded symbol in a slot that the grid has. -/
def assign (s : AlignState α) (n : Node α) (key : SlotKey) : AlignState α × Node α :=
  let s := s.draw key (drawn n).rect
  ({ s with graceSlots := s.graceSlots.filter fun entry => entry.1 ≠ n.handle },
    n.mapLayout fun l => { l with slot := some key })

/-- A recorded symbol in the slot of a key. -/
def assignAt (s : AlignState α) (n : Node α) (key : SlotKey) : AlignState α × Node α :=
  (s.request key).assign n key

/-- The height of the staff. -/
def staffHeight (s : AlignState α) (unit : α) : α := ScoreLayout.staffHeight s.lines unit

/-- The distance of a location below the top line. -/
def yOf (s : AlignState α) (unit : α) (loc : Int32) : α := locToY loc s.lines unit

omit [Scalar α] in
/-- The location at which a symbol is drawn, if it is drawn at one. -/
def location? (s : AlignState α) : Element → Option Int32
  | .note n => some (n.location s.layer.clef)
  | .rest _ loc => some (loc.getD (middleLoc s.lines))
  | .measureRest _ loc => some (loc.getD (middleLoc s.lines + 2))
  | .multiRest _ _ => some (middleLoc s.lines + 2)
  | _ => none

omit [Scalar α] in
/-- The state before a symbol is drawn. A location out of reach breaks the walk down. -/
def reach (s : AlignState α) (e : Element) : AlignState α :=
  match s.location? e with
  | some loc => if IsInReach s.lines loc then s else { s with fault := some .breakdown }
  | none => s

/-- A note of the chord that is being visited. -/
def enterChordNote (c : AlignContext α) (s : AlignState α) (chord : OpenChord) (n : Node α)
    (note : Note) (rect : Option (Rect α)) : AlignState α × Node α :=
  let rect := if chord.grace then c.metrics.graceRect rect else rect
  let (s, n) := s.record n chord.onset 0 (s.yOf c.unit (note.location s.layer.clef)) rect
  match chord.slot with
  | some key => s.assign n key
  | none => (s, n)

/-- The distance of a symbol below the top line. -/
def symbolY (s : AlignState α) (unit : α) (e : Element) : α :=
  match s.location? e with
  | some loc => s.yOf unit loc
  | none => 0

/-- A recorded grace note with the symbols below it. -/
def pendingGrace (c : AlignContext α) (n : Node α) : PendingGrace α :=
  drawn n :: ((c.document.descendants n.handle).filter fun below => below.tag = .element).map drawn

/-- A timed symbol. A grace note waits for its principal note; any other takes the slot of its
onset, with the grace notes that have waited for it before it. -/
def enterTimed (c : AlignContext α) (s : AlignState α) (n : Node α) (e : Element) (d : Duration)
    (rect : Option (Rect α)) : AlignState α × Node α :=
  let onset := s.layer.time
  let (s, time) :=
    match d.advance s.layer.tuplet with
    | .ok time => (s, time)
    | .error reason => (s.refuse n reason, 0)
  let grace := e.isGrace
  let (s, n) := s.record n onset time (s.symbolY c.unit e)
    (if grace then c.metrics.graceRect rect else rect)
  let (s, n, slot) :=
    if grace then
      let graces := s.layer.graces ++ [pendingGrace c n]
      ({ s with layer := { s.layer with graces } }, n, none)
    else
      let key := SlotKey.ofKind onset .event
      let (s, n) := ((s.request key).flushGraces onset).assign n key
      (s, n, some key)
  let s :=
    match e with
    | .chord _ =>
      let chord : OpenChord := ⟨n.handle, onset, slot, grace⟩
      { s with layer := { s.layer with chord := some chord } }
    | _ => s
  s.advance n time

/-- A rest that fills its measure. -/
def enterFullMeasure (c : AlignContext α) (s : AlignState α) (n : Node α) (e : Element)
    (rect : Option (Rect α)) : AlignState α × Node α :=
  let onset := s.layer.time
  let time := s.signatures.meter.measureDuration
  let (s, n) := s.record n onset time (s.symbolY c.unit e) rect
  let (s, n) := s.assignAt n (.ofKind onset .fullMeasure)
  s.advance n time

/-- A symbol that takes no time, in a slot of its kind. -/
def enterUntimed (s : AlignState α) (n : Node α) (kind : SlotKind) (rect : Option (Rect α)) :
    AlignState α × Node α :=
  let onset := s.layer.time
  let (s, n) := s.record n onset 0 0 rect
  s.assignAt n (.ofKind onset kind)

omit [Scalar α] in
/-- The ratio inside a tuplet. One with a zero term or with a product that does not fit is reported
and changes nothing. -/
def enterRatio (s : AlignState α) (n : Node α) (num base : UInt32) : AlignState α × TupletRatio :=
  let current := s.layer.tuplet
  if num = 0 ∨ base = 0 then
    (s.markDuration n ("tuplet ratio " ++ toString num.toNat ++ ":" ++ toString base.toNat),
      current)
  else
    match current.combine num.toNat base.toNat with
    | .ok ratio => (s, ratio)
    | .error reason => (s.refuse n reason, current)

/-- A symbol that is no note of an open chord. -/
def enterSymbol (c : AlignContext α) (s : AlignState α) (n : Node α) (e : Element)
    (rect : Option (Rect α)) : AlignState α × Node α :=
  match e with
  | .note { duration := d, .. } | .rest d _ | .chord d | .space d => s.enterTimed c n e d rect
  | .measureRest _ _ | .multiRest _ _ => s.enterFullMeasure c n e rect
  | .clef clef =>
    let s := { s with
      layer := { s.layer with clef }
      signatures := s.signatures.setClef s.staff clef }
    s.enterUntimed n .clef rect
  | .key _ =>
    { s with signatures := (e.change?.map s.signatures.apply).getD s.signatures }.enterUntimed n
      .key rect
  | .meter _ =>
    { s with signatures := (e.change?.map s.signatures.apply).getD s.signatures }.enterUntimed n
      .meter rect
  | .barLine _ => s.enterUntimed n .barLine rect
  | .tuplet num base =>
    let (s, ratio) := s.enterRatio n num base
    let s := { s with layer := { s.layer with tuplets := ratio :: s.layer.tuplets } }
    s.record n s.layer.time 0 0 none
  | .beam => s.record n s.layer.time 0 0 none

/-- A symbol inside a measure. -/
def enterElement (c : AlignContext α) (s : AlignState α) (parent : Option (Node α)) (n : Node α)
    (e : Element) : AlignState α × Node α :=
  let rect := c.metrics.element e c.unit (s.staffHeight c.unit)
  match s.layer.chord, e with
  | some chord, .note note =>
    if parent.map Node.handle = some chord.handle then s.enterChordNote c chord n note rect
    else s.enterSymbol c n e rect
  | _, _ => s.enterSymbol c n e rect

omit [Scalar α] in
/-- The end of a symbol: chords and tuplets are closed, and a container that has no duration of its
own gets the time that has passed in it. -/
def leaveElement (s : AlignState α) (n : Node α) (e : Element) : AlignState α × Node α :=
  let s :=
    match e with
    | .chord _ =>
      if s.layer.chord.map OpenChord.handle = some n.handle then
        { s with layer := { s.layer with chord := none } }
      else s
    | .tuplet _ _ => { s with layer := { s.layer with tuplets := s.layer.tuplets.tail } }
    | _ => s
  let onset := n.layout.onset.getD 0
  let n :=
    if e.isContainer ∧ onset < s.layer.time ∧ n.layout.duration.Same 0 then
      n.mapLayout fun l => { l with duration := (s.layer.time.sub? onset).getD 0 }
    else n
  (s, n)

/-- The start of a measure: an empty grid, open for collection. -/
def enterMeasure (s : AlignState α) (n : Node α) (m : Measure α) : AlignState α × Node α :=
  let s := { s with staves := [] }
  match (MeasureGrid.empty : MeasureGrid α).begin with
  | .ok grid =>
    ({ s with grids := grid :: s.grids, collecting := true },
      { n with kind := .measure { m with grid, signatures := s.signatures } })
  | .error f => ({ s with fault := some (.grid f) }, n)

omit [Scalar α] in
/-- The start of a staff. -/
def enterStaff (c : AlignContext α) (s : AlignState α) (n : Node α) (staff : Staff) :
    AlignState α × Node α :=
  ({ s with
      staff := staff.n
      lines := c.linesOf staff.n
      staves := if staff.n ∈ s.staves then s.staves else s.staves ++ [staff.n] },
    n.mapLayout fun l => { l with staff := some staff.n })

omit [Scalar α] in
/-- The start of a layer, at time zero under the clef of its staff. -/
def enterLayer (s : AlignState α) (n : Node α) : AlignState α × Node α :=
  ({ s with layer := .ofClef (s.signatures.clef s.staff) },
    n.mapLayout fun l => { l with staff := some s.staff })

/-- The end of a layer. Grace notes that still wait lean on it, and the measure lasts at least as
long as the layer. -/
def leaveLayer (s : AlignState α) : AlignState α :=
  if s.collecting then
    (s.flushGraces s.layer.time).updateGrid fun g => .ok (g.extend s.layer.time)
  else s

/-- Time-stamps are read to this part of a beat. -/
def tstampResolution : Int := 1024

/-- The time of a beat, counted from one, with `beat` as the length of a beat. -/
def timeOfBeat (tstamp : α) (beat : Fraction) : Fraction :=
  let parts := saturate (Scalar.nearest ((tstamp - 1) * Scalar.ofInt tstampResolution))
  let beats := (Fraction.reduced? parts tstampResolution).getD 0
  (beats.mul? beat).getD beats

/-- The mark on a control element whose time-stamp lies outside of its measure. -/
def tstampMark (id : String) (tstamp : α) : Mark :=
  .warning id .unresolvedTstamp
    ("time-stamp " ++ Scalar.text tstamp ++ " of '" ++ id ++ "' is outside its measure")

omit [Scalar α] in
/-- The time-stamp by which a node has its place in the measure, if it has one. -/
def tstamp? (n : Node α) : Option (Control α × α) :=
  if n.layout.omitted ∨ n.layout.startAnchor.isSome then none
  else do
    let control ← n.kind.control?
    return (control, ← control.point.tstamp)

/-- A time-stamped control element in a slot of the measure that ends at `last`; a time outside of
the measure is moved to its closer end and reported. -/
def placeControl (beat last : Fraction) (s : AlignState α) (n : Node α) : AlignState α × Node α :=
  match tstamp? n with
  | none => (s, n)
  | some (control, tstamp) =>
    let time := timeOfBeat tstamp beat
    let outside := time < 0 ∨ last < time
    let s := if outside then { s with marks := s.marks ++ [tstampMark n.id tstamp] } else s
    let onset := if time < 0 then 0 else if last < time then last else time
    let s := s.updateGrid fun g => g.timestampSlot onset
    let staff := (control.point.staff <|> s.staves.head?).getD 1
    (s, n.mapLayout fun l =>
      { l with slot := some (.ofKind onset .event), onset := some onset, staff := some staff })

/-- The control elements among the children of a measure in their slots. -/
def placeControls (beat last : Fraction) :
    AlignState α → Forest (Node α) → AlignState α × Forest (Node α)
  | s, .nil => (s, .nil)
  | s, .cons n below siblings =>
    let (s, n) := placeControl beat last s n
    let (s, siblings) := placeControls beat last s siblings
    (s, .cons n below siblings)

/-- The footprints of the barlines of one staff. -/
def drawBarLines (c : AlignContext α) (m : Measure α) (last : Fraction) (g : MeasureGrid α)
    (staff : UInt32) : MeasureGrid α :=
  let height := ScoreLayout.staffHeight (c.linesOf staff) c.unit
  let add := fun (g : MeasureGrid α) (key : SlotKey) (rect : Option (Rect α)) =>
    match rect with
    | some r => g.addFootprint key staff r
    | none => g
  let g := add g (.ofKind 0 .leftBarLine)
    (m.leftBarLine.bind fun form => c.metrics.barLine form c.unit height)
  add g (.ofKind last .rightBarLine) (c.metrics.barLine m.rightBarLine c.unit height)

omit [Scalar α] in
/-- A symbol in the slot that has been found for it as a grace note, or below one. -/
def applyGraceSlots (slots : List (Handle × SlotKey)) (n : Node α) : Node α :=
  match slots.lookup n.handle with
  | some key => n.mapLayout fun l => { l with slot := some key }
  | none => n

/-- The end of a measure: time-stamped controls get their slots, the grid is closed, and the
barlines are drawn on every staff that the measure holds. -/
def leaveMeasure (c : AlignContext α) (s : AlignState α) (n : Node α) (m : Measure α)
    (below : Forest (Node α)) : AlignState α × Node α × Forest (Node α) :=
  let last := (s.grids.headD m.grid).maxTime
  let (s, below) := placeControls s.signatures.meter.beatDuration last s below
  match (s.grids.headD m.grid).finish with
  | .ok grid =>
    let grid := s.staves.foldl (drawBarLines c m last) grid
    ({ s with grids := s.grids.tail, collecting := false },
      { n with kind := .measure { m with grid } }, below)
  | .error f => ({ s with fault := some (.grid f) }, n, below)

omit [Scalar α] in
/-- How the walk goes on: a fault stops it. -/
def outcome (s : AlignState α) (otherwise : Visit) : Visit :=
  if s.fault.isSome then .stop else otherwise

/-- What happens when a node is entered. -/
def enter (c : AlignContext α) (s : AlignState α) (parent : Option (Node α)) (n : Node α) :
    AlignState α × Node α × Visit :=
  match n.kind with
  | .document | .page _ | .system _ | .systemBreak | .pageBreak => (s, n, .proceed)
  | .change change =>
    ({ s with signatures := s.signatures.applyChange change }, n, .proceed)
  | .measure m =>
    let (s, n) := s.enterMeasure n m
    (s, n, s.outcome .proceed)
  | .staff staff =>
    let (s, n) := s.enterStaff c n staff
    (s, n, .proceed)
  | .layer _ =>
    let (s, n) := s.enterLayer n
    (s, n, .proceed)
  | .element e =>
    if s.collecting then
      let (s, n) := (s.reach e).enterElement c parent n e
      (s, n, s.outcome .proceed)
    else (s, n, .skipChildren)
  | .control _ => (s, n, .skipChildren)

/-- What happens when a node is left. -/
def leave (c : AlignContext α) (s : AlignState α) (n : Node α) (below : Forest (Node α)) :
    AlignState α × Node α × Forest (Node α) × Visit :=
  match n.kind with
  | .measure m =>
    let (s, n, below) := s.leaveMeasure c n m below
    (s, n, below, s.outcome .proceed)
  | .layer _ =>
    let s := s.leaveLayer
    (s, n, below, s.outcome .proceed)
  | .element e =>
    let (s, n) := s.leaveElement n e
    (s, n, below, .proceed)
  | _ => (s, n, below, .proceed)

end AlignState

/-- The pass that fills the time grids. -/
def alignPass (c : AlignContext α) : Pass (AlignState α) (Node α) where
  enter s parent n := s.enter c parent n
  leave s _ n below := s.leave c n below

namespace Document

/-- The walk that fills the time grids of all measures: its last state, and the document with the
grids. The stage is left as it is. -/
def fillGrids (d : Document α) (metrics : GlyphMetrics α) (unit : α) :
    AlignState α × Document α :=
  let (s, score, _) := d.score.run (alignPass ⟨metrics, unit, d⟩) (.start d.definition)
  (s, d.withScore (score.map (AlignState.applyGraceSlots s.graceSlots)))

/-- The document with the time grids of all measures. -/
def align (d : Document α) (metrics : GlyphMetrics α) (unit : α) : Outcome α :=
  .guarded .alignment d fun d =>
    let (s, d) := d.fillGrids metrics unit
    match s.fault with
    | some f => .failed d s.marks f
    | none => .done { d with stage := .aligned } s.marks

end Document

end ScoreLayout
