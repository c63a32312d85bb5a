import ScoreLayout.Geometry.Box
import ScoreLayout.Grid.Gap
import ScoreLayout.Grid.Key

/-!
# The time grid of a measure

All staves of a measure share one grid of slots, so that what sounds together is drawn at one place.
A grid is first collected, slot by slot, then closed, and then given positions: the gaps between its
slots get their ideal widths, which justification later replaces.

## Main definitions

* `Slot` — a key, a position, and the footprints of what is drawn there.
* `MeasureGrid` — the ordered slots of a measure with the gaps between them.
* `MeasureGrid.slot`, `MeasureGrid.timestampSlot` — the slot of a key, made if it is missing.
* `MeasureGrid.finish` — the end of collection, with the slots that close the measure.
* `MeasureGrid.space`, `MeasureGrid.stretch` — ideal positions, and justified ones.
-/

namespace ScoreLayout

/-- The rectangle that a symbol on some staff takes up, relative to its slot and to the top line of
the staff. -/
structure Footprint (α : Type) where
  staff : UInt32
  rect : Rect α
deriving DecidableEq, Repr

/-- A point in the time of a measure. -/
structure Slot (α : Type) where
  key : SlotKey
  x : α
  /-- Whether the slot exists for a control element only. -/
  timestampOnly : Bool
  footprints : List (Footprint α)

namespace Slot

variable {α : Type} [Scalar α]

/-- The slot of a key, with nothing drawn. -/
def ofKey (key : SlotKey) (timestampOnly : Bool) : Slot α := ⟨key, 0, timestampOnly, []⟩

/-- How far the footprints reach to the right of the slot. -/
def trailingEdge (s : Slot α) : α :=
  (s.footprints.map fun f => f.rect.x2).foldl Scalar.max 0

/-- The least weight of a gap before a closing barline, so that every measure stretches. -/
def fallbackWeight : α := 1e-3

/-- How far a slot must move right, beyond `space`, for its footprints to clear those of the
previous slot. -/
def push (previous current : Slot α) (space margin : α) : α :=
  let offsets := previous.footprints.flatMap fun a =>
    (current.footprints.filter fun b => b.staff = a.staff).map fun b =>
      let moved : Box α := ⟨space, 0, some b.rect⟩
      (moved.offsetToAvoid ⟨0, 0, some a.rect⟩ .horizontal margin).forward
  offsets.foldl Scalar.max 0

/-- The width that the time between two slots asks for. -/
def timedSpace (previous current : Slot α) (p : Spacing α) : α :=
  if previous.key.zone = .content ∧ current.key.zone ≠ .left ∧ previous.key.time < current.key.time
  then p.spaceFor (previous.key.time.span current.key.time)
  else 0

/-- The narrowest distance between slots of two zones. -/
def floorBetween (previous current : Slot α) (p : Spacing α) : α :=
  match previous.key.zone, current.key.zone with
  | .content, .content | .content, .right => p.minSlotWidth
  | .left, .content => p.margin
  | _, _ => 0

/-- The gap before a slot. The end of the measure follows the closing barline at once; any other gap
is as wide as its time, its footprints and its floor ask for. -/
def gapTo (previous current : Slot α) (p : Spacing α) : Gap α :=
  if current.key.kind = .measureEnd then
    let edge := previous.trailingEdge
    ⟨edge, 0, edge⟩
  else
    let space := timedSpace previous current p
    let floor := floorBetween previous current p
    let width := Scalar.max (space + push previous current space p.margin) floor
    let weight := if current.key.zone = .right then Scalar.max space fallbackWeight else space
    ⟨width, weight, Scalar.min floor width⟩

end Slot

/-- What a grid is ready for. -/
inductive GridState where
  | empty
  | collecting
  | aligned
deriving DecidableEq, Repr

/-- A request that the state of a grid does not allow. -/
inductive GridFault where
  | notReset
  | notCollecting
  | notAligned
  /-- The gaps do not match the slots. -/
  | gapCount
deriving DecidableEq, Repr

/-- The wording of a fault, where it has one. -/
def GridFault.message? : GridFault → Option String
  | notReset => some "measure aligner must be reset before alignment"
  | notCollecting => some "alignment slots can only be requested while collecting"
  | notAligned => some "x positions require a completed horizontal alignment"
  | gapCount => none

/-- The time grid of one measure. -/
structure MeasureGrid (α : Type) where
  /-- The slots in the order of their keys. -/
  slots : List (Slot α)
  state : GridState
  /-- The length of the measure. -/
  maxTime : Fraction
  /-- The gaps between consecutive slots, those for control elements only left out. -/
  gaps : List (Gap α)
  positioned : Bool

namespace MeasureGrid

variable {α : Type} [Scalar α]

omit [Scalar α] in
/-- A grid before collection. -/
def empty : MeasureGrid α := ⟨[], .empty, 0, [], false⟩

omit [Scalar α] in
/-- The slot of a key, if there is one. -/
def get? (g : MeasureGrid α) (key : SlotKey) : Option (Slot α) :=
  g.slots.find? fun s => s.key.compare key = .eq

/-- The slots with one more for `key`, in order; a key that has a slot gets no second one. -/
def insertSlot (key : SlotKey) (timestampOnly : Bool) : List (Slot α) → List (Slot α)
  | [] => [Slot.ofKey key timestampOnly]
  | s :: rest =>
    match s.key.compare key with
    | .lt => s :: insertSlot key timestampOnly rest
    | .eq => s :: rest
    | .gt => Slot.ofKey key timestampOnly :: s :: rest

omit [Scalar α] in
/-- The slots with the one of `key` changed. -/
def modifySlot (key : SlotKey) (f : Slot α → Slot α) (slots : List (Slot α)) : List (Slot α) :=
  slots.map fun s => if s.key.compare key = .eq then f s else s

/-- The grid with a slot for `key` that symbols are drawn at. -/
def slot (g : MeasureGrid α) (key : SlotKey) : Except GridFault (MeasureGrid α) :=
  if g.state = .collecting then
    let claim := fun (s : Slot α) => { s with timestampOnly := false }
    .ok { g with slots := modifySlot key claim (insertSlot key false g.slots) }
  else .error .notCollecting

/-- The grid with a slot at `time` for a control element; a slot that exists serves as it is. -/
def timestampSlot (g : MeasureGrid α) (time : Fraction) : Except GridFault (MeasureGrid α) :=
  let key := SlotKey.ofKind time .event
  if (g.get? key).isSome then .ok g
  else if g.state = .collecting then .ok { g with slots := insertSlot key true g.slots }
  else .error .notCollecting

/-- The grid opened for collection, with the slots that open the measure. -/
def begin (g : MeasureGrid α) : Except GridFault (MeasureGrid α) :=
  if g.state = .empty then do
    let g ← slot { g with state := .collecting } (.ofKind 0 .measureStart)
    g.slot (.ofKind 0 .leftBarLine)
  else .error .notReset

/-- The grid with a footprint added to the slot of `key`, if both are there. -/
def addFootprint (g : MeasureGrid α) (key : SlotKey) (staff : UInt32) (rect : Rect α) :
    MeasureGrid α :=
  if rect.IsEmpty then g
  else
    let add := fun (s : Slot α) => { s with footprints := s.footprints ++ [⟨staff, rect⟩] }
    { g with slots := modifySlot key add g.slots }

omit [Scalar α] in
/-- The grid of a measure that lasts at least until `time`. -/
def extend (g : MeasureGrid α) (time : Fraction) : MeasureGrid α :=
  { g with maxTime := g.maxTime.max time }

omit [Scalar α] in
/-- Whether something is drawn within the timed content. -/
def hasContent (g : MeasureGrid α) : Bool :=
  g.slots.any fun s => s.key.zone = .content ∧ ¬ s.timestampOnly

/-- The grid closed for collection. An empty measure gets one slot of content, and the slots that
close the measure lie at its end. -/
def finish (g : MeasureGrid α) : Except GridFault (MeasureGrid α) := do
  let g ← if g.hasContent then pure g else g.slot (.ofKind 0 .event)
  let g ← g.slot (.ofKind g.maxTime .rightBarLine)
  let g ← g.slot (.ofKind g.maxTime .measureEnd)
  return { g with state := .aligned }

omit [Scalar α] in
/-- The slots within the timed content, in order. -/
def contentSlots (g : MeasureGrid α) : List (Slot α) :=
  g.slots.filter fun s => s.key.zone = .content

omit [Scalar α] in
/-- The slots that something is drawn at, in order. -/
def drawnSlots (g : MeasureGrid α) : List (Slot α) := g.slots.filter fun s => ¬ s.timestampOnly

omit [Scalar α] in
/-- The position of the slot of a key. -/
def xOf? (g : MeasureGrid α) (key : SlotKey) : Option α := (g.get? key).map Slot.x

omit [Scalar α] in
/-- The position of the first slot of a kind. -/
def xOfKind? (g : MeasureGrid α) (kind : SlotKind) : Option α :=
  (g.slots.find? fun s => s.key.kind = kind).map Slot.x

/-- The width of the measure: the position of its last slot. -/
def width (g : MeasureGrid α) : α := (g.slots.getLast?.map Slot.x).getD 0

/-- The total weight of the gaps. -/
def stretchWeight (g : MeasureGrid α) : α := Scalar.sum (g.gaps.map Gap.weight)

/-- Drawn slots placed at the running sums of the gaps, from `x` on; absent when the gaps run out.
Slots for control elements only are left as they are. -/
def placeFrom : List (Slot α) → α → List (Gap α) → Option (List (Slot α))
  | [], _, _ => some []
  | s :: rest, x, gaps =>
    if s.timestampOnly then (placeFrom rest x gaps).map (s :: ·)
    else
      match gaps with
      | [] => none
      | gap :: gaps =>
        (placeFrom rest (x + gap.width) gaps).map ({ s with x := x + gap.width } :: ·)

/-- The first drawn slot placed at zero and the others after it. -/
def placeDrawn : List (Slot α) → List (Gap α) → Option (List (Slot α))
  | [], _ => some []
  | s :: rest, gaps =>
    if s.timestampOnly then (placeDrawn rest gaps).map (s :: ·)
    else (placeFrom rest 0 gaps).map ({ s with x := 0 } :: ·)

/-- The position of a time between two drawn slots, in proportion to the time passed. -/
def between (previous next : Option (Slot α)) (time : Fraction) : α :=
  match previous, next with
  | some p, some n =>
    let span : α := p.key.time.span n.key.time
    if 0 < span then p.x + (n.x - p.x) * p.key.time.span time / span else p.x
  | some p, none => p.x
  | none, _ => 0

/-- Slots for control elements only placed between their drawn neighbours. -/
def placeTimestamps (previous : Option (Slot α)) : List (Slot α) → List (Slot α)
  | [] => []
  | s :: rest =>
    if s.timestampOnly then
      let next := rest.find? fun r => ¬ r.timestampOnly
      { s with x := between previous next s.key.time } :: placeTimestamps previous rest
    else s :: placeTimestamps (some s) rest

/-- The grid with its slots placed according to its gaps. -/
def place (g : MeasureGrid α) : Except GridFault (MeasureGrid α) :=
  match placeDrawn g.slots g.gaps with
  | some slots => .ok { g with slots := placeTimestamps none slots }
  | none => .error .gapCount

/-- The ideal gaps between consecutive slots. -/
def idealGaps (p : Spacing α) : List (Slot α) → List (Gap α)
  | previous :: current :: rest => previous.gapTo current p :: idealGaps p (current :: rest)
  | _ => []

/-- The closed grid with ideal positions. -/
def space (g : MeasureGrid α) (p : Spacing α) : Except GridFault (MeasureGrid α) :=
  if g.state = .aligned then do
    let g ← place { g with gaps := idealGaps p g.drawnSlots }
    return { g with positioned := true }
  else .error .notAligned

/-- The grid with other gaps, as many as it has. -/
def applyGaps (g : MeasureGrid α) (gaps : List (Gap α)) : Except GridFault (MeasureGrid α) :=
  if gaps.length = g.gaps.length then place { g with gaps } else .error .gapCount

/-- The grid stretched by `extra`, or compressed by a negative amount. -/
def stretch (g : MeasureGrid α) (extra : α) : Except GridFault (MeasureGrid α) :=
  g.applyGaps (Gap.distribute g.gaps extra).1

end MeasureGrid

end ScoreLayout
