import ScoreLayout.Scalar

/-!
# Control elements

Slurs, ties, hairpins, dynamics, tempo marks and directions stand outside of the layers. They name
the symbols they belong to by identifier, or give a beat of their measure.

## Main definitions

* `TimePoint`, `TimeSpan` — where a control element starts, and where it ends.
* `Control` — the kinds of control elements.
* `Control.point`, `Control.span?`, `Control.placement` — what the layout asks of them.
-/

namespace ScoreLayout

/-- The point in time that something is attached to. -/
structure TimePoint (α : Type) where
  /-- The identifier of the symbol at that point. -/
  startId : Option String
  /-- The beat of the measure, counted from one. -/
  tstamp : Option α
  staff : Option UInt32
deriving DecidableEq, Repr

/-- A span of time from a point on. -/
structure TimeSpan (α : Type) extends TimePoint α where
  /-- The identifier of the symbol at the end. -/
  endId : Option String
  /-- The number of measures ahead and the beat of the end. -/
  tstamp2 : Option (UInt32 × α)
deriving DecidableEq, Repr

/-- The point of a symbol. -/
def TimePoint.atId {α : Type} (id : String) : TimePoint α := ⟨some id, none, none⟩

/-- A beat on a staff. -/
def TimePoint.atBeat {α : Type} (tstamp : α) (staff : UInt32) : TimePoint α :=
  ⟨none, some tstamp, some staff⟩

/-- The span between two symbols. -/
def TimeSpan.between {α : Type} (startId endId : String) : TimeSpan α :=
  { TimePoint.atId startId with endId := some endId, tstamp2 := none }

/-- The side on which a curve bends. -/
inductive CurveSide where
  | above
  | below
deriving DecidableEq, Repr

/-- Whether a hairpin opens or closes. -/
inductive HairpinForm where
  | crescendo
  | diminuendo
deriving DecidableEq, Repr

/-- The side of its staff on which a control element is drawn. -/
inductive Placement where
  | above
  | below
deriving DecidableEq, Repr

/-- A control element. -/
inductive Control (α : Type) where
  | slur (span : TimeSpan α) (curve : Option CurveSide)
  | tie (span : TimeSpan α)
  | hairpin (span : TimeSpan α) (form : HairpinForm)
  | dynamic (point : TimePoint α) (text : String)
  /-- A tempo mark, with its beats per minute. -/
  | tempo (point : TimePoint α) (text : String) (rate : Option α)
  | direction (point : TimePoint α) (text : String)
deriving DecidableEq, Repr

namespace Control

variable {α : Type}

/-- The name of the kind, as it appears in identifiers and messages. -/
def name : Control α → String
  | slur _ _ => "slur"
  | tie _ => "tie"
  | hairpin _ _ => "hairpin"
  | dynamic _ _ => "dynam"
  | tempo _ _ _ => "tempo"
  | direction _ _ => "dir"

/-- Where the element starts. -/
def point : Control α → TimePoint α
  | slur s _ | tie s | hairpin s _ => s.toTimePoint
  | dynamic p _ | tempo p _ _ | direction p _ => p

/-- The span of an element that has an end. -/
def span? : Control α → Option (TimeSpan α)
  | slur s _ | tie s | hairpin s _ => some s
  | _ => none

/-- The words of an element that has some. -/
def text? : Control α → Option String
  | dynamic _ text | tempo _ text _ | direction _ text => some text
  | _ => none

/-- Dynamics, hairpins and slurs that bend below stand below their staff, all others above. -/
def placement : Control α → Placement
  | slur _ (some .below) | dynamic _ _ | hairpin _ _ => .below
  | _ => .above

end Control

end ScoreLayout
