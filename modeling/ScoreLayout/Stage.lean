import ScoreLayout.Grid.Measure

/-!
# Stages of a layout

The passes of a layout run in a fixed order, and each one needs those before it. A document carries
the last stage it has reached; an edit takes it back to the first.

## Main definitions

* `Stage` — the stages in order.
* `Step`, `Step.required` — the steps of a layout and the stages that they need.
* `Fault` — why a step could not run.
-/

namespace ScoreLayout

/-- The last pass completed on a document. -/
inductive Stage where
  /-- Built or edited since the last layout. -/
  | built
  /-- Earlier results are cleared and anchors are resolved. -/
  | prepared
  /-- Every measure has its time grid. -/
  | aligned
  /-- Ideal horizontal positions are known. -/
  | spaced
  /-- The measures are distributed over systems. -/
  | systems
  /-- The staves are stacked in every system. -/
  | stacked
  /-- The systems are distributed over pages. -/
  | paginated
  /-- Systems and pages are filled. -/
  | justified
  /-- Absolute positions are known. -/
  | finalized
deriving DecidableEq, Repr

namespace Stage

/-- The position of a stage in the order of the passes. -/
def rank : Stage → Nat
  | built => 0
  | prepared => 1
  | aligned => 2
  | spaced => 3
  | systems => 4
  | stacked => 5
  | paginated => 6
  | justified => 7
  | finalized => 8

instance : LE Stage := ⟨fun a b => a.rank ≤ b.rank⟩

instance : DecidableLE Stage := fun a b => inferInstanceAs (Decidable (a.rank ≤ b.rank))

/-- The name of a stage inside a message. -/
def name : Stage → String
  | built => "build"
  | prepared => "prepare"
  | aligned => "horizontal alignment"
  | spaced => "x positioning"
  | systems => "system cast-off"
  | stacked => "vertical alignment"
  | paginated => "page cast-off"
  | justified => "justification"
  | finalized => "finalize"

end Stage

/-- The steps of a layout that need an earlier one. -/
inductive Step where
  | alignment
  | spacing
  | systemBreaking
  | stacking
  | pageBreaking
  | horizontalFilling
  | verticalFilling
  | placement
  | display
deriving DecidableEq, Repr

namespace Step

/-- The stage that a step needs. -/
def required : Step → Stage
  | alignment => .prepared
  | spacing => .aligned
  | systemBreaking => .spaced
  | stacking => .systems
  | pageBreaking => .stacked
  | horizontalFilling => .paginated
  | verticalFilling => .paginated
  | placement => .justified
  | display => .finalized

/-- The name of a step inside a message. -/
def name : Step → String
  | alignment => "horizontal alignment"
  | spacing => "x positioning"
  | systemBreaking => "system cast-off"
  | stacking => "vertical alignment"
  | pageBreaking => "page cast-off"
  | horizontalFilling => "horizontal justification"
  | verticalFilling => "vertical justification"
  | placement => "finalize"
  | display => "display list"

end Step

/-- Why a step could not run to its end. -/
inductive Fault where
  /-- The document has not reached the stage that the step needs. -/
  | tooEarly (step : Step) (reached : Stage)
  /-- A time grid is not ready for what the step asks of it. -/
  | grid (fault : GridFault)
  /-- The step needs a node that the document does not hold. -/
  | missingNode
  /-- The step would put a node under a parent that does not take it. -/
  | misplacedNode
  /-- A computation with times breaks down. -/
  | breakdown
deriving DecidableEq, Repr

/-- The wording of a fault, where it has one. -/
def Fault.message? : Fault → Option String
  | tooEarly step reached =>
    some (step.name ++ " requires " ++ step.required.name ++ " to have run (document is at '"
      ++ reached.name ++ "')")
  | grid fault => fault.message?
  | missingNode | misplacedNode | breakdown => none

/-- The fault of a step that needs a later stage than the one reached. -/
def Step.fault? (step : Step) (reached : Stage) : Option Fault :=
  if step.required ≤ reached then none else some (.tooEarly step reached)

end ScoreLayout
