import ScoreLayout.Layout.Outcome
import ScoreLayout.Metrics
import ScoreLayout.Options

/-!
# Breaking into systems

The measures are distributed over systems from left to right: a measure opens a new system where a
written break asks for it, or where it does not fit beside the measures before it. What stands
between two measures goes with the second one. A measure that is too wide stands alone and is
reported.

## Main definitions

* `definitionWidth` — the width of the signatures that a system begins with.
* `BreakItem` — a measure, a break or something else, as breaking sees it.
* `SystemPlan`, `Breaking.step` — the measures of one system, and the left-to-right pass.
* `planSystems` — the systems of a list of items.
* `Document.breakSystems` — the measures distributed over systems.
-/

namespace ScoreLayout

variable {α : Type} [Scalar α]

/-- Widths and heights are compared with this tolerance. -/
def fitTolerance : α := 1e-6

/-- The width of the signatures that a system begins with: the widest clef of a visible staff, the
key if it has a width, and the meter where asked for, with a unit around each. -/
def definitionWidth (definition : ScoreDefinition) (metrics : GlyphMetrics α) (unit : α)
    (signatures : Signatures) (withMeter : Bool) : α :=
  let clefWidth := fun (n : UInt32) => metrics.clefWidth (signatures.clef n) unit
  let visible := (definition.staves.filter fun s => ¬ s.hidden).map fun s => clefWidth s.n
  let clef :=
    match visible with
    | [] => clefWidth 1
    | first :: others => others.foldl Scalar.max first
  let key := metrics.keyWidth signatures.key unit
  let width := unit + clef + unit
  let width := if 0 < key then width + (key + unit) else width
  if withMeter then width + (metrics.meterWidth signatures.meter unit + unit) else width

/-- A child of the unbroken content, as breaking sees it. -/
inductive BreakItem (α : Type) where
  /-- A measure of some width, with the width of the signatures that a system starting with it would
  begin with, with or without the meter. -/
  | measure (h : Handle) (width : α) (opening : (withMeter : Bool) → α)
  | systemBreak (h : Handle)
  | pageBreak (h : Handle)
  | other (h : Handle)

/-- The rules by which systems are broken. -/
structure BreakRules (α : Type) where
  mode : BreakMode
  /-- The width of a whole system, absent where it has no end. -/
  available : Option α
  smartFill : α
  noWidow : Bool

/-- The measures of one system, and what goes with them. -/
structure SystemPlan (α : Type) where
  nodes : List Handle
  measures : List Handle
  measuresWidth : α
  definitionWidth : α
  /-- Whether the system has been started by a written break. -/
  forced : Bool

/-- A system without measures. -/
def SystemPlan.empty (forced : Bool) : SystemPlan α := ⟨[], [], 0, 0, forced⟩

namespace BreakRules

omit [Scalar α] in
/-- Whether the mode breaks where a measure does not fit. -/
def byWidth (r : BreakRules α) : Bool := r.mode = .auto ∨ r.mode = .line ∨ r.mode = .smart

/-- Whether measures of a total width fit a system with the given signatures. -/
def fits (r : BreakRules α) (measuresWidth definitionWidth : α) : Bool :=
  match r.available with
  | some width => measuresWidth ≤ width - definitionWidth + fitTolerance
  | none => true

/-- Whether the plan is full enough for a written system break to count. -/
def isFull (r : BreakRules α) (p : SystemPlan α) : Bool :=
  match r.available with
  | some width => r.smartFill * width ≤ p.definitionWidth + p.measuresWidth
  | none => false

/-- Whether a written system break forces a new system. -/
def honoursBreak (r : BreakRules α) (p : SystemPlan α) : Bool :=
  match r.mode with
  | .unbroken => false
  | .smart => r.isFull p
  | .auto | .line | .encoded => true

/-- Whether the system holds a single measure that is too wide for it. -/
def overflows (r : BreakRules α) (p : SystemPlan α) : Bool :=
  match r.available with
  | some width =>
    p.measures.length = 1 ∧ width - p.definitionWidth + fitTolerance < p.measuresWidth
  | none => false

end BreakRules

/-- The running state of breaking. -/
structure Breaking (α : Type) where
  /-- The systems that are complete. -/
  complete : List (SystemPlan α)
  current : SystemPlan α
  /-- What waits for the next measure. -/
  pending : List Handle
  /-- Whether the next measure has to open a system. -/
  forced : Bool

namespace Breaking

/-- Nothing placed yet. -/
def start : Breaking α := ⟨[], .empty false, [], false⟩

/-- The state with the current system closed, if the next measure opens a new one. -/
def breakBefore (r : BreakRules α) (s : Breaking α) (width : α) : Breaking α :=
  let fits := r.fits (s.current.measuresWidth + width) s.current.definitionWidth
  if ¬ s.current.measures.isEmpty ∧ (s.forced ∨ (r.byWidth ∧ ¬ fits)) then
    { s with complete := s.complete ++ [s.current], current := .empty s.forced }
  else s

/-- The state with a measure in the current system. -/
def place (s : Breaking α) (h : Handle) (width : α) (opening : Bool → α) : Breaking α :=
  let p := s.current
  let current : SystemPlan α :=
    { p with
      nodes := p.nodes ++ s.pending ++ [h]
      measures := p.measures ++ [h]
      measuresWidth := p.measuresWidth + width
      definitionWidth :=
        if p.measures.isEmpty then opening s.complete.isEmpty else p.definitionWidth }
  { s with current, pending := [], forced := false }

/-- The next item from the left. -/
def step (r : BreakRules α) (s : Breaking α) : BreakItem α → Breaking α
  | .measure h width opening => (s.breakBefore r width).place h width opening
  | .systemBreak h => { s with pending := s.pending ++ [h], forced := r.honoursBreak s.current }
  | .pageBreak h =>
    { s with pending := s.pending ++ [h], forced := s.forced ∨ r.mode ≠ .unbroken }
  | .other h => { s with pending := s.pending ++ [h] }

omit [Scalar α] in
/-- The systems at the end, the last with what has waited in vain. -/
def finish (s : Breaking α) : List (SystemPlan α) :=
  let last := { s.current with nodes := s.current.nodes ++ s.pending }
  if ¬ last.nodes.isEmpty ∨ s.complete.isEmpty then s.complete ++ [last] else s.complete

end Breaking

/-- Two neighbouring systems joined. -/
def SystemPlan.join (a b : SystemPlan α) : SystemPlan α :=
  { a with
    nodes := a.nodes ++ b.nodes
    measures := a.measures ++ b.measures
    measuresWidth := a.measuresWidth + b.measuresWidth }

/-- The systems with a lone last measure joined to the system before it, unless a written break has
put it there. -/
def joinWidow : List (SystemPlan α) → List (SystemPlan α)
  | [] => []
  | [p] => [p]
  | [p, last] =>
    if last.measures.length = 1 ∧ ¬ last.forced then [p.join last] else [p, last]
  | p :: rest => p :: joinWidow rest

/-- The systems of a list of items. -/
def planSystems (r : BreakRules α) (items : List (BreakItem α)) : List (SystemPlan α) :=
  let plans := (items.foldl (Breaking.step r) .start).finish
  if r.noWidow ∧ r.byWidth then joinWidow plans else plans

/-- The rules that options give. -/
def LayoutOptions.breakRules (o : LayoutOptions α) : BreakRules α :=
  ⟨o.breaks, o.contentWidth?, o.smartFill, o.noWidow⟩

/-- A child of the unbroken content as an item. -/
def BreakItem.ofNode (definition : ScoreDefinition) (metrics : GlyphMetrics α) (unit : α)
    (n : Node α) : BreakItem α :=
  match n.kind with
  | .measure m =>
    .measure n.handle m.width (definitionWidth definition metrics unit m.signatures)
  | .systemBreak => .systemBreak n.handle
  | .pageBreak => .pageBreak n.handle
  | _ => .other n.handle

namespace Document

omit [Scalar α] in
/-- The mark on a measure that does not fit its system. -/
def overflowMark (d : Document α) (measure : Handle) : Mark :=
  let id := ((d.node? measure).map Node.id).getD ""
  .warning id .measureOverflow
    ("measure '" ++ id ++ "' does not fit the page width and overflows its system")

/-- The measures among nodes placed one after another, from `x` on. -/
def placeMeasures (d : Document α) : (x : α) → List Handle → Document α
  | _, [] => d
  | x, h :: rest =>
    match (d.node? h).bind fun n => n.kind.measure? with
    | some m =>
      (d.modify h fun n => n.mapKind (.mapMeasure fun m => { m with x })).placeMeasures
        (x + m.width) rest
    | none => d.placeMeasures x rest

/-- A planned system put on a page, under the number `k`. -/
def emitSystem (d : Document α) (page : Handle) (k : Nat) (overflow : Bool) (p : SystemPlan α) :
    Except Fault (Document α) := do
  let system : ScoreSystem α :=
    { ScoreSystem.empty with
      definitionWidth := p.definitionWidth, measuresWidth := p.measuresWidth, overflow }
  let (h, d) := d.insert page ("system-" ++ toString k) (.system system)
  let d ← d.reparentAll? p.nodes h
  return d.placeMeasures 0 p.nodes

/-- Planned systems put on a page, numbered from `k` on, with the marks on those that overflow. -/
def emitSystems (r : BreakRules α) (page : Handle) :
    Nat → List Mark → Document α → List (SystemPlan α) → Except Fault (List Mark × Document α)
  | _, marks, d, [] => .ok (marks, d)
  | k, marks, d, p :: rest =>
    if p.nodes.isEmpty then emitSystems r page (k + 1) marks d rest
    else do
      let overflow := r.overflows p
      let marks := if overflow then marks ++ p.measures.map d.overflowMark else marks
      emitSystems r page (k + 1) marks (← d.emitSystem page k overflow p) rest

/-- The content of the document distributed over systems. -/
def breakContent (d : Document α) (options : LayoutOptions α) (metrics : GlyphMetrics α) :
    Except Fault (List Mark × Document α) := do
  let d ← d.unbreak?
  let (content, d) := d.contentSystem
  let r := options.breakRules
  let items := (d.childNodes content).map
    (BreakItem.ofNode d.definition metrics options.scaledUnit)
  let page := (d.parent? content).getD root
  let (marks, d) ← emitSystems r page 1 [] d (planSystems r items)
  return (marks, { d.destroy content with stage := .systems })

/-- The document with its measures distributed over systems. -/
def breakSystems (d : Document α) (options : LayoutOptions α) (metrics : GlyphMetrics α) :
    Outcome α :=
  .guarded .systemBreaking d fun d =>
    match d.breakContent options metrics with
    | .ok (marks, d) => .done d marks
    | .error f => .failed d [] f

end Document

end ScoreLayout
