import ScoreLayout.Layout.Outcome
import ScoreLayout.Options

/-!
# Filling lines and pages

The gaps of every system are stretched or compressed until its measures fill the width of the page.
The free height of a page is spread over the gaps between its systems and between their staves, in
proportion to the weights of the two kinds of gaps.

## Main definitions

* `fillRatio` — how much a system has to be stretched.
* `Document.fillSystem` — one system stretched to a width.
* `Document.fillPage` — one page stretched to a height.
* `Document.fillLines`, `Document.fillPages` — all systems, and all pages.
-/

namespace ScoreLayout

variable {α : Type} [Scalar α]

/-- The width that a system has to fill, in relation to its natural width. -/
def fillRatio (target natural : α) : α := if natural ≤ 0 then 1 else target / natural

/-- Whether a last system that would be stretched by `ratio` stays as it is. -/
def LayoutOptions.leavesLast (o : LayoutOptions α) (ratio : α) : Bool :=
  0 < o.minLastFill ∧ 1 / o.minLastFill < ratio

namespace Document

omit [Scalar α] in
/-- The measures of a system, each with its handle. -/
def measuresOf (d : Document α) (system : Handle) : List (Handle × Measure α) :=
  (d.childNodes system).filterMap fun n => n.kind.measure?.map fun m => (n.handle, m)

/-- Measures placed one after another from `x` on, each with its share of the gaps; with the end of
the last. -/
def fillMeasures (d : Document α) (x : α) (gaps : List (Gap α)) :
    List (Handle × Measure α) → Except Fault (α × Document α)
  | [] => .ok (x, d)
  | (h, m) :: rest =>
    let count := m.grid.gaps.length
    match m.grid.applyGaps (gaps.take count) with
    | .ok grid =>
      let m := { m with grid, x }
      (d.modify h fun n => { n with kind := .measure m }).fillMeasures (x + m.width)
        (gaps.drop count) rest
    | .error f => .error (.grid f)

/-- A system with its measures stretched to `available` less what it begins with. A system that
overflows or has no width stays as it is, and so may the last. -/
def fillSystem (d : Document α) (options : LayoutOptions α) (available : α) (isLast : Bool)
    (n : Node α) : Except Fault (Document α) :=
  match n.kind.system? with
  | none => .ok d
  | some s =>
    let natural := s.measuresWidth
    let target := available - s.definitionWidth
    if s.overflow ∨ natural ≤ 0 then .ok d
    else if isLast ∧ options.leavesLast (fillRatio target natural) then .ok d
    else do
      let measures := d.measuresOf n.handle
      let gaps := measures.flatMap fun (_, m) => m.grid.gaps
      let (gaps, _) := Gap.distribute gaps (target - natural)
      let (x, d) ← d.fillMeasures 0 gaps measures
      return d.modify n.handle fun n =>
        n.mapKind (.mapSystem fun s => { s with measuresWidth := x })

/-- Systems stretched to a width; the last of the list is the last of the score. -/
def fillSystems (d : Document α) (options : LayoutOptions α) (available : α) :
    List (Node α) → Except Fault (Document α)
  | [] => .ok d
  | n :: rest => do
    (← d.fillSystem options available rest.isEmpty n).fillSystems options available rest

/-- The document with its systems stretched to the width of the page, where the options ask for
it. The stage stays, since pages are filled in the same stage. -/
def fillLines (d : Document α) (options : LayoutOptions α) : Outcome α :=
  .guarded .horizontalFilling d fun d =>
    match options.contentWidth? with
    | none => .done d []
    | some available =>
      if options.justifyHorizontally then
        .ofExcept d [] (d.fillSystems options available d.systems)
      else .done d []

omit [Scalar α] in
/-- The number of gaps between the visible staves of a system. -/
def staffGaps (n : Node α) : Nat := (n.kind.system?.map fun s => s.stack.gapCount).getD 0

/-- Systems moved down by `shift`, which grows by the weight of every gap above, times `share`; with
the last shift. -/
def spreadSystems (options : LayoutOptions α) (share : α) :
    (first : Bool) → (shift : α) → List (Node α) → Document α → α × Document α
  | _, shift, [], d => (shift, d)
  | first, shift, n :: rest, d =>
    let shift := if first then shift else shift + share * options.systemWeight
    let d := d.modify n.handle fun n => n.mapKind (.mapSystem fun s =>
      { s with y := s.y + shift, stack := s.stack.justify (share * options.staffWeight) })
    spreadSystems options share false
      (shift + Scalar.ofNat (staffGaps n) * share * options.staffWeight) rest d

/-- The total weight of the gaps of systems on one page. -/
def gapWeight (options : LayoutOptions α) (systems : List (Node α)) : α :=
  Scalar.ofNat (systems.length - 1) * options.systemWeight
    + Scalar.ofNat (systems.foldl (fun n s => n + staffGaps s) 0) * options.staffWeight

/-- A page with its free height spread over its gaps. A last page with much free height stays as it
is. -/
def fillPage (d : Document α) (options : LayoutOptions α) (available : α) (isLast : Bool)
    (n : Node α) : Document α :=
  match n.kind.page? with
  | none => d
  | some p =>
    let free := available - p.contentHeight
    if free ≤ 0 ∨ available ≤ 0 then d
    else if isLast ∧ options.maxVertical ≤ free / available then d
    else
      let systems := d.childNodes n.handle
      let total := gapWeight options systems
      if total ≤ 0 then d
      else
        let (shift, d) := spreadSystems options (free / total) true 0 systems d
        d.modify n.handle fun n =>
          n.mapKind (.mapPage fun p => { p with contentHeight := p.contentHeight + shift })

/-- Pages with their free height spread; the last of the list is the last of the score. -/
def spreadPages (d : Document α) (options : LayoutOptions α) (available : α) :
    List (Node α) → Document α
  | [] => d
  | n :: rest =>
    (d.fillPage options available rest.isEmpty n).spreadPages options available rest

/-- The document with its pages filled, where the options ask for it. -/
def fillPages (d : Document α) (options : LayoutOptions α) : Outcome α :=
  .guarded .verticalFilling d fun d =>
    let d :=
      if options.vertical = .fill then d.spreadPages options options.contentHeight d.pages else d
    .done { d with stage := .justified } []

end Document

end ScoreLayout
