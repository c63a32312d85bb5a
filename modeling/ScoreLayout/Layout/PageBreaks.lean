import ScoreLayout.Layout.SystemBreaks

/-!
# Breaking into pages

The systems are distributed over pages from top to bottom: a system opens a new page where a page
break is written before its first measure, or where it does not fit below the systems before it.
A system that is higher than the page is reported.

## Main definitions

* `SystemItem` — a system as page breaking sees it.
* `PagePlan`, `Paging.step` — the systems of one page, and the top-to-bottom pass.
* `planPages` — the pages of a list of systems.
* `Document.breakPages` — the systems distributed over pages.
-/

namespace ScoreLayout

variable {α : Type} [Scalar α]

/-- A system, as page breaking sees it. -/
structure SystemItem (α : Type) where
  handle : Handle
  id : String
  height : α
  /-- Whether a page break is written before its first measure. -/
  opensPage : Bool

/-- The rules by which pages are broken. -/
structure PageRules (α : Type) where
  mode : BreakMode
  /-- The height of a whole page. -/
  available : α
  /-- The distance between systems. -/
  spacing : α

namespace PageRules

omit [Scalar α] in
/-- Whether the mode puts everything on one page. -/
def isSinglePage (r : PageRules α) : Bool := r.mode = .unbroken ∨ r.mode = .line

/-- Whether a system does not fit below systems that end at `y`. -/
def isFull (r : PageRules α) (y height : α) : Bool :=
  r.available + fitTolerance < y + r.spacing + height

/-- Whether a system is higher than the page. -/
def overflows (r : PageRules α) (height : α) : Bool := r.available + fitTolerance < height

/-- Whether a system opens a new page after systems that end at `y`. -/
def breaksBefore (r : PageRules α) (y : α) (item : SystemItem α) : Bool :=
  ¬ r.isSinglePage ∧ (item.opensPage ∨ (r.mode ≠ .encoded ∧ r.isFull y item.height))

end PageRules

/-- The systems of one page with their distances below its top, and the end of the last. -/
structure PagePlan (α : Type) where
  systems : List (Handle × α)
  height : α

/-- The page with a further system at the bottom. -/
def PagePlan.add (p : PagePlan α) (spacing : α) (item : SystemItem α) : PagePlan α :=
  let y := if p.systems.isEmpty then 0 else p.height + spacing
  ⟨p.systems ++ [(item.handle, y)], y + item.height⟩

/-- The running state of page breaking. -/
structure Paging (α : Type) where
  /-- The pages that are complete. -/
  complete : List (PagePlan α)
  current : PagePlan α

namespace Paging

/-- Nothing placed yet. -/
def start : Paging α := ⟨[], ⟨[], 0⟩⟩

/-- The next system from the top. -/
def step (r : PageRules α) (s : Paging α) (item : SystemItem α) : Paging α :=
  if ¬ s.current.systems.isEmpty ∧ r.breaksBefore s.current.height item then
    ⟨s.complete ++ [s.current], PagePlan.add ⟨[], 0⟩ r.spacing item⟩
  else { s with current := s.current.add r.spacing item }

omit [Scalar α] in
/-- The pages at the end. -/
def finish (s : Paging α) : List (PagePlan α) :=
  if s.current.systems.isEmpty then s.complete else s.complete ++ [s.current]

end Paging

/-- The pages of a list of systems. -/
def planPages (r : PageRules α) (items : List (SystemItem α)) : List (PagePlan α) :=
  (items.foldl (Paging.step r) .start).finish

/-- The rules that options give. -/
def LayoutOptions.pageRules (o : LayoutOptions α) : PageRules α :=
  ⟨o.breaks, o.contentHeight, o.spacingSystem * o.scaledUnit⟩

/-- The mark on a system that does not fit its page. -/
def SystemItem.overflowMark (item : SystemItem α) : Mark :=
  .warning item.id .systemOverflow ("system '" ++ item.id ++ "' does not fit the page height")

namespace Document

omit [Scalar α] in
/-- Whether a page break is written before the first measure of a system. -/
def opensPage (d : Document α) (system : Handle) : Bool :=
  ((d.childNodes system).takeWhile fun n => n.tag ≠ .measure).any fun n => n.tag = .pageBreak

/-- A child of the unbroken page as an item. -/
def systemItem (d : Document α) (n : Node α) : SystemItem α where
  handle := n.handle
  id := n.id
  height := (n.kind.system?.map fun s => s.stack.height).getD 0
  opensPage := d.opensPage n.handle

omit [Scalar α] in
/-- The systems of a plan at their distances below the top of the page. -/
def placeSystems (d : Document α) (systems : List (Handle × α)) : Document α :=
  systems.foldl
    (fun d (h, y) => d.modify h fun n => n.mapKind (.mapSystem fun s => { s with y })) d

/-- A planned page added to the score, under the number `k`. -/
def emitPage (d : Document α) (k : Nat) (p : PagePlan α) : Except Fault (Document α) :=
  let (page, d) := (d.placeSystems p.systems).insert root ("page-" ++ toString k)
    (.page { contentHeight := p.height })
  d.reparentAll? (p.systems.map Prod.fst) page

/-- Planned pages added to the score, numbered from `k` on. -/
def emitPages : Nat → Document α → List (PagePlan α) → Except Fault (Document α)
  | _, d, [] => .ok d
  | k, d, p :: rest => do emitPages (k + 1) (← d.emitPage k p) rest

/-- The systems of the unbroken page distributed over pages. -/
def paginate (d : Document α) (options : LayoutOptions α) (content : Handle) : Outcome α :=
  let r := options.pageRules
  let items := (d.childNodes content).map d.systemItem
  let marks := (items.filter fun item => r.overflows item.height).map SystemItem.overflowMark
  .ofExcept d marks do
    let d ← emitPages 1 d (planPages r items)
    return { d.destroy content with stage := .paginated }

/-- The document with its systems distributed over pages. -/
def breakPages (d : Document α) (options : LayoutOptions α) : Outcome α :=
  .guarded .pageBreaking d fun d =>
    match d.findLive? contentPageId with
    | some content => d.paginate options content
    | none => .done { d with stage := .paginated } []

end Document

end ScoreLayout
