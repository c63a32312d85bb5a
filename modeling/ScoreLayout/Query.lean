import ScoreLayout.Score.Document

/-!
# Queries

What a document knows about the layout it carries. A query answers only once the layout has come to
the stage at which its answer holds.

## Main definitions

* `Document.position?` — where a node is drawn.
* `Document.timeOf?`, `Document.scoreTimeOf?` — when a symbol sounds.
* `Document.pageCount`, `Document.systemCount`, `Document.measuresInSystem` — the parts of the
  layout.
-/

namespace ScoreLayout

/-- Where a node is drawn on its page. -/
structure Position (α : Type) where
  x : α
  y : α
  bounds : Rect α

namespace Document

variable {α : Type}

/-- The node of the score with an identifier. -/
def liveNode? (d : Document α) (id : String) : Option (Node α) :=
  (d.trees.find? (hasId id)).filter fun n => d.isLive n.handle

/-- Where a node that is not left out is drawn, once positions are known. -/
def position? [Scalar α] (d : Document α) (id : String) : Option (Position α) :=
  if .finalized ≤ d.stage then
    ((d.liveNode? id).filter fun n => ¬ n.layout.omitted).map fun n =>
      ⟨n.box.x, n.box.y, n.box.bounds⟩
  else none

/-- The measures of the system at a position in reading order. -/
def measuresInSystem (d : Document α) (index : Nat) : List (Node α) :=
  match d.systems[index]? with
  | some system => (d.childNodes system.handle).filter fun n => n.tag = .measure
  | none => []

/-- The number of pages, zero before the layout has made them. -/
def pageCount (d : Document α) : Nat := if .paginated ≤ d.stage then d.pages.length else 0

/-- The number of systems, zero before the layout has made them. -/
def systemCount (d : Document α) : Nat := if .systems ≤ d.stage then d.systems.length else 0

/-- The time of a symbol since the start of its measure, once the time grids are filled. -/
def timeOf? (d : Document α) (id : String) : Option Fraction :=
  if .aligned ≤ d.stage then (d.liveNode? id).bind fun n => n.layout.onset else none

/-- The length of a measure, zero for any other node. -/
def lengthOf (n : Node α) : Fraction := (n.kind.measure?.map fun m => m.grid.maxTime).getD 0

/-- The total length of nodes, as long as it fits. -/
def totalLength? (nodes : List (Node α)) : Option Fraction :=
  nodes.foldlM (fun time n => time.add? (lengthOf n)) 0

/-- The measures before a measure of the score. -/
def measuresBefore? (d : Document α) (measure : Handle) : Option (List (Node α)) :=
  if d.measures.any (hasHandle measure) then
    some (d.measures.takeWhile fun m => m.handle ≠ measure)
  else none

/-- The time of a symbol since the start of the score, as long as it fits. -/
def scoreTimeOf? (d : Document α) (id : String) : Option Fraction := do
  let onset ← d.timeOf? id
  let n ← d.liveNode? id
  let measure ← d.ancestorOfKind? n.handle .measure
  let start ← totalLength? (← d.measuresBefore? measure.handle)
  start.add? onset

end Document

end ScoreLayout
