import ScoreLayout.Forest.Walk
import ScoreLayout.Layout.Outcome
import ScoreLayout.Options

/-!
# Display lists

A display list is what a layout hands to a renderer: pages with everything drawn on them at its
final position.

## Main definitions

* `DisplayList` — pages of systems of measures of symbols, with staves and control elements.
* `Document.displayList` — the display list of a finished layout.
* `DisplayList.elements`, `DisplayList.element?` — the symbols in document order, and one of them.
-/

namespace ScoreLayout

/-- A symbol at its place. -/
structure DisplayElement (α : Type) where
  id : String
  /-- The name of the kind of symbol. -/
  kind : String
  staff : Option UInt32
  x : α
  y : α
  /-- The footprint on the page, absent when nothing is drawn. -/
  bounds : Option (Rect α)

/-- A measure with its symbols. -/
structure DisplayMeasure (α : Type) where
  id : String
  n : UInt32
  bounds : Rect α
  elements : List (DisplayElement α)

/-- The lines of a staff. -/
structure DisplayStaff (α : Type) where
  n : UInt32
  y : α
  height : α
  hidden : Bool

/-- A control element at its place. -/
structure DisplayControl (α : Type) where
  id : String
  kind : String
  staff : Option UInt32
  bounds : Rect α

/-- A system with what is drawn in it. -/
structure DisplaySystem (α : Type) where
  /-- The position in reading order over all pages. -/
  index : Nat
  id : String
  bounds : Rect α
  definitionWidth : α
  staves : List (DisplayStaff α)
  measures : List (DisplayMeasure α)
  controls : List (DisplayControl α)

/-- A page with its systems. -/
structure DisplayPage (α : Type) where
  index : Nat
  id : String
  width : α
  height : α
  systems : List (DisplaySystem α)

/-- The pages of a score. -/
structure DisplayList (α : Type) where
  pages : List (DisplayPage α)

/-- A list with its last item changed. -/
def modifyLast {β : Type} (f : β → β) : List β → List β
  | [] => []
  | [b] => [f b]
  | b :: rest => b :: modifyLast f rest

namespace DisplayList

variable {α : Type}

/-- A display list without pages. -/
def empty : DisplayList α := ⟨[]⟩

/-- The systems of all pages. -/
def systems (l : DisplayList α) : List (DisplaySystem α) := l.pages.flatMap DisplayPage.systems

/-- The symbols of all pages in document order. -/
def elements (l : DisplayList α) : List (DisplayElement α) :=
  l.systems.flatMap fun s => s.measures.flatMap DisplayMeasure.elements

/-- The symbol with an identifier. -/
def element? (l : DisplayList α) (id : String) : Option (DisplayElement α) :=
  l.elements.find? fun e => e.id = id

/-- The list with its last page changed. -/
def onPage (f : DisplayPage α → DisplayPage α) (l : DisplayList α) : DisplayList α :=
  ⟨modifyLast f l.pages⟩

/-- The list with the last system of its last page changed. -/
def onSystem (f : DisplaySystem α → DisplaySystem α) : DisplayList α → DisplayList α :=
  onPage fun p => { p with systems := modifyLast f p.systems }

/-- The list with the last measure of its last system changed. -/
def onMeasure (f : DisplayMeasure α → DisplayMeasure α) : DisplayList α → DisplayList α :=
  onSystem fun s => { s with measures := modifyLast f s.measures }

variable [Scalar α]

/-- The lines of the staves of a system. -/
def stavesOf (n : Node α) (s : ScoreSystem α) : List (DisplayStaff α) :=
  s.stack.staves.map fun slot => ⟨slot.staff, n.box.y + slot.y, slot.height, slot.hidden⟩

/-- A symbol as it is drawn. -/
def ofElement (n : Node α) (e : Element) : DisplayElement α where
  id := n.id
  kind := e.name
  staff := n.layout.staff
  x := n.box.x
  y := n.box.y
  bounds := if n.box.HasContent then some n.box.bounds else none

/-- The list with what is drawn for a node; `systems` systems have been met before. -/
def add (options : LayoutOptions α) (l : DisplayList α) (systems : Nat) (n : Node α) :
    DisplayList α :=
  match n.kind with
  | .page _ =>
    ⟨l.pages ++ [⟨l.pages.length, n.id, options.pageWidth, options.pageHeight, []⟩]⟩
  | .system s =>
    let drawn : DisplaySystem α :=
      ⟨systems, n.id, n.box.bounds, s.definitionWidth, stavesOf n s, [], []⟩
    l.onPage fun p => { p with systems := p.systems ++ [drawn] }
  | .measure m =>
    l.onSystem fun s => { s with measures := s.measures ++ [⟨n.id, m.n, n.box.bounds, []⟩] }
  | .element e => l.onMeasure fun m => { m with elements := m.elements ++ [ofElement n e] }
  | .control c =>
    if n.layout.omitted ∨ ¬ n.box.HasContent then l
    else
      l.onSystem fun s =>
        { s with controls := s.controls ++ [⟨n.id, c.name, n.layout.staff, n.box.bounds⟩] }
  | _ => l

/-- The running state of collecting a display list. -/
structure Collecting (α : Type) where
  list : DisplayList α
  /-- The number of systems met. -/
  systems : Nat

/-- The visitor that collects a display list. -/
def collector (options : LayoutOptions α) : Visitor (Collecting α) (Node α) where
  enter s n :=
    let systems := match n.kind with
      | .system _ => s.systems + 1
      | _ => s.systems
    (⟨s.list.add options s.systems n, systems⟩,
      if n.tag = .control then .skipChildren else .proceed)

end DisplayList

/-- The display list of a document whose layout is finished. -/
def Document.displayList {α : Type} [Scalar α] (d : Document α) (options : LayoutOptions α) :
    Except Fault (DisplayList α) :=
  match Step.display.fault? d.stage with
  | some f => .error f
  | none => .ok (d.score.visit (DisplayList.collector options) ⟨.empty, 0⟩).1.list

end ScoreLayout
