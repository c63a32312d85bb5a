import ScoreLayout.Forest.Walk
import ScoreLayout.Grid.Measure
import ScoreLayout.Music.Control
import ScoreLayout.Music.Element
import ScoreLayout.StaffStack

/-!
# Nodes of a score

A score is a tree of nodes: pages hold systems, systems hold measures and what stands between them,
measures hold staves and control elements, staves hold layers, and layers hold symbols. Besides its
content a node carries what the layout finds out about it.

## Main definitions

* `NodeKind` — the kinds of nodes with the content of each.
* `NodeKind.accepts` — which kinds of nodes a node takes as children.
* `LayoutState` — the results of the layout on a node.
* `Node` — a member of the tree, with its handle and its identifier.
-/

namespace ScoreLayout

/-- The number by which a node is referred to. -/
abbrev Handle := Nat

/-- The content of a page. -/
structure Page (α : Type) where
  /-- The height that its systems take. -/
  contentHeight : α

/-- The content of a system. -/
structure ScoreSystem (α : Type) where
  stack : StaffStack α
  /-- The top of the system, below the top margin. -/
  y : α
  /-- The width of the clefs, the key and the meter that the system begins with. -/
  definitionWidth : α
  measuresWidth : α
  /-- Whether the system is a single measure that is wider than the page. -/
  overflow : Bool

/-- The content of a measure. -/
structure Measure (α : Type) where
  n : UInt32
  grid : MeasureGrid α
  /-- The left edge, to the right of the content of the system. -/
  x : α
  leftBarLine : Option BarLineForm
  rightBarLine : BarLineForm
  /-- The signatures in force at its start. -/
  signatures : Signatures

/-- The content of a staff in one measure. -/
structure Staff where
  n : UInt32
  /-- A staff that is hidden in all measures of a system is hidden in the system. -/
  hidden : Bool
deriving DecidableEq, Repr

section Empty

variable {α : Type} [Scalar α]

/-- A page before layout. -/
def Page.empty : Page α := ⟨0⟩

/-- A system before layout. -/
def ScoreSystem.empty : ScoreSystem α := ⟨.empty, 0, 0, 0, false⟩

/-- A measure before layout, between no barline and a single one. -/
def Measure.ofNumber (n : UInt32) : Measure α := ⟨n, .empty, 0, none, .single, default⟩

/-- The width of the whole system. -/
def ScoreSystem.width (s : ScoreSystem α) : α := s.definitionWidth + s.measuresWidth

/-- The width of the measure. -/
def Measure.width (m : Measure α) : α := m.grid.width

end Empty

/-- The kinds of nodes. -/
inductive NodeKind (α : Type) where
  | document
  | page (page : Page α)
  | system (system : ScoreSystem α)
  | measure (measure : Measure α)
  | staff (staff : Staff)
  | layer (n : UInt32)
  | element (element : Element)
  | control (control : Control α)
  | change (change : DefinitionChange)
  | systemBreak
  | pageBreak

/-- A kind of node without its content. -/
inductive NodeTag where
  | document
  | page
  | system
  | measure
  | staff
  | layer
  | element
  | control
  | change
  | systemBreak
  | pageBreak
deriving DecidableEq, Repr

namespace NodeKind

variable {α : Type}

/-- The kind without its content. -/
def tag : NodeKind α → NodeTag
  | document => .document
  | page _ => .page
  | system _ => .system
  | measure _ => .measure
  | staff _ => .staff
  | layer _ => .layer
  | element _ => .element
  | control _ => .control
  | change _ => .change
  | systemBreak => .systemBreak
  | pageBreak => .pageBreak

/-- The name of the kind, as it appears in identifiers and messages. -/
def name : NodeKind α → String
  | document => "doc"
  | page _ => "page"
  | system _ => "system"
  | measure _ => "measure"
  | staff _ => "staff"
  | layer _ => "layer"
  | element e => e.name
  | control c => c.name
  | change _ => "scoreDef"
  | systemBreak => "sb"
  | pageBreak => "pb"

/-- Whether a node may have a child of another kind. -/
def accepts : NodeKind α → NodeKind α → Bool
  | document, page _ => true
  | page _, system _ => true
  | system _, measure _ | system _, systemBreak | system _, pageBreak | system _, change _
  | system _, control _ => true
  | measure _, staff _ | measure _, control _ => true
  | staff _, layer _ => true
  | layer _, element _ => true
  | element parent, element child => parent.accepts child
  | _, _ => false

/-- The symbol of a node that is one. -/
def element? : NodeKind α → Option Element
  | element e => some e
  | _ => none

/-- The control element of a node that is one. -/
def control? : NodeKind α → Option (Control α)
  | control c => some c
  | _ => none

/-- The measure of a node that is one. -/
def measure? : NodeKind α → Option (Measure α)
  | measure m => some m
  | _ => none

/-- The system of a node that is one. -/
def system? : NodeKind α → Option (ScoreSystem α)
  | system s => some s
  | _ => none

/-- The page of a node that is one. -/
def page? : NodeKind α → Option (Page α)
  | page p => some p
  | _ => none

/-- Whether the node is a symbol that groups others. -/
def isContainer (k : NodeKind α) : Bool := (k.element?.map Element.isContainer).getD false

/-- The kind with its measure changed, if it is one. -/
def mapMeasure (f : Measure α → Measure α) : NodeKind α → NodeKind α
  | measure m => measure (f m)
  | k => k

/-- The kind with its system changed, if it is one. -/
def mapSystem (f : ScoreSystem α → ScoreSystem α) : NodeKind α → NodeKind α
  | system s => system (f s)
  | k => k

/-- The kind with its page changed, if it is one. -/
def mapPage (f : Page α → Page α) : NodeKind α → NodeKind α
  | page p => page (f p)
  | k => k

end NodeKind

/-- What the layout finds out about a node. -/
structure LayoutState (α : Type) where
  /-- The time since the start of the measure. -/
  onset : Option Fraction
  /-- The time by which the layer moves on. -/
  duration : Fraction
  /-- The slot of the time grid. -/
  slot : Option SlotKey
  /-- The staff that the node is drawn on. -/
  staff : Option UInt32
  /-- The anchor, below the top line of the staff. -/
  y : α
  /-- The symbols that a control element belongs to. -/
  startAnchor : Option Handle
  endAnchor : Option Handle
  /-- Whether the node is left out of the layout. -/
  omitted : Bool

/-- Nothing found out yet. -/
def LayoutState.empty {α : Type} [Scalar α] : LayoutState α :=
  ⟨none, 0, none, none, 0, none, none, false⟩

/-- A member of the tree. -/
structure Node (α : Type) where
  handle : Handle
  id : String
  kind : NodeKind α
  box : Box α
  /-- Whether the node has been edited since the last layout. -/
  dirty : Bool
  layout : LayoutState α

namespace Node

variable {α : Type}

/-- A node as it is added. -/
def new [Scalar α] (handle : Handle) (id : String) (kind : NodeKind α) : Node α :=
  ⟨handle, id, kind, .zero, true, .empty⟩

/-- The kind without its content. -/
def tag (n : Node α) : NodeTag := n.kind.tag

/-- The name of the kind. -/
def name (n : Node α) : String := n.kind.name

/-- The node with its kind changed. -/
def mapKind (f : NodeKind α → NodeKind α) (n : Node α) : Node α := { n with kind := f n.kind }

/-- The node with its layout state changed. -/
def mapLayout (f : LayoutState α → LayoutState α) (n : Node α) : Node α :=
  { n with layout := f n.layout }

end Node

end ScoreLayout
