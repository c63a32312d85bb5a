import ScoreLayout.Score.Node
import ScoreLayout.Stage

/-!
# Documents

A document is a forest of nodes whose first tree is the score. Taking a subtree out of the score
only detaches it: it stays in the forest, and its identifiers resolve, until detached trees are
collected. Handles of nodes that are gone are given to new nodes, the last freed one first.

## Main definitions

* `Document` — the forest with the score definition and the stage of the layout.
* `Document.node?`, `Document.find?` — nodes by handle and by identifier.
* `Document.children`, `Document.parent?`, `Document.descendants` — the shape of the forest.
* `Document.measures`, `Document.systems`, `Document.pages` — the parts of the score.
-/

namespace ScoreLayout

/-- A score with its layout. -/
structure Document (α : Type) where
  /-- The score, and after it the detached trees. -/
  trees : Forest (Node α)
  /-- The number of handles ever given out. -/
  capacity : Nat
  /-- Handles that are free again, the next to be given out first. -/
  freed : List Handle
  /-- The number in the last generated identifier. -/
  counter : Nat
  /-- The clefs, key and meter at the start of the score. -/
  definition : ScoreDefinition
  stage : Stage

namespace Document

variable {α : Type}

/-- The handle of the root of the score. -/
def root : Handle := 0

/-- The identifier of the page that holds the unbroken content. -/
def contentPageId : String := "page-content"

/-- The identifier of the system that holds the unbroken content. -/
def contentSystemId : String := "system-content"

/-- A score without content. -/
def ofDefinition [Scalar α] (definition : ScoreDefinition) : Document α where
  trees := .tree (.new root "doc" .document) .nil
  capacity := 1
  freed := []
  counter := 0
  definition
  stage := .built

/-- The test for a handle. -/
def hasHandle (h : Handle) (n : Node α) : Bool := n.handle = h

/-- The test for an identifier. -/
def hasId (id : String) (n : Node α) : Bool := n.id = id

/-- The number of nodes, detached ones included. -/
def size (d : Document α) : Nat := d.trees.size

/-- Whether the score is its root alone and nothing is detached. -/
def isEmpty (d : Document α) : Bool := d.size ≤ 1

/-- The node with a handle. -/
def node? (d : Document α) (h : Handle) : Option (Node α) := d.trees.find? (hasHandle h)

/-- The handle of the node with an identifier. -/
def find? (d : Document α) (id : String) : Option Handle :=
  (d.trees.find? (hasId id)).map Node.handle

/-- Whether an identifier is in use. -/
def hasNodeWithId (d : Document α) (id : String) : Bool := (d.find? id).isSome

/-- The score alone. -/
def score (d : Document α) : Forest (Node α) := d.trees.first

/-- Whether a node belongs to the score. -/
def isLive (d : Document α) (h : Handle) : Bool := (d.score.find? (hasHandle h)).isSome

/-- The subtrees below a node. -/
def below (d : Document α) (h : Handle) : Forest (Node α) :=
  (d.trees.childrenOf? (hasHandle h)).getD .nil

/-- The nodes directly below a node. -/
def childNodes (d : Document α) (h : Handle) : List (Node α) := (d.below h).roots

/-- The handles directly below a node. -/
def children (d : Document α) (h : Handle) : List Handle := (d.childNodes h).map Node.handle

/-- The nodes above a node, the closest first. -/
def ancestors (d : Document α) (h : Handle) : List (Node α) :=
  (d.trees.ancestors? (hasHandle h)).getD []

/-- The node directly above a node. -/
def parentNode? (d : Document α) (h : Handle) : Option (Node α) := (d.ancestors h).head?

/-- The handle directly above a node. -/
def parent? (d : Document α) (h : Handle) : Option Handle := (d.parentNode? h).map Node.handle

/-- The position of a node among its siblings. -/
def childIndex? (d : Document α) (h : Handle) : Option Nat :=
  (d.parent? h).bind fun parent => (d.children parent).idxOf? h

/-- The closest node of a kind above a node. -/
def ancestorOfKind? (d : Document α) (h : Handle) (tag : NodeTag) : Option (Node α) :=
  (d.ancestors h).find? fun n => n.tag = tag

/-- The nodes below a node in document order. -/
def descendants (d : Document α) (h : Handle) : List (Node α) := (d.below h).unwind

/-- The tree at a node. -/
def treeAt? (d : Document α) (h : Handle) : Option (Forest (Node α)) :=
  (d.node? h).map fun n => .tree n (d.below h)

/-- The first node at or below a node that satisfies a test. -/
def findDescendant? (d : Document α) (h : Handle) (p : Node α → Bool) : Option (Node α) :=
  (d.treeAt? h).bind fun tree =>
    (tree.findFirst fun n => if p n then .stop else .proceed).found

/-- The nodes of the score of one kind, in document order. -/
def nodesOfKind (d : Document α) (tag : NodeTag) : List (Node α) :=
  (d.descendants root).filter fun n => n.tag = tag

/-- The pages of the score. -/
def pages (d : Document α) : List (Node α) := d.childNodes root

/-- The systems of the score over all pages. -/
def systems (d : Document α) : List (Node α) :=
  d.pages.flatMap fun page => d.childNodes page.handle

/-- The measures of the score. -/
def measures (d : Document α) : List (Node α) := d.nodesOfKind .measure

/-- The first measure with a number. -/
def measureByNumber? (d : Document α) (n : UInt32) : Option (Node α) :=
  (d.score.findFirst fun node =>
    match node.kind with
    | .measure m => if m.n = n then .stop else .skipChildren
    | _ => .proceed).found

/-- The document with a node changed. -/
def modify (d : Document α) (h : Handle) (f : Node α → Node α) : Document α :=
  { d with trees := d.trees.modify (hasHandle h) f }

/-- The document with its score changed and the detached trees kept. -/
def withScore (d : Document α) (score : Forest (Node α)) : Document α :=
  { d with trees := score ++ d.trees.rest }

/-- The document with a node marked as edited. -/
def markDirty (d : Document α) (h : Handle) : Document α :=
  d.modify h fun n => { n with dirty := true }

end Document

end ScoreLayout
