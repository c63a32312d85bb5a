import ScoreLayout.Decimal.Fixed
import ScoreLayout.Score.Document

/-!
# Editing a document

Nodes are added at the end of the children of a node that takes them, under an identifier that is
not in use. Every edit of the score takes the document back to the first stage of the layout.

## Main definitions

* `EditError` — why an edit was refused.
* `Document.add`, `Document.addNamed` — a further child, with a generated or a given identifier.
* `Document.remove`, `Document.detach` — a subtree taken out of the tree it is in.
* `Document.collect` — the end of everything detached.
* `Document.contentSystem` — the system that holds the content before it is broken.
* `Document.insert`, `Document.reparent?`, `Document.destroy` — the edits that the layout makes.
-/

namespace ScoreLayout

/-- Why an edit was refused. -/
inductive EditError where
  /-- No node has the handle. -/
  | unknownNode (h : Handle)
  | duplicateId (id : String)
  /-- A node of the first kind takes no child of the second. -/
  | invalidChild (parent child : String)
  | notAChild (parent child : Handle)
  | rootRemoval
deriving DecidableEq, Repr

/-- The wording of a handle inside a message. -/
def handleText (h : Handle) : String := "NodeId(" ++ toString h ++ ")"

/-- The wording of the reason. -/
def EditError.message : EditError → String
  | unknownNode h => "Unknown node handle: " ++ handleText h
  | duplicateId id => "Duplicate identifier: " ++ id
  | invalidChild parent child => "A " ++ parent ++ " cannot contain a " ++ child
  | notAChild parent child =>
    "Node " ++ handleText child ++ " is not a child of " ++ handleText parent
  | rootRemoval => "The document root cannot be removed"

namespace Document

variable {α : Type}

/-- The first number above `n`, of at most `fuel`, whose identifier is not in use. -/
def nextNumber (inUse : Nat → Bool) : (fuel n : Nat) → Nat
  | 0, n => n + 1
  | fuel + 1, n => if inUse (n + 1) then nextNumber inUse fuel (n + 1) else n + 1

/-- An identifier made of a name and a number of at least four digits. -/
def numberedId (name : String) (n : Nat) : String := name ++ "-" ++ Decimal.padded 10 4 n

/-- An identifier that is not in use, with the number it ends in. There are fewer nodes than numbers
tried. -/
def freshId (d : Document α) (name : String) : String × Nat :=
  let n := nextNumber (fun n => d.hasNodeWithId (numberedId name n)) d.size d.counter
  (numberedId name n, n)

/-- The handle for the next node, with the document that has given it out. -/
def allocate (d : Document α) : Handle × Document α :=
  match d.freed with
  | h :: rest => (h, { d with freed := rest })
  | [] => (d.capacity, { d with capacity := d.capacity + 1 })

/-- A further tree at the end of the children of a node. -/
def attach (d : Document α) (parent : Handle) (tree : Forest (Node α)) : Document α :=
  { d with trees := d.trees.graft (hasHandle parent) tree }

/-- A further child with a given identifier. -/
def addNamed [Scalar α] (d : Document α) (parent : Handle) (id : String) (kind : NodeKind α) :
    Except EditError (Handle × Document α) :=
  match d.node? parent with
  | none => .error (.unknownNode parent)
  | some p =>
    if ¬ p.kind.accepts kind then .error (.invalidChild p.name kind.name)
    else if d.hasNodeWithId id then .error (.duplicateId id)
    else
      let (h, d) := d.allocate
      let d := (d.attach parent (.tree (.new h id kind) .nil)).markDirty parent
      .ok (h, { d with stage := .built })

/-- A further child with a generated identifier. The number of the identifier is used up even when
the child is refused. -/
def add [Scalar α] (d : Document α) (parent : Handle) (kind : NodeKind α) :
    Except EditError Handle × Document α :=
  let (id, counter) := d.freshId kind.name
  let d := { d with counter }
  match d.addNamed parent id kind with
  | .ok (h, d) => (.ok h, d)
  | .error e => (.error e, d)

/-- The document with the tree at a node detached. -/
def cut (d : Document α) (h : Handle) : Document α :=
  match d.trees.prune? (hasHandle h) with
  | some ((n, children), trees) => { d with trees := trees ++ .tree n children }
  | none => d

/-- The child of a node taken out of its tree. -/
def remove (d : Document α) (parent child : Handle) : Except EditError (Document α) :=
  if (d.node? child).isNone then .error (.unknownNode child)
  else if (d.node? parent).isNone then .error (.unknownNode parent)
  else if child ∉ d.children parent then .error (.notAChild parent child)
  else .ok { (d.cut child).markDirty parent with stage := .built }

/-- A node taken out of the tree it is in. -/
def detach (d : Document α) (h : Handle) : Except EditError (Document α) :=
  if h = root then .error .rootRemoval
  else if (d.node? h).isNone then .error (.unknownNode h)
  else
    match d.parent? h with
    | some parent => d.remove parent h
    | none => .ok d

/-- A handle given back. -/
def release (d : Document α) (h : Handle) : Document α := { d with freed := h :: d.freed }

/-- The document without its detached trees, with the number of nodes that are gone. Their handles
are freed in ascending order. -/
def collect (d : Document α) : Nat × Document α :=
  let dead := (d.trees.rest.toList.map Node.handle).mergeSort
  (dead.length, dead.foldl release { d with trees := d.trees.first })

/-- The first of `base`, `base-2`, `base-3` and so on that is not in use. -/
def suffixedId (d : Document α) (base : String) : String :=
  if d.hasNodeWithId base then
    let numbered := fun (n : Nat) => base ++ "-" ++ toString n
    numbered (nextNumber (fun n => d.hasNodeWithId (numbered n)) d.size 1)
  else base

/-- A further child made by the layout, under a base identifier or one with a number after it. -/
def insert [Scalar α] (d : Document α) (parent : Handle) (base : String) (kind : NodeKind α) :
    Handle × Document α :=
  let id := d.suffixedId base
  let (h, d) := d.allocate
  (h, d.attach parent (.tree (.new h id kind) .nil))

/-- The node with an identifier, if it belongs to the score. -/
def findLive? (d : Document α) (id : String) : Option Handle :=
  (d.find? id).filter fun h => d.isLive h

/-- The system that holds the content before it is broken, made if there is none. -/
def contentSystem [Scalar α] (d : Document α) : Handle × Document α :=
  match d.findLive? contentSystemId with
  | some system => (system, d)
  | none =>
    let (page, d) :=
      match d.findLive? contentPageId with
      | some page => (page, d)
      | none => d.insert root contentPageId (.page .empty)
    d.insert page contentSystemId (.system .empty)

/-- A node moved to the end of the children of another, if that takes it. -/
def reparent? (d : Document α) (h parent : Handle) : Except Fault (Document α) := do
  let some n := d.node? h | .error .missingNode
  let some p := d.node? parent | .error .missingNode
  if ¬ p.kind.accepts n.kind then .error .misplacedNode
  else
    match d.trees.prune? (hasHandle h) with
    | some ((n, children), trees) =>
      return { d with trees := trees.graft (hasHandle parent) (.tree n children) }
    | none => .error .missingNode

/-- Several nodes moved to the end of the children of another. -/
def reparentAll? (d : Document α) (nodes : List Handle) (parent : Handle) :
    Except Fault (Document α) :=
  nodes.foldlM (fun d h => d.reparent? h parent) d

/-- The document without a node; what was below it is detached. -/
def destroy (d : Document α) (h : Handle) : Document α :=
  match d.trees.prune? (hasHandle h) with
  | some ((_, children), trees) => release { d with trees := trees ++ children } h
  | none => d

end Document

end ScoreLayout
