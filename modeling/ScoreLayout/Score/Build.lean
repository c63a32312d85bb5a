import ScoreLayout.Score.Edit

/-!
# Building a document

Whole trees of nodes are added at once, each node before what is below it. The first refusal ends
the building.

## Main definitions

* `NodeDraft` — a node that is yet to be added.
* `Document.addDraft` — one node added, under its identifier or a generated one.
* `Document.grow` — a forest of nodes added.
-/

namespace ScoreLayout

variable {α : Type}

/-- A node that is yet to be added. -/
structure NodeDraft (α : Type) where
  /-- The identifier, generated when there is none. -/
  id : Option String
  kind : NodeKind α

/-- How far building has come. -/
structure Growth (α : Type) where
  document : Document α
  /-- The nodes added, in document order. -/
  added : List Handle
  /-- Why building has ended early. -/
  refused : Option EditError

namespace Document

variable [Scalar α]

/-- A further child of a node. -/
def addDraft (d : Document α) (parent : Handle) (draft : NodeDraft α) :
    Except EditError Handle × Document α :=
  match draft.id with
  | some id =>
    match d.addNamed parent id draft.kind with
    | .ok (h, d) => (.ok h, d)
    | .error e => (.error e, d)
  | none => d.add parent draft.kind

/-- Further trees below a node, one after another. -/
def growFrom (parent : Handle) : Forest (NodeDraft α) → Growth α → Growth α
  | .nil, g => g
  | .cons draft children siblings, g =>
    if g.refused.isSome then g
    else
      match g.document.addDraft parent draft with
      | (.ok h, d) =>
        let g := { g with document := d, added := g.added ++ [h] }
        growFrom parent siblings (growFrom h children g)
      | (.error e, d) => { g with document := d, refused := some e }

/-- The document with further trees below a node. -/
def grow (d : Document α) (parent : Handle) (drafts : Forest (NodeDraft α)) : Growth α :=
  growFrom parent drafts ⟨d, [], none⟩

end Document

end ScoreLayout
