import ScoreLayout.Layout.Outcome

/-!
# Preparation

Before a layout, whatever an earlier one has left on the nodes is cleared, and the control elements
are tied to the symbols they name. A control element that cannot be placed is left out of the layout
and reported.

## Main definitions

* `Node.reset` — a node without the results of a layout.
* `Document.resolveAnchor` — the symbol of the score with an identifier.
* `Document.anchor?` — what a control element is tied to, or the mark that says why to nothing.
* `Document.anchorControls` — all control elements of the score tied to their symbols.
-/

namespace ScoreLayout

variable {α : Type} [Scalar α]

/-- A kind of node without the results of a layout. -/
def NodeKind.reset : NodeKind α → NodeKind α
  | .measure m => .measure { m with grid := .empty, x := 0 }
  | .system _ => .system .empty
  | .page _ => .page .empty
  | k => k

/-- A node without the results of a layout. -/
def Node.reset (n : Node α) : Node α :=
  { n with kind := n.kind.reset, box := .zero, dirty := false, layout := .empty }

namespace Document

/-- The score without the results of a layout. -/
def reset (d : Document α) : Document α := d.withScore (d.score.map Node.reset)

end Document

/-- Why an identifier names no symbol of the score. -/
inductive AnchorError where
  | missing
  /-- The node is detached. -/
  | detached
  | notAnElement
deriving DecidableEq, Repr

/-- The wording of the reason. -/
def AnchorError.message : AnchorError → String
  | missing => "does not exist"
  | detached => "was removed from the score"
  | notAnElement => "is not a layer element"

namespace Document

omit [Scalar α] in
/-- The symbol of the score with an identifier. -/
def resolveAnchor (d : Document α) (id : String) : Except AnchorError Handle :=
  match d.trees.find? (hasId id) with
  | none => .error .missing
  | some n =>
    if ¬ d.isLive n.handle then .error .detached
    else if n.tag ≠ .element then .error .notAnElement
    else .ok n.handle

/-- The mark on a control element whose start or end names no symbol. -/
def danglingMark (name id side target : String) (e : AnchorError) : Mark :=
  .warning id .danglingAnchor
    (name ++ " '" ++ id ++ "': " ++ side ++ " anchor '" ++ target ++ "' " ++ e.message)

omit [Scalar α] in
/-- The start and the end of a control element, as far as it names some. A time-stamp counts only
directly below a measure. -/
def anchor? (d : Document α) (inMeasure : Bool) (id : String) (c : Control α) :
    Except Mark (Option Handle × Option Handle) := do
  let start ←
    match c.point.startId, c.point.tstamp with
    | some target, _ =>
      match d.resolveAnchor target with
      | .ok h => pure (some h)
      | .error e => .error (danglingMark c.name id "start" target e)
    | none, some _ =>
      if inMeasure then pure none
      else
        .error (.warning id .unresolvedTstamp
          (c.name ++ " '" ++ id ++ "': time-stamp outside of a measure"))
    | none, none =>
      .error (.warning id .unanchoredControl
        (c.name ++ " '" ++ id ++ "': no anchor and no time-stamp"))
  let stop ←
    match c.span?.bind TimeSpan.endId with
    | some target =>
      match d.resolveAnchor target with
      | .ok h => pure (some h)
      | .error e => .error (danglingMark c.name id "end" target e)
    | none => pure none
  return (start, stop)

omit [Scalar α] in
/-- A control element tied to its symbols, or left out, with the marks so far. -/
def anchorNode (d : Document α) (marks : List Mark) (parent : Option (Node α)) (n : Node α)
    (c : Control α) : List Mark × Node α :=
  let inMeasure := (parent.map fun p => decide (p.tag = .measure)).getD false
  match d.anchor? inMeasure n.id c with
  | .ok (start, stop) =>
    (marks, n.mapLayout fun l =>
      { l with startAnchor := start <|> l.startAnchor, endAnchor := stop <|> l.endAnchor })
  | .error mark =>
    (marks ++ [mark], n.mapLayout fun l =>
      { l with startAnchor := none, endAnchor := none, omitted := true })

omit [Scalar α] in
/-- The pass that ties the control elements of a document to their symbols. -/
def anchorPass (d : Document α) : Pass (List Mark) (Node α) where
  enter marks parent n :=
    match n.kind with
    | .control c =>
      let (marks, n) := d.anchorNode marks parent n c
      (marks, n, .skipChildren)
    | .layer _ => (marks, n, .skipChildren)
    | _ => (marks, n, .proceed)

omit [Scalar α] in
/-- The document with its control elements tied to their symbols, and a mark for each that is left
out. -/
def anchorControls (d : Document α) : List Mark × Document α :=
  let (marks, score, _) := d.score.run d.anchorPass []
  (marks, d.withScore score)

/-- The document prepared for a layout. -/
def prepare (d : Document α) : Outcome α :=
  match d.unbreak? with
  | .error f => .failed d [] f
  | .ok d =>
    let (marks, d) := d.reset.anchorControls
    .done { d with stage := .prepared } marks

end Document

end ScoreLayout
