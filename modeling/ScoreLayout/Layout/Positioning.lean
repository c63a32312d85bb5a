import ScoreLayout.Layout.Outcome
import ScoreLayout.Options

/-!
# Ideal horizontal positions

The gaps of every time grid get their ideal widths. Width grows with time in relation to the longest
duration of the score.

## Main definitions

* `Document.longest` — the longest time by which a symbol moves its layer on.
* `Document.space` — the time grids with ideal positions.
-/

namespace ScoreLayout

variable {α : Type} [Scalar α]

omit [Scalar α] in
/-- Whether the duration of a node is that of a symbol: containers without a duration of their own
only span their content. -/
def Node.isTimed (n : Node α) : Bool :=
  match n.kind with
  | .element e => ¬ e.isContainer ∨ e.duration?.isSome
  | _ => false

omit [Scalar α] in
/-- The longest time by which a symbol of the score moves its layer on. -/
def Document.longest (d : Document α) : Fraction :=
  (((d.nodesOfKind .element).filter Node.isTimed).map fun n => n.layout.duration).foldl
    Fraction.max 0

/-- The pass that gives every time grid its ideal positions. -/
def spacingPass (p : Spacing α) : Pass (Option Fault) (Node α) where
  enter fault _ n :=
    match n.kind with
    | .measure m =>
      match m.grid.space p with
      | .ok grid => (fault, { n with kind := .measure { m with grid } }, .skipChildren)
      | .error f => (some (.grid f), n, .stop)
    | _ => (fault, n, .proceed)

/-- The document with ideal horizontal positions. -/
def Document.space (d : Document α) (options : LayoutOptions α) : Outcome α :=
  .guarded .spacing d fun d =>
    let (fault, score, _) := d.score.run (spacingPass (options.spacing d.longest)) none
    let d := d.withScore score
    match fault with
    | some f => .failed d [] f
    | none => .done { d with stage := .spaced } []

end ScoreLayout
