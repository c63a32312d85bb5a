import ScoreLayout.Geometry.Rect

/-!
# Boxes

A box is an anchor point with an optional footprint, a rectangle relative to the anchor. Two boxes
collide when their footprints overlap; a collision is resolved by moving one of them along an axis.

## Main definitions

* `Box` — the anchor and the footprint of something drawn.
* `Box.Overlaps` — overlap of two footprints with the interval on one axis widened by a margin.
* `Box.offsetToAvoid` — how far a box moves forward or backward to clear another.
-/

namespace ScoreLayout

/-- An anchor point with a footprint relative to it, absent when nothing is drawn. -/
structure Box (α : Type) where
  x : α
  y : α
  rect : Option (Rect α)
deriving DecidableEq, Repr

/-- The distances that clear a collision towards larger and towards smaller coordinates. -/
structure Offset (α : Type) where
  forward : α
  backward : α
deriving DecidableEq, Repr

namespace Offset

variable {α : Type} [Scalar α]

/-- No movement: the boxes do not collide. -/
def none : Offset α := ⟨0, 0⟩

/-- The signed movement of least size; backward is negative. -/
def minimal (o : Offset α) : α := if o.forward ≤ o.backward then o.forward else -o.backward

/-- Whether both distances are zero. -/
def IsNone (o : Offset α) : Prop :=
  (o.forward ≤ 0 ∧ 0 ≤ o.forward) ∧ (o.backward ≤ 0 ∧ 0 ≤ o.backward)

instance (o : Offset α) : Decidable o.IsNone := inferInstanceAs (Decidable (_ ∧ _))

end Offset

namespace Box

variable {α : Type} [Scalar α]

/-- A box that draws nothing. -/
def point (x y : α) : Box α := ⟨x, y, none⟩

/-- The box of nothing at the origin. -/
def zero : Box α := point 0 0

/-- The box of an absolute rectangle, anchored at its top left corner. -/
def ofBounds (r : Rect α) : Box α := ⟨r.x1, r.y1, some (r.translate (-r.x1) (-r.y1))⟩

omit [Scalar α] in
/-- The box with its anchor moved and its footprint kept. -/
def setAnchor (b : Box α) (x y : α) : Box α := { b with x, y }

/-- The footprint in absolute coordinates; of size zero at the anchor when there is none. -/
def bounds (b : Box α) : Rect α :=
  match b.rect with
  | some r => r.translate b.x b.y
  | none => Rect.ofCorners b.x b.y b.x b.y

/-- Whether the footprint has an area. -/
def HasContent (b : Box α) : Prop :=
  match b.rect with
  | some r => ¬ r.IsEmpty
  | none => False

instance (b : Box α) : Decidable b.HasContent := by
  unfold HasContent
  split <;> infer_instance

/-- Both boxes have content, and their footprints share an area once the interval of the second on
`axis` is widened by `margin`. Touching edges share none. -/
def Overlaps (a b : Box α) (axis : Axis) (margin : α) : Prop :=
  (a.HasContent ∧ b.HasContent) ∧
    ¬ ((a.bounds.span axis).2 ≤ (b.bounds.span axis).1 - margin ∨
      (b.bounds.span axis).2 + margin ≤ (a.bounds.span axis).1) ∧
    (b.bounds.span axis.other).1 < (a.bounds.span axis.other).2 ∧
    (a.bounds.span axis.other).1 < (b.bounds.span axis.other).2

instance (a b : Box α) (axis : Axis) (margin : α) : Decidable (a.Overlaps b axis margin) :=
  inferInstanceAs (Decidable (_ ∧ _))

/-- The movements of `a` along `axis` that keep `margin` between it and `b`. -/
def offsetToAvoid (a b : Box α) (axis : Axis) (margin : α) : Offset α :=
  if a.Overlaps b axis margin then
    let (aLow, aHigh) := a.bounds.span axis
    let (bLow, bHigh) := b.bounds.span axis
    ⟨Scalar.max (bHigh + margin - aLow) 0, Scalar.max (aHigh - (bLow - margin)) 0⟩
  else Offset.none

end Box

end ScoreLayout
