import ScoreLayout.Scalar

/-!
# Rectangles

Axis-parallel rectangles in a plane whose vertical coordinate grows downwards.

## Main definitions

* `Rect` — the coordinates of two opposite edges on both axes.
* `Rect.ofCorners`, `Rect.ofOrigin` — a rectangle from two corners, or from one corner and a size.
* `Rect.union` — the smallest rectangle around two; one without area does not count.
* `Axis`, `Rect.span` — the interval that a rectangle covers on an axis.
-/

namespace ScoreLayout

/-- The edges `x1`, `x2` on the horizontal axis and `y1`, `y2` on the vertical one. -/
structure Rect (α : Type) where
  x1 : α
  y1 : α
  x2 : α
  y2 : α
deriving DecidableEq, Repr

/-- The direction along which intervals are compared. -/
inductive Axis where
  | horizontal
  | vertical
deriving DecidableEq, Repr

/-- The axis at a right angle. -/
def Axis.other : Axis → Axis
  | .horizontal => .vertical
  | .vertical => .horizontal

@[simp] theorem Axis.other_other (axis : Axis) : axis.other.other = axis := by cases axis <;> rfl

namespace Rect

variable {α : Type} [Scalar α]

/-- The rectangle between two corners, given in any order. -/
def ofCorners (x1 y1 x2 y2 : α) : Rect α :=
  ⟨Scalar.min x1 x2, Scalar.min y1 y2, Scalar.max x1 x2, Scalar.max y1 y2⟩

/-- The rectangle that reaches from a corner by a width and a height. -/
def ofOrigin (x y width height : α) : Rect α := ofCorners x y (x + width) (y + height)

/-- The rectangle of size zero at the origin. -/
def zero : Rect α := ⟨0, 0, 0, 0⟩

/-- The horizontal extent. -/
def width (r : Rect α) : α := r.x2 - r.x1

/-- The vertical extent. -/
def height (r : Rect α) : α := r.y2 - r.y1

/-- A rectangle without area. -/
def IsEmpty (r : Rect α) : Prop := r.width ≤ 0 ∨ r.height ≤ 0

instance (r : Rect α) : Decidable r.IsEmpty := inferInstanceAs (Decidable (_ ∨ _))

/-- The rectangle moved by a distance on each axis. -/
def translate (r : Rect α) (dx dy : α) : Rect α := ⟨r.x1 + dx, r.y1 + dy, r.x2 + dx, r.y2 + dy⟩

/-- The rectangle with every coordinate multiplied. -/
def scale (r : Rect α) (factor : α) : Rect α :=
  ofCorners (r.x1 * factor) (r.y1 * factor) (r.x2 * factor) (r.y2 * factor)

/-- The smallest rectangle around two, of which one without area does not count. -/
def union (a b : Rect α) : Rect α :=
  if b.IsEmpty then a
  else if a.IsEmpty then b
  else ⟨Scalar.min a.x1 b.x1, Scalar.min a.y1 b.y1, Scalar.max a.x2 b.x2, Scalar.max a.y2 b.y2⟩

omit [Scalar α] in
/-- The interval covered on an axis. -/
def span (r : Rect α) : Axis → α × α
  | .horizontal => (r.x1, r.x2)
  | .vertical => (r.y1, r.y2)

end Rect

end ScoreLayout
