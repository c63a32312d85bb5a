import ScoreLayout.Decimal.Shortest

/-!
# Scalars

Positions, widths and weights are values of a scalar type: the layout is written once over the
operations below. It runs on doubles; read over an exact ordered field, the same definitions are the
layout in exact arithmetic.

## Main definitions

* `Scalar` — arithmetic, comparison, conversion from integers and decimals, powers, rounding.
* `Scalar.max`, `Scalar.min`, `Scalar.clamp`, `Scalar.abs` — derived operations, which prefer a
  number over a value that is not comparable to itself.
-/

namespace ScoreLayout

/-- The arithmetic that a layout is computed in. -/
class Scalar (α : Type) extends Add α, Sub α, Mul α, Div α, Neg α, LE α, LT α where
  decLe : DecidableLE α
  decLt : DecidableLT α
  /-- The scalar closest to an integer. -/
  ofInt : Int → α
  /-- The scalar closest to `m * 10 ^ e`, or to `m / 10 ^ e` if the flag is set. -/
  ofDecimal : Nat → Bool → Nat → α
  /-- The power of a positive scalar. -/
  pow : α → α → α
  /-- The closest integer; a half is rounded away from zero. -/
  nearest : α → Int
  /-- The text of a scalar inside a message. -/
  text : α → String

namespace Scalar

variable {α : Type} [Scalar α]

instance instDecidableLE : DecidableLE α := Scalar.decLe

instance instDecidableLT : DecidableLT α := Scalar.decLt

instance (priority := low) instOfNat (n : Nat) : OfNat α n := ⟨Scalar.ofInt n⟩

instance (priority := low) instOfScientific : OfScientific α := ⟨Scalar.ofDecimal⟩

/-- The scalar of a natural number. -/
def ofNat (n : Nat) : α := Scalar.ofInt n

/-- The larger of two scalars. -/
def max (a b : α) : α := if b ≤ a then a else if b ≤ b then b else a

/-- The smaller of two scalars. -/
def min (a b : α) : α := if a ≤ b then a else if b ≤ b then b else a

/-- The scalar moved into the range from `low` to `high`. -/
def clamp (x low high : α) : α := if x < low then low else if high < x then high else x

/-- The magnitude of a scalar. -/
def abs (x : α) : α := if x < 0 then -x else x

/-- The sum of a list, added from left to right. -/
def sum (xs : List α) : α := xs.foldl (· + ·) 0

end Scalar

/-- The closest integer to a double. An infinity is beyond every finite double. -/
def Float.nearestInt (x : Float) : Int :=
  match Binary64.ofFloat? x with
  | some b => b.nearest
  | none => if x.isNaN then 0 else if x < 0 then -Int.pow 2 1024 else Int.pow 2 1024

instance : Scalar Float where
  decLe := inferInstance
  decLt := inferInstance
  ofInt := Float.ofInt
  ofDecimal := Float.ofScientific
  pow := Float.pow
  nearest := Float.nearestInt
  text := shortestText

end ScoreLayout
