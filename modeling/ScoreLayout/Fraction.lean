import ScoreLayout.Scalar

/-!
# Fractions of 64-bit integers

Times are measured in whole notes and kept as fractions, so that tuplets and dots never round. Both
terms of a fraction fit a signed 64-bit word. A fraction is compared by its value, whether or not it
is reduced and whatever the sign of its denominator; arithmetic is refused when a word would
overflow, and its results are reduced. A few extreme fractions have no reduced form or no whole part
within a word; computing with them breaks down.

## Main definitions

* `Fraction` — a numerator and a non-zero denominator, kept as given.
* `Fraction.reduced?` — lowest terms over a positive denominator.
* `Fraction.HasWhole` — whether a fraction can be split into a whole and a remainder.
* `Fraction.add` — the sum, or why there is none.
* `Fraction.add?`, `Fraction.sub?`, `Fraction.mul?`, `Fraction.div?` — arithmetic on words.
* `Fraction.compare`, `Fraction.Same` — order and equality by value.
-/

namespace ScoreLayout

/-- An integer in the range of a signed 64-bit word. -/
abbrev FitsWord (z : Int) : Prop := -9223372036854775808 ≤ z ∧ z ≤ 9223372036854775807

/-- An integer, refused outside the range of a word. -/
def word? (z : Int) : Option Int := if FitsWord z then some z else none

/-- The word closest to an integer. -/
def saturate (z : Int) : Int :=
  if z < -9223372036854775808 then -9223372036854775808
  else if 9223372036854775807 < z then 9223372036854775807 else z

theorem fitsWord_saturate (z : Int) : FitsWord (saturate z) := by
  unfold saturate FitsWord
  split
  · decide
  · split
    · decide
    · omega

theorem word?_eq_some_iff {z w : Int} : word? z = some w ↔ z = w ∧ FitsWord z := by
  unfold word?
  split
  · next h =>
    exact ⟨fun e => ⟨Option.some.inj e, Option.some.inj e ▸ h⟩, fun e => congrArg some e.1⟩
  · next h => exact ⟨fun e => (nomatch e), fun e => absurd (e.1 ▸ e.2) (e.1 ▸ h)⟩

/-- Why an operation on words has no result. -/
inductive WordError where
  /-- An intermediate result does not fit a word, and the operation is refused. -/
  | overflow
  /-- A result that is taken to fit a word does not, and nothing more can be computed. -/
  | breakdown
deriving DecidableEq, Repr

/-- A numerator over a non-zero denominator, both within a word and kept as given. -/
structure Fraction where
  num : Int
  den : Int
  num_fits : FitsWord num
  den_fits : FitsWord den
  den_ne_zero : den ≠ 0
deriving DecidableEq

namespace Fraction

/-- The fraction with the given terms, if they form one. -/
def ofParts? (num den : Int) : Option Fraction :=
  if h : FitsWord num ∧ FitsWord den ∧ den ≠ 0 then some ⟨num, den, h.1, h.2.1, h.2.2⟩ else none

/-- The fraction of an integer within a word. -/
def ofWord (z : Int) (h : FitsWord z) : Fraction := ⟨z, 1, h, by decide, by decide⟩

instance : OfNat Fraction 0 := ⟨ofWord 0 (by decide)⟩

instance : OfNat Fraction 1 := ⟨ofWord 1 (by decide)⟩

instance : Inhabited Fraction := ⟨0⟩

/-- The quotient `num / den` in lowest terms over a positive denominator. -/
def reduced? (num den : Int) : Option Fraction :=
  let divisor : Int := Int.gcd num den
  let sign := den.sign
  ofParts? (sign * (num / divisor)) (sign * (den / divisor))

/-- The numerator that the fraction has over a positive denominator `|den|`. -/
def signedNum (a : Fraction) : Int := a.num * a.den.sign

/-- The numerator of `a` over the common denominator `|a.den| * |b.den|`. -/
def cross (a b : Fraction) : Int := a.signedNum * b.den.natAbs

/-- Order by value. -/
def compare (a b : Fraction) : Ordering := Ord.compare (a.cross b) (b.cross a)

instance : Ord Fraction := ⟨compare⟩

instance : LT Fraction := ⟨fun a b => a.cross b < b.cross a⟩

instance : LE Fraction := ⟨fun a b => a.cross b ≤ b.cross a⟩

instance : DecidableLT Fraction := fun a b => inferInstanceAs (Decidable (a.cross b < b.cross a))

instance : DecidableLE Fraction := fun a b => inferInstanceAs (Decidable (a.cross b ≤ b.cross a))

/-- Equality by value. -/
def Same (a b : Fraction) : Prop := a.cross b = b.cross a

instance : DecidableRel Same := fun a b => inferInstanceAs (Decidable (a.cross b = b.cross a))

/-- Whether the whole part fits a word. The one fraction without such a part is the lowest word over
minus one. -/
abbrev HasWhole (a : Fraction) : Prop := FitsWord (a.num / a.den)

/-- The larger of two fractions, the first if they have one value. -/
def max (a b : Fraction) : Fraction := if a < b then b else a

/-- Both numerators over the least common multiple of the denominators, with that multiple. -/
def commonTerms? (a b : Fraction) : Option (Int × Int × Int) := do
  let divisor : Int := Int.gcd a.den b.den
  let multiple ← word? (a.den / divisor * b.den)
  let left ← word? (multiple / a.den * a.num)
  let right ← word? (multiple / b.den * b.num)
  return (left, right, multiple)

/-- The sum. It is refused if an intermediate word overflows, and breaks down where the common
divisor of the denominators or the reduced form is beyond a word. -/
def add (a b : Fraction) : Except WordError Fraction :=
  if ¬ FitsWord (Int.gcd a.den b.den) then .error .breakdown
  else
    match commonTerms? a b with
    | none => .error .overflow
    | some (left, right, multiple) =>
      match word? (left + right) with
      | none => .error .overflow
      | some total =>
        match reduced? total multiple with
        | some sum => .ok sum
        | none => .error .breakdown

/-- The sum, if there is one. -/
def add? (a b : Fraction) : Option Fraction := (a.add b).toOption

/-- The difference, if no intermediate word overflows. -/
def sub? (a b : Fraction) : Option Fraction := do
  let (left, right, multiple) ← commonTerms? a b
  reduced? (← word? (left - right)) multiple

/-- The product, with crosswise common factors cancelled first, if no word overflows. -/
def mul? (a b : Fraction) : Option Fraction := do
  let first : Int := Int.gcd a.num b.den
  let second : Int := Int.gcd a.den b.num
  let num ← word? (a.num / first * (b.num / second))
  let den ← word? (a.den / second * (b.den / first))
  reduced? num den

/-- The quotient, with common factors cancelled first, if the divisor is not zero and no word
overflows. -/
def div? (a b : Fraction) : Option Fraction :=
  if b.num = 0 then none
  else if a.den = b.den then reduced? a.num b.num
  else if a.num = b.num then reduced? b.den a.den
  else do
    let nums : Int := Int.gcd a.num b.num
    let dens : Int := Int.gcd a.den b.den
    let num ← word? (a.num / nums * (b.den / dens))
    let den ← word? (a.den / dens * (b.num / nums))
    reduced? num den

/-- The text of a fraction inside a message: the denominator 1 is left out. -/
def text (a : Fraction) : String :=
  if a.den = 1 then toString a.num else toString a.num ++ "/" ++ toString a.den

section Scalar

variable {α : Type} [Scalar α]

/-- The value of a fraction as a scalar. -/
def toScalar (a : Fraction) : α := Scalar.ofInt a.num / Scalar.ofInt a.den

/-- The time from `start` to `stop`, exact while the difference of the fractions is. -/
def span (start stop : Fraction) : α :=
  match stop.sub? start with
  | some length => length.toScalar
  | none => stop.toScalar - start.toScalar

end Scalar

theorem ofParts?_num_den (a : Fraction) : ofParts? a.num a.den = some a :=
  dif_pos ⟨a.num_fits, a.den_fits, a.den_ne_zero⟩

theorem ofParts?_eq_some_iff {num den : Int} {a : Fraction} :
    ofParts? num den = some a ↔ num = a.num ∧ den = a.den := by
  constructor
  · unfold ofParts?
    split
    · rintro ⟨⟩
      exact ⟨rfl, rfl⟩
    · simp
  · rintro ⟨rfl, rfl⟩
    exact ofParts?_num_den a

theorem Same.refl (a : Fraction) : Same a a := rfl

theorem Same.symm {a b : Fraction} (h : Same a b) : Same b a := Eq.symm h

end Fraction

end ScoreLayout
