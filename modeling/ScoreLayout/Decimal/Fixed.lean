import ScoreLayout.Binary64

/-!
# Decimal text of fixed width

Numbers written with a fixed number of digits: natural numbers with zeros in front, and doubles with
a fixed number of decimal places. Rounding is that of the exact value, and a tie goes to the even
neighbour.

## Main definitions

* `Decimal.padded` — a natural number of at least so many digits.
* `Decimal.roundQuotient` — a quotient rounded to an integer.
* `fixedText` — a double with a fixed number of decimal places.
-/

namespace ScoreLayout

namespace Decimal

/-- A natural number in some base, with zeros in front up to a width. -/
def padded (base width n : Nat) : String :=
  let digits := Nat.toDigits base n
  String.ofList (List.replicate (width - digits.length) '0' ++ digits)

/-- The integer closest to a quotient, the even one on a tie. -/
def roundQuotient (num den : Nat) : Nat :=
  let below := num / den
  let rest := 2 * (num % den)
  if rest < den ∨ (rest = den ∧ below % 2 = 0) then below else below + 1

/-- The magnitude of a double in units of the last of so many decimal places. -/
def roundedUnits (places : Nat) (b : Binary64) : Nat :=
  let scaled := b.mantissa * Nat.pow 10 places
  if 0 ≤ b.exponent then scaled * Nat.pow 2 b.exponent.toNat
  else roundQuotient scaled (Nat.pow 2 (-b.exponent).toNat)

end Decimal

/-- A double with a positive number of decimal places. What rounds to zero has no sign. -/
def fixedText (places : Nat) (x : Float) : String :=
  match Binary64.ofFloat? x with
  | some b =>
    let units := Decimal.roundedUnits places b
    let unit := Nat.pow 10 places
    let text := toString (units / unit) ++ "." ++ Decimal.padded 10 places (units % unit)
    if b.negative ∧ units ≠ 0 then "-" ++ text else text
  | none => if x.isNaN then "nan" else if x < 0 then "-inf" else "inf"

end ScoreLayout
