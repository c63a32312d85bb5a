import ScoreLayout.Binary64

/-!
# Shortest decimal text of a double

The text of a finite double is the decimal with the fewest digits among those that read back as
the same double, and of these the one closest to it. In messages it is written positionally; a data
format may write large and small ones with an exponent instead, and may settle ties differently.

## Main definitions

* `Decimal` — `digits * 10 ^ exponent`.
* `Decimal.Tie` — which of two decimals that are equally close is chosen.
* `Decimal.shortest` — the shortest decimal inside the rounding interval of a double.
* `Decimal.positional`, `Decimal.scientific` — a decimal written without and with an exponent.
* `shortestText` — the text of any double.
-/

namespace ScoreLayout

/-- The value `digits * 10 ^ exponent`. -/
structure Decimal where
  digits : Nat
  exponent : Int
deriving DecidableEq, Repr

namespace Decimal

/-- The choice between two neighbours that are equally close. -/
inductive Tie where
  | upper
  /-- The one whose last digit is even. -/
  | even
deriving DecidableEq, Repr

/-- Whether a tie goes to the upper neighbour of these digits. -/
def Tie.goesUp : Tie → Nat → Bool
  | upper, _ => true
  | even, lower => lower % 2 = 1

/-- A positive double and the interval of reals that round to it, over one common denominator. -/
private structure Interval where
  value : Nat
  low : Nat
  high : Nat
  denominator : Nat
  closed : Bool

/-- The reals that round to `mantissa * 2 ^ exponent`. Below a power of two the spacing halves, and
the end points belong to the interval exactly when the mantissa is even. -/
private def intervalOf (mantissa : Nat) (exponent : Int) : Interval :=
  let below := if mantissa = Binary64.hiddenBit ∧ exponent > Binary64.leastExponent then 1 else 2
  let scale := Nat.pow 2 (exponent - 2).toNat
  { value := 4 * mantissa * scale
    low := (4 * mantissa - below) * scale
    high := (4 * mantissa + 2) * scale
    denominator := Nat.pow 2 (2 - exponent).toNat
    closed := mantissa % 2 = 0 }

/-- The number of decimal digits of a natural number. -/
def width (n : Nat) : Nat := (Nat.toDigits 10 n).length

/-- The least `j` up to `fuel` with `value * 10 ^ j ≥ denominator`. -/
private def leadingZeros (value denominator : Nat) : (fuel : Nat) → Nat
  | 0 => 0
  | fuel + 1 =>
    if value ≥ denominator then 0 else leadingZeros (value * 10) denominator fuel + 1

/-- The decimal exponent of the first digit of the value. -/
private def Interval.leadingExponent (i : Interval) : Int :=
  if i.value ≥ i.denominator then (width (i.value / i.denominator) : Int) - 1
  else -(leadingZeros i.value i.denominator 400 : Int)

/-- Whether `candidate / divisor` lies in the interval scaled by `factor`. -/
private def Interval.holds (i : Interval) (factor candidate : Nat) : Bool :=
  if i.closed then i.low * factor ≤ candidate ∧ candidate ≤ i.high * factor
  else i.low * factor < candidate ∧ candidate < i.high * factor

/-- The neighbour of the value on the grid of multiples of `10 ^ exponent` that reads back as it,
the nearer one if both do. -/
private def Interval.onGrid? (i : Interval) (tie : Tie) (exponent : Int) : Option Decimal :=
  let factor := Nat.pow 10 (-exponent).toNat
  let step := i.denominator * Nat.pow 10 exponent.toNat
  let scaled := i.value * factor
  let lower := scaled / step
  let upper := lower + 1
  let fits := fun digits => i.holds factor (digits * step)
  let middle := (lower + upper) * step
  let prefersUpper := 2 * scaled > middle ∨ (2 * scaled = middle ∧ tie.goesUp lower)
  if fits upper ∧ (prefersUpper ∨ ¬ fits lower) then some ⟨upper, exponent⟩
  else if fits lower then some ⟨lower, exponent⟩
  else none

/-- The decimal with the fewest digits that rounds to `mantissa * 2 ^ exponent`. The coarsest grid
tried is that of the next power of ten above the value, and seventeen digits always suffice. -/
def shortest (tie : Tie) (mantissa : Nat) (exponent : Int) : Decimal :=
  if mantissa = 0 then ⟨0, 0⟩
  else
    let interval := intervalOf mantissa exponent
    let leading := interval.leadingExponent
    ((List.range 18).findSome? fun (digits : Nat) =>
      interval.onGrid? tie (leading + 1 - digits)).getD ⟨0, 0⟩

/-- A decimal written without an exponent; the point appears only before further digits. -/
def positional (d : Decimal) : String :=
  let digits := Nat.toDigits 10 d.digits
  if d.exponent ≥ 0 then
    String.ofList (digits ++ List.replicate d.exponent.toNat '0')
  else
    let places := (-d.exponent).toNat
    let padded := List.replicate (places + 1 - digits.length) '0' ++ digits
    let whole := padded.length - places
    String.ofList (padded.take whole ++ '.' :: padded.drop whole)

/-- The decimal exponent of the first digit of a decimal that is not zero. -/
def leadingExponent (d : Decimal) : Int := width d.digits - 1 + d.exponent

/-- A decimal written with one digit before the point, if there is one, and an exponent. -/
def scientific (d : Decimal) : String :=
  (Decimal.mk d.digits (1 - width d.digits)).positional ++ "e" ++ toString d.leadingExponent

end Decimal

/-- The text of a double: the shortest decimal that reads back, without an exponent. -/
def shortestText (x : Float) : String :=
  match Binary64.ofFloat? x with
  | some b =>
    let text := (Decimal.shortest .upper b.mantissa b.exponent).positional
    if b.negative then "-" ++ text else text
  | none => if x.isNaN then "NaN" else if x < 0 then "-inf" else "inf"

end ScoreLayout
