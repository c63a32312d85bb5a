/-!
# Exact values of double-precision numbers

A finite double is `± mantissa * 2 ^ exponent` with a natural mantissa. Its sign, mantissa and
exponent are read off the 64 bits, so that rounding to an integer and printing can be done in
exact integer arithmetic.

## Main definitions

* `Binary64` — sign, mantissa and exponent of a finite double.
* `Binary64.ofFloat?` — the parts of a double, absent for infinities and for not-a-number.
* `Binary64.nearest` — the closest integer, a half going away from zero.
-/

namespace ScoreLayout

/-- The exact value `± mantissa * 2 ^ exponent` of a finite double. -/
structure Binary64 where
  negative : Bool
  mantissa : Nat
  exponent : Int
deriving DecidableEq, Repr

namespace Binary64

/-- The mantissa of the smallest normal number, where the spacing of doubles doubles. -/
def hiddenBit : Nat := Nat.pow 2 52

/-- The exponent shared by the subnormal numbers. -/
def leastExponent : Int := -1074

/-- Sign, mantissa and exponent of a finite double, read off its bits. -/
def ofFloat? (x : Float) : Option Binary64 :=
  let bits : Nat := x.toBits.toNat
  let negative : Bool := bits / Nat.pow 2 63 == 1
  let biased : Nat := bits / hiddenBit % Nat.pow 2 11
  let fraction : Nat := bits % hiddenBit
  if biased = 2047 then none
  else if biased = 0 then some ⟨negative, fraction, leastExponent⟩
  else some ⟨negative, hiddenBit + fraction, (biased : Int) - 1075⟩

/-- A magnitude with the sign of `b`. -/
def signed (b : Binary64) (magnitude : Nat) : Int :=
  if b.negative then -(magnitude : Int) else magnitude

/-- The closest integer; a half is rounded away from zero. -/
def nearest (b : Binary64) : Int :=
  if b.exponent ≥ 0 then
    b.signed (b.mantissa * Nat.pow 2 b.exponent.toNat)
  else
    let unit := Nat.pow 2 (-b.exponent).toNat
    b.signed ((b.mantissa + unit / 2) / unit)

end Binary64

end ScoreLayout
