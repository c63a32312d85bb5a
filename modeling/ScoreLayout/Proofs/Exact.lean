import Mathlib.Algebra.Order.Field.Basic
import Mathlib.Algebra.BigOperators.Group.List.Basic
import Mathlib.Data.Rat.Floor
import Mathlib.Tactic.Linarith
import ScoreLayout.Proofs.Scalar

/-!
# Exact arithmetic

Read over an ordered field, the definitions of the layout are the layout in exact arithmetic. What
they use beyond the field is the power of a positive number, of which nothing is asked but that it is
not negative, rounding, and the text of a number.

## Main definitions

* `ExactField` — an ordered field with powers.

## Main results

* `ExactField.instOrdered`, `ExactField.instMovable` — the laws of scalars hold.
* `Scalar.sum_eq_sum`, `Scalar.abs_eq_abs` — derived operations are those of the field.
-/

namespace ScoreLayout

/-- An ordered field with what else the layout uses. -/
class ExactField (K : Type) extends Field K, LinearOrder K, IsStrictOrderedRing K where
  power : K → K → K
  power_nonneg {a b : K} : 0 ≤ a → 0 ≤ power a b
  round : K → Int
  text : K → String

namespace ExactField

variable {K : Type} [ExactField K]

instance instScalar : Scalar K where
  toAdd := inferInstance
  toSub := inferInstance
  toMul := inferInstance
  toDiv := inferInstance
  toNeg := inferInstance
  toLE := inferInstance
  toLT := inferInstance
  decLe := inferInstance
  decLt := inferInstance
  ofInt n := n
  ofDecimal m negative e := if negative then m / 10 ^ e else m * 10 ^ e
  pow := power
  nearest := round
  text := text

/-- The rational numbers, with powers of whole exponents; others are rounded down. -/
instance : ExactField ℚ where
  power a b := a ^ ⌊b⌋
  power_nonneg h := zpow_nonneg h _
  round a := if 0 ≤ a then ⌊a + 1 / 2⌋ else ⌈a - 1 / 2⌉
  text a := toString a

theorem ofNat_eq (n : ℕ) : (@OfNat.ofNat K n (Scalar.instOfNat n)) = (n : K) :=
  Int.cast_natCast n

theorem zero_eq : (@OfNat.ofNat K 0 (Scalar.instOfNat 0)) = 0 := by rw [ofNat_eq, Nat.cast_zero]

theorem nonneg_iff {x : K} : Scalar.Nonneg x ↔ 0 ≤ x := by
  rw [Scalar.Nonneg, zero_eq]
  exact not_lt

instance instOrdered : Scalar.Ordered K where
  le_of_lt h := h.le
  not_le_of_lt h := not_le_of_gt h
  lt_of_not_le _ _ h := lt_of_not_ge h
  le_trans h h' := h.trans h'
  le_self_left _ := le_refl _
  le_self_right _ := le_refl _
  zero_lt_ofInt h := by
    rw [zero_eq]
    exact Int.cast_pos.2 h
  add_nonneg ha hb := nonneg_iff.2 (add_nonneg (nonneg_iff.1 ha) (nonneg_iff.1 hb))
  le_of_add_le_left hb h := (le_add_of_nonneg_right (nonneg_iff.1 hb)).trans h
  le_of_add_le_right ha h := (le_add_of_nonneg_left (nonneg_iff.1 ha)).trans h
  lt_zero_add_iff {a c} := by
    rw [zero_eq]
    exact iff_of_eq (congrArg (c < ·) (zero_add a))
  le_self_of_add _ := le_refl _
  add_sub_nonneg {a b} h := by
    rw [nonneg_iff] at h ⊢
    exact h.trans_eq (add_sub_cancel a b).symm
  mul_nonneg ha hb := nonneg_iff.2 (mul_nonneg (nonneg_iff.1 ha) (nonneg_iff.1 hb))
  div_nonneg ha hb := by
    rw [zero_eq] at hb
    exact nonneg_iff.2 (div_nonneg (nonneg_iff.1 ha) hb.le)
  pow_nonneg ha _ := nonneg_iff.2 (power_nonneg (nonneg_iff.1 ha))

instance instMovable : Scalar.Movable K where
  toOrdered := instOrdered
  add_le_add_left {_ _ c} _ h _ := add_le_add_right h c
  le_self_of_add_right _ := le_refl _

theorem atMost_iff {x y : K} : Scalar.AtMost x y ↔ x ≤ y := ⟨fun h => h le_rfl, fun h _ => h⟩

end ExactField

namespace Scalar

variable {K : Type} [ExactField K]

theorem sum_eq_sum (xs : List K) : Scalar.sum xs = xs.sum := by
  rw [Scalar.sum, ExactField.zero_eq]
  exact (List.sum_eq_foldl ..).symm

theorem abs_eq_abs (x : K) : Scalar.abs x = |x| := by
  rw [Scalar.abs, ExactField.zero_eq]
  split_ifs with h
  · exact (abs_of_neg h).symm
  · exact (abs_of_nonneg (not_lt.1 h)).symm

end Scalar

end ScoreLayout
