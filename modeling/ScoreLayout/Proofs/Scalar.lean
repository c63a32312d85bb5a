import Mathlib.Tactic.Common
import ScoreLayout.Scalar

/-!
# Laws of scalars

What the layout relies on where it compares widths. The laws hold of doubles, rounding and all: a
scalar that is not comparable to itself stands for what is no number. They hold of exact numbers
too.

## Main definitions

* `Scalar.Ordered` — the laws.
* `Scalar.Nonneg` — a scalar that is not below zero.
* `Scalar.AtMost` — a position that is not to the right of another one.

## Main results

* `Scalar.le_of_sum_le` — a sum of widths bounds each of them.
-/

namespace ScoreLayout

namespace Scalar

/-- A scalar that is not below zero; it need not be a number. -/
def Nonneg {α : Type} [Scalar α] (x : α) : Prop := ¬ x < 0

/-- Two scalars of which the first is not above the second, if that is a number. -/
def AtMost {α : Type} [Scalar α] (a b : α) : Prop := b ≤ b → a ≤ b

/-- Laws of comparison and of arithmetic on widths. Arithmetic may round, as long as rounding is
monotone, and what is no number compares to nothing. -/
class Ordered (α : Type) [Scalar α] : Prop where
  le_of_lt {a b : α} : a < b → a ≤ b
  not_le_of_lt {a b : α} : a < b → ¬ b ≤ a
  lt_of_not_le {a b : α} : a ≤ a → b ≤ b → ¬ a ≤ b → b < a
  le_trans {a b c : α} : a ≤ b → b ≤ c → a ≤ c
  /-- Only numbers are comparable. -/
  le_self_left {a b : α} : a ≤ b → a ≤ a
  le_self_right {a b : α} : a ≤ b → b ≤ b
  zero_lt_ofInt {n : Int} : 0 < n → (0 : α) < Scalar.ofInt n
  add_nonneg {a b : α} : Nonneg a → Nonneg b → Nonneg (a + b)
  le_of_add_le_left {a b c : α} : Nonneg b → a + b ≤ c → a ≤ c
  le_of_add_le_right {a b c : α} : Nonneg a → a + b ≤ c → b ≤ c
  lt_zero_add_iff {a c : α} : c < 0 + a ↔ c < a
  /-- A sum is a number only if the first summand is one. -/
  le_self_of_add {a b : α} : a + b ≤ a + b → a ≤ a
  /-- A width brought to a floor is not below zero if the floor is not. -/
  add_sub_nonneg {a b : α} : Nonneg b → Nonneg (a + (b - a))
  mul_nonneg {a b : α} : Nonneg a → Nonneg b → Nonneg (a * b)
  div_nonneg {a b : α} : Nonneg a → 0 < b → Nonneg (a / b)
  pow_nonneg {a b : α} : Nonneg a → Nonneg b → Nonneg (Scalar.pow a b)

/-- Moving positions to the right or to the left keeps their order. -/
class Movable (α : Type) [Scalar α] : Prop extends Ordered α where
  add_le_add_left {a b c : α} : Nonneg a → a ≤ b → c + b ≤ c + b → c + a ≤ c + b
  le_self_of_add_right {a b : α} : a + b ≤ a + b → b ≤ b

section Ordered

variable {α : Type} [Scalar α] [Ordered α] {a b c : α}

open Ordered

theorem lt_of_lt_of_le (h : a < b) (h' : b ≤ c) : a < c :=
  lt_of_not_le (le_self_right h') (le_self_left (le_of_lt h)) fun hca =>
    not_le_of_lt h (le_trans h' hca)

theorem lt_of_le_of_lt (h : a ≤ b) (h' : b < c) : a < c :=
  lt_of_not_le (le_self_right (le_of_lt h')) (le_self_left h) fun hca =>
    not_le_of_lt h' (le_trans hca h)

theorem not_lt_of_le (h : a ≤ b) : ¬ b < a := fun hlt => not_le_of_lt hlt h

theorem zero_le_zero : (0 : α) ≤ 0 := le_self_left (le_of_lt (zero_lt_ofInt (n := 1) (by decide)))

theorem nonneg_of_le (h : 0 ≤ a) : Nonneg a := not_lt_of_le h

theorem nonneg_of_lt (h : 0 < a) : Nonneg a := nonneg_of_le (le_of_lt h)

theorem nonneg_zero : Nonneg (0 : α) := nonneg_of_le zero_le_zero

/-- A number that is not below zero. -/
theorem Nonneg.le (h : Nonneg a) (ha : a ≤ a) : 0 ≤ a := by
  by_contra hlt
  exact h (lt_of_not_le zero_le_zero ha hlt)

theorem Nonneg.of_le (h : Nonneg a) (hab : a ≤ b) : Nonneg b :=
  nonneg_of_le (le_trans (h.le (le_self_left hab)) hab)

theorem nonneg_ofInt {n : Int} (hn : 0 < n) : Nonneg (Scalar.ofInt n : α) :=
  nonneg_of_lt (zero_lt_ofInt hn)

/-! ### Positions -/

theorem AtMost.trans (h : AtMost a b) (h' : AtMost b c) : AtMost a c := fun hc =>
  le_trans (h (le_self_left (h' hc))) (h' hc)

/-- A width that is not negative leads to the right. -/
theorem atMost_add (hb : Nonneg b) : AtMost a (a + b) := fun hsum => le_of_add_le_left hb hsum

theorem AtMost.add_left {α : Type} [Scalar α] [Movable α] {a b : α} (ha : Nonneg a)
    (h : AtMost a b) (c : α) : AtMost (c + a) (c + b) := fun hsum =>
  Movable.add_le_add_left ha (h (Movable.le_self_of_add_right hsum)) hsum

/-! ### Derived operations -/

omit [Ordered α] in
theorem Nonneg.max (ha : Nonneg a) (hb : Nonneg b) : Nonneg (Scalar.max a b) := by
  rw [Scalar.max]
  split_ifs <;> assumption

omit [Ordered α] in
theorem Nonneg.min (ha : Nonneg a) (hb : Nonneg b) : Nonneg (Scalar.min a b) := by
  rw [Scalar.min]
  split_ifs <;> assumption

/-- The largest of zero and other scalars is a number. -/
theorem zero_le_foldl_max : (xs : List α) → {a : α} → 0 ≤ a → 0 ≤ xs.foldl Scalar.max a
  | [], _, h => h
  | x :: xs, a, h => by
      refine zero_le_foldl_max xs ?_
      rw [Scalar.max]
      split_ifs with hxa hx
      · exact h
      · exact le_trans h (le_of_lt (lt_of_not_le hx (le_self_right h) hxa))
      · exact h

theorem Nonneg.clamp (hb : Nonneg b) (hc : Nonneg c) (hba : Nonneg a ∨ 0 ≤ b) :
    Nonneg (Scalar.clamp a b c) := by
  rw [Scalar.clamp]
  split_ifs with hlow hhigh
  · exact hb
  · exact hc
  · rcases hba with ha | hb
    · exact ha
    · exact fun hlt => hlow (lt_of_lt_of_le hlt hb)

/-- The narrower of a floor and a width is a number if the width is one. -/
theorem min_le_self (hb : b ≤ b) : Scalar.min a b ≤ Scalar.min a b := by
  rw [Scalar.min]
  split_ifs with h
  · exact le_self_left h
  · exact hb

theorem Nonneg.foldl_add : (xs : List α) → {a : α} → Nonneg a → (∀ x ∈ xs, Nonneg x) →
    Nonneg (xs.foldl (· + ·) a)
  | [], _, ha, _ => ha
  | x :: xs, _, ha, h => by
      rw [List.forall_mem_cons] at h
      exact Nonneg.foldl_add xs (add_nonneg ha h.1) h.2

theorem le_of_foldl_add_le : (xs : List α) → {a : α} → Nonneg a → (∀ x ∈ xs, Nonneg x) →
    xs.foldl (· + ·) a ≤ c → a ≤ c ∧ ∀ x ∈ xs, x ≤ c
  | [], _, _, _, hc => ⟨hc, fun _ hx => absurd hx List.not_mem_nil⟩
  | x :: xs, a, ha, h, hc => by
      rw [List.forall_mem_cons] at h
      obtain ⟨hsum, hrest⟩ := le_of_foldl_add_le xs (add_nonneg ha h.1) h.2 hc
      exact ⟨le_of_add_le_left h.1 hsum, List.forall_mem_cons.2 ⟨le_of_add_le_right ha hsum, hrest⟩⟩

theorem Nonneg.sum {xs : List α} (h : ∀ x ∈ xs, Nonneg x) : Nonneg (Scalar.sum xs) :=
  Nonneg.foldl_add xs nonneg_zero h

/-- A bound on a sum of widths is one on each of them. -/
theorem le_of_sum_le {xs : List α} (h : ∀ x ∈ xs, Nonneg x) (hc : Scalar.sum xs ≤ c) :
    ∀ x ∈ xs, x ≤ c :=
  (le_of_foldl_add_le xs nonneg_zero h hc).2

end Ordered

end Scalar

end ScoreLayout
