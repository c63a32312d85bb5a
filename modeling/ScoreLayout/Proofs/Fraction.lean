import Mathlib.Algebra.Order.Field.Rat
import Mathlib.Tactic.FieldSimp
import Mathlib.Tactic.Linarith
import Mathlib.Tactic.Positivity
import Mathlib.Tactic.Ring
import ScoreLayout.Music.Definition
import ScoreLayout.Music.Duration
import ScoreLayout.Proofs.Score.Edits

/-!
# The values of fractions

A fraction stands for a rational number. The order by value is that of the rationals, and the result
of an operation on words, where there is one, has the value that the rationals say.

## Main definitions

* `Fraction.value` — the rational number.

## Main results

* `Fraction.lt_iff_value`, `Fraction.same_iff_value`, `Fraction.value_max` — the order by value.
* `Fraction.value_of_add`, `Fraction.value_of_mul`, `Fraction.value_of_div` — arithmetic on words.
* `Duration.value_resolve_nonneg` — no duration is below zero.
-/

namespace ScoreLayout

theorem eq_of_word?_eq_some {z w : ℤ} (h : word? z = some w) : w = z :=
  (word?_eq_some_iff.1 h).1.symm

namespace Fraction

/-- The rational number that the fraction stands for. -/
def value (a : Fraction) : ℚ := a.num / a.den

@[simp] theorem value_zero : value 0 = 0 := by
  show (0 : ℤ) / ((1 : ℤ) : ℚ) = 0
  simp

theorem den_cast_ne_zero (a : Fraction) : (a.den : ℚ) ≠ 0 := Int.cast_ne_zero.2 a.den_ne_zero

/-! ### Order -/

theorem abs_den_pos (a : Fraction) : (0 : ℚ) < |(a.den : ℚ)| := abs_pos.2 a.den_cast_ne_zero

theorem value_eq_signedNum_div (a : Fraction) : a.value = a.signedNum / |(a.den : ℚ)| := by
  rw [value, signedNum, Int.cast_mul]
  rcases lt_or_gt_of_ne a.den_ne_zero with h | h
  · rw [Int.sign_eq_neg_one_of_neg h, abs_of_neg (Int.cast_lt_zero.2 h), Int.cast_neg,
      Int.cast_one, mul_neg, mul_one, neg_div_neg_eq]
  · rw [Int.sign_eq_one_of_pos h, abs_of_pos (Int.cast_pos.2 h), Int.cast_one, mul_one]

theorem cast_cross (a b : Fraction) :
    ((a.cross b : ℤ) : ℚ) = a.signedNum * |(b.den : ℚ)| := by
  rw [cross, Int.cast_mul, Int.natCast_natAbs, Int.cast_abs]

theorem lt_iff_value {a b : Fraction} : a < b ↔ a.value < b.value := by
  rw [value_eq_signedNum_div, value_eq_signedNum_div, div_lt_div_iff₀ a.abs_den_pos
    b.abs_den_pos, ← cast_cross, ← cast_cross, Int.cast_lt]
  rfl

theorem same_iff_value {a b : Fraction} : a.Same b ↔ a.value = b.value := by
  rw [value_eq_signedNum_div, value_eq_signedNum_div, div_eq_div_iff a.abs_den_pos.ne'
    b.abs_den_pos.ne', ← cast_cross, ← cast_cross, Int.cast_inj]
  rfl

theorem value_max (a b : Fraction) : (a.max b).value = Max.max a.value b.value := by
  rw [Fraction.max]
  split_ifs with h
  · exact (max_eq_right (lt_iff_value.1 h).le).symm
  · exact (max_eq_left (not_lt.1 fun hlt => h (lt_iff_value.2 hlt))).symm

/-! ### Arithmetic -/

theorem cast_ediv_of_dvd {d z : ℤ} (h : d ∣ z) : ((z / d : ℤ) : ℚ) * d = z := by
  rw [← Int.cast_mul, Int.ediv_mul_cancel h]

theorem value_of_reduced? {num den : ℤ} {a : Fraction} (h : reduced? num den = some a) :
    a.value = num / den := by
  obtain ⟨hnum, hden⟩ := ofParts?_eq_some_iff.1 h
  have hne : den.sign * (den / (Int.gcd num den : ℤ)) ≠ 0 := hden ▸ a.den_ne_zero
  obtain ⟨hsign, hquot⟩ := mul_ne_zero_iff.1 hne
  have hgcd : (Int.gcd num den : ℤ) ≠ 0 := fun hzero => hquot (by rw [hzero, Int.ediv_zero])
  rw [value, ← hnum, ← hden, ← cast_ediv_of_dvd (Int.gcd_dvd_left num den),
    ← cast_ediv_of_dvd (Int.gcd_dvd_right num den), mul_div_mul_right _ _ (Int.cast_ne_zero.2 hgcd),
    Int.cast_mul, Int.cast_mul, mul_div_mul_left _ _ (Int.cast_ne_zero.2 hsign)]

/-- Both fractions over their common denominator. -/
theorem value_of_commonTerms? {a b : Fraction} {left right multiple : ℤ}
    (h : commonTerms? a b = some (left, right, multiple)) :
    (left : ℚ) / multiple = a.value ∧ (right : ℚ) / multiple = b.value := by
  simp only [commonTerms?, Option.bind_eq_bind, Option.bind_eq_some_iff, Option.pure_def,
    Option.some.injEq, Prod.mk.injEq] at h
  obtain ⟨m, hm, l, hl, r, hr, rfl, rfl, rfl⟩ := h
  obtain rfl := eq_of_word?_eq_some hl
  obtain rfl := eq_of_word?_eq_some hr
  have hgcd : (Int.gcd a.den b.den : ℤ) ≠ 0 := fun hzero =>
    a.den_ne_zero (Int.gcd_eq_zero_iff.1 (by exact_mod_cast hzero)).1
  have hleft := Int.gcd_dvd_left a.den b.den
  have hright := Int.gcd_dvd_right a.den b.den
  have ha : a.den ∣ m := by
    rw [eq_of_word?_eq_some hm, ← Int.mul_ediv_assoc' _ hleft, Int.mul_ediv_assoc _ hright]
    exact Dvd.intro _ rfl
  have hb : b.den ∣ m := by
    rw [eq_of_word?_eq_some hm]
    exact Dvd.intro_left _ rfl
  have hzero : (m : ℚ) ≠ 0 := by
    rw [eq_of_word?_eq_some hm]
    refine Int.cast_ne_zero.2 (mul_ne_zero (fun hquot => a.den_ne_zero ?_) b.den_ne_zero)
    exact Int.eq_zero_of_ediv_eq_zero hleft hquot
  constructor
  · rw [value, div_eq_div_iff hzero a.den_cast_ne_zero, ← cast_ediv_of_dvd ha]
    push_cast
    ring
  · rw [value, div_eq_div_iff hzero b.den_cast_ne_zero, ← cast_ediv_of_dvd hb]
    push_cast
    ring

theorem value_of_add {a b sum : Fraction} (h : a.add b = .ok sum) :
    sum.value = a.value + b.value := by
  unfold add at h
  split_ifs at h
  split at h
  · cases h
  · rename_i left right multiple hterms
    obtain ⟨ha, hb⟩ := value_of_commonTerms? hterms
    split at h
    · cases h
    · rename_i total htotal
      split at h
      · rename_i hsum
        cases h
        rw [value_of_reduced? hsum, eq_of_word?_eq_some htotal, Int.cast_add, add_div, ha, hb]
      · cases h

theorem value_of_add? {a b sum : Fraction} (h : a.add? b = some sum) :
    sum.value = a.value + b.value := by
  rw [add?] at h
  cases hsum : a.add b with
  | error why =>
    rw [hsum] at h
    cases h
  | ok total =>
    rw [hsum] at h
    obtain rfl := Option.some.inj h
    exact value_of_add hsum

theorem value_of_sub? {a b difference : Fraction} (h : a.sub? b = some difference) :
    difference.value = a.value - b.value := by
  simp only [sub?, Option.bind_eq_bind, Option.bind_eq_some_iff] at h
  obtain ⟨⟨left, right, multiple⟩, hterms, total, htotal, hreduced⟩ := h
  obtain ⟨ha, hb⟩ := value_of_commonTerms? hterms
  rw [value_of_reduced? hreduced, eq_of_word?_eq_some htotal, Int.cast_sub, sub_div, ha, hb]

/-- Two products over common factors of their terms. -/
theorem div_mul_div_div_eq {a b c d first second : ℤ} (hfirst : first ∣ a) (hfirst' : first ∣ d)
    (hsecond : second ∣ c) (hsecond' : second ∣ b) (hc : c ≠ 0) (hd : d ≠ 0) :
    ((a / first * (b / second) : ℤ) : ℚ) / ((c / second * (d / first) : ℤ) : ℚ) =
      (a / c) * (b / d) := by
  have h₁ : (first : ℚ) ≠ 0 := Int.cast_ne_zero.2 (ne_zero_of_dvd_ne_zero hd hfirst')
  have h₂ : (second : ℚ) ≠ 0 := Int.cast_ne_zero.2 (ne_zero_of_dvd_ne_zero hc hsecond)
  rw [← cast_ediv_of_dvd hfirst, ← cast_ediv_of_dvd hfirst', ← cast_ediv_of_dvd hsecond,
    ← cast_ediv_of_dvd hsecond']
  push_cast
  field_simp

theorem value_of_mul? {a b product : Fraction} (h : a.mul? b = some product) :
    product.value = a.value * b.value := by
  simp only [mul?, Option.bind_eq_bind, Option.bind_eq_some_iff] at h
  obtain ⟨num, hnum, den, hden, hreduced⟩ := h
  rw [value_of_reduced? hreduced, eq_of_word?_eq_some hnum, eq_of_word?_eq_some hden, value, value]
  exact div_mul_div_div_eq (Int.gcd_dvd_left ..) (Int.gcd_dvd_right ..) (Int.gcd_dvd_left ..)
    (Int.gcd_dvd_right ..) a.den_ne_zero b.den_ne_zero

theorem value_of_div? {a b quotient : Fraction} (h : a.div? b = some quotient) :
    quotient.value = a.value / b.value := by
  rw [div?] at h
  split_ifs at h with hzero hden hnum
  · rw [value_of_reduced? h, value, value, hden, div_div_div_cancel_right₀ b.den_cast_ne_zero]
  · rw [value_of_reduced? h, value, value, hnum, div_div_div_cancel_left' _ _ (Int.cast_ne_zero.2 hzero)]
  · simp only [Option.bind_eq_bind, Option.bind_eq_some_iff] at h
    obtain ⟨num, hnum, den, hden, hreduced⟩ := h
    rw [value_of_reduced? hreduced, eq_of_word?_eq_some hnum, eq_of_word?_eq_some hden, value, value,
      div_mul_div_div_eq (Int.gcd_dvd_left ..) (Int.gcd_dvd_right ..) (Int.gcd_dvd_left ..)
        (Int.gcd_dvd_right ..) a.den_ne_zero hzero, div_div_eq_mul_div, ← mul_div_assoc]

theorem value_of_ofParts? {num den : ℤ} {a : Fraction} (h : ofParts? num den = some a) :
    a.value = num / den := by
  obtain ⟨hnum, hden⟩ := ofParts?_eq_some_iff.1 h
  rw [value, ← hnum, ← hden]

end Fraction

/-! ### Durations -/

theorem MeterSig.value_measureDuration_nonneg (m : MeterSig) : 0 ≤ m.measureDuration.value := by
  rw [measureDuration]
  cases h : Fraction.reduced? m.count.toNat m.beatsPerWhole with
  | none => exact Fraction.value_zero.ge
  | some a =>
    rw [Option.getD_some, Fraction.value_of_reduced? h]
    exact div_nonneg (by exact_mod_cast m.count.toNat.zero_le)
      (by exact_mod_cast m.beatsPerWhole.zero_le)

/-- A ratio whose terms are not below zero. -/
def TupletRatio.Nonneg (r : TupletRatio) : Prop := 0 ≤ r.num ∧ 0 ≤ r.base

namespace TupletRatio

theorem nonneg_one : one.Nonneg := ⟨by decide, by decide⟩

theorem Nonneg.combine {r r' : TupletRatio} (h : r.Nonneg) {num base : ℤ} (hnum : 0 ≤ num)
    (hbase : 0 ≤ base) (hok : r.combine num base = .ok r') : r'.Nonneg := by
  rw [TupletRatio.combine] at hok
  split at hok
  · rename_i num' base' hnum' hbase'
    cases hok
    rw [TupletRatio.Nonneg, eq_of_word?_eq_some hnum', eq_of_word?_eq_some hbase']
    exact ⟨mul_nonneg h.1 hnum, mul_nonneg h.2 hbase⟩
  · cases hok

theorem Nonneg.value_factor {r : TupletRatio} (h : r.Nonneg) {factor : Fraction}
    (hok : r.factor = .ok factor) : 0 ≤ factor.value := by
  rw [TupletRatio.factor] at hok
  split_ifs at hok
  split at hok
  · rename_i a ha
    cases hok
    rw [Fraction.value_of_reduced? ha]
    exact div_nonneg (Int.cast_nonneg h.2) (Int.cast_nonneg h.1)
  · cases hok

end TupletRatio

theorem NoteValue.value_wholeNotes_nonneg (v : NoteValue) : 0 ≤ v.wholeNotes.value := by
  rw [wholeNotes]
  cases h : Fraction.reduced? 4 (Int.pow 2 v.code) with
  | none => exact Fraction.value_zero.ge
  | some a =>
    rw [Option.getD_some, Fraction.value_of_reduced? h]
    have hpow : (0 : ℤ) ≤ Int.pow 2 v.code := Int.pow_nonneg (by decide)
    exact div_nonneg (by norm_num) (Int.cast_nonneg hpow)

namespace Duration

theorem value_dotted?_nonneg {time dotted : Fraction} {dots : ℕ} (htime : 0 ≤ time.value)
    (h : dotted? time dots = some dotted) : 0 ≤ dotted.value := by
  simp only [dotted?, Option.bind_eq_bind, Option.bind_eq_some_iff] at h
  obtain ⟨two, htwo, doubled, hdoubled, power, hpower, last, hlast, hsub⟩ := h
  have hpow : (1 : ℤ) ≤ Int.pow 2 dots := Int.pow_pos (by decide)
  have hlast_le : last.value ≤ time.value := by
    rw [Fraction.value_of_div? hlast, Fraction.value_of_ofParts? hpower, Int.cast_one, div_one]
    exact div_le_self htime (by exact_mod_cast hpow)
  rw [Fraction.value_of_sub? hsub, Fraction.value_of_mul? hdoubled, Fraction.value_of_ofParts? htwo]
  norm_num
  linarith

theorem eq_some_of_orOverflow {β : Type} {o : Option β} {b : β} (h : orOverflow o = .ok b) :
    o = some b := by
  cases o with
  | none => cases h
  | some b' => exact congrArg some (Except.ok.inj h)

theorem getD_map_toNat_nonneg (n : Option UInt32) : 0 ≤ (n.map fun n => (n.toNat : ℤ)).getD 1 := by
  cases n with
  | none => decide
  | some n => exact Int.natCast_nonneg n.toNat

/-- No duration is below zero. -/
theorem value_resolve_nonneg {d : Duration} {r : TupletRatio} {time : Fraction} (hr : r.Nonneg)
    (h : d.resolve r = .ok time) : 0 ≤ time.value := by
  rw [resolve] at h
  split at h
  · rename_i performed _ _
    split_ifs at h with _ hneg
    cases h
    rw [Fraction.lt_iff_value, Fraction.value_zero] at hneg
    exact not_lt.1 hneg
  · cases h
  · rename_i value _ _
    obtain ⟨ratio, hratio, h⟩ := except_bind_eq_ok.1 h
    obtain ⟨factor, hfactor, h⟩ := except_bind_eq_ok.1 h
    obtain ⟨undotted, hundotted, h⟩ := except_bind_eq_ok.1 h
    have hratio_nonneg : ratio.Nonneg :=
      hr.combine (getD_map_toNat_nonneg d.ratioNum) (getD_map_toNat_nonneg d.ratioBase) hratio
    have htime : 0 ≤ undotted.value := by
      rw [Fraction.value_of_mul? (eq_some_of_orOverflow hundotted)]
      exact mul_nonneg value.value_wholeNotes_nonneg (hratio_nonneg.value_factor hfactor)
    split_ifs at h
    · cases h
      exact htime
    · exact value_dotted?_nonneg htime (eq_some_of_orOverflow h)

end Duration

end ScoreLayout
