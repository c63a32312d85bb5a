import Mathlib.Data.Rat.Lemmas
import Mathlib.RingTheory.Coprime.Lemmas
import ScoreLayout.Proofs.Breakdowns

/-!
# Fractions in lowest terms

A rational number has one fraction in lowest terms, and that is a fraction of words unless one of its
two terms is too large. Products and quotients of fractions in lowest terms are found exactly when
the rational result has such a fraction, and are then that fraction: cancelling before multiplying
leaves nothing to be reduced afterwards, so no word overflows on the way.

## Main definitions

* `Fraction.ofRat?` — the fraction of a rational number.
* `Fraction.Lowest` — a fraction in lowest terms over a positive denominator.
* `Fraction.Elapsed` — a time that is not before the start, and written as zero at the start.

## Main results

* `Fraction.reduced?_eq_ofRat?` — reduction gives lowest terms.
* `Fraction.mul?_eq_ofRat?`, `Fraction.div?_eq_ofRat?` — products and quotients.
-/

namespace ScoreLayout

namespace Fraction

/-- The fraction of a rational number, unless one of its terms is beyond a word. -/
def ofRat? (q : ℚ) : Option Fraction := ofParts? q.num q.den

/-- A fraction in lowest terms over a positive denominator. -/
def Lowest (a : Fraction) : Prop := ofRat? a.value = some a

variable {a b c : Fraction} {q : ℚ} {num den : ℤ}

theorem ofRat?_eq_some_iff : ofRat? q = some a ↔ q.num = a.num ∧ (q.den : ℤ) = a.den :=
  ofParts?_eq_some_iff

theorem value_of_ofRat? (h : ofRat? q = some a) : a.value = q := by
  obtain ⟨hnum, hden⟩ := ofRat?_eq_some_iff.1 h
  rw [value, ← hnum, ← hden, Int.cast_natCast, Rat.num_div_den]

theorem lowest_of_ofRat? (h : ofRat? q = some a) : a.Lowest := by rwa [Lowest, value_of_ofRat? h]

/-- A rational number has a fraction exactly when both its terms are words. -/
theorem isSome_ofRat?_iff : (ofRat? q).isSome ↔ FitsWord q.num ∧ FitsWord q.den := by
  have hden : (q.den : ℤ) ≠ 0 := Int.natCast_ne_zero.2 q.den_nz
  rw [ofRat?, ofParts?]
  split_ifs with h
  · exact iff_of_true rfl ⟨h.1, h.2.1⟩
  · exact iff_of_false (by simp) fun hfits => h ⟨hfits.1, hfits.2, hden⟩

theorem Lowest.num_eq (ha : a.Lowest) : a.value.num = a.num := (ofRat?_eq_some_iff.1 ha).1

theorem Lowest.den_eq (ha : a.Lowest) : (a.value.den : ℤ) = a.den := (ofRat?_eq_some_iff.1 ha).2

theorem Lowest.den_pos (ha : a.Lowest) : 0 < a.den := by
  rw [← ha.den_eq]
  exact Int.natCast_pos.2 a.value.den_pos

theorem Lowest.isCoprime (ha : a.Lowest) : IsCoprime a.num a.den := by
  rw [← ha.num_eq, ← ha.den_eq]
  exact Rat.isCoprime_num_den _

/-! ### Reduction -/

theorem reduced?_eq_ofRat? (hden : den ≠ 0) : reduced? num den = ofRat? (num / den) := by
  have hgcd (z : ℤ) (hz : (Int.gcd num den : ℤ) ∣ z) :
      den.sign * (z / Int.gcd num den) = den.sign * z / Int.gcd num den :=
    (Int.mul_ediv_assoc _ hz).symm
  rw [reduced?, ofRat?, ← Rat.divInt_eq_div, Rat.num_divInt, Rat.den_divInt, if_neg hden,
    Int.gcd_comm den num]
  rw [hgcd _ (Int.gcd_dvd_left ..), hgcd _ (Int.gcd_dvd_right ..), Int.sign_mul_self_eq_abs,
    Int.abs_eq_natAbs, Int.natCast_div]

theorem lowest_of_reduced? (h : reduced? num den = some a) : a.Lowest := by
  have hden : den ≠ 0 := by
    rintro rfl
    obtain ⟨-, hzero⟩ := ofParts?_eq_some_iff.1 h
    exact a.den_ne_zero (by rw [← hzero, Int.sign_zero, zero_mul])
  exact lowest_of_ofRat? ((reduced?_eq_ofRat? hden).symm.trans h)

/-- Two terms without a common factor are taken as they are, if they are words. -/
theorem words_reduced?_eq_ofRat? (hden : 0 < den) (hcoprime : IsCoprime num den) :
    ((word? num).bind fun num => (word? den).bind fun den => reduced? num den) =
      ofRat? (num / den) := by
  have hparts : ofRat? (num / den) = ofParts? num den := by
    have hnat : num.natAbs.Coprime den.natAbs := Int.isCoprime_iff_gcd_eq_one.1 hcoprime
    rw [ofRat?, Rat.num_div_eq_of_coprime hden hnat, Rat.den_div_eq_of_coprime hden hnat]
  by_cases hnum : FitsWord num
  · by_cases hfits : FitsWord den
    · rw [word?, if_pos hnum, word?, if_pos hfits]
      exact reduced?_eq_ofRat? hden.ne'
    · rw [hparts, word?, if_pos hnum, word?, if_neg hfits, ofParts?, dif_neg fun h => hfits h.2.1]
      rfl
  · rw [hparts, word?, if_neg hnum, ofParts?, dif_neg fun h => hnum h.1]
    rfl

/-! ### Products and quotients -/

/-- Cancelling crosswise leaves no common factor. -/
theorem isCoprime_cross {a b c d : ℤ} (hac : IsCoprime a c) (hbd : IsCoprime b d) (hc : c ≠ 0)
    (hd : d ≠ 0) :
    IsCoprime (a / Int.gcd a d * (b / Int.gcd c b)) (c / Int.gcd c b * (d / Int.gcd a d)) := by
  have hself {x y : ℤ} (h : 0 < Int.gcd x y) : IsCoprime (x / Int.gcd x y) (y / Int.gcd x y) :=
    Int.isCoprime_iff_gcd_eq_one.2 (Int.gcd_div_gcd_div_gcd h)
  have hdvd {x g : ℤ} (h : g ∣ x) : x / g ∣ x := ⟨g, (Int.ediv_mul_cancel h).symm⟩
  have hmix {x y x' y' : ℤ} (h : IsCoprime x y) (hx : x' ∣ x) (hy : y' ∣ y) : IsCoprime x' y' :=
    (h.of_isCoprime_of_dvd_left hx).of_isCoprime_of_dvd_right hy
  refine .mul_left (.mul_right ?_ ?_) (.mul_right ?_ ?_)
  · exact hmix hac (hdvd (Int.gcd_dvd_left ..)) (hdvd (Int.gcd_dvd_left ..))
  · exact hself (Int.gcd_pos_of_ne_zero_right _ hd)
  · exact (hself (Int.gcd_pos_of_ne_zero_left _ hc)).symm
  · exact hmix hbd (hdvd (Int.gcd_dvd_right ..)) (hdvd (Int.gcd_dvd_right ..))

theorem mul?_eq_ofRat? (ha : a.Lowest) (hb : b.Lowest) : a.mul? b = ofRat? (a.value * b.value) := by
  have hvalue := div_mul_div_div_eq (Int.gcd_dvd_left a.num b.den) (Int.gcd_dvd_right a.num b.den)
    (Int.gcd_dvd_left a.den b.num) (Int.gcd_dvd_right a.den b.num) a.den_ne_zero b.den_ne_zero
  have hpos : 0 < a.den / Int.gcd a.den b.num * (b.den / Int.gcd a.num b.den) :=
    mul_pos (Int.ediv_pos_of_pos_of_dvd ha.den_pos (Int.natCast_nonneg _) (Int.gcd_dvd_left ..))
      (Int.ediv_pos_of_pos_of_dvd hb.den_pos (Int.natCast_nonneg _) (Int.gcd_dvd_right ..))
  rw [value, value, ← hvalue]
  exact words_reduced?_eq_ofRat? hpos
    (isCoprime_cross ha.isCoprime hb.isCoprime a.den_ne_zero b.den_ne_zero)

theorem div?_eq_ofRat? (ha : a.Lowest) (hb : b.Lowest) (hpos : 0 < b.num) :
    a.div? b = ofRat? (a.value / b.value) := by
  have hquotient : a.value / b.value = (a.num / a.den) * (b.den / b.num) := by
    rw [value, value, div_div_eq_mul_div, ← mul_div_assoc]
  rw [div?, if_neg hpos.ne']
  split_ifs with hden hnum
  · rw [reduced?_eq_ofRat? hpos.ne', value, value, hden,
      div_div_div_cancel_right₀ b.den_cast_ne_zero]
  · rw [reduced?_eq_ofRat? a.den_ne_zero, value, value, hnum,
      div_div_div_cancel_left' _ _ (Int.cast_ne_zero.2 hpos.ne')]
  · have hvalue := div_mul_div_div_eq (Int.gcd_dvd_left a.num b.num) (Int.gcd_dvd_right a.num b.num)
      (Int.gcd_dvd_left a.den b.den) (Int.gcd_dvd_right a.den b.den) a.den_ne_zero hpos.ne'
    have hden_pos : 0 < a.den / Int.gcd a.den b.den * (b.num / Int.gcd a.num b.num) :=
      mul_pos (Int.ediv_pos_of_pos_of_dvd ha.den_pos (Int.natCast_nonneg _) (Int.gcd_dvd_left ..))
        (Int.ediv_pos_of_pos_of_dvd hpos (Int.natCast_nonneg _) (Int.gcd_dvd_right ..))
    rw [hquotient, ← hvalue]
    exact words_reduced?_eq_ofRat? hden_pos
      (isCoprime_cross ha.isCoprime hb.isCoprime.symm a.den_ne_zero hpos.ne')

/-! ### Times behind the start -/

theorem lowest_zero : Lowest 0 := by
  rw [Lowest, value_zero]
  rfl

theorem lowest_getD {o : Option Fraction} (h : ∀ c, o = some c → c.Lowest) (ha : a.Lowest) :
    (o.getD a).Lowest := by
  cases o with
  | none => exact ha
  | some c => exact h c rfl

theorem lowest_of_mul? (h : a.mul? b = some c) : c.Lowest := by
  simp only [mul?, Option.bind_eq_bind, Option.bind_eq_some_iff] at h
  obtain ⟨_, -, _, -, hreduced⟩ := h
  exact lowest_of_reduced? hreduced

/-- There is one fraction in lowest terms of value zero. -/
theorem Lowest.eq_zero (ha : a.Lowest) (hzero : a.value = 0) : a = 0 := by
  have hnone : ofRat? 0 = some a := hzero ▸ ha
  exact Option.some.inj (hnone.symm.trans rfl)

/-- A time that is not before the start, and written as zero at the start. -/
def Elapsed (a : Fraction) : Prop := a = 0 ∨ 0 < a

namespace Elapsed

theorem zero : Elapsed 0 := .inl rfl

theorem eq_zero (h : a.Elapsed) (hzero : a.value = 0) : a = 0 :=
  h.resolve_right fun hpos => (lt_iff_value.1 hpos).ne (value_zero.trans hzero.symm)

theorem of_lowest (ha : a.Lowest) (hneg : ¬ a < 0) : a.Elapsed := by
  rw [lt_iff_value, value_zero, not_lt] at hneg
  refine hneg.eq_or_lt.imp (fun hzero => ha.eq_zero hzero.symm) fun hpos => lt_iff_value.2 ?_
  rwa [value_zero]

theorem max (ha : a.Elapsed) (b : Fraction) : (a.max b).Elapsed := by
  rw [Fraction.max]
  split_ifs with hlt
  · rw [lt_iff_value] at hlt
    refine .inr (lt_iff_value.2 (lt_of_le_of_lt ?_ hlt))
    rcases ha with rfl | hpos
    · exact le_rfl
    · exact (lt_iff_value.1 hpos).le
  · exact ha

end Elapsed

end Fraction

end ScoreLayout
