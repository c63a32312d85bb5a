import ScoreLayout.Proofs.Fraction

/-!
# Computations that break down

Arithmetic on words is refused where a result does not fit, and the refusal is reported. Only where
a fraction stands over a negative number may a computation end without a result: the lowest word
then has no counterpart to reduce to. Every sum, difference and product is written over a positive
number, so the one source of such fractions is a performed time.

## Main definitions

* `Duration.OverNegative` — a performed time written over a negative number.

## Main results

* `Fraction.add_ne_breakdown` — sums of fractions over positive numbers.
* `Duration.advance_ne_breakdown`, `Duration.den_pos_of_advance` — the times by which durations move
  their layers on.
-/

namespace ScoreLayout

theorem except_bind_eq_error {ε β γ : Type} {x : Except ε β} {f : β → Except ε γ} {e : ε} :
    x >>= f = .error e ↔ x = .error e ∨ ∃ b, x = .ok b ∧ f b = .error e := by
  cases x <;> simp [bind, Except.bind]

namespace Fraction

/-- A reduced fraction stands over a positive denominator. -/
theorem den_pos_of_reduced? {num den : ℤ} {a : Fraction} (h : reduced? num den = some a) :
    0 < a.den := by
  obtain ⟨-, hden⟩ := ofParts?_eq_some_iff.1 h
  have hne := a.den_ne_zero
  rw [← hden] at hne ⊢
  have hgcd : (0 : ℤ) ≤ Int.gcd num den := Int.natCast_nonneg _
  have hmul := Int.ediv_mul_cancel (Int.gcd_dvd_right num den)
  refine lt_of_le_of_ne ?_ hne.symm
  rcases lt_trichotomy den 0 with h | h | h
  · rw [Int.sign_eq_neg_one_of_neg h]
    nlinarith
  · rw [h, Int.zero_ediv, mul_zero]
  · rw [Int.sign_eq_one_of_pos h, one_mul]
    exact Int.ediv_nonneg h.le hgcd

/-- A word divided by a positive number is a word. -/
theorem fitsWord_ediv {z k : ℤ} (hz : FitsWord z) (hk : 0 < k) : FitsWord (z / k) := by
  rcases le_total 0 z with h | h
  · exact ⟨by have := Int.ediv_nonneg h hk.le; omega, (Int.ediv_le_self _ h).trans hz.2⟩
  · have hone : (1 : ℤ) ≤ k := hk
    have hle : k * (z / k) ≤ z := by
      have := Int.emod_add_mul_ediv z k
      have := Int.emod_nonneg z hk.ne'
      omega
    have hlt : z < k * (z / k) + k := by
      have := Int.emod_add_mul_ediv z k
      have := Int.emod_lt_of_pos z hk
      omega
    constructor
    · have := hz.1
      nlinarith
    · nlinarith

/-- Two words over a positive one have a reduced form. -/
theorem exists_reduced? {num den : ℤ} (hnum : FitsWord num) (hden : FitsWord den)
    (hpos : 0 < den) : ∃ a, reduced? num den = some a := by
  have hgcd : (0 : ℤ) < Int.gcd num den := by
    exact_mod_cast Int.gcd_pos_of_ne_zero_right num hpos.ne'
  have hquot : 0 < den / Int.gcd num den :=
    Int.ediv_pos_of_pos_of_dvd hpos hgcd.le (Int.gcd_dvd_right ..)
  rw [reduced?, Int.sign_eq_one_of_pos hpos, one_mul, one_mul, ofParts?,
    dif_pos ⟨fitsWord_ediv hnum hgcd, fitsWord_ediv hden hgcd, hquot.ne'⟩]
  exact ⟨_, rfl⟩

/-- The sum of two fractions over positive denominators is found or refused. -/
theorem add_ne_breakdown {a b : Fraction} (ha : 0 < a.den) (hb : 0 < b.den) :
    a.add b ≠ .error .breakdown := by
  have hgcd : FitsWord (Int.gcd a.den b.den) := by
    have hle : (Int.gcd a.den b.den : ℤ) ≤ a.den := Int.le_of_dvd ha (Int.gcd_dvd_left ..)
    exact ⟨by omega, hle.trans a.den_fits.2⟩
  rw [add, if_neg (not_not.2 hgcd)]
  cases hterms : commonTerms? a b with
  | none => simp
  | some terms =>
    obtain ⟨left, right, multiple⟩ := terms
    dsimp only
    cases htotal : word? (left + right) with
    | none => simp
    | some total =>
      simp only [commonTerms?, Option.bind_eq_bind, Option.bind_eq_some_iff, Option.pure_def,
        Option.some.injEq, Prod.mk.injEq] at hterms
      obtain ⟨m, hm, -, -, -, -, -, -, rfl⟩ := hterms
      obtain ⟨hm, hfits⟩ := word?_eq_some_iff.1 hm
      obtain ⟨htotal, htotal'⟩ := word?_eq_some_iff.1 htotal
      have hpos : 0 < m := by
        rw [← hm]
        exact mul_pos (Int.ediv_pos_of_pos_of_dvd ha (Int.natCast_nonneg _) (Int.gcd_dvd_left ..)) hb
      obtain ⟨sum, hsum⟩ := exists_reduced? (htotal ▸ htotal') (hm ▸ hfits) hpos
      dsimp only
      rw [hsum]
      simp

theorem den_pos_of_add {a b sum : Fraction} (h : a.add b = .ok sum) : 0 < sum.den := by
  unfold add at h
  split_ifs at h
  split at h
  · cases h
  · split at h
    · cases h
    · split at h
      · rename_i hsum
        cases h
        exact den_pos_of_reduced? hsum
      · cases h

theorem den_pos_of_sub? {a b difference : Fraction} (h : a.sub? b = some difference) :
    0 < difference.den := by
  simp only [sub?, Option.bind_eq_bind, Option.bind_eq_some_iff] at h
  obtain ⟨⟨left, right, multiple⟩, -, total, -, hreduced⟩ := h
  exact den_pos_of_reduced? hreduced

theorem den_pos_of_mul? {a b product : Fraction} (h : a.mul? b = some product) :
    0 < product.den := by
  simp only [mul?, Option.bind_eq_bind, Option.bind_eq_some_iff] at h
  obtain ⟨num, -, den, -, hreduced⟩ := h
  exact den_pos_of_reduced? hreduced

end Fraction

theorem MeterSig.den_measureDuration_pos (m : MeterSig) : 0 < m.measureDuration.den := by
  rw [measureDuration]
  cases h : Fraction.reduced? m.count.toNat m.beatsPerWhole with
  | none => exact Int.one_pos
  | some a => exact Fraction.den_pos_of_reduced? h

namespace TupletRatio

/-- Ratios never multiply to what breaks down. -/
theorem combine_ne_breakdown (r : TupletRatio) (num base : ℤ) :
    r.combine num base ≠ .error .breakdown := by
  rw [combine]
  split <;> simp

theorem Nonneg.factor_ne_breakdown {r r' : TupletRatio} {num base : ℤ} (h : r'.Nonneg)
    (hok : r.combine num base = .ok r') : r'.factor ≠ .error .breakdown := by
  rw [TupletRatio.combine] at hok
  split at hok
  · rename_i num' base' hnum hbase
    cases hok
    obtain ⟨hnum, hnum'⟩ := word?_eq_some_iff.1 hnum
    obtain ⟨hbase, hbase'⟩ := word?_eq_some_iff.1 hbase
    rw [factor]
    dsimp only
    split_ifs with hzero
    · simp
    · obtain ⟨hne, -⟩ := not_or.1 hzero
      obtain ⟨a, ha⟩ := Fraction.exists_reduced? (hbase ▸ hbase') (hnum ▸ hnum')
        (lt_of_le_of_ne h.1 (Ne.symm hne))
      rw [ha]
      simp
  · cases hok

end TupletRatio

namespace Duration

/-- A duration whose performed time is written over a negative number. -/
def OverNegative (d : Duration) : Prop := ∃ time, d.performed = some time ∧ time.den < 0

variable {d : Duration} {r : TupletRatio}

theorem orOverflow_ne_breakdown {β : Type} (o : Option β) :
    orOverflow o ≠ .error .breakdown := by cases o <;> nofun

theorem den_pos_of_dotted? {time dotted : Fraction} {dots : ℕ}
    (h : dotted? time dots = some dotted) : 0 < dotted.den := by
  simp only [dotted?, Option.bind_eq_bind, Option.bind_eq_some_iff] at h
  obtain ⟨two, -, doubled, -, power, -, last, -, hsub⟩ := h
  exact Fraction.den_pos_of_sub? hsub

/-- Unless its performed time is written over a negative number, a duration resolves to a time over
a positive one. -/
theorem den_pos_of_resolve (hd : ¬ d.OverNegative) {time : Fraction}
    (h : d.resolve r = .ok time) : 0 < time.den := by
  rw [resolve] at h
  split at h
  · rename_i performed hperformed
    split_ifs at h
    cases h
    exact lt_of_le_of_ne (not_lt.1 fun hneg => hd ⟨_, hperformed, hneg⟩) time.den_ne_zero.symm
  · cases h
  · obtain ⟨ratio, -, h⟩ := except_bind_eq_ok.1 h
    obtain ⟨factor, -, h⟩ := except_bind_eq_ok.1 h
    obtain ⟨undotted, hundotted, h⟩ := except_bind_eq_ok.1 h
    split_ifs at h
    · cases h
      exact Fraction.den_pos_of_mul? (eq_some_of_orOverflow hundotted)
    · exact den_pos_of_dotted? (eq_some_of_orOverflow h)

/-- Unless its performed time is written over a negative number, a duration resolves, or has a
reason not to that can be reported. -/
theorem resolve_ne_breakdown (hr : r.Nonneg) (hd : ¬ d.OverNegative) :
    d.resolve r ≠ .error .breakdown := by
  intro h
  rw [resolve] at h
  split at h
  · rename_i time htime
    have hpos : 0 < time.den := lt_of_le_of_ne
      (not_lt.1 fun hneg => hd ⟨time, htime, hneg⟩) time.den_ne_zero.symm
    rw [if_neg (not_not.2 (Fraction.fitsWord_ediv time.num_fits hpos))] at h
    split_ifs at h
    cases h
  · cases h
  · obtain h | ⟨ratio, hratio, h⟩ := except_bind_eq_error.1 h
    · exact r.combine_ne_breakdown _ _ h
    · have hratio_nonneg : ratio.Nonneg :=
        hr.combine (getD_map_toNat_nonneg d.ratioNum) (getD_map_toNat_nonneg d.ratioBase) hratio
      obtain h | ⟨factor, -, h⟩ := except_bind_eq_error.1 h
      · exact hratio_nonneg.factor_ne_breakdown hratio h
      · obtain h | ⟨undotted, -, h⟩ := except_bind_eq_error.1 h
        · exact orOverflow_ne_breakdown _ h
        · split_ifs at h
          · cases h
          · exact orOverflow_ne_breakdown _ h

theorem den_pos_of_advance (hd : ¬ d.OverNegative) {time : Fraction}
    (h : d.advance r = .ok time) : 0 < time.den := by
  rw [advance] at h
  split_ifs at h
  · exact Except.ok.inj h ▸ Int.one_pos
  · exact den_pos_of_resolve hd h

theorem advance_ne_breakdown (hr : r.Nonneg) (hd : ¬ d.OverNegative) :
    d.advance r ≠ .error .breakdown := by
  rw [advance]
  split_ifs
  · nofun
  · exact resolve_ne_breakdown hr hd

end Duration

end ScoreLayout
