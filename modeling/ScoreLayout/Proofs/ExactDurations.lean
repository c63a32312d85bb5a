import Mathlib.Tactic.FinCases
import ScoreLayout.Proofs.LowestTerms

/-!
# Exact durations

A written duration resolves to the exact time that its note value, its dots and the ratios around it
say, or is refused with a reason. The reason is exact as well: a time is missing, negative or in a
ratio without sense exactly when it should be called so, and is too large exactly when a ratio is no
word or when the time of the last dot, in lowest terms, is too small a unit to count the dotted time
in words.

One performed time has no answer at all, which is a defect: the lowest word over minus one is beyond
every word, and comparing it with zero breaks down.

## Main definitions

* `TupletRatio.Nested` — the ratios of nested tuplets.
* `Duration.ratioIn`, `NoteValue.timeIn`, `Duration.dotFactor` — the exact time.
* `Duration.Fits` — a written time that words can express.
* `Duration.words` — all numbers that are computed on the way without a check.
* `Duration.ExactOrRefused` — what resolving a duration does.

## Main results

* `Duration.isSome_dotted?_iff` — when a dotted time is found.
* `TupletRatio.Nested.exactOrRefused` — every duration in every tuplet.
* `Duration.breakdown_of_lowest` — the defect.
-/

namespace ScoreLayout

/-! ### What is computed without a check -/

namespace Fraction

/-- What a reduction computes: a common divisor and two quotients. -/
def reducedWords (num den : ℤ) : List ℤ :=
  [Int.gcd num den, num / Int.gcd num den, den / Int.gcd num den]

/-- What a reduction of two terms computes, if both are accepted. -/
def acceptedWords (num den : ℤ) : List ℤ :=
  match word? num, word? den with
  | some num, some den => reducedWords num den
  | _, _ => []

/-- What a product of two quotients computes beside the products: common divisors and quotients. -/
def crossWords (a b c d : ℤ) : List ℤ :=
  [(Int.gcd a d : ℤ), Int.gcd c b, a / Int.gcd a d, b / Int.gcd c b, c / Int.gcd c b,
    d / Int.gcd a d] ++
    acceptedWords (a / Int.gcd a d * (b / Int.gcd c b)) (c / Int.gcd c b * (d / Int.gcd a d))

/-- What a product computes. -/
def mulWords (a b : Fraction) : List ℤ := crossWords a.num b.num a.den b.den

/-- What a quotient computes. -/
def divWords (a b : Fraction) : List ℤ :=
  if a.den = b.den then reducedWords a.num b.num
  else if a.num = b.num then reducedWords b.den a.den
  else crossWords a.num b.den a.den b.num

/-- What a difference computes. -/
def subWords (a b : Fraction) : List ℤ :=
  [(Int.gcd a.den b.den : ℤ), a.den / Int.gcd a.den b.den] ++
    match word? (a.den / Int.gcd a.den b.den * b.den) with
    | none => []
    | some multiple => [multiple / a.den, multiple / b.den] ++
      match commonTerms? a b with
      | none => []
      | some (left, right, multiple) => acceptedWords (left - right) multiple

variable {a b : Fraction} {num den : ℤ}

theorem fitsWord_gcd {x y : ℤ} (hy : FitsWord y) (hpos : 0 < y) : FitsWord (Int.gcd x y) := by
  have hle : (Int.gcd x y : ℤ) ≤ y := Int.le_of_dvd hpos (Int.gcd_dvd_right ..)
  exact ⟨by omega, hle.trans hy.2⟩

theorem gcd_cast_pos {x y : ℤ} (hpos : 0 < y) : (0 : ℤ) < Int.gcd x y :=
  Int.natCast_pos.2 (Int.gcd_pos_of_ne_zero_right x hpos.ne')

theorem fitsWord_reducedWords (hnum : FitsWord num) (hden : FitsWord den) (hpos : 0 < den) :
    ∀ z ∈ reducedWords num den, FitsWord z := by
  have hgcd := gcd_cast_pos (x := num) hpos
  simp only [reducedWords, List.forall_mem_cons]
  exact ⟨fitsWord_gcd hden hpos, fitsWord_ediv hnum hgcd, fitsWord_ediv hden hgcd,
    fun _ h => absurd h List.not_mem_nil⟩

theorem fitsWord_acceptedWords (hpos : 0 < den) : ∀ z ∈ acceptedWords num den, FitsWord z := by
  rw [acceptedWords]
  split
  · rename_i hnum hden
    obtain ⟨rfl, hfits⟩ := word?_eq_some_iff.1 hnum
    obtain ⟨rfl, hfits'⟩ := word?_eq_some_iff.1 hden
    exact fitsWord_reducedWords hfits hfits' hpos
  · exact fun _ h => absurd h List.not_mem_nil

theorem fitsWord_crossWords {a b c d : ℤ} (ha : FitsWord a) (hb : FitsWord b) (hc : FitsWord c)
    (hd : FitsWord d) (hc_pos : 0 < c) (hd_pos : 0 < d) :
    ∀ z ∈ crossWords a b c d, FitsWord z := by
  have hfirst := gcd_cast_pos (x := a) hd_pos
  have hsecond : (0 : ℤ) < Int.gcd c b := by
    rw [Int.gcd_comm]
    exact gcd_cast_pos hc_pos
  have hquot : 0 < c / Int.gcd c b * (d / Int.gcd a d) :=
    mul_pos (Int.ediv_pos_of_pos_of_dvd hc_pos hsecond.le (Int.gcd_dvd_left ..))
      (Int.ediv_pos_of_pos_of_dvd hd_pos hfirst.le (Int.gcd_dvd_right ..))
  have hgcd : FitsWord (Int.gcd c b) := by
    rw [Int.gcd_comm]
    exact fitsWord_gcd hc hc_pos
  rw [crossWords, List.forall_mem_append]
  refine ⟨?_, fitsWord_acceptedWords hquot⟩
  simp only [List.forall_mem_cons]
  exact ⟨fitsWord_gcd hd hd_pos, hgcd, fitsWord_ediv ha hfirst, fitsWord_ediv hb hsecond,
    fitsWord_ediv hc hsecond, fitsWord_ediv hd hfirst, fun _ h => absurd h List.not_mem_nil⟩

theorem fitsWord_mulWords (ha : 0 < a.den) (hb : 0 < b.den) :
    ∀ z ∈ mulWords a b, FitsWord z :=
  fitsWord_crossWords a.num_fits b.num_fits a.den_fits b.den_fits ha hb

theorem fitsWord_divWords (ha : 0 < a.den) (hb : 0 < b.num) :
    ∀ z ∈ divWords a b, FitsWord z := by
  rw [divWords]
  split_ifs
  · exact fitsWord_reducedWords a.num_fits b.num_fits hb
  · exact fitsWord_reducedWords b.den_fits a.den_fits ha
  · exact fitsWord_crossWords a.num_fits b.den_fits a.den_fits b.num_fits ha hb

theorem fitsWord_subWords (ha : 0 < a.den) (hb : 0 < b.den) : ∀ z ∈ subWords a b, FitsWord z := by
  have hgcd := gcd_cast_pos (x := a.den) hb
  rw [subWords, List.forall_mem_append]
  refine ⟨?_, ?_⟩
  · simp only [List.forall_mem_cons]
    exact ⟨fitsWord_gcd b.den_fits hb, fitsWord_ediv a.den_fits hgcd,
      fun _ h => absurd h List.not_mem_nil⟩
  · split
    · exact fun _ h => absurd h List.not_mem_nil
    · rename_i multiple hmultiple
      obtain ⟨hmultiple, hfits⟩ := word?_eq_some_iff.1 hmultiple
      rw [List.forall_mem_append]
      refine ⟨?_, ?_⟩
      · simp only [List.forall_mem_cons]
        exact ⟨fitsWord_ediv (hmultiple ▸ hfits) ha, fitsWord_ediv (hmultiple ▸ hfits) hb,
          fun _ h => absurd h List.not_mem_nil⟩
      · split
        · exact fun _ h => absurd h List.not_mem_nil
        · rename_i left right m hterms
          simp only [commonTerms?, Option.bind_eq_bind, Option.bind_eq_some_iff, Option.pure_def,
            Option.some.injEq, Prod.mk.injEq] at hterms
          obtain ⟨m', hm, -, -, -, -, -, -, rfl⟩ := hterms
          refine fitsWord_acceptedWords ?_
          rw [eq_of_word?_eq_some hm]
          exact mul_pos (Int.ediv_pos_of_pos_of_dvd ha hgcd.le (Int.gcd_dvd_left ..)) hb

end Fraction

/-! ### Ratios -/

namespace TupletRatio

/-- The ratios of nested tuplets. -/
inductive Nested : TupletRatio → Prop
  | one : Nested one
  | combine {r r' : TupletRatio} (h : Nested r) (num base : UInt32)
      (hok : r.combine num.toNat base.toNat = .ok r') : Nested r'

theorem Nested.nonneg {r : TupletRatio} (h : r.Nested) : r.Nonneg := by
  induction h with
  | one => exact nonneg_one
  | combine _ num base hok ih =>
    exact ih.combine (Int.natCast_nonneg num.toNat) (Int.natCast_nonneg base.toNat) hok

theorem combine_eq (r : TupletRatio) (num base : ℤ) :
    r.combine num base =
      if FitsWord (r.num * num) ∧ FitsWord (r.base * base) then .ok ⟨r.num * num, r.base * base⟩
      else .error .overflow := by
  rw [combine]
  split
  · rename_i hnum hbase
    obtain ⟨rfl, hfits⟩ := word?_eq_some_iff.1 hnum
    obtain ⟨rfl, hfits'⟩ := word?_eq_some_iff.1 hbase
    rw [if_pos ⟨hfits, hfits'⟩]
  · rename_i h
    rw [if_neg fun hfits => h _ _ (word?_eq_some_iff.2 ⟨rfl, hfits.1⟩)
      (word?_eq_some_iff.2 ⟨rfl, hfits.2⟩)]

theorem factor_eq_error {r : TupletRatio} (h : r.num = 0 ∨ r.base = 0) :
    r.factor = .error (.zeroRatio r.num r.base) := by rw [TupletRatio.factor, if_pos h]

/-- A ratio whose terms are words above zero multiplies by their quotient. -/
theorem factor_eq_ok {r : TupletRatio} (hnum : FitsWord r.num) (hbase : FitsWord r.base)
    (hnum_pos : 0 < r.num) (hbase_pos : 0 < r.base) :
    ∃ factor, r.factor = .ok factor ∧ factor.Lowest ∧ factor.value = r.base / r.num := by
  obtain ⟨factor, hfactor⟩ := Fraction.exists_reduced? hbase hnum hnum_pos
  refine ⟨factor, ?_, Fraction.lowest_of_reduced? hfactor, Fraction.value_of_reduced? hfactor⟩
  rw [TupletRatio.factor, if_neg (by omega), hfactor]

end TupletRatio

/-! ### Note values -/

namespace NoteValue

/-- The exact time of an undotted note value inside a ratio. -/
def timeIn (v : NoteValue) (r : TupletRatio) : ℚ := 2 ^ (2 - (v.code : ℤ)) * (r.base / r.num)

theorem wholeNotes_eq (v : NoteValue) :
    Fraction.reduced? 4 (Int.pow 2 v.code) = some v.wholeNotes := by cases v <;> rfl

theorem lowest_wholeNotes (v : NoteValue) : v.wholeNotes.Lowest :=
  Fraction.lowest_of_reduced? v.wholeNotes_eq

theorem value_wholeNotes (v : NoteValue) : v.wholeNotes.value = 2 ^ (2 - (v.code : ℤ)) := by
  rw [Fraction.value_of_reduced? v.wholeNotes_eq, zpow_sub₀ (by norm_num), zpow_natCast]
  norm_num

theorem timeIn_pos {v : NoteValue} {r : TupletRatio} (hnum : 0 < r.num) (hbase : 0 < r.base) :
    0 < v.timeIn r :=
  mul_pos (zpow_pos (by norm_num) _) (div_pos (Int.cast_pos.2 hbase) (Int.cast_pos.2 hnum))

end NoteValue

/-! ### Dots -/

namespace Duration

/-- The factor by which dots prolong a time. -/
def dotFactor (dots : ℕ) : ℚ := 2 - 2 ^ (-(dots : ℤ))

theorem dotFactor_pos (dots : ℕ) : 0 < dotFactor dots := by
  have hle : (2 : ℚ) ^ (-(dots : ℤ)) ≤ 1 := zpow_le_one_of_nonpos₀ (by norm_num) (by omega)
  rw [dotFactor]
  linarith

/-- What a dotted time computes. -/
def dotWords (time : Fraction) (dots : ℕ) : List ℤ :=
  2 ^ dots ::
    match Fraction.ofParts? 2 1, Fraction.ofParts? (2 ^ dots) 1 with
    | some two, some power =>
      time.mulWords two ++ time.divWords power ++
        match time.mul? two, time.div? power with
        | some doubled, some last => doubled.subWords last
        | _, _ => []
    | _, _ => []

/-- The last dot of a dotted time. -/
theorem exists_power {dots : ℕ} (hdots : dots ≤ 8) :
    ∃ power, Fraction.ofParts? (2 ^ dots) 1 = some power ∧ power.Lowest ∧ power.num = 2 ^ dots ∧
      power.value = 2 ^ dots := by
  have hle : (2 : ℤ) ^ dots ≤ 2 ^ 8 := pow_le_pow_right₀ (by norm_num) hdots
  have hpos : (0 : ℤ) < 2 ^ dots := by positivity
  have hfits : FitsWord (2 ^ dots) := ⟨by omega, by omega⟩
  have hparts := Fraction.ofParts?_num_den
    ⟨2 ^ dots, 1, hfits, by decide, by decide⟩
  have hvalue := Fraction.value_of_ofParts? hparts
  refine ⟨_, hparts, ?_, rfl, by rw [hvalue]; simp⟩
  rw [Fraction.Lowest, hvalue, Fraction.ofRat?_eq_some_iff]
  simp only [Int.cast_one, div_one]
  exact ⟨by exact_mod_cast Rat.num_intCast (2 ^ dots), by exact_mod_cast Rat.den_intCast (2 ^ dots)⟩

/-- A difference whose second denominator is a multiple of the first. -/
theorem sub?_of_dvd {a b : Fraction} (ha : 0 < a.den) (hdvd : a.den ∣ b.den) :
    a.sub? b = (word? (b.den / a.den * a.num)).bind fun left =>
      (word? (left - b.num)).bind fun total => Fraction.reduced? total b.den := by
  have hgcd : (Int.gcd a.den b.den : ℤ) = a.den := by
    rw [Int.gcd_eq_natAbs_left hdvd, Int.natAbs_of_nonneg ha.le]
  have hden : word? b.den = some b.den := word?_eq_some_iff.2 ⟨rfl, b.den_fits⟩
  have hnum : word? b.num = some b.num := word?_eq_some_iff.2 ⟨rfl, b.num_fits⟩
  simp only [Fraction.sub?, Fraction.commonTerms?, hgcd, Int.ediv_self ha.ne', one_mul, hden,
    Int.ediv_self b.den_ne_zero, hnum, Option.bind_eq_bind, Option.bind_some, Option.pure_def,
    Option.bind_assoc]

/-- The terms of a multiple `c * q`, counted over the denominator of `q`. -/
theorem den_mul_dvd (c : ℤ) (q : ℚ) :
    ((c * q : ℚ).den : ℤ) ∣ q.den ∧ (q.den : ℤ) / (c * q : ℚ).den * (c * q : ℚ).num = c * q.num := by
  have hdvd : (c * q : ℚ).den ∣ q.den := by
    have h := Rat.mul_den_dvd (c : ℚ) q
    rwa [Rat.den_intCast, one_mul] at h
  have hdvd' : ((c * q : ℚ).den : ℤ) ∣ q.den := Int.natCast_dvd_natCast.2 hdvd
  refine ⟨hdvd', ?_⟩
  have hden : ((c * q : ℚ).den : ℤ) ≠ 0 := Int.natCast_ne_zero.2 (Rat.den_nz _)
  have hcross : (c * q : ℚ).num * q.den = c * q.num * (c * q : ℚ).den := by
    have h : ((c * q : ℚ).num : ℚ) / (c * q : ℚ).den = c * (q.num / q.den) := by
      rw [Rat.num_div_den, Rat.num_div_den]
    rw [← mul_div_assoc, div_eq_div_iff (by exact_mod_cast hden)
      (Nat.cast_ne_zero.2 q.den_nz)] at h
    exact_mod_cast h
  refine mul_right_cancel₀ hden ?_
  rw [mul_right_comm, Int.ediv_mul_cancel hdvd', mul_comm, hcross]

/-- What a dotted time is made of: twice the time and its last dot, each in lowest terms. -/
theorem dotted?_eq {time : Fraction} {dots : ℕ} (htime : time.Lowest) (hdots : dots ≤ 8) :
    dotted? time dots = (Fraction.ofRat? (time.value * 2)).bind fun doubled =>
      (Fraction.ofRat? (time.value / 2 ^ dots)).bind fun last => doubled.sub? last := by
  obtain ⟨two, htwo, htwo_lowest, -, htwo_value⟩ := exists_power (show 1 ≤ 8 by omega)
  obtain ⟨power, hpower, hpower_lowest, hpower_num, hpower_value⟩ := exists_power hdots
  have hdoubled : time.mul? two = Fraction.ofRat? (time.value * 2) := by
    rw [Fraction.mul?_eq_ofRat? htime htwo_lowest, htwo_value, pow_one]
  have hlast : time.div? power = Fraction.ofRat? (time.value / 2 ^ dots) := by
    rw [Fraction.div?_eq_ofRat? htime hpower_lowest (by rw [hpower_num]; positivity), hpower_value]
  have hpower' : Fraction.ofParts? (Int.pow 2 dots) 1 = some power := hpower
  rw [pow_one] at htwo
  rw [← hdoubled, ← hlast, dotted?, htwo]
  simp only [hpower', Option.bind_eq_bind, Option.bind_some]

/-- A multiple of a number, both in lowest terms, less the number. -/
theorem sub?_multiple {c : ℤ} {q : ℚ} {multiple last : Fraction}
    (hmultiple : Fraction.ofRat? (c * q) = some multiple) (hlast : Fraction.ofRat? q = some last) :
    multiple.sub? last = (word? (c * q.num)).bind fun left =>
      (word? (left - q.num)).bind fun total => Fraction.reduced? total q.den := by
  obtain ⟨hnum, hden⟩ := Fraction.ofRat?_eq_some_iff.1 hmultiple
  obtain ⟨hnum', hden'⟩ := Fraction.ofRat?_eq_some_iff.1 hlast
  obtain ⟨hdvd, hterms⟩ := den_mul_dvd c q
  rw [sub?_of_dvd (Fraction.lowest_of_ofRat? hmultiple).den_pos (by rwa [← hden, ← hden']), ← hnum,
    ← hden, ← hnum', ← hden', hterms]

/-- A multiple of a number has a fraction if, over the denominator of the number, it is made of
words. -/
theorem fitsWord_multiple {c : ℤ} {q : ℚ} (hc : 0 < c) (hq : 0 < q) (hnum : FitsWord (c * q.num))
    (hden : FitsWord q.den) : FitsWord (c * q : ℚ).num ∧ FitsWord (c * q : ℚ).den := by
  obtain ⟨hdvd, hterms⟩ := den_mul_dvd c q
  have hden_pos : (0 : ℤ) < q.den := Int.natCast_pos.2 q.den_pos
  have hpos : 0 < (c * q : ℚ).num := Rat.num_pos.2 (mul_pos (Int.cast_pos.2 hc) hq)
  have hquot : 0 < (q.den : ℤ) / (c * q : ℚ).den :=
    Int.ediv_pos_of_pos_of_dvd hden_pos (Int.natCast_nonneg _) hdvd
  have hle : (c * q : ℚ).num ≤ c * q.num := by
    rw [← hterms]
    exact le_mul_of_one_le_left hpos.le hquot
  have hden_le := Int.le_of_dvd hden_pos hdvd
  exact ⟨⟨by omega, hle.trans hnum.2⟩, by omega, hden_le.trans hden.2⟩

/-- A dotted time is found exactly when its last dot, in lowest terms, counts all of it in words. -/
theorem isSome_dotted?_iff {time : Fraction} {dots : ℕ} (htime : time.Lowest)
    (hpos : 0 < time.value) (hdots : dots ≤ 8) :
    (dotted? time dots).isSome ↔
      FitsWord (2 ^ (dots + 1) * (time.value / 2 ^ dots).num) ∧
        FitsWord (time.value / 2 ^ dots).den := by
  rw [dotted?_eq htime hdots]
  have hdouble : time.value * 2 = ((2 ^ (dots + 1) : ℤ) : ℚ) * (time.value / 2 ^ dots) := by
    push_cast
    field_simp
    ring
  have hlast_pos : 0 < time.value / 2 ^ dots := by positivity
  rw [hdouble]
  generalize time.value / 2 ^ dots = q at hlast_pos ⊢
  constructor
  · intro h
    obtain ⟨dotted, h⟩ := Option.isSome_iff_exists.1 h
    obtain ⟨doubled, hdoubled, h⟩ := Option.bind_eq_some_iff.1 h
    obtain ⟨last, hlast, h⟩ := Option.bind_eq_some_iff.1 h
    rw [sub?_multiple hdoubled hlast] at h
    obtain ⟨left, hleft, -⟩ := Option.bind_eq_some_iff.1 h
    have hfits := Fraction.isSome_ofRat?_iff.1 (Option.isSome_iff_exists.2 ⟨last, hlast⟩)
    exact ⟨(word?_eq_some_iff.1 hleft).2, hfits.2⟩
  · rintro ⟨hleft, hden⟩
    have hnum_pos : 0 < q.num := Rat.num_pos.2 hlast_pos
    have hle : q.num ≤ 2 ^ (dots + 1) * q.num :=
      le_mul_of_one_le_left hnum_pos.le (one_le_pow₀ (by norm_num))
    obtain ⟨doubled, hdoubled⟩ := Option.isSome_iff_exists.1 (Fraction.isSome_ofRat?_iff.2
      (fitsWord_multiple (by positivity) hlast_pos hleft hden))
    obtain ⟨last, hlast⟩ := Option.isSome_iff_exists.1
      (Fraction.isSome_ofRat?_iff.2 ⟨⟨by omega, hle.trans hleft.2⟩, hden⟩)
    have htotal : FitsWord (2 ^ (dots + 1) * q.num - q.num) := ⟨by omega, by omega⟩
    obtain ⟨dotted, hdotted⟩ :=
      Fraction.exists_reduced? htotal hden (Int.natCast_pos.2 q.den_pos)
    rw [hdoubled, Option.bind_some, hlast, Option.bind_some, sub?_multiple hdoubled hlast, word?,
      if_pos hleft, Option.bind_some, word?, if_pos htotal, Option.bind_some, hdotted]
    rfl

theorem value_dotted? {time dotted : Fraction} {dots : ℕ} (h : dotted? time dots = some dotted) :
    dotted.value = time.value * dotFactor dots := by
  simp only [dotted?, Option.bind_eq_bind, Option.bind_eq_some_iff] at h
  obtain ⟨two, htwo, doubled, hdoubled, power, hpower, last, hlast, hsub⟩ := h
  have hpow : ((Int.pow 2 dots : ℤ) : ℚ) = 2 ^ dots := Int.cast_pow 2 dots
  rw [Fraction.value_of_sub? hsub, Fraction.value_of_mul? hdoubled, Fraction.value_of_ofParts? htwo,
    Fraction.value_of_div? hlast, Fraction.value_of_ofParts? hpower, hpow, dotFactor, zpow_neg,
    zpow_natCast]
  push_cast
  ring

theorem fitsWord_dotWords {time : Fraction} {dots : ℕ} (htime : time.Lowest)
    (hdots : dots ≤ 8) : ∀ z ∈ dotWords time dots, FitsWord z := by
  obtain ⟨two, htwo, htwo_lowest, -, -⟩ := exists_power (show 1 ≤ 8 by omega)
  obtain ⟨power, hpower, hpower_lowest, hpower_num, -⟩ := exists_power hdots
  have hpower_pos : 0 < power.num := by rw [hpower_num]; positivity
  rw [pow_one] at htwo
  rw [dotWords, htwo, hpower]
  dsimp only
  rw [List.forall_mem_cons, List.forall_mem_append, List.forall_mem_append]
  refine ⟨hpower_num ▸ power.num_fits,
    ⟨Fraction.fitsWord_mulWords htime.den_pos htwo_lowest.den_pos,
      Fraction.fitsWord_divWords htime.den_pos hpower_pos⟩, ?_⟩
  split
  · rename_i doubled last hdoubled hlast
    rw [Fraction.div?_eq_ofRat? htime hpower_lowest hpower_pos] at hlast
    exact Fraction.fitsWord_subWords (Fraction.den_pos_of_mul? hdoubled)
      (Fraction.lowest_of_ofRat? hlast).den_pos
  · exact fun _ h => absurd h List.not_mem_nil

/-! ### Resolving -/

/-- The product of the ratios around and at the duration, however large. -/
def ratioIn (d : Duration) (r : TupletRatio) : TupletRatio where
  num := r.num * (d.ratioNum.map fun n => (n.toNat : ℤ)).getD 1
  base := r.base * (d.ratioBase.map fun n => (n.toNat : ℤ)).getD 1

/-- A written time that words can express. A dotted time is counted in units of its last dot. -/
def Fits (d : Duration) (v : NoteValue) (r : TupletRatio) : Prop :=
  if d.dots = 0 then FitsWord (v.timeIn r).num ∧ FitsWord (v.timeIn r).den
  else
    FitsWord (2 ^ (d.countedDots + 1) * (v.timeIn r / 2 ^ d.countedDots).num) ∧
      FitsWord (v.timeIn r / 2 ^ d.countedDots).den

/-- The numbers that resolving a duration computes without a check that they are words: the whole
part and the rest of a performed time, which is compared with zero by them, or the common divisors,
quotients and powers of a written one. -/
def words (d : Duration) (r : TupletRatio) : List ℤ :=
  match d.performed, d.value with
  | some time, _ => [time.num.fdiv time.den, time.num.fmod time.den]
  | none, none => []
  | none, some v =>
    if ¬ (FitsWord (d.ratioIn r).num ∧ FitsWord (d.ratioIn r).base) then []
    else
      match (d.ratioIn r).factor with
      | .error _ => []
      | .ok factor =>
        Fraction.reducedWords (d.ratioIn r).base (d.ratioIn r).num ++
          v.wholeNotes.mulWords factor ++
            match v.wholeNotes.mul? factor with
            | none => []
            | some time => if d.dots = 0 then [] else dotWords time d.countedDots

/-- What resolving a duration does: it finds the exact time, or refuses with the reason that holds,
and no word overflows unnoticed. -/
structure ExactOrRefused (d : Duration) (r : TupletRatio) : Prop where
  performed : ∀ p t, d.performed = some p → d.resolve r = .ok t → t = p ∧ 0 ≤ t.value
  written : ∀ v t, d.performed = none → d.value = some v → d.resolve r = .ok t →
    t.value = v.timeIn (d.ratioIn r) * dotFactor d.countedDots ∧ 0 < t.value
  negative : ∀ p, d.resolve r = .error (.negative p) ↔ d.performed = some p ∧ p.value < 0
  missing : d.resolve r = .error .missing ↔ d.performed = none ∧ d.value = none
  zeroRatio : ∀ num base, d.resolve r = .error (.zeroRatio num base) ↔
    d.performed = none ∧ d.value.isSome ∧ d.ratioIn r = ⟨num, base⟩ ∧ FitsWord num ∧
      FitsWord base ∧ (num = 0 ∨ base = 0)
  overflow : d.resolve r = .error .overflow ↔ d.performed = none ∧ ∃ v, d.value = some v ∧
    (¬ (FitsWord (d.ratioIn r).num ∧ FitsWord (d.ratioIn r).base) ∨
      (d.ratioIn r).num ≠ 0 ∧ (d.ratioIn r).base ≠ 0 ∧ ¬ d.Fits v (d.ratioIn r))
  breakdown : d.resolve r = .error .breakdown ↔
    ∃ p, d.performed = some p ∧ p.num = -9223372036854775808 ∧ p.den = -1
  words : d.resolve r ≠ .error .breakdown → ∀ z ∈ d.words r, FitsWord z

variable {d : Duration} {r : TupletRatio} {v : NoteValue}

theorem nonneg_ratioIn (hr : r.Nonneg) (d : Duration) : (d.ratioIn r).Nonneg :=
  ⟨mul_nonneg hr.1 (getD_map_toNat_nonneg d.ratioNum),
    mul_nonneg hr.2 (getD_map_toNat_nonneg d.ratioBase)⟩

theorem resolve_written (hperformed : d.performed = none) (hvalue : d.value = some v) :
    d.resolve r =
      if FitsWord (d.ratioIn r).num ∧ FitsWord (d.ratioIn r).base then
        (d.ratioIn r).factor >>= fun factor =>
          orOverflow (v.wholeNotes.mul? factor) >>= fun time =>
            if d.dots = 0 then .ok time else orOverflow (dotted? time d.countedDots)
      else .error .overflow := by
  rw [resolve, hperformed, hvalue]
  dsimp only
  rw [TupletRatio.combine_eq]
  change (if FitsWord (d.ratioIn r).num ∧ FitsWord (d.ratioIn r).base then
    Except.ok (d.ratioIn r) else _) >>= _ = _
  split_ifs <;> rfl

/-- A time with the dots of the duration, as far as words express it. -/
def dottedTime? (d : Duration) (q : ℚ) : Option Fraction :=
  (Fraction.ofRat? q).bind fun time =>
    if d.dots = 0 then some time else dotted? time d.countedDots

theorem countedDots_le (d : Duration) : d.countedDots ≤ 8 := Nat.min_le_right ..

theorem isSome_dottedTime?_iff {q : TupletRatio} (hpos : 0 < v.timeIn q) :
    (d.dottedTime? (v.timeIn q)).isSome ↔ d.Fits v q := by
  have hlast_pos : 0 < v.timeIn q / 2 ^ d.countedDots := by positivity
  rw [Fits, dottedTime?]
  split_ifs with hdots
  · rw [Option.bind_fun_some]
    exact Fraction.isSome_ofRat?_iff
  · cases htime : Fraction.ofRat? (v.timeIn q) with
    | none =>
      refine iff_of_false (by simp) fun h => ?_
      -- The undotted time is a multiple of its last dot, by less than the dotted one.
      have hmul : v.timeIn q = ((2 ^ d.countedDots : ℤ) : ℚ) * (v.timeIn q / 2 ^ d.countedDots) := by
        push_cast
        field_simp
      have hnum : FitsWord (2 ^ d.countedDots * (v.timeIn q / 2 ^ d.countedDots).num) := by
        have hle := mul_nonneg (pow_nonneg (by norm_num : (0 : ℤ) ≤ 2) d.countedDots)
          (Rat.num_pos.2 hlast_pos).le
        have hdouble := h.1
        rw [pow_succ, mul_right_comm] at hdouble
        exact ⟨by omega, by omega⟩
      have hsome := Fraction.isSome_ofRat?_iff.2
        (fitsWord_multiple (by positivity) hlast_pos hnum h.2)
      rw [← hmul, htime] at hsome
      cases hsome
    | some time =>
      have hvalue := Fraction.value_of_ofRat? htime
      rw [Option.bind_some, isSome_dotted?_iff (Fraction.lowest_of_ofRat? htime)
        (hvalue ▸ hpos) d.countedDots_le, hvalue]

theorem value_dottedTime? {q : ℚ} {time : Fraction} (h : d.dottedTime? q = some time) :
    time.value = q * dotFactor d.countedDots := by
  obtain ⟨undotted, hundotted, h⟩ := Option.bind_eq_some_iff.1 h
  rw [← Fraction.value_of_ofRat? hundotted]
  split_ifs at h with hdots
  · have hzero : d.countedDots = 0 := by rw [countedDots, hdots]; rfl
    rw [← Option.some.inj h, hzero]
    norm_num [dotFactor]
  · exact value_dotted? h

theorem resolve_written_pos (hperformed : d.performed = none) (hvalue : d.value = some v)
    (hnum : FitsWord (d.ratioIn r).num) (hbase : FitsWord (d.ratioIn r).base)
    (hnum_pos : 0 < (d.ratioIn r).num) (hbase_pos : 0 < (d.ratioIn r).base) :
    d.resolve r = orOverflow (d.dottedTime? (v.timeIn (d.ratioIn r))) ∧
      ∀ z ∈ d.words r, FitsWord z := by
  obtain ⟨factor, hfactor, hlowest, hvalue_factor⟩ :=
    TupletRatio.factor_eq_ok hnum hbase hnum_pos hbase_pos
  have hmul : v.wholeNotes.mul? factor = Fraction.ofRat? (v.timeIn (d.ratioIn r)) := by
    rw [Fraction.mul?_eq_ofRat? v.lowest_wholeNotes hlowest, hvalue_factor, v.value_wholeNotes]
    rfl
  constructor
  · rw [resolve_written hperformed hvalue, if_pos ⟨hnum, hbase⟩, hfactor]
    change (orOverflow (v.wholeNotes.mul? factor) >>= fun time => _) = _
    rw [hmul, dottedTime?]
    cases Fraction.ofRat? (v.timeIn (d.ratioIn r)) with
    | none => rfl
    | some time =>
      change (if d.dots = 0 then .ok time else orOverflow (dotted? time d.countedDots)) =
        orOverflow (if d.dots = 0 then some time else dotted? time d.countedDots)
      split_ifs <;> rfl
  · rw [words, hperformed, hvalue]
    dsimp only
    rw [if_neg (not_not.2 ⟨hnum, hbase⟩), hfactor]
    dsimp only
    rw [hmul, List.forall_mem_append, List.forall_mem_append]
    refine ⟨⟨Fraction.fitsWord_reducedWords hbase hnum hnum_pos,
      Fraction.fitsWord_mulWords v.lowest_wholeNotes.den_pos hlowest.den_pos⟩, ?_⟩
    split
    · exact fun _ h => absurd h List.not_mem_nil
    · rename_i time htime
      split_ifs
      · exact fun _ h => absurd h List.not_mem_nil
      · exact fitsWord_dotWords (Fraction.lowest_of_ofRat? htime) d.countedDots_le

theorem not_hasWhole_iff {time : Fraction} :
    ¬ time.HasWhole ↔ time.num = -9223372036854775808 ∧ time.den = -1 := by
  constructor
  · intro h
    have hneg : time.den < 0 := by
      refine lt_of_le_of_ne (not_lt.1 fun hpos => h ?_) time.den_ne_zero
      exact Fraction.fitsWord_ediv time.num_fits hpos
    have hquot : time.num / time.den = -(time.num / -time.den) := by rw [Int.ediv_neg, neg_neg]
    have hfits : FitsWord (time.num / -time.den) :=
      Fraction.fitsWord_ediv time.num_fits (by omega)
    have hlowest : time.num / -time.den = -9223372036854775808 := by
      rw [Fraction.HasWhole, hquot] at h
      omega
    have hlt : time.num < -time.den * (time.num / -time.den) + -time.den :=
      Int.lt_mul_ediv_self_add (by omega)
    have hle : -time.den * (time.num / -time.den) ≤ time.num :=
      Int.mul_ediv_self_le (by omega)
    have hnum := time.num_fits.1
    rw [hlowest] at hle hlt
    constructor <;> omega
  · rintro ⟨hnum, hden⟩
    rw [Fraction.HasWhole, hnum, hden]
    decide

/-- A performed time that can be split into a whole part and a rest is split into words. -/
theorem fitsWord_split {time : Fraction} (h : time.HasWhole) :
    FitsWord (time.num.fdiv time.den) ∧ FitsWord (time.num.fmod time.den) := by
  have hnum_fits := time.num_fits
  have hden_fits := time.den_fits
  rcases lt_or_gt_of_ne time.den_ne_zero with hneg | hpos
  · rw [← Int.neg_fdiv_neg, ← neg_neg (time.num.fmod time.den), ← Int.neg_fmod_neg,
      Int.fdiv_eq_ediv_of_nonneg _ (by omega), Int.fmod_eq_emod_of_nonneg _ (by omega)]
    have hrest := Int.emod_nonneg (-time.num) (by omega : -time.den ≠ 0)
    have hrest_lt := Int.emod_lt_of_pos (-time.num) (by omega : 0 < -time.den)
    refine ⟨?_, by omega, by omega⟩
    rcases eq_or_ne time.num (-9223372036854775808) with hnum | hnum
    · have hden : time.den ≠ -1 := fun hden => not_hasWhole_iff.2 ⟨hnum, hden⟩ h
      rw [hnum]
      exact ⟨(Int.ediv_nonneg (by omega) (by omega)).trans' (by omega),
        Int.ediv_le_of_le_mul (by omega) (by omega)⟩
    · exact Fraction.fitsWord_ediv (by omega) (by omega)
  · rw [Int.fdiv_eq_ediv_of_nonneg _ hpos.le, Int.fmod_eq_emod_of_nonneg _ hpos.le]
    have hrest := Int.emod_nonneg time.num hpos.ne'
    have hrest_lt := Int.emod_lt_of_pos time.num hpos
    exact ⟨Fraction.fitsWord_ediv hnum_fits hpos, by omega, by omega⟩

theorem value_neg_iff {time : Fraction} : time < 0 ↔ time.value < 0 := by
  rw [Fraction.lt_iff_value, Fraction.value_zero]

/-- A performed time is taken as it is, unless it is below zero or cannot be compared with zero. -/
theorem exactOrRefused_of_performed {time : Fraction} (h : d.performed = some time) :
    d.ExactOrRefused r := by
  have hwords : d.words r = [time.num.fdiv time.den, time.num.fmod time.den] := by rw [words, h]
  by_cases hlowest : time.num = -9223372036854775808 ∧ time.den = -1
  · have hresolve : d.resolve r = .error .breakdown := by
      rw [resolve, h]
      exact if_pos (not_hasWhole_iff.2 hlowest)
    have hvalue : 0 ≤ time.value := by
      rw [Fraction.value, hlowest.1, hlowest.2]
      norm_num
    constructor <;> simp [hresolve, h, hlowest, hvalue]
  · have hwhole : time.HasWhole := not_not.1 (mt not_hasWhole_iff.1 hlowest)
    have hsplit : ∀ z ∈ d.words r, FitsWord z := by
      simp only [hwords, List.forall_mem_cons]
      exact ⟨(fitsWord_split hwhole).1, (fitsWord_split hwhole).2,
        fun _ h => absurd h List.not_mem_nil⟩
    by_cases hneg : time.value < 0
    · have hresolve : d.resolve r = .error (.negative time) := by
        rw [resolve, h]
        dsimp only
        rw [if_neg (not_not.2 hwhole), if_pos (value_neg_iff.2 hneg)]
      constructor
      case words => exact fun _ => hsplit
      case breakdown => simpa [hresolve, h] using hlowest
      case negative =>
        intro p
        rw [hresolve, h]
        constructor
        · rintro ⟨⟩
          exact ⟨rfl, hneg⟩
        · rintro ⟨⟨⟩, -⟩
          rfl
      all_goals simp [hresolve, h]
    · have hresolve : d.resolve r = .ok time := by
        rw [resolve, h]
        dsimp only
        rw [if_neg (not_not.2 hwhole), if_neg (mt value_neg_iff.1 hneg)]
      constructor
      case words => exact fun _ => hsplit
      case breakdown => simpa [hresolve, h] using hlowest
      all_goals simp [hresolve, h, not_lt.1 hneg]

/-- Nothing is written or performed. -/
theorem exactOrRefused_of_missing (hperformed : d.performed = none) (hvalue : d.value = none) :
    d.ExactOrRefused r := by
  have hresolve : d.resolve r = .error .missing := by rw [resolve, hperformed, hvalue]
  have hwords : d.words r = [] := by rw [words, hperformed, hvalue]
  constructor <;> simp [hresolve, hwords, hperformed, hvalue]

/-- A written time in a ratio that is no ratio of words, or has a zero term. -/
theorem exactOrRefused_of_ratio (hperformed : d.performed = none) (hvalue : d.value = some v)
    (h : ¬ (FitsWord (d.ratioIn r).num ∧ FitsWord (d.ratioIn r).base) ∨
      (d.ratioIn r).num = 0 ∨ (d.ratioIn r).base = 0) : d.ExactOrRefused r := by
  have hwords : d.words r = [] := by
    rw [words, hperformed, hvalue]
    dsimp only
    by_cases hfits : FitsWord (d.ratioIn r).num ∧ FitsWord (d.ratioIn r).base
    · rw [if_neg (not_not.2 hfits),
        TupletRatio.factor_eq_error (h.resolve_left (not_not.2 hfits))]
    · rw [if_pos hfits]
  by_cases hfits : FitsWord (d.ratioIn r).num ∧ FitsWord (d.ratioIn r).base
  · have hzero := h.resolve_left (not_not.2 hfits)
    have hresolve : d.resolve r = .error (.zeroRatio (d.ratioIn r).num (d.ratioIn r).base) := by
      rw [resolve_written hperformed hvalue, if_pos hfits, TupletRatio.factor_eq_error hzero]
      rfl
    constructor
    case zeroRatio =>
      intro num base
      rw [hresolve]
      constructor
      · rintro ⟨⟩
        exact ⟨hperformed, by rw [hvalue]; rfl, rfl, hfits.1, hfits.2, hzero⟩
      · rintro ⟨-, -, hratio, -⟩
        rw [hratio]
    case overflow =>
      rw [hresolve]
      refine iff_of_false nofun ?_
      rintro ⟨-, _, -, hnot | hnot⟩
      · exact hnot hfits
      · exact hzero.elim hnot.1 hnot.2.1
    all_goals simp [hresolve, hwords, hperformed, hvalue]
  · have hresolve : d.resolve r = .error .overflow := by
      rw [resolve_written hperformed hvalue, if_neg hfits]
    constructor
    case zeroRatio =>
      intro num base
      rw [hresolve]
      refine iff_of_false nofun ?_
      rintro ⟨-, -, hratio, hnum, hbase, -⟩
      exact hfits (by rw [hratio]; exact ⟨hnum, hbase⟩)
    case overflow => exact iff_of_true hresolve ⟨hperformed, v, hvalue, .inl hfits⟩
    all_goals simp [hresolve, hwords, hperformed, hvalue]

/-- A written time in a ratio of words above zero is found if words express it. -/
theorem exactOrRefused_of_written (hperformed : d.performed = none) (hvalue : d.value = some v)
    (hfits : FitsWord (d.ratioIn r).num ∧ FitsWord (d.ratioIn r).base)
    (hnum : 0 < (d.ratioIn r).num) (hbase : 0 < (d.ratioIn r).base) : d.ExactOrRefused r := by
  obtain ⟨hresolve, hwords⟩ :=
    resolve_written_pos hperformed hvalue hfits.1 hfits.2 hnum hbase
  have hpos : 0 < v.timeIn (d.ratioIn r) := NoteValue.timeIn_pos hnum hbase
  have hiff := isSome_dottedTime?_iff (d := d) hpos
  have hzero (n b : ℤ) : ¬ (d.performed = none ∧ d.value.isSome ∧ d.ratioIn r = ⟨n, b⟩ ∧
      FitsWord n ∧ FitsWord b ∧ (n = 0 ∨ b = 0)) := by
    rintro ⟨-, -, hratio, -, -, hzero⟩
    rw [hratio] at hnum hbase
    exact hzero.elim hnum.ne' hbase.ne'
  cases htime : d.dottedTime? (v.timeIn (d.ratioIn r)) with
  | none =>
    rw [htime, orOverflow] at hresolve
    have hnot : ¬ d.Fits v (d.ratioIn r) := by
      rw [← hiff, htime]
      nofun
    constructor
    case words => exact fun _ => hwords
    case overflow =>
      exact iff_of_true hresolve ⟨hperformed, v, hvalue, .inr ⟨hnum.ne', hbase.ne', hnot⟩⟩
    case zeroRatio =>
      exact fun n b => iff_of_false (by rw [hresolve]; nofun) (hzero n b)
    all_goals simp [hresolve, hperformed, hvalue]
  | some time =>
    rw [htime, orOverflow] at hresolve
    have hfits_time : d.Fits v (d.ratioIn r) := by
      rw [← hiff, htime]
      rfl
    have hvalue_time := value_dottedTime? htime
    constructor
    case written =>
      rintro v' t - hv' ht
      obtain rfl : v = v' := by rw [hvalue] at hv'; exact Option.some.inj hv'
      obtain rfl : time = t := by rw [hresolve] at ht; exact Except.ok.inj ht
      exact ⟨hvalue_time, hvalue_time ▸ mul_pos hpos (dotFactor_pos _)⟩
    case words => exact fun _ => hwords
    case overflow =>
      refine iff_of_false (by rw [hresolve]; nofun) ?_
      rintro ⟨-, v', hv', hnot | ⟨-, -, hnot⟩⟩
      · exact hnot hfits
      · obtain rfl : v = v' := by rw [hvalue] at hv'; exact Option.some.inj hv'
        exact hnot hfits_time
    case zeroRatio =>
      exact fun n b => iff_of_false (by rw [hresolve]; nofun) (hzero n b)
    all_goals simp [hresolve, hperformed, hvalue]

end Duration

/-- In nested tuplets every duration resolves to its exact time, or is refused with the reason that
holds. The one exception is a performed time of the lowest word over minus one: there is no answer
at all. -/
theorem TupletRatio.Nested.exactOrRefused {r : TupletRatio} (hr : r.Nested) (d : Duration) :
    d.ExactOrRefused r := by
  cases hperformed : d.performed with
  | some time => exact Duration.exactOrRefused_of_performed hperformed
  | none =>
    cases hvalue : d.value with
    | none => exact Duration.exactOrRefused_of_missing hperformed hvalue
    | some v =>
      have hnonneg := Duration.nonneg_ratioIn hr.nonneg d
      by_cases h : ¬ (FitsWord (d.ratioIn r).num ∧ FitsWord (d.ratioIn r).base) ∨
          (d.ratioIn r).num = 0 ∨ (d.ratioIn r).base = 0
      · exact Duration.exactOrRefused_of_ratio hperformed hvalue h
      · obtain ⟨hfits, hzero⟩ := not_or.1 h
        obtain ⟨hnum, hbase⟩ := not_or.1 hzero
        exact Duration.exactOrRefused_of_written hperformed hvalue (not_not.1 hfits)
          (lt_of_le_of_ne hnonneg.1 (Ne.symm hnum)) (lt_of_le_of_ne hnonneg.2 (Ne.symm hbase))

/-- A dotted quarter in a triplet. -/
theorem TupletRatio.Nested.exactOrRefused_of_triplet :
    TupletRatio.one.combine 3 2 = .ok ⟨3, 2⟩ ∧
      { Duration.ofValue .quarter with dots := 1 }.ExactOrRefused ⟨3, 2⟩ :=
  ⟨rfl, Nested.exactOrRefused (.combine .one 3 2 rfl) _⟩

/-- The lowest word over minus one is above zero, and resolves to nothing. -/
theorem Duration.breakdown_of_lowest :
    ∃ time : Fraction, time.num = -9223372036854775808 ∧ time.den = -1 ∧ 0 < time.value ∧
      { Duration.empty with performed := some time }.resolve .one = .error .breakdown ∧
        DurationError.breakdown.message? = none := by
  refine ⟨⟨-9223372036854775808, -1, by decide, by decide, by decide⟩, rfl, rfl, ?_, rfl, rfl⟩
  norm_num [Fraction.value]

end ScoreLayout
