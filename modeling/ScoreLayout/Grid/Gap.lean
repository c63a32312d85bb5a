import ScoreLayout.Fraction

/-!
# Gaps between slots

A gap is the space between two consecutive slots. It has a width, a weight that says how readily it
stretches, and a floor below which compression does not take it.

## Main definitions

* `Gap` — width, weight and floor of a gap.
* `Spacing` — the parameters that turn time into width.
* `Spacing.spaceFor` — the ideal width of a stretch of time.
* `Gap.distribute` — extra width spread over gaps in proportion to their weights.
-/

namespace ScoreLayout

/-- The space between two consecutive slots. -/
structure Gap (α : Type) where
  width : α
  /-- How readily the gap stretches; zero for a gap of fixed width. -/
  weight : α
  /-- The narrowest width that compression leaves. -/
  floor : α
deriving DecidableEq, Repr

/-- The parameters that turn time into width. -/
structure Spacing (α : Type) where
  linear : α
  nonLinear : α
  /-- The scale factor, one for the normal size. -/
  scale : α
  /-- The distance kept between the footprints of consecutive slots. -/
  margin : α
  minSlotWidth : α
  /-- The longest duration of the score in whole notes. -/
  longest : Fraction

namespace Spacing

variable {α : Type} [Scalar α]

/-- The parameters of a score at normal size. -/
def standard : Spacing α :=
  { linear := 0.25, nonLinear := 0.6, scale := 1, margin := 9, minSlotWidth := 18, longest := 1 }

/-- The ideal width of a time in whole notes: a power of the time, in relation to the longest
duration where that exceeds a whole note. -/
def spaceFor (p : Spacing α) (time : α) : α :=
  if time ≤ 0 then 0
  else
    let longest := p.longest.toScalar
    let relative := if 1 < longest then time / longest else time
    Scalar.pow (relative * 1024) p.nonLinear * p.linear * 10 * p.scale

/-- The ideal width of an exact time. -/
def durationSpace (p : Spacing α) (time : Fraction) : α := p.spaceFor time.toScalar

end Spacing

namespace Gap

variable {α : Type} [Scalar α]

/-- Amounts below this size count as distributed. -/
def tolerance : α := 1e-9

/-- Whether the gap takes part when `share` is distributed: it stretches at all, and under
compression it is still above its floor. -/
def IsActive (share : α) (g : Gap α) : Prop :=
  0 < g.weight ∧ (0 < share ∨ tolerance < g.width - g.floor)

instance (share : α) (g : Gap α) : Decidable (g.IsActive share) :=
  inferInstanceAs (Decidable (_ ∧ _))

/-- The change of the gap's width when `share` goes to gaps of weight `total`; a change that would
pass the floor ends on it. -/
def change (share total : α) (g : Gap α) : α :=
  let delta := share * g.weight / total
  if g.width + delta < g.floor then g.floor - g.width else delta

/-- The total weight of the gaps that take part. -/
def activeWeight (share : α) (gaps : List (Gap α)) : α :=
  Scalar.sum ((gaps.filter fun g => g.IsActive share).map Gap.weight)

/-- One round of distribution: the new gaps, and the width that has been added to them. -/
def distributeRound (share total : α) (gaps : List (Gap α)) : List (Gap α) × α :=
  (gaps.map fun g =>
      if g.IsActive share then { g with width := g.width + g.change share total } else g,
    Scalar.sum ((gaps.filter fun g => g.IsActive share).map fun g => g.change share total))

/-- An amount, taken as nothing when it is below the tolerance. -/
def settle (remaining : α) : α := if Scalar.abs remaining < tolerance then 0 else remaining

/-- At most so many rounds of distribution: what a gap at its floor could not give up goes to the
others in the next round. -/
def distributeRounds : Nat → List (Gap α) → α → List (Gap α) × α
  | 0, gaps, remaining => (gaps, settle remaining)
  | rounds + 1, gaps, remaining =>
    if Scalar.abs remaining < tolerance then (gaps, 0)
    else
      let total := activeWeight remaining gaps
      if total ≤ 0 then (gaps, settle remaining)
      else
        let (gaps', applied) := distributeRound remaining total gaps
        distributeRounds rounds gaps' (remaining - applied)

/-- `extra` spread over the gaps in proportion to their weights, with what could not be spread.
Each round fixes at least one gap on its floor or is the last, so as many rounds as gaps suffice. -/
def distribute (gaps : List (Gap α)) (extra : α) : List (Gap α) × α :=
  distributeRounds (Nat.max gaps.length 1) gaps extra

theorem length_distributeRounds (rounds : Nat) (gaps : List (Gap α)) (extra : α) :
    (distributeRounds rounds gaps extra).1.length = gaps.length := by
  induction rounds generalizing gaps extra with
  | zero => rfl
  | succ rounds ih =>
    unfold distributeRounds
    split
    · rfl
    · dsimp only
      split
      · rfl
      · rw [ih]
        simp [distributeRound]

theorem length_distribute (gaps : List (Gap α)) (extra : α) :
    (distribute gaps extra).1.length = gaps.length :=
  length_distributeRounds _ gaps extra

end Gap

end ScoreLayout
