import ScoreLayout.Proofs.Grid.Stretching

/-!
# Least offsets between boxes

A box that collides with another is free again once it has moved far enough along the axis, forward
or backward. In exact arithmetic the two distances of `Box.offsetToAvoid` are just far enough: of all
movements along the axis the ones strictly between them collide and no others, so the smaller of the
two is a least movement that clears.

## Main definitions

* `Box.shift` — a box moved along an axis.
* `Box.LeastOffset` — what the offset of two boxes says about all movements.

## Main results

* `Box.overlaps_shift_iff` — which movements collide.
* `Box.overlaps_comm` — colliding is symmetric.
* `Box.leastOffset` — the offset is exact and its smaller distance least.
-/

namespace ScoreLayout

namespace Box

variable {K : Type} [ExactField K]

/-- The box with its anchor moved along an axis. -/
def shift (b : Box K) (axis : Axis) (t : K) : Box K :=
  match axis with
  | .horizontal => b.setAnchor (b.x + t) b.y
  | .vertical => b.setAnchor b.x (b.y + t)

/-- The offset of `a` from `b` is made of the distances that just clear them, if they collide, and is
none otherwise. -/
structure LeastOffset (a b : Box K) (axis : Axis) (margin : K) : Prop where
  forward_pos : a.Overlaps b axis margin → 0 < (a.offsetToAvoid b axis margin).forward
  backward_pos : a.Overlaps b axis margin → 0 < (a.offsetToAvoid b axis margin).backward
  collides : a.Overlaps b axis margin → ∀ t, (a.shift axis t).Overlaps b axis margin ↔
    -(a.offsetToAvoid b axis margin).backward < t ∧ t < (a.offsetToAvoid b axis margin).forward
  clears : a.Overlaps b axis margin →
    ¬ (a.shift axis (a.offsetToAvoid b axis margin).minimal).Overlaps b axis margin
  least : a.Overlaps b axis margin → ∀ t, ¬ (a.shift axis t).Overlaps b axis margin →
    |(a.offsetToAvoid b axis margin).minimal| ≤ |t|
  none_of_apart : ¬ a.Overlaps b axis margin → a.offsetToAvoid b axis margin = .none
  none_of_blank : ¬ a.HasContent ∨ ¬ b.HasContent → a.offsetToAvoid b axis margin = .none
  symm : a.Overlaps b axis margin ↔ b.Overlaps a axis margin

variable {a b : Box K} {axis : Axis} {margin : K}

/-! ### Moving a box -/

theorem hasContent_shift (b : Box K) (axis : Axis) (t : K) :
    (b.shift axis t).HasContent ↔ b.HasContent := by cases axis <;> exact Iff.rfl

theorem span_bounds_shift (b : Box K) (axis : Axis) (t : K) :
    (b.shift axis t).bounds.span axis =
      ((b.bounds.span axis).1 + t, (b.bounds.span axis).2 + t) := by
  obtain ⟨x, y, rect⟩ := b
  cases rect <;> cases axis <;>
    simp [shift, setAnchor, bounds, Rect.ofCorners, Rect.translate, Rect.span, Scalar.min,
      Scalar.max, add_assoc]

theorem span_other_bounds_shift (b : Box K) (axis : Axis) (t : K) :
    (b.shift axis t).bounds.span axis.other = b.bounds.span axis.other := by
  obtain ⟨x, y, rect⟩ := b
  cases rect <;> cases axis <;> rfl

/-! ### Colliding -/

theorem Overlaps.symm (h : a.Overlaps b axis margin) : b.Overlaps a axis margin := by
  obtain ⟨⟨ha, hb⟩, hapart, hbelow, habove⟩ := h
  refine ⟨⟨hb, ha⟩, fun h => hapart ?_, habove, hbelow⟩
  rcases h with h | h
  · exact .inr (le_sub_iff_add_le.1 h)
  · exact .inl (le_sub_iff_add_le.2 h)

theorem overlaps_comm : a.Overlaps b axis margin ↔ b.Overlaps a axis margin :=
  ⟨Overlaps.symm, Overlaps.symm⟩

theorem offsetToAvoid_of_overlaps (h : a.Overlaps b axis margin) :
    a.offsetToAvoid b axis margin =
      ⟨(b.bounds.span axis).2 + margin - (a.bounds.span axis).1,
        (a.bounds.span axis).2 - ((b.bounds.span axis).1 - margin)⟩ := by
  obtain ⟨hleft, hright⟩ := not_or.1 h.2.1
  have hforward : 0 ≤ (b.bounds.span axis).2 + margin - (a.bounds.span axis).1 :=
    sub_nonneg.2 (not_le.1 hright).le
  have hbackward : 0 ≤ (a.bounds.span axis).2 - ((b.bounds.span axis).1 - margin) :=
    sub_nonneg.2 (not_le.1 hleft).le
  rw [offsetToAvoid, if_pos h]
  dsimp only
  rw [ExactField.zero_eq, Scalar.max_eq_max, Scalar.max_eq_max, max_eq_left hforward,
    max_eq_left hbackward]

theorem offsetToAvoid_of_not_overlaps (h : ¬ a.Overlaps b axis margin) :
    a.offsetToAvoid b axis margin = .none := if_neg h

/-- Of all movements of a colliding box the ones between its two distances collide. -/
theorem overlaps_shift_iff (h : a.Overlaps b axis margin) (t : K) :
    (a.shift axis t).Overlaps b axis margin ↔
      -(a.offsetToAvoid b axis margin).backward < t ∧
        t < (a.offsetToAvoid b axis margin).forward := by
  have hspan : (a.shift axis t).Overlaps b axis margin ↔
      ¬ ((a.bounds.span axis).2 + t ≤ (b.bounds.span axis).1 - margin ∨
        (b.bounds.span axis).2 + margin ≤ (a.bounds.span axis).1 + t) := by
    rw [Overlaps, hasContent_shift, span_bounds_shift, span_other_bounds_shift,
      and_iff_right h.1, and_iff_left h.2.2]
  rw [hspan, offsetToAvoid_of_overlaps h, not_or, not_le, not_le]
  dsimp only
  constructor <;> rintro ⟨hleft, hright⟩ <;> constructor <;> linarith

end Box

namespace Offset

variable {K : Type} [ExactField K] {o : Offset K} {t : K}

/-- The smaller distance is one of the two. -/
theorem minimal_eq_or (o : Offset K) : o.minimal = o.forward ∨ o.minimal = -o.backward := by
  rw [minimal]
  split_ifs
  · exact .inl rfl
  · exact .inr rfl

/-- No movement that is not between two distances above zero is shorter than the smaller of them. -/
theorem abs_minimal_le (hforward : 0 < o.forward) (hbackward : 0 < o.backward)
    (ht : ¬ (-o.backward < t ∧ t < o.forward)) : |o.minimal| ≤ |t| := by
  have hle_forward : |o.minimal| ≤ o.forward := by
    rw [minimal]
    split_ifs with h
    · exact (abs_of_pos hforward).le
    · rw [abs_neg, abs_of_pos hbackward]
      exact (not_le.1 h).le
  have hle_backward : |o.minimal| ≤ o.backward := by
    rw [minimal]
    split_ifs with h
    · rwa [abs_of_pos hforward]
    · rw [abs_neg, abs_of_pos hbackward]
  rcases not_and_or.1 ht with h | h
  · exact hle_backward.trans ((le_neg.1 (not_lt.1 h)).trans (neg_le_abs t))
  · exact hle_forward.trans ((not_lt.1 h).trans (le_abs_self t))

end Offset

namespace Box

variable {K : Type} [ExactField K]

/-- The offset of two boxes is exact, and its smaller distance is a least movement that clears. -/
theorem leastOffset (a b : Box K) (axis : Axis) (margin : K) : a.LeastOffset b axis margin := by
  have hpos (h : a.Overlaps b axis margin) : 0 < (a.offsetToAvoid b axis margin).forward ∧
      0 < (a.offsetToAvoid b axis margin).backward := by
    obtain ⟨hleft, hright⟩ := not_or.1 h.2.1
    rw [offsetToAvoid_of_overlaps h]
    exact ⟨sub_pos.2 (not_le.1 hright), sub_pos.2 (not_le.1 hleft)⟩
  constructor
  case forward_pos => exact fun h => (hpos h).1
  case backward_pos => exact fun h => (hpos h).2
  case collides => exact overlaps_shift_iff
  case clears =>
    intro h
    rw [overlaps_shift_iff h]
    rcases Offset.minimal_eq_or (a.offsetToAvoid b axis margin) with heq | heq
    · exact fun hlt => hlt.2.ne heq
    · exact fun hlt => hlt.1.ne' heq
  case least =>
    intro h t ht
    rw [overlaps_shift_iff h] at ht
    exact Offset.abs_minimal_le (hpos h).1 (hpos h).2 ht
  case none_of_apart => exact offsetToAvoid_of_not_overlaps
  case none_of_blank =>
    exact fun h => offsetToAvoid_of_not_overlaps fun hoverlap =>
      h.elim (absurd hoverlap.1.1) (absurd hoverlap.1.2)
  case symm => exact overlaps_comm

/-- Two boxes of width ten, two of which they share: with a margin of one the second moves forward by
three. -/
example : (ofBounds ⟨8, 0, 18, 10⟩ : Box ℚ).offsetToAvoid (ofBounds ⟨0, 0, 10, 10⟩) .horizontal 1 =
    ⟨3, 19⟩ := by decide +kernel

end Box

end ScoreLayout
