import ScoreLayout.Grid.Measure
import ScoreLayout.Options
import ScoreLayout.Proofs.Scalar

/-!
# Widths that are not negative

With options within their ranges, the ideal gaps of a time grid have widths that are not negative,
and stretching or compressing keeps them so. The width of a measure, the sum of its gaps, is not
negative then either, and its drawn slots stand one after another.

## Main definitions

* `Gap.Sound`, `MeasureGrid.Sound` — gaps and grids without negative widths.
* `MeasureGrid.Rising` — drawn slots that stand one after another.
* `Spacing.InRange` — parameters that lead to such gaps.

## Main results

* `Gap.Sound.distribute` — distributing an amount keeps gaps sound.
* `MeasureGrid.sound_space`, `MeasureGrid.Sound.applyGaps` — ideal and justified positions.
-/

namespace ScoreLayout

open Scalar

variable {α : Type} [Scalar α]

/-! ### Gaps -/

/-- A gap without a negative width. Where its width is a number, so is its floor. -/
structure Gap.Sound (g : Gap α) : Prop where
  width : Nonneg g.width
  floor : Nonneg g.floor
  isNumber : g.width ≤ g.width → g.floor ≤ g.floor

namespace Gap

variable [Scalar.Ordered α]

theorem Sound.add_change {g : Gap α} (h : g.Sound) (share total : α) :
    Sound { g with width := g.width + g.change share total } := by
  refine ⟨?_, h.floor, fun hw => h.isNumber (Ordered.le_self_of_add hw)⟩
  show Nonneg (g.width + g.change share total)
  rw [change]
  split_ifs with hfloor
  · exact Ordered.add_sub_nonneg h.floor
  · intro hlt
    have hnumber := Ordered.le_self_left (Ordered.le_of_lt hlt)
    have hzero := h.floor.le (h.isNumber (Ordered.le_self_of_add hnumber))
    exact hfloor (lt_of_lt_of_le hlt hzero)

theorem Sound.distributeRound {gaps : List (Gap α)} (h : ∀ g ∈ gaps, g.Sound) (share total : α) :
    ∀ g ∈ (distributeRound share total gaps).1, g.Sound := by
  refine List.forall_mem_map.2 fun g hg => ?_
  split_ifs
  · exact (h g hg).add_change share total
  · exact h g hg

theorem Sound.distributeRounds : (rounds : Nat) → {gaps : List (Gap α)} → (∀ g ∈ gaps, g.Sound) →
    (remaining : α) → ∀ g ∈ (distributeRounds rounds gaps remaining).1, g.Sound
  | 0, _, h, _ => h
  | rounds + 1, gaps, h, remaining => by
      rw [Gap.distributeRounds]
      dsimp only
      split_ifs
      · exact h
      · exact h
      · exact Sound.distributeRounds rounds (Sound.distributeRound h _ _) _

/-- Distributing an amount keeps gaps sound. -/
theorem Sound.distribute {gaps : List (Gap α)} (h : ∀ g ∈ gaps, g.Sound) (extra : α) :
    ∀ g ∈ (distribute gaps extra).1, g.Sound :=
  Sound.distributeRounds _ h extra

end Gap

/-! ### Ideal gaps -/

/-- Parameters that lead to gaps without negative widths. -/
structure Spacing.InRange (p : Spacing α) : Prop where
  linear : Nonneg p.linear
  nonLinear : Nonneg p.nonLinear
  scale : Nonneg p.scale
  margin : Nonneg p.margin
  minSlotWidth : Nonneg p.minSlotWidth

section Ideal

variable [Scalar.Ordered α] {p : Spacing α}

theorem Scalar.nonneg_ofNat (n : Nat) (hn : 0 < n) : Nonneg (Scalar.ofInt n : α) :=
  nonneg_ofInt (Int.ofNat_lt.2 hn)

theorem LayoutOptions.inRange_spacing (o : LayoutOptions α) (longest : Fraction) :
    (o.normalized.spacing longest).InRange := by
  have hclamp (x : α) (n : Nat) (hn : 0 < n) : Nonneg (Scalar.clamp x 0 (Scalar.ofInt n)) :=
    nonneg_zero.clamp (nonneg_ofNat n hn) (.inr zero_le_zero)
  have hscale : Nonneg o.normalized.scale :=
    Nonneg.clamp (nonneg_ofNat 1 (by decide)) (nonneg_ofNat 1000 (by decide))
      (.inr (Ordered.le_of_lt (Ordered.zero_lt_ofInt (n := 1) (by decide))))
  have hunit : Nonneg o.normalized.unit :=
    Nonneg.clamp (nonneg_ofNat 1 (by decide)) (nonneg_ofNat 100 (by decide))
      (.inr (Ordered.le_of_lt (Ordered.zero_lt_ofInt (n := 1) (by decide))))
  have hhundred : (0 : α) < Scalar.ofInt 100 := Ordered.zero_lt_ofInt (by decide)
  have hscaled : Nonneg o.normalized.scaledUnit :=
    Ordered.div_nonneg (Ordered.mul_nonneg hunit hscale) hhundred
  exact ⟨hclamp _ 1 (by decide), hclamp _ 1 (by decide), Ordered.div_nonneg hscale hhundred,
    hscaled, Ordered.mul_nonneg (hclamp _ 24 (by decide)) hscaled⟩

theorem Spacing.InRange.spaceFor (h : p.InRange) (time : α) : Nonneg (p.spaceFor time) := by
  rw [Spacing.spaceFor]
  split_ifs with htime
  · exact nonneg_zero
  · dsimp only
    have hpositive : Nonneg time := fun hlt => htime (Ordered.le_of_lt hlt)
    have hrelative : Nonneg (if (1 : α) < p.longest.toScalar then time / p.longest.toScalar
        else time) := by
      split_ifs with hlong
      · have hone : (0 : α) < 1 := Ordered.zero_lt_ofInt (n := 1) (by decide)
        exact Ordered.div_nonneg hpositive (lt_of_lt_of_le hone (Ordered.le_of_lt hlong))
      · exact hpositive
    have hpow := Ordered.pow_nonneg
      (Ordered.mul_nonneg hrelative (nonneg_ofNat 1024 (by decide))) h.nonLinear
    exact Ordered.mul_nonneg (Ordered.mul_nonneg (Ordered.mul_nonneg hpow h.linear)
      (nonneg_ofNat 10 (by decide))) h.scale

namespace Slot

variable {previous current : Slot α}

theorem nonneg_timedSpace (h : p.InRange) (previous current : Slot α) :
    Nonneg (timedSpace previous current p) := by
  rw [timedSpace]
  split_ifs
  · exact h.spaceFor _
  · exact nonneg_zero

theorem nonneg_floorBetween (h : p.InRange) (previous current : Slot α) :
    Nonneg (floorBetween previous current p) := by
  rw [floorBetween]
  split
  · exact h.minSlotWidth
  · exact h.minSlotWidth
  · exact h.margin
  · exact nonneg_zero

/-- Every ideal gap is sound. -/
theorem sound_gapTo (h : p.InRange) (previous current : Slot α) :
    (gapTo previous current p).Sound := by
  rw [gapTo]
  by_cases hend : current.key.kind = .measureEnd
  · rw [if_pos hend]
    have hedge : 0 ≤ previous.trailingEdge := zero_le_foldl_max _ zero_le_zero
    exact ⟨nonneg_of_le hedge, nonneg_of_le hedge, id⟩
  · rw [if_neg hend]
    dsimp only
    have hpush : 0 ≤ push previous current (timedSpace previous current p) p.margin :=
      zero_le_foldl_max _ zero_le_zero
    have hwidth := (Ordered.add_nonneg (nonneg_timedSpace h previous current)
      (nonneg_of_le hpush)).max (nonneg_floorBetween h previous current)
    exact ⟨hwidth, (nonneg_floorBetween h previous current).min hwidth, min_le_self⟩

end Slot

theorem MeasureGrid.sound_idealGaps (h : p.InRange) : (slots : List (Slot α)) →
    ∀ g ∈ idealGaps p slots, g.Sound
  | [] => fun _ hg => absurd hg List.not_mem_nil
  | [_] => fun _ hg => absurd hg List.not_mem_nil
  | previous :: current :: rest => by
      rw [idealGaps, List.forall_mem_cons]
      exact ⟨Slot.sound_gapTo h previous current, sound_idealGaps h (current :: rest)⟩

end Ideal

/-! ### Grids -/

/-- Drawn slots stand one after another, none of them to the left of zero. -/
def MeasureGrid.Rising (slots : List (Slot α)) : Prop :=
  (slots.filter fun s => ¬ s.timestampOnly).Pairwise fun s t => Nonneg s.x ∧ AtMost s.x t.x

/-- A grid whose gaps have no negative widths, and which is not itself of negative width. Its drawn
slots stand one after another. -/
structure MeasureGrid.Sound (g : MeasureGrid α) : Prop where
  gaps : ∀ gap ∈ g.gaps, gap.Sound
  width : Nonneg g.width
  rising : MeasureGrid.Rising g.slots

namespace MeasureGrid

variable [Scalar.Ordered α]

/-- Drawn slots do not lie to the left of the first one. -/
def DrawnRight (slots : List (Slot α)) : Prop :=
  ∀ s ∈ slots, ¬ s.timestampOnly → Nonneg s.x

theorem drawnRight_placeFrom : (slots : List (Slot α)) → {x : α} → {gaps : List (Gap α)} →
    {placed : List (Slot α)} → Nonneg x → (∀ g ∈ gaps, g.Sound) →
      placeFrom slots x gaps = some placed → DrawnRight placed
  | [], _, _, _, _, _, h => by
      rw [← Option.some.inj h]
      exact fun _ hs => absurd hs List.not_mem_nil
  | s :: rest, x, gaps, placed, hx, hgaps, h => by
      unfold placeFrom at h
      split at h
      · rename_i hstamp
        obtain ⟨placed, hrest, rfl⟩ := Option.map_eq_some_iff.1 h
        exact List.forall_mem_cons.2
          ⟨fun hdrawn => absurd hstamp hdrawn, drawnRight_placeFrom rest hx hgaps hrest⟩
      · split at h
        · exact absurd h (by simp)
        · obtain ⟨placed, hrest, rfl⟩ := Option.map_eq_some_iff.1 h
          rw [List.forall_mem_cons] at hgaps
          have hnext := Ordered.add_nonneg hx hgaps.1.width
          exact List.forall_mem_cons.2
            ⟨fun _ => hnext, drawnRight_placeFrom rest hnext hgaps.2 hrest⟩

theorem drawnRight_placeDrawn : (slots : List (Slot α)) → {gaps : List (Gap α)} →
    {placed : List (Slot α)} → (∀ g ∈ gaps, g.Sound) →
      placeDrawn slots gaps = some placed → DrawnRight placed
  | [], _, _, _, h => by
      rw [← Option.some.inj h]
      exact fun _ hs => absurd hs List.not_mem_nil
  | s :: rest, gaps, placed, hgaps, h => by
      unfold placeDrawn at h
      split at h
      · rename_i hstamp
        obtain ⟨placed, hrest, rfl⟩ := Option.map_eq_some_iff.1 h
        exact List.forall_mem_cons.2
          ⟨fun hdrawn => absurd hstamp hdrawn, drawnRight_placeDrawn rest hgaps hrest⟩
      · obtain ⟨placed, hrest, rfl⟩ := Option.map_eq_some_iff.1 h
        exact List.forall_mem_cons.2
          ⟨fun _ => nonneg_zero, drawnRight_placeFrom rest nonneg_zero hgaps hrest⟩

omit [Scalar.Ordered α] in
theorem rising_cons {s : Slot α} {rest : List (Slot α)} (hrest : Rising rest)
    (hs : ¬ s.timestampOnly → Nonneg s.x ∧ ∀ t ∈ rest, ¬ t.timestampOnly → AtMost s.x t.x) :
    Rising (s :: rest) := by
  rw [Rising, List.filter_cons]
  split_ifs with hdrawn
  · obtain ⟨hx, hs⟩ := hs (by simpa using hdrawn)
    refine List.pairwise_cons.2 ⟨fun t ht => ?_, hrest⟩
    obtain ⟨ht, hdrawn⟩ := List.mem_filter.1 ht
    exact ⟨hx, hs t ht (by simpa using hdrawn)⟩
  · exact hrest

/-- From a position on, drawn slots stand one after another. -/
theorem rising_placeFrom : (slots : List (Slot α)) → {x : α} → {gaps : List (Gap α)} →
    {placed : List (Slot α)} → Nonneg x → (∀ g ∈ gaps, g.Sound) →
      placeFrom slots x gaps = some placed →
        (∀ s ∈ placed, ¬ s.timestampOnly → AtMost x s.x) ∧ Rising placed
  | [], _, _, _, _, _, h => by
      rw [← Option.some.inj h]
      exact ⟨fun _ hs => absurd hs List.not_mem_nil, .nil⟩
  | s :: rest, x, gaps, placed, hx, hgaps, h => by
      unfold placeFrom at h
      split at h
      · rename_i hstamp
        obtain ⟨placed, hrest, rfl⟩ := Option.map_eq_some_iff.1 h
        obtain ⟨hplaced, hrising⟩ := rising_placeFrom rest hx hgaps hrest
        exact ⟨List.forall_mem_cons.2 ⟨fun hdrawn => absurd hstamp hdrawn, hplaced⟩,
          rising_cons hrising fun hdrawn => absurd hstamp hdrawn⟩
      · split at h
        · exact absurd h (by simp)
        · rename_i gap gaps
          obtain ⟨placed, hrest, rfl⟩ := Option.map_eq_some_iff.1 h
          rw [List.forall_mem_cons] at hgaps
          have hnext : AtMost x (x + gap.width) := atMost_add hgaps.1.width
          have hnonneg := Ordered.add_nonneg hx hgaps.1.width
          obtain ⟨hplaced, hrising⟩ := rising_placeFrom rest hnonneg hgaps.2 hrest
          exact ⟨List.forall_mem_cons.2 ⟨fun _ => hnext, fun t ht hdrawn =>
            hnext.trans (hplaced t ht hdrawn)⟩, rising_cons hrising fun _ => ⟨hnonneg, hplaced⟩⟩

theorem rising_placeDrawn : (slots : List (Slot α)) → {gaps : List (Gap α)} →
    {placed : List (Slot α)} → (∀ g ∈ gaps, g.Sound) →
      placeDrawn slots gaps = some placed → Rising placed
  | [], _, _, _, h => by
      rw [← Option.some.inj h]
      exact .nil
  | s :: rest, gaps, placed, hgaps, h => by
      unfold placeDrawn at h
      split at h
      · rename_i hstamp
        obtain ⟨placed, hrest, rfl⟩ := Option.map_eq_some_iff.1 h
        exact rising_cons (rising_placeDrawn rest hgaps hrest) fun hdrawn => absurd hstamp hdrawn
      · obtain ⟨placed, hrest, rfl⟩ := Option.map_eq_some_iff.1 h
        obtain ⟨hplaced, hrising⟩ := rising_placeFrom rest nonneg_zero hgaps hrest
        exact rising_cons hrising fun _ => ⟨nonneg_zero, hplaced⟩

omit [Scalar.Ordered α] in
/-- Drawn slots stay where they are while slots for control elements are placed between them. -/
theorem filter_placeTimestamps (previous : Option (Slot α)) (slots : List (Slot α)) :
    ((placeTimestamps previous slots).filter fun s => ¬ s.timestampOnly) =
      slots.filter fun s => ¬ s.timestampOnly := by
  induction slots generalizing previous with
  | nil => rfl
  | cons s rest ih =>
    rw [placeTimestamps]
    split_ifs with hstamp
    · dsimp only
      rw [List.filter_cons_of_neg (by simpa using hstamp),
        List.filter_cons_of_neg (by simpa using hstamp), ih]
    · rw [List.filter_cons_of_pos (by simpa using hstamp),
        List.filter_cons_of_pos (by simpa using hstamp), ih]

/-- The last slot lies at its neighbour if it is for a control element only. -/
theorem nonneg_last_placeTimestamps : (slots : List (Slot α)) →
    (previous : Option (Slot α)) → (∀ p ∈ previous, Nonneg p.x) → DrawnRight slots →
      ∀ s ∈ (placeTimestamps previous slots).getLast?, Nonneg s.x
  | [], _, _, _ => fun _ hs => absurd hs (by simp [placeTimestamps])
  | s :: rest, previous, hprevious, hslots => by
      have hrest := List.forall_mem_cons.1 hslots
      rw [placeTimestamps]
      split_ifs with hstamp
      · cases rest with
        | nil =>
          rintro t ht
          obtain rfl := Option.mem_some.1 (by simpa [placeTimestamps] using ht)
          show Nonneg (between previous none s.key.time)
          cases previous with
          | none => exact nonneg_zero
          | some p => exact hprevious p rfl
        | cons r rest =>
          have ih := nonneg_last_placeTimestamps (r :: rest) _ hprevious hrest.2
          rw [placeTimestamps] at ih ⊢
          split_ifs at ih ⊢ <;> rwa [List.getLast?_cons_cons]
      · have ih := nonneg_last_placeTimestamps rest (some s)
          (by rintro p ⟨⟩; exact hrest.1 hstamp) hrest.2
        cases rest with
        | nil =>
          rintro t ht
          obtain rfl := Option.mem_some.1 (by simpa [placeTimestamps] using ht)
          exact hrest.1 hstamp
        | cons r rest =>
          rw [placeTimestamps] at ih ⊢
          split_ifs at ih ⊢ <;> rwa [List.getLast?_cons_cons]

theorem sound_place {g g' : MeasureGrid α} (hgaps : ∀ gap ∈ g.gaps, gap.Sound)
    (h : g.place = .ok g') : g'.Sound := by
  rw [place] at h
  split at h
  · rename_i slots hslots
    rw [← Except.ok.inj h]
    refine ⟨hgaps, ?_, by
      rw [Rising, filter_placeTimestamps]
      exact rising_placeDrawn g.slots hgaps hslots⟩
    have hlast := nonneg_last_placeTimestamps slots none (by rintro _ ⟨⟩)
      (drawnRight_placeDrawn g.slots hgaps hslots)
    rw [width]
    cases hs : (placeTimestamps none slots).getLast? with
    | none => exact nonneg_zero
    | some s => exact hlast s hs
  · exact absurd h (by simp)

/-- Ideal positions. -/
theorem sound_space {g g' : MeasureGrid α} {p : Spacing α} (hp : p.InRange)
    (h : g.space p = .ok g') : g'.Sound := by
  rw [space] at h
  split at h
  · cases hplaced : place { g with gaps := idealGaps p g.drawnSlots } with
    | error f => simp [hplaced, bind, Except.bind] at h
    | ok placed =>
      have hsound := sound_place (sound_idealGaps hp _) hplaced
      rw [hplaced] at h
      rw [← Except.ok.inj h]
      exact ⟨hsound.gaps, hsound.width, hsound.rising⟩
  · exact absurd h (by simp)

/-- Justified positions. -/
theorem sound_applyGaps {g g' : MeasureGrid α} {gaps : List (Gap α)} (hgaps : ∀ gap ∈ gaps, gap.Sound)
    (h : g.applyGaps gaps = .ok g') : g'.Sound := by
  rw [applyGaps] at h
  split at h
  · exact sound_place (g := { g with gaps }) hgaps h
  · exact absurd h (by simp)

end MeasureGrid

end ScoreLayout
