import Mathlib.Tactic.SplitIfs
import ScoreLayout.Grid.Measure

/-!
# Time grids with a gap between any two drawn slots

Giving a closed grid its ideal positions, or other gaps later, fails only where the gaps do not
match the drawn slots. They do match: spacing makes one gap for each two drawn slots that follow
each other, and nothing changes their number afterwards.

## Main definitions

* `MeasureGrid.Fitted` — a grid with positions, whose gaps match its drawn slots.

## Main results

* `MeasureGrid.exists_space` — a closed grid can be given ideal positions.
* `MeasureGrid.Fitted.exists_applyGaps` — it can then be given as many other gaps.
-/

namespace ScoreLayout

namespace MeasureGrid

variable {α : Type} {g g' : MeasureGrid α}

/-- A grid with positions, which has one gap fewer than drawn slots. -/
structure Fitted (g : MeasureGrid α) : Prop where
  positioned : g.positioned = true
  gaps : g.gaps.length + 1 = g.drawnSlots.length

variable [Scalar α]

/-- Drawn slots are placed as long as there are gaps for them. -/
theorem isSome_placeFrom {slots : List (Slot α)} {x : α} {gaps : List (Gap α)}
    (h : (slots.filter fun s => ¬ s.timestampOnly).length ≤ gaps.length) :
    (placeFrom slots x gaps).isSome := by
  induction slots generalizing x gaps with
  | nil => rfl
  | cons s rest ih =>
    rw [placeFrom.eq_def]
    dsimp only
    split_ifs with hs
    · rw [Option.isSome_map]
      exact ih (by simpa [hs] using h)
    · cases gaps with
      | nil => simp [hs] at h
      | cons gap gaps =>
        rw [Option.isSome_map]
        exact ih (by simpa [hs] using h)

/-- The first drawn slot needs no gap before it. -/
theorem isSome_placeDrawn {slots : List (Slot α)} {gaps : List (Gap α)}
    (h : (slots.filter fun s => ¬ s.timestampOnly).length ≤ gaps.length + 1) :
    (placeDrawn slots gaps).isSome := by
  induction slots with
  | nil => rfl
  | cons s rest ih =>
    rw [placeDrawn]
    split_ifs with hs
    · rw [Option.isSome_map]
      exact ih (by simpa [hs] using h)
    · rw [Option.isSome_map]
      exact isSome_placeFrom (by simpa [hs] using h)

/-- A grid is placed if its gaps match its drawn slots. -/
theorem exists_place (h : g.drawnSlots.length ≤ g.gaps.length + 1) :
    ∃ slots, g.place = .ok { g with slots } := by
  obtain ⟨slots, hslots⟩ := Option.isSome_iff_exists.1 (isSome_placeDrawn h)
  rw [place, hslots]
  exact ⟨_, rfl⟩

theorem length_idealGaps (p : Spacing α) : (slots : List (Slot α)) →
    (idealGaps p slots).length = slots.length - 1
  | [] => rfl
  | [_] => rfl
  | _ :: s :: rest => by
      rw [idealGaps, List.length_cons, length_idealGaps p (s :: rest)]
      simp

/-- A closed grid can be given ideal positions. -/
theorem exists_space (p : Spacing α) (hstate : g.state = .aligned) :
    ∃ slots, g.space p =
      .ok { g with slots, gaps := idealGaps p g.drawnSlots, positioned := true } := by
  have hlength := length_idealGaps p g.drawnSlots
  obtain ⟨slots, hplace⟩ := exists_place (g := { g with gaps := idealGaps p g.drawnSlots })
    (by show g.drawnSlots.length ≤ (idealGaps p g.drawnSlots).length + 1; omega)
  rw [space, if_pos hstate, hplace]
  exact ⟨slots, rfl⟩

/-- A grid with positions can be given as many other gaps. -/
theorem Fitted.exists_applyGaps (h : g.Fitted) {gaps : List (Gap α)}
    (hlength : gaps.length = g.gaps.length) :
    ∃ slots, g.applyGaps gaps = .ok { g with slots, gaps } := by
  have hgaps := h.gaps
  obtain ⟨slots, hplace⟩ := exists_place (g := { g with gaps })
    (by show g.drawnSlots.length ≤ gaps.length + 1; omega)
  rw [applyGaps, if_pos hlength, hplace]
  exact ⟨slots, rfl⟩

end MeasureGrid

end ScoreLayout
