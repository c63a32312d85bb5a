import ScoreLayout.Proofs.Grid.Fitted
import ScoreLayout.Proofs.Grid.Widths
import ScoreLayout.Proofs.Layout.KeptSlots

/-!
# Positions from gaps

Placing a time grid changes the positions of its slots and nothing else about them. Its drawn slots
come to stand at the running sums of its gaps, the first of them at zero.

## Main definitions

* `Slot.unplaced` — a slot without its position.
* `MeasureGrid.Placed` — a grid whose drawn slots stand at the running sums of its gaps.

## Main results

* `MeasureGrid.unplaced_place` — placing moves slots, and changes nothing else about them.
* `MeasureGrid.placed_place` — where drawn slots are placed.
-/

namespace ScoreLayout

variable {α : Type}

/-- A slot without its position. -/
def Slot.unplaced [Scalar α] (s : Slot α) : Slot α := { s with x := 0 }

namespace MeasureGrid

variable [Scalar α] {g g' : MeasureGrid α}

/-! ### What placing keeps -/

theorem unplaced_placeFrom {slots placed : List (Slot α)} {x : α} {gaps : List (Gap α)}
    (h : placeFrom slots x gaps = some placed) :
    placed.map Slot.unplaced = slots.map Slot.unplaced := by
  induction slots generalizing x gaps placed with
  | nil => exact Option.some.inj h ▸ rfl
  | cons s rest ih =>
    rw [placeFrom.eq_def] at h
    dsimp only at h
    split_ifs at h
    · obtain ⟨rest', hrest, rfl⟩ := Option.map_eq_some_iff.1 h
      exact congrArg (s.unplaced :: ·) (ih hrest)
    · cases gaps with
      | nil => cases h
      | cons gap gaps =>
        obtain ⟨rest', hrest, rfl⟩ := Option.map_eq_some_iff.1 h
        exact congrArg (s.unplaced :: ·) (ih hrest)

theorem unplaced_placeDrawn {slots placed : List (Slot α)} {gaps : List (Gap α)}
    (h : placeDrawn slots gaps = some placed) :
    placed.map Slot.unplaced = slots.map Slot.unplaced := by
  induction slots generalizing placed with
  | nil => exact Option.some.inj h ▸ rfl
  | cons s rest ih =>
    rw [placeDrawn] at h
    split_ifs at h
    · obtain ⟨rest', hrest, rfl⟩ := Option.map_eq_some_iff.1 h
      exact congrArg (s.unplaced :: ·) (ih hrest)
    · obtain ⟨rest', hrest, rfl⟩ := Option.map_eq_some_iff.1 h
      exact congrArg (s.unplaced :: ·) (unplaced_placeFrom hrest)

theorem unplaced_placeTimestamps (previous : Option (Slot α)) (slots : List (Slot α)) :
    (placeTimestamps previous slots).map Slot.unplaced = slots.map Slot.unplaced := by
  induction slots generalizing previous with
  | nil => rfl
  | cons s rest ih =>
    rw [placeTimestamps]
    split_ifs
    · exact congrArg (s.unplaced :: ·) (ih previous)
    · exact congrArg (s.unplaced :: ·) (ih (some s))

/-- Placing moves slots, and changes nothing else about them. -/
theorem unplaced_place (h : g.place = .ok g') :
    g'.slots.map Slot.unplaced = g.slots.map Slot.unplaced := by
  rw [place] at h
  split at h
  · rename_i slots hslots
    rw [← Except.ok.inj h]
    exact (unplaced_placeTimestamps none slots).trans (unplaced_placeDrawn hslots)
  · cases h

theorem unplaced_space {p : Spacing α} (h : g.space p = .ok g') :
    g'.slots.map Slot.unplaced = g.slots.map Slot.unplaced := by
  rw [space] at h
  split_ifs at h
  obtain ⟨g₁, hplace, h⟩ := except_bind_eq_ok.1 h
  obtain rfl := Except.ok.inj h
  have hslots := unplaced_place hplace
  exact hslots

theorem unplaced_applyGaps {gaps : List (Gap α)} (h : g.applyGaps gaps = .ok g') :
    g'.slots.map Slot.unplaced = g.slots.map Slot.unplaced := by
  rw [applyGaps] at h
  split_ifs at h
  exact unplaced_place (g := { g with gaps }) h

theorem outline_of_unplaced (h : g'.slots.map Slot.unplaced = g.slots.map Slot.unplaced) :
    g'.outline = g.outline := by
  have houtline (g : MeasureGrid α) :
      g.outline = (g.slots.map Slot.unplaced).map fun s => (s.key, s.timestampOnly) := by
    rw [List.map_map]
    rfl
  rw [houtline, houtline, h]

/-! ### Where drawn slots stand -/

/-- From a position on, drawn slots stand at the running sums of the gaps. -/
theorem positions_placeFrom {slots placed : List (Slot α)} {x : α} {gaps : List (Gap α)}
    (hlength : (slots.filter fun s => ¬ s.timestampOnly).length = gaps.length)
    (h : placeFrom slots x gaps = some placed) :
    x :: (placed.filter fun s => ¬ s.timestampOnly).map Slot.x =
      (gaps.map Gap.width).scanl (· + ·) x := by
  induction slots generalizing x gaps placed with
  | nil =>
    obtain rfl := List.length_eq_zero_iff.1 hlength.symm
    rw [← Option.some.inj h]
    rfl
  | cons s rest ih =>
    rw [placeFrom.eq_def] at h
    dsimp only at h
    split_ifs at h with hstamp
    · obtain ⟨rest', hrest, rfl⟩ := Option.map_eq_some_iff.1 h
      rw [List.filter_cons_of_neg (by simpa using hstamp)] at hlength ⊢
      exact ih hlength hrest
    · cases gaps with
      | nil => cases h
      | cons gap gaps =>
        obtain ⟨rest', hrest, rfl⟩ := Option.map_eq_some_iff.1 h
        rw [List.filter_cons_of_pos (by simpa using hstamp), List.length_cons, List.length_cons,
          Nat.add_right_cancel_iff] at hlength
        rw [List.filter_cons_of_pos (by simpa using hstamp), List.map_cons, List.map_cons,
          List.scanl_cons, ← ih hlength hrest]

/-- The first drawn slot stands at zero, and the others at the running sums of the gaps. -/
theorem positions_placeDrawn {slots placed : List (Slot α)} {gaps : List (Gap α)}
    (hlength : gaps.length + 1 = (slots.filter fun s => ¬ s.timestampOnly).length)
    (h : placeDrawn slots gaps = some placed) :
    (placed.filter fun s => ¬ s.timestampOnly).map Slot.x =
      (gaps.map Gap.width).scanl (· + ·) 0 := by
  induction slots generalizing placed with
  | nil => simp at hlength
  | cons s rest ih =>
    rw [placeDrawn] at h
    split_ifs at h with hstamp
    · obtain ⟨rest', hrest, rfl⟩ := Option.map_eq_some_iff.1 h
      rw [List.filter_cons_of_neg (by simpa using hstamp)] at hlength ⊢
      exact ih hlength hrest
    · obtain ⟨rest', hrest, rfl⟩ := Option.map_eq_some_iff.1 h
      rw [List.filter_cons_of_pos (by simpa using hstamp), List.length_cons,
        Nat.add_right_cancel_iff] at hlength
      rw [List.filter_cons_of_pos (by simpa using hstamp), List.map_cons]
      exact positions_placeFrom hlength.symm hrest

/-- A grid with a gap between any two drawn slots that follow each other, whose drawn slots stand at
the running sums of the gaps. -/
structure Placed (g : MeasureGrid α) : Prop where
  gaps : g.gaps.length + 1 = g.drawnSlots.length
  positions : g.drawnSlots.map Slot.x = (g.gaps.map Gap.width).scanl (· + ·) 0

theorem length_drawnSlots_of_place (h : g.place = .ok g') :
    g'.drawnSlots.length = g.drawnSlots.length := by
  rw [length_drawnSlots, length_drawnSlots, (sameShape_place h).outline]

theorem gaps_place (h : g.place = .ok g') : g'.gaps = g.gaps := by
  rw [place] at h
  split at h
  · rw [← Except.ok.inj h]
  · cases h

/-- Where drawn slots are placed. -/
theorem placed_place (hgaps : g.gaps.length + 1 = g.drawnSlots.length) (h : g.place = .ok g') :
    g'.Placed := by
  refine ⟨by rw [gaps_place h, length_drawnSlots_of_place h, hgaps], ?_⟩
  rw [gaps_place h]
  rw [place] at h
  split at h
  · rename_i slots hslots
    rw [← Except.ok.inj h]
    show ((placeTimestamps none slots).filter fun s => ¬ s.timestampOnly).map Slot.x = _
    rw [filter_placeTimestamps]
    exact positions_placeDrawn hgaps hslots
  · cases h

/-- Where drawn slots are placed at first. -/
theorem placed_space {p : Spacing α} (h : g.space p = .ok g') (hdrawn : g.drawnSlots ≠ []) :
    g'.Placed := by
  rw [space] at h
  split_ifs at h
  obtain ⟨g₁, hplace, h⟩ := except_bind_eq_ok.1 h
  obtain rfl := Except.ok.inj h
  have hlength : (idealGaps p g.drawnSlots).length + 1 = g.drawnSlots.length := by
    rw [length_idealGaps]
    exact Nat.sub_add_cancel (List.length_pos_iff.2 hdrawn)
  have hplaced := placed_place (g := { g with gaps := idealGaps p g.drawnSlots }) hlength hplace
  exact ⟨hplaced.gaps, hplaced.positions⟩

/-- Where drawn slots are placed with other gaps. -/
theorem Placed.applyGaps (hg : g.Placed) {gaps : List (Gap α)} (h : g.applyGaps gaps = .ok g') :
    g'.Placed := by
  rw [MeasureGrid.applyGaps] at h
  split_ifs at h with hlength
  exact placed_place (g := { g with gaps }) (hlength ▸ hg.gaps) h

/-- A placed grid takes as many other gaps. -/
theorem Placed.exists_applyGaps (hg : g.Placed) {gaps : List (Gap α)}
    (hlength : gaps.length = g.gaps.length) : ∃ a, g.applyGaps gaps = .ok a := by
  obtain ⟨slots, hplace⟩ := exists_place (g := { g with gaps })
    (by show g.drawnSlots.length ≤ gaps.length + 1; rw [← hg.gaps, hlength])
  exact ⟨_, by rw [MeasureGrid.applyGaps, if_pos hlength, hplace]⟩

/-- A placed grid that ends with a drawn slot is as wide as all its gaps together. -/
theorem Placed.width (hg : g.Placed) {s : Slot α} (hs : g.slots.getLast? = some s)
    (hdrawn : s.timestampOnly = false) : g.width = Scalar.sum (g.gaps.map Gap.width) := by
  obtain ⟨front, hslots⟩ := List.getLast?_eq_some_iff.1 hs
  have hlast : (g.drawnSlots.map Slot.x).getLast? = some s.x := by
    rw [drawnSlots, hslots, List.filter_append, List.filter_cons_of_pos (by simpa using hdrawn),
      List.filter_nil, List.map_append, List.map_singleton, List.getLast?_concat]
  rw [hg.positions, List.getLast?_scanl, Option.some.injEq] at hlast
  rw [MeasureGrid.width, hs, Option.map_some, Option.getD_some, ← hlast]
  rfl

end MeasureGrid

end ScoreLayout
