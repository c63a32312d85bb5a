import Mathlib.Algebra.BigOperators.Ring.List
import Mathlib.Algebra.Order.BigOperators.Group.List
import Mathlib.Tactic.Positivity
import ScoreLayout.Layout.SystemBreaks
import ScoreLayout.Proofs.Exact
import ScoreLayout.Proofs.Grid.Widths
import ScoreLayout.Proofs.Layout.KeptSlots

/-!
# Exact stretching

In exact arithmetic the width of a placed grid is the sum of its gaps, and an amount distributed over
gaps is added to their sum: all of a stretch arrives in one round, and of a compression nothing is
taken twice. What the tolerances leave over is smaller than the tolerance of widths.

## Main definitions

* `Gap.Elastic` — a gap above its floor, with a weight that is not negative.
* `Gap.totalWidth`, `Gap.totalWeight` — the sums over gaps.
* `MeasureGrid.Elastic` — a placed grid that has a width and can be stretched.

## Main results

* `Gap.abs_totalWidth_distribute_sub_le` — distributing adds the amount, up to the tolerance.
* `MeasureGrid.width_applyGaps` — the width of a grid is the sum of its gaps.
* `MeasureGrid.elastic_space` — a closed grid with ideal positions can be stretched.
-/

namespace ScoreLayout

variable {K : Type} [ExactField K]

theorem ExactField.ofDecimal_eq (m e : ℕ) :
    Scalar.ofDecimal m true e = (m : K) / (10 : ℕ) ^ e := rfl

theorem fitTolerance_eq : (fitTolerance : K) = ((10 ^ 6 : ℕ) : K)⁻¹ := by
  refine (ExactField.ofDecimal_eq 1 6).trans ?_
  rw [Nat.cast_one, one_div, Nat.cast_pow]

/-! ### Gaps -/

namespace Gap

/-- A gap above its floor, with a weight that is not negative. -/
structure Elastic (g : Gap K) : Prop where
  floor : g.floor ≤ g.width
  weight : 0 ≤ g.weight

/-- The sum of the widths of gaps. -/
def totalWidth (gaps : List (Gap K)) : K := (gaps.map Gap.width).sum

/-- The sum of the weights of gaps. -/
def totalWeight (gaps : List (Gap K)) : K := (gaps.map Gap.weight).sum

theorem totalWidth_append (gaps gaps' : List (Gap K)) :
    totalWidth (gaps ++ gaps') = totalWidth gaps + totalWidth gaps' := by
  rw [totalWidth, List.map_append, List.sum_append]
  rfl

theorem totalWeight_append (gaps gaps' : List (Gap K)) :
    totalWeight (gaps ++ gaps') = totalWeight gaps + totalWeight gaps' := by
  rw [totalWeight, List.map_append, List.sum_append]
  rfl

theorem totalWeight_nonneg {gaps : List (Gap K)} (h : ∀ g ∈ gaps, g.Elastic) :
    0 ≤ totalWeight gaps :=
  List.sum_nonneg (List.forall_mem_map.2 fun g hg => (h g hg).weight)

theorem isActive_iff {share : K} {g : Gap K} :
    g.IsActive share ↔ 0 < g.weight ∧ (0 < share ∨ tolerance < g.width - g.floor) := by
  rw [IsActive, ExactField.zero_eq]

/-! ### One round -/

/-- A round adds to the gaps what it says that it has applied. -/
theorem totalWidth_distributeRound (share total : K) (gaps : List (Gap K)) :
    totalWidth (distributeRound share total gaps).1 =
      totalWidth gaps + (distributeRound share total gaps).2 := by
  rw [distributeRound, Scalar.sum_eq_sum]
  dsimp only
  induction gaps with
  | nil => simp [totalWidth]
  | cons g gaps ih =>
    rw [totalWidth, List.map_map] at ih ⊢
    rw [List.map_cons, List.sum_cons, ih, totalWidth, totalWidth, List.map_cons, List.sum_cons]
    by_cases hg : g.IsActive share
    · rw [List.filter_cons_of_pos (by simpa using hg), List.map_cons, List.sum_cons,
        Function.comp_apply, if_pos hg]
      ring
    · rw [List.filter_cons_of_neg (by simpa using hg), Function.comp_apply, if_neg hg]
      ring

theorem floor_le_width_add_change (g : Gap K) (share total : K) :
    g.floor ≤ g.width + g.change share total := by
  rw [change]
  split_ifs with hfloor
  · exact le_of_eq (add_sub_cancel _ _).symm
  · exact not_lt.1 hfloor

theorem Elastic.distributeRound {gaps : List (Gap K)} (h : ∀ g ∈ gaps, g.Elastic)
    (share total : K) : ∀ g ∈ (distributeRound share total gaps).1, g.Elastic := by
  refine List.forall_mem_map.2 fun g hg => ?_
  split_ifs
  · exact ⟨floor_le_width_add_change g share total, (h g hg).weight⟩
  · exact h g hg

/-- The parts that go to gaps make up the share. -/
theorem sum_parts {total : K} (htotal : total ≠ 0) (share : K) {gaps : List (Gap K)}
    (hgaps : (gaps.map Gap.weight).sum = total) :
    (gaps.map fun g => share * g.weight / total).sum = share := by
  have hmap : (gaps.map fun g => share * g.weight / total) =
      gaps.map fun g => share / total * g.weight :=
    List.map_congr_left fun g _ => by ring
  rw [hmap, List.sum_map_mul_left, hgaps, div_mul_cancel₀ _ htotal]

/-- No gap ends on its floor while it is stretched. -/
theorem change_of_nonneg {g : Gap K} (h : g.Elastic) {share total : K} (hshare : 0 ≤ share)
    (htotal : 0 ≤ total) : g.change share total = share * g.weight / total := by
  rw [change]
  refine if_neg (not_lt.2 (h.floor.trans (le_add_of_nonneg_right ?_)))
  exact div_nonneg (mul_nonneg hshare h.weight) htotal

/-- Compression takes no more of a gap than its part, and gives it nothing. -/
theorem change_of_nonpos {g : Gap K} (h : g.Elastic) {share total : K} (hshare : share ≤ 0)
    (htotal : 0 ≤ total) :
    share * g.weight / total ≤ g.change share total ∧ g.change share total ≤ 0 := by
  have hpart : share * g.weight / total ≤ 0 :=
    div_nonpos_of_nonpos_of_nonneg (mul_nonpos_of_nonpos_of_nonneg hshare h.weight) htotal
  rw [change]
  split_ifs with hfloor
  · exact ⟨by linarith, sub_nonpos.2 h.floor⟩
  · exact ⟨le_rfl, hpart⟩

theorem activeWeight_eq (share : K) (gaps : List (Gap K)) :
    activeWeight share gaps = ((gaps.filter fun g => g.IsActive share).map Gap.weight).sum := by
  rw [activeWeight, Scalar.sum_eq_sum]

/-- A round of stretching applies all. -/
theorem applied_of_nonneg {gaps : List (Gap K)} (h : ∀ g ∈ gaps, g.Elastic) {share : K}
    (hshare : 0 ≤ share) (htotal : 0 < activeWeight share gaps) :
    (distributeRound share (activeWeight share gaps) gaps).2 = share := by
  rw [distributeRound, Scalar.sum_eq_sum]
  dsimp only
  rw [List.map_congr_left fun g hg =>
    change_of_nonneg (h g (List.mem_of_mem_filter hg)) hshare htotal.le]
  exact sum_parts htotal.ne' share (activeWeight_eq share gaps).symm

/-- A round of compression takes no more than it should, and gives nothing. -/
theorem applied_of_nonpos {gaps : List (Gap K)} (h : ∀ g ∈ gaps, g.Elastic) {share : K}
    (hshare : share ≤ 0) (htotal : 0 < activeWeight share gaps) :
    share ≤ (distributeRound share (activeWeight share gaps) gaps).2 ∧
      (distributeRound share (activeWeight share gaps) gaps).2 ≤ 0 := by
  have hchange : ∀ g ∈ gaps.filter fun g => g.IsActive share, _ := fun g hg =>
    change_of_nonpos (h g (List.mem_of_mem_filter hg)) hshare htotal.le
  rw [distributeRound, Scalar.sum_eq_sum]
  dsimp only
  constructor
  · refine (sum_parts htotal.ne' share (activeWeight_eq share gaps).symm).symm.le.trans ?_
    exact List.sum_le_sum fun g hg => (hchange g hg).1
  · refine (List.sum_le_card_nsmul _ 0
      (List.forall_mem_map.2 fun g hg => (hchange g hg).2)).trans_eq (nsmul_zero _)

/-! ### All rounds -/

theorem tolerance_eq : (tolerance : K) = ((10 ^ 9 : ℕ) : K)⁻¹ := by
  refine (ExactField.ofDecimal_eq 1 9).trans ?_
  rw [Nat.cast_one, one_div, Nat.cast_pow]

theorem tolerance_pos : (0 : K) < tolerance := by
  rw [tolerance_eq]
  exact inv_pos.2 (Nat.cast_pos.2 (by decide))

theorem tolerance_le : (tolerance : K) ≤ fitTolerance := by
  rw [tolerance_eq, fitTolerance_eq]
  exact inv_anti₀ (Nat.cast_pos.2 (by decide)) (Nat.cast_le.2 (by decide))

/-- Compression takes no more than it should, over all rounds. -/
theorem totalWidth_distributeRounds_of_nonpos : (rounds : Nat) → {gaps : List (Gap K)} →
    (∀ g ∈ gaps, g.Elastic) → {remaining : K} → remaining ≤ 0 →
      totalWidth gaps + remaining ≤ totalWidth (distributeRounds rounds gaps remaining).1 ∧
        totalWidth (distributeRounds rounds gaps remaining).1 ≤ totalWidth gaps
  | 0, gaps, _, remaining, hremaining => ⟨add_le_of_nonpos_right hremaining, le_rfl⟩
  | rounds + 1, gaps, h, remaining, hremaining => by
      have hstay : totalWidth gaps + remaining ≤ totalWidth gaps :=
        add_le_of_nonpos_right hremaining
      rw [distributeRounds, ExactField.zero_eq]
      dsimp only
      split_ifs with hdone htotal
      · exact ⟨hstay, le_rfl⟩
      · exact ⟨hstay, le_rfl⟩
      · obtain ⟨hle, hnonpos⟩ := applied_of_nonpos h hremaining (not_le.1 htotal)
        have hround := totalWidth_distributeRound remaining (activeWeight remaining gaps) gaps
        obtain ⟨hlow, hhigh⟩ := totalWidth_distributeRounds_of_nonpos rounds
          (Elastic.distributeRound h remaining (activeWeight remaining gaps)) (sub_nonpos.2 hle)
        constructor <;> linarith

/-- Where gaps stretch at all, they take part in stretching. -/
theorem activeWeight_of_pos {share : K} (hshare : 0 < share) : {gaps : List (Gap K)} →
    (∀ g ∈ gaps, g.Elastic) → activeWeight share gaps = totalWeight gaps
  | [], _ => by rw [activeWeight_eq]; rfl
  | g :: gaps, h => by
      rw [List.forall_mem_cons] at h
      have ih := activeWeight_of_pos hshare h.2
      rw [activeWeight_eq] at ih ⊢
      show _ = ((g :: gaps).map Gap.weight).sum
      rw [List.map_cons, List.sum_cons, show (gaps.map Gap.weight).sum = totalWeight gaps from rfl,
        ← ih]
      by_cases hg : g.IsActive share
      · rw [List.filter_cons_of_pos (by simpa using hg), List.map_cons, List.sum_cons]
      · have hzero : g.weight = 0 := by
          rw [isActive_iff] at hg
          exact le_antisymm (not_lt.1 fun hpos => hg ⟨hpos, .inl hshare⟩) h.1.weight
        rw [List.filter_cons_of_neg (by simpa using hg), hzero, zero_add]

/-- All of a stretch arrives in one round. -/
theorem totalWidth_distributeRounds_of_pos (rounds : Nat) {gaps : List (Gap K)}
    (h : ∀ g ∈ gaps, g.Elastic) (hweight : 0 < totalWeight gaps) {remaining : K}
    (hremaining : tolerance ≤ remaining) :
    totalWidth (distributeRounds (rounds + 1) gaps remaining).1 = totalWidth gaps + remaining := by
  have hpos : 0 < remaining := tolerance_pos.trans_le hremaining
  have htotal : 0 < activeWeight remaining gaps := activeWeight_of_pos hpos h ▸ hweight
  have happlied := applied_of_nonneg h hpos.le htotal
  have hround := totalWidth_distributeRound remaining (activeWeight remaining gaps) gaps
  rw [distributeRounds, Scalar.abs_eq_abs, abs_of_pos hpos, if_neg (not_lt.2 hremaining),
    ExactField.zero_eq]
  dsimp only
  rw [if_neg (not_le.2 htotal), happlied, sub_self]
  -- nothing is left over for further rounds
  have hdone (rounds : Nat) (gaps : List (Gap K)) : (distributeRounds rounds gaps 0).1 = gaps := by
    cases rounds with
    | zero => rfl
    | succ rounds => rw [distributeRounds, Scalar.abs_eq_abs, abs_zero, if_pos tolerance_pos]
  rw [hdone, hround, happlied]

/-- Distributing adds the amount to gaps that can stretch, up to the tolerance of widths, unless it
compresses them by more than that. -/
theorem abs_totalWidth_distribute_sub_le {gaps : List (Gap K)} (h : ∀ g ∈ gaps, g.Elastic)
    (hweight : 0 < totalWeight gaps) {extra : K} (hextra : -fitTolerance ≤ extra) :
    |totalWidth (distribute gaps extra).1 - (totalWidth gaps + extra)| ≤ fitTolerance := by
  obtain ⟨rounds, hrounds⟩ : ∃ rounds, Nat.max gaps.length 1 = rounds + 1 :=
    ⟨max gaps.length 1 - 1, (Nat.sub_add_cancel (le_max_right _ _)).symm⟩
  rw [distribute, hrounds]
  rcases le_or_gt extra 0 with hnonpos | hpos
  · obtain ⟨hlow, hhigh⟩ := totalWidth_distributeRounds_of_nonpos (rounds + 1) h hnonpos
    rw [abs_le]
    constructor <;> linarith [tolerance_le (K := K), tolerance_pos (K := K)]
  · rcases lt_or_ge extra tolerance with hsmall | hlarge
    · rw [distributeRounds, Scalar.abs_eq_abs, abs_of_pos hpos, if_pos hsmall]
      rw [abs_le]
      constructor <;> linarith [tolerance_le (K := K)]
    · rw [totalWidth_distributeRounds_of_pos rounds h hweight hlarge, sub_self, abs_zero]
      exact tolerance_pos.le.trans tolerance_le

theorem Elastic.distribute {gaps : List (Gap K)} (h : ∀ g ∈ gaps, g.Elastic) (extra : K) :
    ∀ g ∈ (distribute gaps extra).1, g.Elastic := by
  have hrounds : (rounds : Nat) → {gaps : List (Gap K)} → (∀ g ∈ gaps, g.Elastic) →
      (remaining : K) → ∀ g ∈ (distributeRounds rounds gaps remaining).1, g.Elastic := by
    intro rounds
    induction rounds with
    | zero => exact fun h _ => h
    | succ rounds ih =>
      intro gaps h remaining
      rw [distributeRounds]
      dsimp only
      split_ifs
      · exact h
      · exact h
      · exact ih (Elastic.distributeRound h _ _) _
  exact hrounds _ h extra

end Gap

/-! ### Widths of grids -/

namespace MeasureGrid

variable {g g' : MeasureGrid K} {p : Spacing K}

/-- The position of the last of drawn slots, or another where there is none. -/
def lastX (slots : List (Slot K)) (x : K) : K :=
  ((slots.filter fun s => ¬ s.timestampOnly).getLast?.map Slot.x).getD x

omit [ExactField K] in
theorem lastX_cons_of_drawn {s : Slot K} (hs : ¬ s.timestampOnly) (rest : List (Slot K)) (x : K) :
    lastX (s :: rest) x = lastX rest s.x := by
  rw [lastX, lastX, List.filter_cons_of_pos (by simpa using hs), List.getLast?_cons]
  cases (rest.filter fun s => ¬ s.timestampOnly).getLast? <;> rfl

omit [ExactField K] in
theorem lastX_cons_of_timestamp {s : Slot K} (hs : s.timestampOnly) (rest : List (Slot K)) (x : K) :
    lastX (s :: rest) x = lastX rest x := by
  rw [lastX, lastX, List.filter_cons_of_neg (by simpa using hs)]

/-- The gaps of drawn slots add up on the way to the last of them. -/
theorem lastX_placeFrom : (slots : List (Slot K)) → {x : K} → {gaps : List (Gap K)} →
    {placed : List (Slot K)} → (slots.filter fun s => ¬ s.timestampOnly).length = gaps.length →
      placeFrom slots x gaps = some placed → lastX placed x = x + Gap.totalWidth gaps
  | [], x, gaps, placed, hlength, h => by
      obtain rfl : gaps = [] := List.length_eq_zero_iff.1 hlength.symm
      rw [← Option.some.inj h]
      exact (add_zero x).symm
  | s :: rest, x, gaps, placed, hlength, h => by
      rw [placeFrom.eq_def] at h
      dsimp only at h
      split_ifs at h with hs
      · obtain ⟨placed, hrest, rfl⟩ := Option.map_eq_some_iff.1 h
        rw [lastX_cons_of_timestamp hs]
        exact lastX_placeFrom rest (by simpa [hs] using hlength) hrest
      · cases gaps with
        | nil => cases h
        | cons gap gaps =>
          obtain ⟨placed, hrest, rfl⟩ := Option.map_eq_some_iff.1 h
          have ih := lastX_placeFrom rest (by simpa [hs] using hlength) hrest
          rw [lastX_cons_of_drawn (s := { s with x := x + gap.width }) hs, ih, add_assoc]
          rfl

theorem lastX_placeDrawn {slots : List (Slot K)} {gaps : List (Gap K)}
    {placed : List (Slot K)}
    (hlength : (slots.filter fun s => ¬ s.timestampOnly).length = gaps.length + 1)
    (h : placeDrawn slots gaps = some placed) : lastX placed 0 = Gap.totalWidth gaps := by
  induction slots generalizing placed with
  | nil => simp at hlength
  | cons s rest ih =>
    rw [placeDrawn] at h
    split_ifs at h with hs
    · obtain ⟨placed, hrest, rfl⟩ := Option.map_eq_some_iff.1 h
      rw [lastX_cons_of_timestamp hs]
      exact ih (by simpa [hs] using hlength) hrest
    · obtain ⟨placed, hrest, rfl⟩ := Option.map_eq_some_iff.1 h
      have hfrom := lastX_placeFrom rest (by simpa [hs] using hlength) hrest
      have hfirst (x : K) : lastX ({ s with x } :: placed) 0 = lastX placed x :=
        lastX_cons_of_drawn (s := { s with x }) hs placed 0
      rw [hfirst, hfrom, ExactField.zero_eq, zero_add]

/-- A last slot for control elements only stands at the last drawn one. -/
theorem last_placeTimestamps (previous : Option (Slot K)) (slots : List (Slot K)) :
    ((placeTimestamps previous slots).getLast?.map Slot.x).getD
        ((previous.map Slot.x).getD 0) = lastX slots ((previous.map Slot.x).getD 0) := by
  induction slots generalizing previous with
  | nil => rfl
  | cons s rest ih =>
    rw [placeTimestamps]
    split_ifs with hs
    · dsimp only
      rw [lastX_cons_of_timestamp hs, ← ih previous, List.getLast?_cons]
      cases hrest : (placeTimestamps previous rest).getLast? with
      | some t => rfl
      | none =>
        have hnil : rest = [] := by
          cases rest with
          | nil => rfl
          | cons r rest =>
            rw [placeTimestamps] at hrest
            split_ifs at hrest <;> simp at hrest
        rw [hnil]
        cases previous <;> first | rfl | exact ExactField.zero_eq
    · have hrest := ih (some s)
      rw [Option.map_some, Option.getD_some] at hrest
      rw [lastX_cons_of_drawn hs, ← hrest, List.getLast?_cons]
      cases (placeTimestamps (some s) rest).getLast? <;> rfl

/-- The width of a placed grid is the sum of its gaps. -/
theorem width_place (hgaps : g.drawnSlots.length = g.gaps.length + 1) (h : g.place = .ok g') :
    g'.width = Gap.totalWidth g.gaps := by
  rw [place] at h
  split at h
  · rename_i slots hslots
    rw [← Except.ok.inj h, ← lastX_placeDrawn hgaps hslots]
    have hlast := last_placeTimestamps none slots
    rw [Option.map_none, Option.getD_none] at hlast
    rw [width, ExactField.zero_eq]
    exact hlast
  · cases h

/-- Grids that fit are as wide as the gaps they are given. -/
theorem Fitted.width_applyGaps (hg : g.Fitted) {gaps : List (Gap K)}
    (h : g.applyGaps gaps = .ok g') : g'.width = Gap.totalWidth gaps := by
  rw [applyGaps] at h
  split_ifs at h with hlength
  refine width_place (g := { g with gaps }) ?_ h
  show g.drawnSlots.length = gaps.length + 1
  rw [← hg.gaps, hlength]

end MeasureGrid

/-! ### Ideal gaps -/

theorem Scalar.max_eq_max (a b : K) : Scalar.max a b = Max.max a b := by
  rw [Scalar.max, if_pos (le_refl b), max_comm, max_def]

theorem Scalar.min_eq_min (a b : K) : Scalar.min a b = Min.min a b := by
  rw [Scalar.min, if_pos (le_refl b), min_def]

namespace Slot

theorem fallbackWeight_pos : (0 : K) < fallbackWeight := by
  refine lt_of_lt_of_eq ?_ (ExactField.ofDecimal_eq 1 3).symm
  rw [Nat.cast_one, one_div]
  exact inv_pos.2 (pow_pos (Nat.cast_pos.2 (by decide)) 3)

variable {p : Spacing K}

theorem elastic_gapTo_of_nonneg {previous current : Slot K}
    (hspace : 0 ≤ timedSpace previous current p) : (gapTo previous current p).Elastic := by
  rw [gapTo]
  by_cases hend : current.key.kind = .measureEnd
  · rw [if_pos hend]
    exact ⟨le_rfl, ExactField.zero_eq.ge⟩
  · rw [if_neg hend]
    refine ⟨?_, ?_⟩
    · dsimp only
      rw [Scalar.min_eq_min]
      exact min_le_right _ _
    · dsimp only
      split_ifs
      · rw [Scalar.max_eq_max]
        exact hspace.trans (le_max_left _ _)
      · exact hspace

theorem elastic_gapTo (hp : p.InRange) (previous current : Slot K) :
    (gapTo previous current p).Elastic :=
  elastic_gapTo_of_nonneg (ExactField.nonneg_iff.1 (nonneg_timedSpace hp previous current))

/-- The margin stands between what opens a measure and its content. -/
theorem margin_le_width_gapTo {previous current : Slot K} (hleft : previous.key.zone = .left)
    (hcontent : current.key.zone = .content) : p.margin ≤ (gapTo previous current p).width := by
  have hkind : current.key.kind ≠ .measureEnd := fun hkind => by
    rw [SlotKey.zone, hkind] at hcontent
    cases hcontent
  rw [gapTo, if_neg hkind]
  dsimp only
  rw [Scalar.max_eq_max, floorBetween, hleft, hcontent]
  exact le_max_right _ _

/-- The gap before the right barline stretches. -/
theorem weight_gapTo_pos {previous current : Slot K} (hkind : current.key.kind = .rightBarLine) :
    0 < (gapTo previous current p).weight := by
  rw [gapTo, if_neg (by rw [hkind]; decide)]
  dsimp only
  rw [if_pos (by rw [SlotKey.zone, hkind]; rfl), Scalar.max_eq_max]
  exact fallbackWeight_pos.trans_le (le_max_right _ _)

end Slot

namespace MeasureGrid

variable {g g' : MeasureGrid K} {p : Spacing K}

theorem elastic_idealGaps (hp : p.InRange) : (slots : List (Slot K)) →
    ∀ gap ∈ idealGaps p slots, gap.Elastic
  | [] => fun _ hg => absurd hg List.not_mem_nil
  | [_] => fun _ hg => absurd hg List.not_mem_nil
  | previous :: current :: rest => by
      rw [idealGaps, List.forall_mem_cons]
      exact ⟨Slot.elastic_gapTo hp previous current, elastic_idealGaps hp (current :: rest)⟩

/-- There is a gap between any two slots that follow each other. -/
theorem mem_idealGaps (p : Spacing K) (a b : Slot K) (back : List (Slot K)) :
    (front : List (Slot K)) → a.gapTo b p ∈ idealGaps p (front ++ a :: b :: back)
  | [] => by
      rw [List.nil_append, idealGaps]
      exact List.mem_cons_self
  | [c] => by
      rw [List.cons_append, List.nil_append, idealGaps, idealGaps]
      exact List.mem_cons_of_mem _ List.mem_cons_self
  | c :: c' :: front => by
      have ih := mem_idealGaps p a b back (c' :: front)
      rw [List.cons_append] at ih ⊢
      rw [List.cons_append, idealGaps]
      exact List.mem_cons_of_mem _ ih

omit [ExactField K] in
/-- Somewhere a list leaves what it begins with. -/
theorem exists_change {β : Type} {P : β → Prop} : {l : List β} → {first b : β} → P first →
    b ∈ l → ¬ P b → ∃ front a c back, first :: l = front ++ a :: c :: back ∧ P a ∧ ¬ P c
  | [], _, _, _, hb, _ => absurd hb List.not_mem_nil
  | c :: l, first, b, hfirst, hb, hnot => by
      by_cases hc : P c
      · have hb : b ∈ l := (List.mem_cons.1 hb).resolve_left fun h => hnot (h ▸ hc)
        obtain ⟨front, a, c', back, heq, ha, hc'⟩ := exists_change hc hb hnot
        exact ⟨first :: front, a, c', back, by rw [heq, List.cons_append], ha, hc'⟩
      · exact ⟨[], first, c, l, rfl, hfirst, hc⟩

omit [ExactField K] in
/-- The drawn slots of a closed grid: what opens the measure, the content, and what closes it. -/
theorem Closed.exists_drawnSlots (h : g.Closed) : ∃ first inner right last,
    g.drawnSlots = first :: inner ++ [right, last] ∧ first.key.zone = .left ∧
      (∃ s ∈ inner, s.key.zone = .content) ∧ (∀ s ∈ inner, s.key.zone ≠ .right) ∧
      right.key.kind = .rightBarLine := by
  obtain ⟨first, front, right, last, houtline, ⟨hleft, hfirst⟩, hcontent, hfront, hright, -⟩ := h
  rw [outline, List.cons_append] at houtline
  obtain ⟨s, slots, hslots, rfl, hrest⟩ := List.map_eq_cons_iff.1 houtline
  obtain ⟨inner, closing, rfl, rfl, hclosing⟩ := List.map_eq_append_iff.1 hrest
  obtain ⟨r, closing, rfl, hr, hclosing⟩ := List.map_eq_cons_iff.1 hclosing
  obtain ⟨l, closing, rfl, hl, hnil⟩ := List.map_eq_cons_iff.1 hclosing
  obtain rfl := List.map_eq_nil_iff.1 hnil
  obtain ⟨rfl, hdrawn⟩ := Prod.mk.inj hr
  obtain ⟨-, hdrawn'⟩ := Prod.mk.inj hl
  refine ⟨s, inner.filter fun s => ¬ s.timestampOnly, r, l, ?_, hleft, ?_, fun t ht => ?_, hright⟩
  · rw [drawnSlots, hslots, List.filter_cons_of_pos (by simpa using hfirst), List.filter_append,
      List.filter_cons_of_pos (by simpa using hdrawn), List.filter_cons_of_pos (by simpa using hdrawn')]
    rfl
  · obtain ⟨t, ht, hzone, hstamp⟩ := hcontent
    obtain ⟨u, hu, rfl⟩ := List.mem_map.1 ht
    exact ⟨u, List.mem_filter.2 ⟨hu, by simpa using hstamp⟩, hzone⟩
  · exact hfront _ (List.mem_map_of_mem (List.mem_of_mem_filter ht))

/-- A placed grid that has a width and can be stretched. -/
structure Elastic (g : MeasureGrid K) : Prop where
  fitted : g.Fitted
  gaps : ∀ gap ∈ g.gaps, gap.Elastic
  width_eq : g.width = Gap.totalWidth g.gaps
  width : 0 < g.width
  weight : 0 < Gap.totalWeight g.gaps

/-- A closed grid with ideal positions can be stretched. -/
theorem elastic_space (hp : p.InRange) (hmargin : 0 < p.margin) (hg : g.Closed)
    (h : g.space p = .ok g') : g'.Elastic := by
  obtain ⟨first, inner, right, last, hdrawn, hleft, ⟨s, hs, hcontent⟩, hinner, hright⟩ :=
    hg.exists_drawnSlots
  have hfitted : g'.Fitted := fitted_space h (by rw [hdrawn]; simp)
  have hwidth_nonneg := ExactField.nonneg_iff.1 (sound_space hp h).width
  rw [space] at h
  split_ifs at h
  obtain ⟨g₁, hplace, h⟩ := except_bind_eq_ok.1 h
  obtain rfl := Except.ok.inj h
  have hgaps₁ : g₁.gaps = idealGaps p g.drawnSlots := by
    rw [place] at hplace
    split at hplace
    · rw [← Except.ok.inj hplace]
    · cases hplace
  have helastic : ∀ gap ∈ idealGaps p g.drawnSlots, gap.Elastic := elastic_idealGaps hp _
  have hwidth : g₁.width = Gap.totalWidth g₁.gaps := by
    rw [hgaps₁]
    refine width_place (g := { g with gaps := idealGaps p g.drawnSlots }) ?_ hplace
    show g.drawnSlots.length = (idealGaps p g.drawnSlots).length + 1
    rw [length_idealGaps, hdrawn]
    simp
  have hnonneg : ∀ w ∈ (idealGaps p g.drawnSlots).map Gap.width, 0 ≤ w :=
    List.forall_mem_map.2 fun gap hgap =>
      ExactField.nonneg_iff.1 (sound_idealGaps hp _ gap hgap).width
  refine ⟨hfitted, hgaps₁ ▸ helastic, hwidth, ?_, ?_⟩
  · -- the first slot of content stands behind one that opens the measure
    obtain ⟨front, a, b, back, heq, ha, hb⟩ := exists_change (P := fun s => s.key.zone = .left)
      hleft hs (by rw [hcontent]; decide)
    have hbzone : b.key.zone = .content := by
      have hmem : b ∈ first :: inner := by rw [heq]; simp
      rcases List.mem_cons.1 hmem with rfl | hmem
      · exact absurd hleft hb
      · have := hinner b hmem
        cases hz : b.key.zone <;> simp_all
    have hgap : a.gapTo b p ∈ idealGaps p g.drawnSlots := by
      rw [hdrawn, heq, List.append_assoc]
      exact mem_idealGaps p a b _ front
    show 0 < g₁.width
    rw [hwidth, hgaps₁]
    exact (hmargin.trans_le (Slot.margin_le_width_gapTo ha hbzone)).trans_le
      (List.single_le_sum hnonneg _ (List.mem_map_of_mem hgap))
  · obtain ⟨front, z, hz⟩ : ∃ front z, first :: inner = front ++ [z] :=
      ⟨_, _, (List.dropLast_append_getLast (List.cons_ne_nil first inner)).symm⟩
    have hgap : z.gapTo right p ∈ idealGaps p g.drawnSlots := by
      rw [hdrawn, hz, List.append_assoc]
      exact mem_idealGaps p z right _ front
    show 0 < Gap.totalWeight g₁.gaps
    rw [hgaps₁]
    exact (Slot.weight_gapTo_pos hright).trans_le (List.single_le_sum
      (List.forall_mem_map.2 fun gap hgap => (helastic gap hgap).weight) _
      (List.mem_map_of_mem hgap))

end MeasureGrid

end ScoreLayout
