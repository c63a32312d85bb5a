import ScoreLayout.Proofs.Grid.Stretching

/-!
# Proportional distribution with floors

In exact arithmetic an amount that is distributed over gaps moves each of them by one common factor
times its weight, as far as its floor allows. Stretching takes one round. A round of compression
either has nothing left to take or brings a further gap to its floor, so that as many rounds as
there are gaps suffice: what is left over then could not be taken from any gap.

## Main definitions

* `Gap.Yields` — a gap from which compression can still take.
* `Gap.Moved` — a gap that has been moved by a factor, or is on its floor.
* `Gap.Distributed` — the result of distributing an amount.

## Main results

* `Gap.Moved.round` — one round of compression adds its share to the factor.
* `Gap.countP_yields_round_lt` — a round that cannot take all brings a gap to its floor.
* `Gap.distributed` — every amount is distributed in this way.
-/

namespace ScoreLayout

namespace Gap

variable {K : Type} [ExactField K]

/-- Compression can still take from the gap: it stretches, and it is not on its floor yet. -/
def Yields (g : Gap K) : Prop := 0 < g.weight ∧ tolerance < g.width - g.floor

instance (g : Gap K) : Decidable g.Yields := inferInstanceAs (Decidable (_ ∧ _))

/-- A gap after a round. -/
def round (share total : K) (g : Gap K) : Gap K :=
  if g.IsActive share then { g with width := g.width + g.change share total } else g

/-- `g'` is `g` moved by `f` for each unit of its weight, or short of that close to its floor. -/
structure Moved (f : K) (g g' : Gap K) : Prop where
  weight : g'.weight = g.weight
  floor : g'.floor = g.floor
  above : g.floor ≤ g'.width
  rigid : g.weight = 0 → g' = g
  width : g'.width = g.width + f * g.weight ∨
    g'.width ≤ g.floor + tolerance ∧ g.width + f * g.weight ≤ g'.width

/-- The result of distributing `extra` over gaps: the new gaps, and what is left over. -/
structure Distributed (gaps : List (Gap K)) (extra : K) (gaps' : List (Gap K))
    (leftover : K) : Prop where
  /-- Weights and floors stay, no gap is below its floor, and what does not stretch stays. -/
  kept : List.Forall₂ (fun g g' => g'.weight = g.weight ∧ g'.floor = g.floor ∧
    g'.floor ≤ g'.width ∧ (g.weight = 0 → g'.width = g.width)) gaps gaps'
  /-- Nothing is lost. -/
  sum : |totalWidth gaps' + leftover - totalWidth gaps - extra| < tolerance
  /-- One factor moves all gaps that stretch, as far as their floors allow. -/
  factor : ∃ f : K, (0 ≤ extra → 0 ≤ f) ∧ (extra ≤ 0 → f ≤ 0) ∧
    List.Forall₂ (fun g g' => 0 < g.weight →
      |g'.width - max g.floor (g.width + f * g.weight)| ≤ tolerance) gaps gaps'
  /-- Something is left over of a stretch where no gap stretches, and of a compression where all
  gaps that stretch are on their floors. -/
  leftover : leftover ≠ 0 →
    (0 < extra ∧ 0 < leftover ∧ ∀ g ∈ gaps, ¬ 0 < g.weight) ∨
    (extra < 0 ∧ leftover < 0 ∧ ∀ g ∈ gaps', 0 < g.weight → |g.width - g.floor| ≤ tolerance)

/-! ### One round -/

theorem distributeRound_fst (share total : K) (gaps : List (Gap K)) :
    (distributeRound share total gaps).1 = gaps.map (round share total) := rfl

theorem isActive_iff_yields {share : K} (hshare : share ≤ 0) {g : Gap K} :
    g.IsActive share ↔ g.Yields := by
  rw [isActive_iff, Yields, or_iff_right hshare.not_gt]

theorem round_of_yields {share : K} (hshare : share ≤ 0) {g : Gap K} (hg : g.Yields) (total : K) :
    g.round share total = { g with width := g.width + g.change share total } :=
  if_pos ((isActive_iff_yields hshare).2 hg)

theorem round_of_not_yields {share : K} (hshare : share ≤ 0) {g : Gap K} (hg : ¬ g.Yields)
    (total : K) : g.round share total = g :=
  if_neg fun hactive => hg ((isActive_iff_yields hshare).1 hactive)

namespace Moved

variable {f : K} {g g' : Gap K}

theorem refl (hg : g.Elastic) : Moved 0 g g :=
  ⟨rfl, rfl, hg.floor, fun _ => rfl, .inl (by rw [zero_mul, add_zero])⟩

theorem le_width (h : Moved f g g') : g.width + f * g.weight ≤ g'.width := by
  obtain heq | ⟨-, hle⟩ := h.width
  exacts [heq.ge, hle]

/-- A gap that still yields has been moved by the whole of the factor. -/
theorem width_of_yields (h : Moved f g g') (hg : g'.Yields) :
    g'.width = g.width + f * g.weight := by
  refine h.width.resolve_right fun hfloor => ?_
  have habove := hg.2
  rw [h.floor] at habove
  linarith [hfloor.1]

/-- Once moved, a gap is where the factor or its floor puts it. -/
theorem abs_sub_le (h : Moved f g g') :
    |g'.width - max g.floor (g.width + f * g.weight)| ≤ tolerance := by
  obtain heq | ⟨hfloor, hle⟩ := h.width
  · rw [← heq, max_eq_right h.above, sub_self, abs_zero]
    exact tolerance_pos.le
  · have hmax : max g.floor (g.width + f * g.weight) ≤ g'.width := max_le h.above hle
    rw [abs_of_nonneg (sub_nonneg.2 hmax)]
    linarith [le_max_left g.floor (g.width + f * g.weight)]

/-- A round of compression adds its share to the factor. -/
theorem round (h : Moved f g g') (hg : g.Elastic) {share total : K} (hshare : share ≤ 0)
    (htotal : 0 < total) : Moved (f + share / total) g (g'.round share total) := by
  have hless : share / total * g.weight ≤ 0 :=
    mul_nonpos_of_nonpos_of_nonneg (div_nonpos_of_nonpos_of_nonneg hshare htotal.le) hg.weight
  by_cases hyields : g'.Yields
  · rw [round_of_yields hshare hyields]
    have hweight : g.weight ≠ 0 := h.weight ▸ hyields.1.ne'
    have hpart : share * g'.weight / total = share / total * g.weight := by
      rw [h.weight]
      ring
    refine ⟨h.weight, h.floor, h.floor ▸ floor_le_width_add_change g' share total,
      fun hzero => absurd hzero hweight, ?_⟩
    dsimp only
    rw [change, hpart, h.width_of_yields hyields, h.floor]
    split_ifs with hfloor
    · exact .inr ⟨by linarith [tolerance_pos (K := K)], by linarith⟩
    · exact .inl (by ring)
  · rw [round_of_not_yields hshare hyields]
    refine ⟨h.weight, h.floor, h.above, h.rigid, ?_⟩
    rcases hg.weight.eq_or_lt with hzero | hpos
    · exact .inl (by rw [h.rigid hzero.symm, ← hzero, mul_zero, add_zero])
    · have hfloor : g'.width - g'.floor ≤ tolerance :=
        not_lt.1 fun hlt => hyields ⟨h.weight ▸ hpos, hlt⟩
      rw [h.floor] at hfloor
      exact .inr ⟨by linarith, by linarith [h.le_width]⟩

/-- A round of stretching moves a gap by its share. -/
theorem stretch (hg : g.Elastic) {share total : K} (hshare : 0 < share) (htotal : 0 < total) :
    Moved (share / total) g (g.round share total) := by
  rcases hg.weight.eq_or_lt with hzero | hpos
  · have hactive : ¬ g.IsActive share := fun h => ((isActive_iff.1 h).1).ne hzero
    rw [Gap.round, if_neg hactive]
    exact ⟨rfl, rfl, hg.floor, fun _ => rfl, .inl (by rw [← hzero, mul_zero, add_zero])⟩
  · rw [Gap.round, if_pos (isActive_iff.2 ⟨hpos, .inl hshare⟩)]
    refine ⟨rfl, rfl, floor_le_width_add_change g share total, fun h => absurd h hpos.ne', .inl ?_⟩
    dsimp only
    rw [change_of_nonneg hg hshare.le htotal.le, div_mul_eq_mul_div]

end Moved

/-- Where a round of compression leaves something to take, it has brought a gap to its floor. -/
theorem exists_floored {gaps : List (Gap K)} {share : K} (hshare : share ≤ 0)
    (htotal : 0 < activeWeight share gaps)
    (happlied : (distributeRound share (activeWeight share gaps) gaps).2 ≠ share) :
    ∃ g ∈ gaps, g.Yields ∧ ¬ (g.round share (activeWeight share gaps)).Yields := by
  by_contra hnone
  push Not at hnone
  refine happlied ?_
  rw [distributeRound, Scalar.sum_eq_sum]
  dsimp only
  refine Eq.trans (congrArg List.sum (List.map_congr_left fun g hg => ?_))
    (sum_parts htotal.ne' share (activeWeight_eq share gaps).symm)
  obtain ⟨hmem, hactive⟩ := List.mem_filter.1 hg
  have hyields : g.Yields := (isActive_iff_yields hshare).1 (of_decide_eq_true hactive)
  have hstill := (hnone g hmem hyields).2
  rw [round_of_yields hshare hyields, change] at hstill
  rw [change]
  dsimp only at hstill ⊢
  split_ifs at hstill ⊢ with hfloor
  · rw [add_sub_cancel, sub_self] at hstill
    exact absurd hstill tolerance_pos.not_gt
  · rfl

theorem yields_of_round {share total : K} (hshare : share ≤ 0) {g : Gap K}
    (h : (g.round share total).Yields) : g.Yields := by
  by_contra hg
  rw [round_of_not_yields hshare hg] at h
  exact hg h

/-- A round of compression that leaves something to take has fewer gaps to take it from. -/
theorem countP_yields_round_lt {gaps : List (Gap K)} {share : K} (hshare : share ≤ 0)
    (htotal : 0 < activeWeight share gaps)
    (happlied : (distributeRound share (activeWeight share gaps) gaps).2 ≠ share) :
    (distributeRound share (activeWeight share gaps) gaps).1.countP (fun g => g.Yields) <
      gaps.countP (fun g => g.Yields) := by
  obtain ⟨g, hg, hyields, hfloored⟩ := exists_floored hshare htotal happlied
  generalize activeWeight share gaps = total at hfloored
  have hle (gaps : List (Gap K)) : (gaps.map (round share total)).countP (fun g => g.Yields) ≤
      gaps.countP (fun g => g.Yields) := by
    rw [List.countP_map]
    exact List.countP_mono_left fun g _ h =>
      decide_eq_true (yields_of_round hshare (of_decide_eq_true h))
  obtain ⟨before, after, rfl⟩ := List.append_of_mem hg
  rw [distributeRound_fst, List.map_append, List.map_cons, List.countP_append, List.countP_append,
    List.countP_cons_of_neg (by simpa using hfloored),
    List.countP_cons_of_pos (by simpa using hyields)]
  have := hle before
  have := hle after
  omega

/-! ### All rounds -/

theorem activeWeight_pos_of_yields {gaps : List (Gap K)} (h : ∀ g ∈ gaps, g.Elastic) {share : K}
    (hshare : share ≤ 0) {g : Gap K} (hg : g ∈ gaps) (hyields : g.Yields) :
    0 < activeWeight share gaps := by
  rw [activeWeight_eq]
  refine hyields.1.trans_le (List.single_le_sum (List.forall_mem_map.2 fun g' hg' =>
    (h g' (List.mem_of_mem_filter hg')).weight) _ (List.mem_map_of_mem ?_))
  exact List.mem_filter.2 ⟨hg, decide_eq_true ((isActive_iff_yields hshare).2 hyields)⟩

theorem Moved.elastic {f : K} {gaps gaps' : List (Gap K)} (h : ∀ g ∈ gaps, g.Elastic)
    (hmoved : List.Forall₂ (Moved f) gaps gaps') : ∀ g ∈ gaps', g.Elastic := fun g' hg' => by
  obtain ⟨g, hg, hgg⟩ := exists_mem_of_forall₂ hmoved hg'
  exact ⟨hgg.floor ▸ hgg.above, hgg.weight ▸ (h g hg).weight⟩

theorem settle_of_small {rest : K} (h : |rest| < tolerance) : settle rest = 0 := by
  rw [settle, Scalar.abs_eq_abs, ExactField.zero_eq, if_pos h]

theorem distributeRounds_of_small (rounds : ℕ) {gaps : List (Gap K)} {rest : K}
    (h : |rest| < tolerance) : distributeRounds rounds gaps rest = (gaps, 0) := by
  cases rounds with
  | zero => rw [distributeRounds, settle_of_small h]
  | succ rounds =>
    rw [distributeRounds, Scalar.abs_eq_abs, if_pos h, ExactField.zero_eq]

theorem settle_of_large {rest : K} (h : tolerance ≤ |rest|) : settle rest = rest := by
  rw [settle, Scalar.abs_eq_abs, if_neg h.not_gt]

/-- What distribution ends with when gaps have been moved by a factor and `rest` is left. -/
theorem distributed_of_rest {gaps gaps' : List (Gap K)} {f extra rest : K}
    (hmoved : List.Forall₂ (Moved f) gaps gaps') (hstretch : 0 ≤ extra → 0 ≤ f)
    (hcompress : extra ≤ 0 → f ≤ 0)
    (hsum : totalWidth gaps' + rest = totalWidth gaps + extra)
    (hrest : tolerance ≤ |rest| → (0 < extra ∧ 0 < rest ∧ ∀ g ∈ gaps, ¬ 0 < g.weight) ∨
      (extra < 0 ∧ rest < 0 ∧ ∀ g ∈ gaps', ¬ g.Yields)) :
    Distributed gaps extra gaps' (settle rest) where
  kept := hmoved.imp fun g g' h => ⟨h.weight, h.floor, h.floor.symm ▸ h.above,
    fun hrigid => congrArg Gap.width (h.rigid hrigid)⟩
  sum := by
    rcases lt_or_ge |rest| tolerance with hsmall | hlarge
    · rw [settle_of_small hsmall,
        show totalWidth gaps' + 0 - totalWidth gaps - extra = -rest by linarith, abs_neg]
      exact hsmall
    · rw [settle_of_large hlarge,
        show totalWidth gaps' + rest - totalWidth gaps - extra = 0 by linarith, abs_zero]
      exact tolerance_pos
  factor := ⟨f, hstretch, hcompress, hmoved.imp fun _ _ h _ => h.abs_sub_le⟩
  leftover hne := by
    have hlarge : tolerance ≤ |rest| := not_lt.1 fun hlt => hne (settle_of_small hlt)
    rw [settle_of_large hlarge]
    refine (hrest hlarge).imp_right fun ⟨hextra, hneg, hfloored⟩ => ⟨hextra, hneg, ?_⟩
    intro g' hg' hpos
    obtain ⟨g, -, h⟩ := exists_mem_of_forall₂ hmoved hg'
    rw [abs_of_nonneg (sub_nonneg.2 (h.floor.symm ▸ h.above))]
    exact not_lt.1 fun hlt => hfloored g' hg' ⟨hpos, hlt⟩

/-- Compression, from any round on: the gaps have been moved by `f`, `rest` is still to be taken,
and there are as many rounds as gaps from which it can be taken. -/
theorem distributed_of_rounds {gaps : List (Gap K)} (h : ∀ g ∈ gaps, g.Elastic) {extra : K}
    (hextra : extra < 0) : (rounds : ℕ) → {gaps' : List (Gap K)} → {f rest : K} →
    List.Forall₂ (Moved f) gaps gaps' → f ≤ 0 → rest ≤ 0 →
    totalWidth gaps' + rest = totalWidth gaps + extra →
    (rest ≠ 0 → gaps'.countP (fun g => g.Yields) ≤ rounds) →
      Distributed gaps extra (distributeRounds rounds gaps' rest).1
        (distributeRounds rounds gaps' rest).2
  | 0, gaps', f, rest, hmoved, hf, hrest, hsum, hrounds => by
      refine distributed_of_rest hmoved (fun hpos => absurd hextra hpos.not_gt) (fun _ => hf) hsum
        fun hlarge => ?_
      have hne : rest ≠ 0 := abs_pos.1 (tolerance_pos.trans_le hlarge)
      have hcount := Nat.le_zero.1 (hrounds hne)
      refine .inr ⟨hextra, lt_of_le_of_ne hrest hne, fun g hg hyields => ?_⟩
      exact List.countP_eq_zero.1 hcount g hg (decide_eq_true hyields)
  | rounds + 1, gaps', f, rest, hmoved, hf, hrest, hsum, hrounds => by
      have hend := distributed_of_rest hmoved (fun hpos => absurd hextra hpos.not_gt)
        (fun _ => hf) hsum
      have helastic := Moved.elastic h hmoved
      rw [distributeRounds, Scalar.abs_eq_abs, ExactField.zero_eq]
      dsimp only
      split_ifs with hsmall htotal
      · rw [← settle_of_small hsmall]
        exact hend fun hlarge => absurd hsmall hlarge.not_gt
      · refine hend fun hlarge => .inr ⟨hextra, ?_, fun g hg hyields => ?_⟩
        · exact lt_of_le_of_ne hrest (abs_pos.1 (tolerance_pos.trans_le hlarge))
        · exact (activeWeight_pos_of_yields helastic hrest hg hyields).not_ge htotal
      · rw [not_le] at htotal
        obtain ⟨hle, -⟩ := applied_of_nonpos helastic hrest htotal
        have hne : rest ≠ 0 := fun hzero =>
          hsmall (by rw [hzero, abs_zero]; exact tolerance_pos)
        have hround := totalWidth_distributeRound rest (activeWeight rest gaps') gaps'
        refine distributed_of_rounds h hextra rounds (f := f + rest / activeWeight rest gaps')
          ?_ ?_ (sub_nonpos.2 hle) (by linarith) fun hleft => ?_
        · rw [distributeRound_fst, List.forall₂_map_right_iff]
          exact ((List.forall₂_and_left _ _).2 ⟨h, hmoved⟩).imp fun g g' hg =>
            hg.2.round hg.1 hrest htotal
        · exact add_nonpos hf (div_nonpos_of_nonpos_of_nonneg hrest htotal.le)
        · have hlt := countP_yields_round_lt hrest htotal fun heq => hleft (by rw [heq, sub_self])
          exact Nat.le_of_lt_succ (hlt.trans_le (hrounds hne))

/-- Stretching: all of it goes to the gaps in one round, if any of them stretches. -/
theorem distributed_of_stretch {gaps : List (Gap K)} (h : ∀ g ∈ gaps, g.Elastic) {extra : K}
    (hextra : 0 < extra) (hlarge : tolerance ≤ |extra|) (rounds : ℕ) :
    Distributed gaps extra (distributeRounds (rounds + 1) gaps extra).1
      (distributeRounds (rounds + 1) gaps extra).2 := by
  have hcompress {f : K} (hnonpos : extra ≤ 0) : f ≤ 0 := absurd hextra hnonpos.not_gt
  rw [distributeRounds, Scalar.abs_eq_abs, ExactField.zero_eq, if_neg hlarge.not_gt]
  dsimp only
  split_ifs with htotal
  · -- no gap stretches
    rw [activeWeight_of_pos hextra h] at htotal
    refine distributed_of_rest (List.forall₂_same.2 fun g hg => .refl (h g hg)) (fun _ => le_rfl)
      hcompress rfl fun _ => .inl ⟨hextra, hextra, fun g hg hpos => ?_⟩
    refine hpos.not_ge (le_trans ?_ htotal)
    exact List.single_le_sum (List.forall_mem_map.2 fun g' hg' => (h g' hg').weight) _
      (List.mem_map_of_mem hg)
  · rw [not_le] at htotal
    have happlied := applied_of_nonneg h hextra.le htotal
    have hround := totalWidth_distributeRound extra (activeWeight extra gaps) gaps
    have hnone : |(0 : K)| < tolerance := abs_zero.trans_lt tolerance_pos
    rw [happlied, sub_self, distributeRounds_of_small _ hnone, ← settle_of_small hnone]
    refine distributed_of_rest (f := extra / activeWeight extra gaps) ?_
      (fun _ => div_nonneg hextra.le htotal.le) hcompress (by linarith) fun hleft => ?_
    · rw [distributeRound_fst, List.forall₂_map_right_iff]
      exact List.forall₂_same.2 fun g hg => .stretch (h g hg) hextra htotal
    · rw [abs_zero] at hleft
      exact absurd tolerance_pos hleft.not_gt

/-- Distribution is proportional, with floors: what is distributed over gaps above their floors is
added to their sum, one factor moves every gap by its weight as far as its floor allows, and
something is left over only of a stretch of gaps that do not stretch and of a compression of gaps
that have all come to their floors. -/
theorem distributed {gaps : List (Gap K)} (h : ∀ g ∈ gaps, g.Elastic) (extra : K) :
    Distributed gaps extra (distribute gaps extra).1 (distribute gaps extra).2 := by
  obtain ⟨rounds, hrounds⟩ : ∃ rounds, Nat.max gaps.length 1 = rounds + 1 :=
    ⟨max gaps.length 1 - 1, (Nat.sub_add_cancel (le_max_right _ _)).symm⟩
  have hstay : List.Forall₂ (Moved 0) gaps gaps :=
    List.forall₂_same.2 fun g hg => .refl (h g hg)
  rw [distribute]
  rcases lt_or_ge |extra| tolerance with hsmall | hlarge
  · rw [hrounds, distributeRounds_of_small _ hsmall, ← settle_of_small hsmall]
    exact distributed_of_rest hstay (fun _ => le_rfl) (fun _ => le_rfl) rfl
      fun hlarge => absurd hsmall hlarge.not_gt
  · rcases lt_or_gt_of_ne (abs_pos.1 (tolerance_pos.trans_le hlarge)) with hneg | hpos
    · refine distributed_of_rounds h hneg _ hstay le_rfl hneg.le rfl fun _ => ?_
      exact List.countP_le_length.trans (le_max_left _ _)
    · rw [hrounds]
      exact distributed_of_stretch h hpos hlarge rounds

/-- Three gaps are compressed by more than the first two can give, so that a second round takes the
rest from the third. -/
theorem distributed_of_three_gaps :
    (∀ g ∈ ([⟨10, 1, 9⟩, ⟨10, 0, 10⟩, ⟨30, 2, 5⟩] : List (Gap ℚ)), g.Elastic) ∧
      Distributed [⟨10, 1, 9⟩, ⟨10, 0, 10⟩, ⟨30, 2, 5⟩] (-9)
        [⟨9, 1, 9⟩, ⟨10, 0, 10⟩, ⟨22, 2, 5⟩] (0 : ℚ) := by
  have helastic : ∀ g ∈ ([⟨10, 1, 9⟩, ⟨10, 0, 10⟩, ⟨30, 2, 5⟩] : List (Gap ℚ)), g.Elastic := by
    intro g hg
    rcases List.mem_cons.1 hg with rfl | hg
    · exact ⟨by norm_num, by norm_num⟩
    rcases List.mem_cons.1 hg with rfl | hg
    · exact ⟨by norm_num, by norm_num⟩
    obtain rfl := List.mem_singleton.1 hg
    exact ⟨by norm_num, by norm_num⟩
  have hdistribute : distribute ([⟨10, 1, 9⟩, ⟨10, 0, 10⟩, ⟨30, 2, 5⟩] : List (Gap ℚ)) (-9) =
      ([⟨9, 1, 9⟩, ⟨10, 0, 10⟩, ⟨22, 2, 5⟩], 0) := by decide +kernel
  exact ⟨helastic, by simpa only [hdistribute] using distributed helastic (-9)⟩

end Gap

end ScoreLayout
