import ScoreLayout.Proofs.Grid.Stretching
import ScoreLayout.Proofs.Layout.FilledScores
import ScoreLayout.Proofs.OverWide

/-!
# Systems as wide as their page

In exact arithmetic, filling the lines makes every system as wide as the page, up to the tolerance
with which widths are compared. Breaking has left room for the measures of a system, so filling
stretches it, or compresses it by no more than that tolerance; and every measure can be stretched,
for the gap before its right barline has a weight even where nothing sounds.

## Main definitions

* `LayoutOptions.CastOff` — a system that breaking has left room for.
* `LayoutOptions.FillsLine` — a system as wide as its page.

## Main results

* `LayoutOptions.CastOff.fillTree` — filling one system.
* `Document.Reachable.fills_lines` — all systems after the passes up to filling lines.
-/

namespace ScoreLayout

/-! ### Measures one after another -/

variable {K : Type} [ExactField K]

/-- The widths of measures add up to the end of the last. -/
theorem fillRoots_fst : (x : K) → (gaps : List (Gap K)) → (f : Forest (Node K)) →
    (fillRoots x gaps f).1 = x + totalWidth (fillRoots x gaps f).2.roots
  | x, _, .nil => by
      rw [fillRoots, totalWidth, Scalar.sum_eq_sum]
      exact (add_zero x).symm
  | x, gaps, .cons n below siblings => by
      rw [fillRoots]
      cases hm : n.kind.measure? with
      | some m =>
        dsimp only
        generalize m.refilled x (gaps.take m.grid.gaps.length) = m'
        rw [fillRoots_fst (x + m'.width), totalWidth, totalWidth, Scalar.sum_eq_sum,
          Scalar.sum_eq_sum, Forest.roots, List.filterMap_cons_some (by rfl), List.sum_cons, add_assoc]
      | none =>
        dsimp only
        rw [fillRoots_fst x gaps siblings, totalWidth, totalWidth, Forest.roots,
          List.filterMap_cons_none (by rw [Node.measureWidth?, hm]; rfl)]

/-- Measures that are given as many gaps as they have become as wide as these. -/
theorem totalWidth_fillRoots : (x : K) → (gaps : List (Gap K)) → (f : Forest (Node K)) →
    (∀ p ∈ measuresIn f, p.2.grid.Fitted) →
      gaps.length = ((measuresIn f).map fun p => p.2.grid.gaps.length).sum →
        totalWidth (fillRoots x gaps f).2.roots = Gap.totalWidth gaps
  | x, gaps, .nil, _, hlength => by
      obtain rfl : gaps = [] := List.length_eq_zero_iff.1 hlength
      rw [fillRoots, totalWidth, Scalar.sum_eq_sum]
      rfl
  | x, gaps, .cons n below siblings, hfitted, hlength => by
      rw [measuresIn, Forest.roots] at hfitted hlength
      rw [fillRoots]
      cases hm : n.kind.measure? with
      | some m =>
        rw [List.filterMap_cons_some (by rw [hm]; rfl)] at hfitted hlength
        rw [List.map_cons, List.sum_cons] at hlength
        rw [List.forall_mem_cons] at hfitted
        have htake : (gaps.take m.grid.gaps.length).length = m.grid.gaps.length := by
          rw [List.length_take, hlength]
          simp
        have hwidth : (m.refilled x (gaps.take m.grid.gaps.length)).width =
            Gap.totalWidth (gaps.take m.grid.gaps.length) :=
          hfitted.1.width_applyGaps (hfitted.1.applyGaps_eq htake)
        have hrest := totalWidth_fillRoots
          (x + (m.refilled x (gaps.take m.grid.gaps.length)).width)
          (gaps.drop m.grid.gaps.length) siblings hfitted.2
          (by rw [List.length_drop, hlength]; exact Nat.add_sub_cancel_left ..)
        dsimp only
        rw [totalWidth, Scalar.sum_eq_sum] at hrest ⊢
        rw [Forest.roots, List.filterMap_cons_some (by rfl), List.sum_cons, hrest, hwidth,
          ← Gap.totalWidth_append, List.take_append_drop]
      | none =>
        rw [List.filterMap_cons_none (by rw [hm]; rfl)] at hfitted hlength
        dsimp only
        rw [totalWidth, Forest.roots,
          List.filterMap_cons_none (by rw [Node.measureWidth?, hm]; rfl), ← totalWidth]
        exact totalWidth_fillRoots x gaps siblings hfitted hlength

/-! ### Elastic measures -/

/-- The measures among nodes can be stretched. -/
def ElasticRoots (f : Forest (Node K)) : Prop := ∀ p ∈ measuresIn f, p.2.grid.Elastic

namespace ElasticRoots

variable {f : Forest (Node K)} (h : ElasticRoots f)

include h

theorem gaps : ∀ g ∈ gapsIn f, g.Elastic := by
  intro g hg
  obtain ⟨p, hp, hg⟩ := List.mem_flatMap.1 hg
  exact (h p hp).gaps g hg

/-- Measures are as wide as their gaps. -/
theorem totalWidth_eq : totalWidth f.roots = Gap.totalWidth (gapsIn f) := by
  have hwidths : f.roots.filterMap Node.measureWidth? = (measuresIn f).map fun p => p.2.width := by
    rw [measuresIn, List.map_filterMap]
    refine List.filterMap_congr fun n _ => ?_
    rw [Node.measureWidth?, Option.map_map]
    rfl
  rw [totalWidth, Scalar.sum_eq_sum, hwidths, gapsIn]
  rw [ElasticRoots] at h
  clear hwidths
  generalize measuresIn f = measures at h ⊢
  induction measures with
  | nil => rfl
  | cons p measures ih =>
    rw [List.forall_mem_cons] at h
    rw [List.map_cons, List.sum_cons, ih h.2, List.flatMap_cons, Gap.totalWidth_append]
    exact congrArg (· + _) h.1.width_eq

theorem totalWeight_pos (hne : measuresIn f ≠ []) : 0 < Gap.totalWeight (gapsIn f) := by
  have hgaps := h.gaps
  rw [ElasticRoots] at h
  rw [gapsIn] at hgaps ⊢
  cases hf : measuresIn f with
  | nil => exact absurd hf hne
  | cons p measures =>
    rw [hf, List.forall_mem_cons] at h
    rw [hf, List.flatMap_cons, List.forall_mem_append] at hgaps
    rw [List.flatMap_cons, Gap.totalWeight_append]
    exact add_pos_of_pos_of_nonneg h.1.weight (Gap.totalWeight_nonneg hgaps.2)

theorem totalWidth_pos (hne : measuresIn f ≠ []) : 0 < totalWidth f.roots := by
  have hpos : ∀ w ∈ f.roots.filterMap Node.measureWidth?, 0 < w := by
    intro w hw
    obtain ⟨n, hn, heq⟩ := List.mem_filterMap.1 hw
    obtain ⟨m, hm, rfl⟩ := Option.map_eq_some_iff.1 heq
    exact (h (n.handle, m) (List.mem_filterMap.2 ⟨n, hn, by rw [hm]; rfl⟩)).width
  rw [totalWidth, Scalar.sum_eq_sum]
  refine List.sum_pos _ hpos fun hnil => hne ?_
  rw [List.filterMap_eq_nil_iff] at hnil
  refine List.filterMap_eq_nil_iff.2 fun n hn => ?_
  have := hnil n hn
  rw [Node.measureWidth?, Option.map_eq_none_iff] at this
  rw [this]
  rfl

end ElasticRoots

/-! ### One system -/

/-- A system that breaking has left room for. -/
structure LayoutOptions.CastOff (o : LayoutOptions K) (t : Node K × Forest (Node K)) : Prop where
  elastic : ElasticRoots t.2
  width : ∀ s, t.1.kind = .system s → s.measuresWidth = totalWidth t.2.roots
  room : ∀ s, t.1.kind = .system s → measuresIn t.2 ≠ [] → ¬ s.overflow →
    o.HasRoom s.measuresWidth s.definitionWidth

/-- A system as wide as its page. -/
structure LayoutOptions.FillsLine (o : LayoutOptions K) (s : ScoreSystem K)
    (measures : List (Node K)) : Prop where
  measuresWidth : s.measuresWidth = totalWidth measures
  conforms : |s.definitionWidth + totalWidth measures -
    (o.pageWidth - o.marginLeft - o.marginRight)| ≤ fitTolerance

omit [ExactField K] in
theorem measuresIn_eq_of_restacked {f g : Forest (Node K)}
    (h : Forest.Forall₂ Node.Restacked f g) : measuresIn f = measuresIn g :=
  filterMap_eq_of_forall₂ (fun a b hab => by rw [hab.handle, hab.measure?]) h.roots

namespace LayoutOptions

variable {o : LayoutOptions K} {t t' : Node K × Forest (Node K)}

theorem CastOff.of_restacked (h : o.CastOff t) (hnode : t.1.Restacked t'.1)
    (hbelow : Forest.Forall₂ Node.Restacked t.2 t'.2) : o.CastOff t' where
  elastic := by
    rw [ElasticRoots, ← measuresIn_eq_of_restacked hbelow]
    exact h.elastic
  width s hs := by
    obtain ⟨s₀, hs₀, hsame⟩ := hnode.system hs
    rw [hsame.measuresWidth, h.width s₀ hs₀]
    exact congrArg Scalar.sum (filterMap_eq_of_forall₂ (fun a b hab => by
      rw [Node.measureWidth?, Node.measureWidth?, hab.measure?]) hbelow.roots)
  room s hs hne hoverflow := by
    obtain ⟨s₀, hs₀, hsame⟩ := hnode.system hs
    rw [← measuresIn_eq_of_restacked hbelow] at hne
    rw [hsame.measuresWidth, hsame.definitionWidth]
    exact h.room s₀ hs₀ hne (hsame.overflow ▸ hoverflow)

/-- The measures of a system that breaking has left room for fill its line with their new gaps. -/
theorem CastOff.conforms (h : o.CastOff t) {s : ScoreSystem K} (hs : t.1.kind = .system s)
    (hne : measuresIn t.2 ≠ []) (hoverflow : ¬ s.overflow) (x : K) :
    |s.definitionWidth + totalWidth (fillRoots x (filledGaps (o.pageWidth - o.marginLeft -
        o.marginRight) s t.2) t.2).2.roots - (o.pageWidth - o.marginLeft - o.marginRight)|
      ≤ fitTolerance := by
  generalize havailable : o.pageWidth - o.marginLeft - o.marginRight = available
  have hroom := h.room s hs hne hoverflow
  rw [HasRoom, havailable] at hroom
  have hlength : (filledGaps available s t.2).length =
      ((measuresIn t.2).map fun p => p.2.grid.gaps.length).sum := by
    rw [filledGaps, Gap.length_distribute, gapsIn, List.length_flatMap]
  have hnatural : Gap.totalWidth (gapsIn t.2) = s.measuresWidth :=
    (h.width s hs ▸ h.elastic.totalWidth_eq).symm
  have hdistribute := Gap.abs_totalWidth_distribute_sub_le h.elastic.gaps
    (h.elastic.totalWeight_pos hne)
    (show -fitTolerance ≤ available - s.definitionWidth - s.measuresWidth by linarith)
  rw [totalWidth_fillRoots x _ t.2 (fun p hp => (h.elastic p hp).fitted) hlength, filledGaps]
  convert hdistribute using 2
  rw [hnatural]
  ring

/-- Filling changes the gaps of measures, and leaves measures where they are. -/
theorem measuresIn_fillRoots_ne_nil {x : K} {gaps : List (Gap K)} : {f : Forest (Node K)} →
    measuresIn (fillRoots x gaps f).2 ≠ [] → measuresIn f ≠ []
  | .nil, hne => hne
  | .cons n below siblings, hne => by
      rw [fillRoots] at hne
      rw [measuresIn, Forest.roots]
      cases hm : n.kind.measure? with
      | some m =>
        rw [List.filterMap_cons_some (by rw [hm]; rfl)]
        exact List.cons_ne_nil _ _
      | none =>
        rw [hm] at hne
        dsimp only at hne
        rw [measuresIn, Forest.roots, List.filterMap_cons_none (by rw [hm]; rfl)] at hne
        rw [List.filterMap_cons_none (by rw [hm]; rfl)]
        exact measuresIn_fillRoots_ne_nil hne

/-- A system that breaking has left room for is as wide as its page once it is filled. -/
theorem CastOff.fillTree (h : o.CastOff t) (hlast : o.minLastFill = 0) {available : K}
    (havailable : o.pageWidth - o.marginLeft - o.marginRight = available) (isLast : Bool)
    {s : ScoreSystem K} (hs : (o.fillTree available isLast t).1.kind = .system s)
    (hne : measuresIn (o.fillTree available isLast t).2 ≠ []) (hoverflow : ¬ s.overflow) :
    o.FillsLine s (o.fillTree available isLast t).2.roots := by
  rw [LayoutOptions.fillTree] at hs hne ⊢
  cases hsystem : t.1.kind.system? with
  | none =>
    rw [hsystem] at hs
    dsimp only at hs
    rw [hs] at hsystem
    cases hsystem
  | some s₀ =>
    have hs₀ : t.1.kind = .system s₀ := NodeKind.system?_eq_some_iff.1 hsystem
    rw [hsystem] at hs hne
    dsimp only at hs hne ⊢
    by_cases hfills : o.Fills available isLast s₀
    · rw [if_pos hfills] at hs hne ⊢
      dsimp only at hs hne ⊢
      rw [Node.mapKind, hs₀, NodeKind.mapSystem, NodeKind.system.injEq] at hs
      subst hs
      refine ⟨?_, ?_⟩
      · rw [fillRoots_fst, ExactField.zero_eq]
        exact zero_add _
      · rw [← havailable]
        exact h.conforms hs₀ (measuresIn_fillRoots_ne_nil hne) hoverflow _
    · -- a system that is not filled overflows, or holds no measure
      rw [if_neg hfills] at hs hne ⊢
      obtain rfl := NodeKind.system.inj (hs₀.symm.trans hs)
      have hpos := h.elastic.totalWidth_pos hne
      refine absurd ⟨not_or.2 ⟨hoverflow, ?_⟩, fun hleaves => ?_⟩ hfills
      · rw [h.width s₀ hs₀, ExactField.zero_eq]
        exact not_le.2 hpos
      · have hpositive := (of_decide_eq_true hleaves.2).1
        rw [hlast, ExactField.zero_eq] at hpositive
        exact lt_irrefl _ hpositive

end LayoutOptions

/-! ### All systems -/

theorem elasticRoots_iff {f : Forest (Node K)} :
    ElasticRoots f ↔ ∀ n ∈ f.roots, ∀ m, n.kind = .measure m → m.grid.Elastic := by
  constructor
  · intro h n hn m hm
    exact h (n.handle, m) (List.mem_filterMap.2 ⟨n, hn, by rw [hm]; rfl⟩)
  · intro h p hp
    obtain ⟨n, hn, heq⟩ := List.mem_filterMap.1 hp
    obtain ⟨m, hm, rfl⟩ := Option.map_eq_some_iff.1 heq
    exact h n hn m (NodeKind.measure?_eq_some_iff.1 hm)

omit [ExactField K] in
theorem measuresIn_ne_nil {f : Forest (Node K)}
    (h : f.roots.filter (fun n => n.tag = .measure) ≠ []) : measuresIn f ≠ [] := by
  obtain ⟨n, hn⟩ := List.exists_mem_of_ne_nil _ h
  obtain ⟨m, hm⟩ := NodeKind.exists_of_measure (of_decide_eq_true (List.mem_filter.1 hn).2)
  exact List.ne_nil_of_mem (a := (n.handle, m))
    (List.mem_filterMap.2 ⟨n, List.mem_of_mem_filter hn, by rw [hm]; rfl⟩)

namespace SystemsOf

variable {o : LayoutOptions K} {used : List String} {k : Nat} {plans : List (SystemPlan K)}
  {content systems : Forest (Node K)}

/-- Breaking places the measures, and does not touch their grids. -/
theorem elastic {rules : BreakRules K} (h : SystemsOf rules used k plans content systems)
    (hcontent : ElasticRoots content) : ∀ t ∈ systems.trees, ElasticRoots t.2 := by
  intro t ht
  rw [elasticRoots_iff] at hcontent ⊢
  intro n hn m hm
  have hplaced : n.unplaced ∈ content.roots.map Node.unplaced := by
    rw [← h.map_unplaced, Forest.roots_branches]
    exact List.mem_map_of_mem (List.mem_flatMap_of_mem ht hn)
  obtain ⟨n₀, hn₀, heq⟩ := List.mem_map.1 hplaced
  have hkind := congrArg Node.kind heq
  rw [Node.unplaced, Node.unplaced, Node.mapKind, Node.mapKind, hm] at hkind
  cases hm₀ : n₀.kind with
  | measure m₀ =>
    rw [hm₀] at hkind
    dsimp only [NodeKind.mapMeasure] at hkind
    have hgrid := congrArg Measure.grid (NodeKind.measure.inj hkind)
    dsimp only at hgrid
    exact hgrid ▸ hcontent n₀ hn₀ m₀ hm₀
  | _ => simp [hm₀, NodeKind.mapMeasure] at hkind

/-- Breaking by width leaves room for the measures of every system, unless a lone last measure may
join one. -/
theorem castOff {definition : ScoreDefinition} {metrics : GlyphMetrics K}
    (h : SystemsOf o.breakRules used k
      (Document.Shape.systemPlans definition o metrics content) content systems)
    (hmode : o.breakRules.byWidth) (hwidow : o.noWidow = false) (hcontent : ElasticRoots content) :
    ∀ t ∈ systems.trees, o.CastOff t := by
  intro t ht
  have hunbroken : o.breaks ≠ .unbroken := by
    rintro hbreaks
    simp [BreakRules.byWidth, LayoutOptions.breakRules, hbreaks] at hmode
  have hne : content.roots.map (BreakItem.ofNode definition metrics o.scaledUnit) ≠ [] := by
    intro hnil
    obtain rfl := Forest.roots_eq_nil.1 (List.map_eq_nil_iff.1 hnil)
    rw [h.noLeaf.eq_nil (h.branches.eq_nil_iff.1 rfl)] at ht
    exact absurd ht List.not_mem_nil
  obtain ⟨p, -, hkind, hplan⟩ := exists_mem_of_forall₂ (h.whole_or_joined hmode rfl hne) ht
  obtain ⟨⟨_, hmade⟩, hfitting⟩ := hplan.resolve_right fun hjoined => by
    have := hjoined.2.1
    rw [LayoutOptions.breakRules, hwidow] at this
    cases this
  have hwidth : p.measuresWidth = totalWidth t.2.roots := by
    rw [hmade.width, itemsOf, sum_measure?_ofNode]
  refine ⟨h.elastic hcontent t ht, fun s hs => ?_, fun s hs hmeasures hoverflow => ?_⟩
  · obtain rfl := NodeKind.system.inj (hs.symm.trans hkind)
    exact hwidth
  · obtain rfl := NodeKind.system.inj (hs.symm.trans hkind)
    have hlength : 0 < p.measures.length := by
      rw [hmade.measures, itemsOf, map_handle_filter_isMeasure, List.length_map,
        List.length_pos_iff_exists_mem]
      obtain ⟨q, hq⟩ := List.exists_mem_of_ne_nil _ hmeasures
      obtain ⟨n, hn, heq⟩ := List.mem_filterMap.1 hq
      obtain ⟨m, hm, -⟩ := Option.map_eq_some_iff.1 heq
      exact ⟨n, List.mem_filter.2 ⟨hn, by
        rw [Node.tag, NodeKind.measure?_eq_some_iff.1 hm]; rfl⟩⟩
    rcases Nat.lt_or_ge 1 p.measures.length with hseveral | hlone
    · exact (LayoutOptions.fits_iff hunbroken ..).1 (hfitting hseveral)
    · refine not_lt.1 fun hwide => hoverflow ?_
      exact (LayoutOptions.overflows_iff hunbroken p).2 ⟨le_antisymm hlone hlength, hwide⟩

end SystemsOf

namespace LayoutOptions

variable {o : LayoutOptions K} {available : K}

theorem exists_of_mem_fillTrees {final : Bool} (f : Forest (Node K)) :
    ∀ t ∈ (o.fillTrees available final f).trees,
      ∃ isLast, ∃ t₀ ∈ f.trees, t = o.fillTree available isLast t₀ := by
  induction f with
  | nil => exact fun t ht => absurd ht List.not_mem_nil
  | cons n below siblings _ ih =>
    intro t ht
    rw [fillTrees] at ht
    rcases List.mem_cons.1 ht with rfl | ht
    · exact ⟨_, (n, below), List.mem_cons_self, rfl⟩
    · obtain ⟨isLast, t₀, ht₀, heq⟩ := ih t ht
      exact ⟨isLast, t₀, List.mem_cons_of_mem _ ht₀, heq⟩

/-- Every filled system comes from one that has not been filled. -/
theorem exists_of_mem_fillPageTrees (pages : Forest (Node K)) :
    ∀ t ∈ (o.fillPageTrees available pages).branches.trees,
      ∃ isLast, ∃ t₀ ∈ pages.branches.trees, t = o.fillTree available isLast t₀ := by
  induction pages with
  | nil => exact fun t ht => absurd ht List.not_mem_nil
  | cons page systems pages _ ih =>
    intro t ht
    rw [fillPageTrees, Forest.branches, Forest.trees_append, List.mem_append] at ht
    rw [Forest.branches, Forest.trees_append]
    rcases ht with ht | ht
    · obtain ⟨isLast, t₀, ht₀, heq⟩ := exists_of_mem_fillTrees _ t ht
      exact ⟨isLast, t₀, List.mem_append_left _ ht₀, heq⟩
    · obtain ⟨isLast, t₀, ht₀, heq⟩ := ih t ht
      exact ⟨isLast, t₀, List.mem_append_right _ ht₀, heq⟩

end LayoutOptions

theorem Scalar.clamp_pos (x : K) {low high : K} (hlow : 0 < low) (hhigh : low ≤ high) :
    0 < Scalar.clamp x low high := by
  rw [Scalar.clamp]
  split_ifs with hbelow
  · exact hlow
  · exact hlow.trans_le hhigh
  · exact hlow.trans_le (not_lt.1 hbelow)

/-- Options within their ranges leave a margin beside the left barline. -/
theorem LayoutOptions.margin_pos (o : LayoutOptions K) (longest : Fraction) :
    0 < (o.normalized.spacing longest).margin := by
  have hone : (0 : K) < (1 : ℕ) := Nat.cast_pos.2 Nat.one_pos
  have hunit : 0 < o.normalized.unit := by
    refine Scalar.clamp_pos o.unit ?_ ?_ <;> simp only [ExactField.ofNat_eq]
    · exact hone
    · exact Nat.cast_le.2 (by decide)
  have hscale : 0 < o.normalized.scale := by
    refine Scalar.clamp_pos o.scale ?_ ?_ <;> simp only [ExactField.ofNat_eq]
    · exact hone
    · exact Nat.cast_le.2 (by decide)
  refine div_pos (mul_pos hunit hscale) ?_
  rw [ExactField.ofNat_eq]
  exact Nat.cast_pos.2 (by decide)

/-! ### Documents -/

namespace Document

variable {d : Document K} {options : LayoutOptions K} {metrics : GlyphMetrics K}

/-- Spacing makes closed grids elastic. -/
theorem WellFormed.elasticRoots_space (hd : d.WellFormed) (hfinished : d.score.Finished)
    (hok : (d.space options.normalized).fault = none) :
    ElasticRoots (d.space options.normalized).document.content := by
  obtain ⟨heq, hspace⟩ := hd.space_eq hok
  rw [elasticRoots_iff]
  intro n hn m hm
  have hscore : (d.space options.normalized).document.score =
      d.score.map (Node.spaced (options.normalized.spacing d.longest)) := by
    rw [heq]
    exact score_withScore (R := fun _ _ => True) (Forest.Forall₂.map_right _ fun _ _ => trivial)
  have hmem := (content_sublist_score _).subset (Forest.mem_toList_of_mem_roots hn)
  rw [hscore, Forest.toList_map] at hmem
  obtain ⟨n₀, hn₀, rfl⟩ := List.mem_map.1 hmem
  rw [Node.spaced] at hm
  split at hm
  · rename_i m₀ hm₀
    obtain ⟨grid, hgrid⟩ := hspace n₀ hn₀ m₀ hm₀
    rw [hgrid] at hm
    obtain rfl := NodeKind.measure.inj hm
    exact MeasureGrid.elastic_space (options.inRange_spacing _) (LayoutOptions.margin_pos _ _)
      (hfinished n₀ hn₀ m₀ hm₀).closed hgrid
  · rename_i hno
    exact absurd hm (hno m)

/-- The systems of a document have room for their measures, which can be stretched. -/
def LeavesRoom (d : Document K) (o : LayoutOptions K) : Prop :=
  ∀ t ∈ d.score.branches.branches.trees, o.CastOff t

/-- The systems that the passes up to breaking into pages make of a content that has been spaced. -/
theorem Ready.exists_systemsOf (hd : d.Ready)
    (hok : ((Engine.ofOptions options metrics).runAll d (LayoutPass.all.take 6)).fault = none) :
    ∃ definition used content systems, ElasticRoots content ∧
      SystemsOf options.normalized.breakRules used 1
        (Shape.systemPlans definition options.normalized metrics content) content systems ∧
      Forest.Forall₂ Node.Restacked systems ((Engine.ofOptions options metrics).runAll d
        (LayoutPass.all.take 6)).document.score.branches.branches := by
  obtain ⟨hok₅, hrun₆, heq₆⟩ := Engine.of_runAll_take (k := 5) rfl hok
  obtain ⟨hok₄, -, heq₅⟩ := Engine.of_runAll_take (k := 4) rfl hok₅
  obtain ⟨hok₃, hrun₄, heq₄⟩ := Engine.of_runAll_take (k := 3) rfl hok₄
  obtain ⟨hok₂, hrun₃, heq₃⟩ := Engine.of_runAll_take (k := 2) rfl hok₃
  obtain ⟨-, hrun₂, heq₂⟩ := Engine.of_runAll_take (k := 1) rfl hok₂
  have hready (k : Nat) := (hd.runAll (Engine.ofOptions options metrics) (LayoutPass.all.take k)).2
  have hready₃ := hready 3
  -- the measures become elastic
  have hfinished := (hready 1).wellFormed.finished_align hrun₂
  have hfinished₂ := heq₂ ▸ hfinished
  have helastic := (hready 2).wellFormed.elasticRoots_space hfinished₂ hrun₃
  -- the systems are made
  rw [heq₃] at hready₃ heq₄ hrun₄
  obtain ⟨r, page, systems, d₁, d₄, hbreak, hd₄, hid, hsystems, -⟩ :=
    hready₃.wellFormed.exists_breakSystems hready₃.unreserved
      (Outcome.required_le_of_guarded hrun₄) options.normalized metrics
  have hdocument₄ : ((Engine.ofOptions options metrics).runAll d (LayoutPass.all.take 4)).document =
      d₄ := heq₄.trans (congrArg Outcome.document hbreak)
  rw [hdocument₄] at heq₅
  refine ⟨_, _, _, systems, helastic, hsystems, ?_⟩
  -- later passes leave their lines alone
  obtain ⟨r₅, page₅, systems₅, hd₅, hpage, -⟩ :=
    hd₄.of_sameTree (sameTree_stackStaves d₄ options.normalized metrics)
  have hstacked : Forest.Forall₂ Node.Restacked systems systems₅ := by
    have h := (restacked_stackStaves d₄ options.normalized metrics).branches.branches
    rw [hd₄.score, hd₅.score] at h
    simpa [Forest.tree, Forest.branches] using h
  rw [heq₅] at hrun₆ heq₆
  obtain ⟨pages, d₆, hpaged, hd₆, hpages, -⟩ := hd₅.exists_breakPages (hpage.id ▸ hid)
    (Outcome.required_le_of_guarded hrun₆)
  have hdocument₆ : ((Engine.ofOptions options metrics).runAll d (LayoutPass.all.take 6)).document =
      d₆ := heq₆.trans (congrArg Outcome.document hpaged)
  rw [hdocument₆, hd₆.score, Forest.tree, Forest.branches, Forest.branches, Forest.append_nil]
  exact hstacked.trans hpages.restacked_branches fun _ _ _ => Node.Restacked.trans

/-- The passes up to breaking into pages leave room in the systems. -/
theorem Ready.leavesRoom (hd : d.Ready) (hmode : options.normalized.breakRules.byWidth)
    (hwidow : options.noWidow = false)
    (hok : ((Engine.ofOptions options metrics).runAll d (LayoutPass.all.take 6)).fault = none) :
    ((Engine.ofOptions options metrics).runAll d (LayoutPass.all.take 6)).document.LeavesRoom
      options.normalized := by
  obtain ⟨_, _, _, systems, helastic, hsystems, hrestacked⟩ := hd.exists_systemsOf hok
  intro t ht
  obtain ⟨t₀, ht₀, hnode, hbelow⟩ := exists_mem_of_forall₂ hrestacked.trees ht
  exact (hsystems.castOff hmode hwidow helastic t₀ ht₀).of_restacked hnode hbelow

/-- The passes up to filling lines make every system as wide as its page if it has measures and does
not overflow. -/
theorem Reachable.fills_lines (h : d.Reachable) (hfree : Unreserved d.trees.rest)
    (hmode : options.breaks = .auto ∨ options.breaks = .line ∨ options.breaks = .smart)
    (hwidow : options.noWidow = false) (hjustify : options.justifyHorizontally = true)
    (hlast : options.normalized.minLastFill = 0)
    (hok : ((Engine.ofOptions options metrics).runAll d (LayoutPass.all.take 7)).fault = none) :
    ∀ system ∈ ((Engine.ofOptions options metrics).runAll d (LayoutPass.all.take 7)).document.systems,
      ∀ s, system.kind = .system s → ¬ s.overflow →
        ((Engine.ofOptions options metrics).runAll d
          (LayoutPass.all.take 7)).document.measureNodes system.handle ≠ [] →
        options.normalized.FillsLine s (((Engine.ofOptions options metrics).runAll d
          (LayoutPass.all.take 7)).document.measureNodes system.handle) := by
  have hd := h.ready hfree
  obtain ⟨hok₆, hrun₇, heq₇⟩ := Engine.of_runAll_take (k := 6) rfl hok
  have hroom := hd.leavesRoom (decide_eq_true hmode) hwidow hok₆
  have hready := (hd.runAll (Engine.ofOptions options metrics) (LayoutPass.all.take 6)).2
  rw [heq₇]
  generalize ((Engine.ofOptions options metrics).runAll d (LayoutPass.all.take 6)).document = d₆
    at hroom hready hrun₇ ⊢
  obtain ⟨r, pages, hshape⟩ := hready.wellFormed.exists_shape
  have hscore : d₆.score.branches.branches = pages.branches := by
    rw [hshape.score, Forest.tree, Forest.branches, Forest.branches, Forest.append_nil]
  have hfitted : ∀ t ∈ pages.branches.trees, ∀ p ∈ measuresIn t.2, p.2.grid.Fitted :=
    fun t ht p hp => ((hroom t (hscore.symm ▸ ht)).elastic p hp).fitted
  obtain ⟨d₇, hfill, hd₇⟩ := hshape.fillLines_eq (Outcome.required_le_of_guarded hrun₇) hfitted
    options.normalized
  have hdocument : ((Engine.ofOptions options metrics).run d₆ .fillLines).document = d₇ :=
    congrArg Outcome.document hfill
  have hcontent : options.normalized.contentWidth? = some (options.normalized.pageWidth -
      options.normalized.marginLeft - options.normalized.marginRight) := by
    refine if_neg fun hunbroken => ?_
    have hbreaks : options.breaks = .unbroken := hunbroken
    simp [hbreaks] at hmode
  rw [LayoutOptions.filledPages, hcontent] at hd₇
  dsimp only at hd₇
  rw [if_pos (show options.normalized.justifyHorizontally = true from hjustify)] at hd₇
  rw [hdocument]
  intro system hsystem s hs hoverflow hmeasures
  rw [hd₇.systems_eq, ← Forest.map_fst_trees] at hsystem
  obtain ⟨t, ht, rfl⟩ := List.mem_map.1 hsystem
  have hchildren : d₇.childNodes t.1.handle = t.2.roots := by
    rw [childNodes, hd₇.below_eq (Forest.hasTree_of_mem_trees ht).of_branches]
  obtain ⟨isLast, t₀, ht₀, rfl⟩ := LayoutOptions.exists_of_mem_fillPageTrees pages t ht
  rw [measureNodes, hchildren] at hmeasures ⊢
  have hfills := (hroom t₀ (hscore.symm ▸ ht₀)).fillTree hlast rfl isLast hs
    (measuresIn_ne_nil hmeasures) hoverflow
  have htotal (nodes : List (Node K)) :
      totalWidth (nodes.filter fun n => n.tag = .measure) = totalWidth nodes :=
    congrArg Scalar.sum (filterMap_measureWidth?_filter nodes)
  exact ⟨(htotal _).symm ▸ hfills.measuresWidth, (htotal _).symm ▸ hfills.conforms⟩

/-- Two measures stretched to the width of the page. -/
theorem Reachable.fills_lines_of_two_measures : ∃ d : Document ℚ, d.Reachable ∧
    ∃ system ∈ ((Engine.ofOptions (.default : LayoutOptions ℚ) .default).runAll d
        (LayoutPass.all.take 7)).document.systems,
      ∃ s, system.kind = .system s ∧
        (((Engine.ofOptions (.default : LayoutOptions ℚ) .default).runAll d
          (LayoutPass.all.take 7)).document.measureNodes system.handle).length = 2 ∧
        (LayoutOptions.default : LayoutOptions ℚ).normalized.FillsLine s
          (((Engine.ofOptions (.default : LayoutOptions ℚ) .default).runAll d
            (LayoutPass.all.take 7)).document.measureNodes system.handle) := by
  have hd := ((Reachable.ofDefinition (α := ℚ) default).contentSystem.add 2
    (.measure (.ofNumber 1))).add 2 (.measure (.ofNumber 2))
  have hfills := hd.fills_lines (fun n hn => absurd hn List.not_mem_nil)
    (.inl rfl : (LayoutOptions.default : LayoutOptions ℚ).breaks = .auto ∨ _) rfl rfl
    (by decide +kernel) (show ((Engine.ofOptions _ .default).runAll _ _).fault = none by decide +kernel)
  refine ⟨_, hd, ?_⟩
  generalize hd' : ((Engine.ofOptions (.default : LayoutOptions ℚ) .default).runAll _
    (LayoutPass.all.take 7)).document = d' at hfills ⊢
  have hsystems : (d'.systems.map fun n =>
      (n.kind.system?.map fun s => s.overflow, (d'.measureNodes n.handle).length)) =
        [(some false, 2)] := by
    rw [← hd']
    decide +kernel
  obtain ⟨system, hsystem, heq⟩ := List.mem_map.1
    (hsystems ▸ List.mem_singleton_self (some false, 2))
  obtain ⟨hflag, hlength⟩ := Prod.mk.inj heq
  obtain ⟨s, hs, hoverflow⟩ := Option.map_eq_some_iff.1 hflag
  have hkind : system.kind = .system s := NodeKind.system?_eq_some_iff.1 hs
  refine ⟨system, hsystem, s, hkind, hlength, hfills system hsystem s hkind ?_ ?_⟩
  · rw [hoverflow]
    decide
  · exact List.ne_nil_of_length_pos (by omega)

end Document

end ScoreLayout
