import ScoreLayout.Proofs.Grid.InOrder
import ScoreLayout.Proofs.Layout.FilledScores
import ScoreLayout.Proofs.Layout.FramedGrids
import ScoreLayout.Proofs.Layout.Rearranging

/-!
# Time grids in order

Spacing sets the slots of every measure in the order of their keys, with a least distance behind
content. The passes behind it leave the grids alone, but for the filling of lines. That takes the
gaps of a whole system together, stretches or compresses them as far as their floors, and deals them
out again among its measures: the slots stay, and so does their order.

## Main definitions

* `MeasureGrid.Spaced` — a grid that has positions in order, and gaps to fill a line with.
* `MeasureGrid.SameSlots`, `Node.SameSlots` — two states that differ in positions only.

## Main results

* `Document.WellFormed.respaced_fillLines` — what filling makes of grids in order.
* `Document.Reachable.inOrder_space` — the grids of every document from spacing on.
-/

namespace ScoreLayout

variable {K : Type} [ExactField K] {least : K}

/-! ### One grid -/

namespace MeasureGrid

/-- A grid with positions in order, whose gaps keep above their floors. -/
structure Spaced (least : K) (g : MeasureGrid K) : Prop where
  framed : ∃ last, g.Framed last
  sprung : g.Sprung least
  inOrder : g.InOrder least

/-- Two states of a grid that differ in the widths of gaps and in positions only. -/
structure SameSlots (g g' : MeasureGrid K) : Prop where
  slots : g'.slots.map Slot.unplaced = g.slots.map Slot.unplaced
  weights : g'.gaps.map Gap.weight = g.gaps.map Gap.weight

theorem SameSlots.refl (g : MeasureGrid K) : g.SameSlots g := ⟨rfl, rfl⟩

/-- What a grid in order makes of other gaps with the same floors. -/
theorem Spaced.regapped {g : MeasureGrid K} (h : g.Spaced least) {gaps : List (Gap K)}
    (hfloors : gaps.map Gap.floor = g.gaps.map Gap.floor)
    (hweights : gaps.map Gap.weight = g.gaps.map Gap.weight) (hgaps : ∀ gap ∈ gaps, gap.Elastic) :
    g.SameSlots (g.regapped gaps) ∧ (g.regapped gaps).Spaced least := by
  rw [MeasureGrid.regapped]
  split
  · rename_i g' hok
    obtain ⟨last, hframed⟩ := h.framed
    obtain ⟨hsprung, horder⟩ := h.sprung.applyGaps hframed hfloors hgaps hok
    refine ⟨⟨unplaced_applyGaps hok, ?_⟩,
      ⟨last, hframed.of_outline (sameShape_applyGaps hok).outline⟩, hsprung, horder⟩
    rw [applyGaps] at hok
    split_ifs at hok
    rw [gaps_place hok, hweights]
  · exact ⟨.refl g, h⟩

end MeasureGrid

/-! ### The measures of a system -/

/-- Two states of a node with the same records, and with the same slots where it is a measure. -/
structure Node.SameSlots (n n' : Node K) : Prop extends n.SameMusic n' where
  layout : n'.layout = n.layout
  grid : ∀ m', n'.kind = .measure m' → ∃ m, n.kind = .measure m ∧ m.grid.SameSlots m'.grid

/-- The grids of all measures of a forest are in order. -/
def Forest.Spaced (least : K) (f : Forest (Node K)) : Prop :=
  ∀ n ∈ f.toList, ∀ m, n.kind = .measure m → m.grid.Spaced least

/-- Two states of a node with the same slots, which are in order in the later. -/
def Node.Respaced (least : K) (n n' : Node K) : Prop :=
  n.SameSlots n' ∧ ∀ m', n'.kind = .measure m' → m'.grid.Spaced least

namespace Node

theorem Respaced.refl {n : Node K} (h : ∀ m, n.kind = .measure m → m.grid.Spaced least) :
    n.Respaced least n := ⟨⟨.refl n, rfl, fun m hm => ⟨m, hm, .refl _⟩⟩, h⟩

/-- A system is not a measure. -/
theorem Respaced.mapSystem {n : Node K} (h : ∀ m, n.kind = .measure m → m.grid.Spaced least)
    (f : ScoreSystem K → ScoreSystem K) : n.Respaced least (n.mapKind (.mapSystem f)) := by
  have hmeasure (m : Measure K) (hm : (n.mapKind (.mapSystem f)).kind = .measure m) :
      n.kind = .measure m := by
    rw [mapKind] at hm
    cases hk : n.kind <;> simp_all [NodeKind.mapSystem]
  exact ⟨⟨⟨rfl, rfl, Document.NodeKind.bare_mapSystem ..⟩, rfl, fun m hm => ⟨m, hmeasure m hm, .refl _⟩⟩,
    fun m hm => h m (hmeasure m hm)⟩

end Node

namespace Forest

theorem Spaced.cons_iff {n : Node K} {below siblings : Forest (Node K)} :
    (Forest.cons n below siblings).Spaced least ↔
      (∀ m, n.kind = .measure m → m.grid.Spaced least) ∧ below.Spaced least ∧
        siblings.Spaced least := by
  rw [Spaced, toList, List.forall_mem_cons, List.forall_mem_append]
  rfl

theorem Spaced.respaced {f : Forest (Node K)} (h : f.Spaced least) :
    Forall₂ (Node.Respaced least) f f := .refl fun n hn => .refl (h n hn)

end Forest

/-- Every measure takes its share of the gaps of the system. -/
theorem respaced_fillRoots : (f : Forest (Node K)) → (x : K) → (gaps : List (Gap K)) →
    f.Spaced least → gaps.map Gap.floor = (gapsIn f).map Gap.floor →
    gaps.map Gap.weight = (gapsIn f).map Gap.weight → (∀ gap ∈ gaps, gap.Elastic) →
      Forest.Forall₂ (Node.Respaced least) f (fillRoots x gaps f).2
  | .nil, _, _, _, _, _, _ => .nil
  | .cons n below siblings, x, gaps, hf, hfloors, hweights, hgaps => by
      obtain ⟨hn, hbelow, hsiblings⟩ := Forest.Spaced.cons_iff.1 hf
      rw [fillRoots]
      rw [gapsIn, measuresIn, Forest.roots] at hfloors hweights
      cases hm : n.kind.measure? with
      | none =>
        rw [List.filterMap_cons_none (by rw [hm]; rfl)] at hfloors hweights
        exact .cons (.refl hn) hbelow.respaced
          (respaced_fillRoots siblings x gaps hsiblings hfloors hweights hgaps)
      | some m =>
        have hkind : n.kind = .measure m := NodeKind.measure?_eq_some_iff.1 hm
        rw [List.filterMap_cons_some (by rw [hm]; rfl), List.flatMap_cons, List.map_append]
          at hfloors hweights
        -- the first gaps are those of this measure
        have hshare {β : Type} {u : Gap K → β} {rest : List β}
            (h : gaps.map u = m.grid.gaps.map u ++ rest) :
            (gaps.take m.grid.gaps.length).map u = m.grid.gaps.map u ∧
              (gaps.drop m.grid.gaps.length).map u = rest := by
          rw [List.map_take, List.map_drop, h]
          exact ⟨List.take_left' (List.length_map ..), List.drop_left' (List.length_map ..)⟩
        obtain ⟨hfloor, hfloors⟩ := hshare hfloors
        obtain ⟨hweight, hweights⟩ := hshare hweights
        obtain ⟨hsame, hspaced⟩ := (hn m hkind).regapped hfloor hweight fun gap hgap =>
          hgaps gap (List.mem_of_mem_take hgap)
        refine .cons ⟨⟨⟨rfl, rfl, by rw [hkind]; rfl⟩, rfl, fun m' hm' => ⟨m, hkind, ?_⟩⟩,
          fun m' hm' => ?_⟩ hbelow.respaced
          (respaced_fillRoots siblings _ _ hsiblings hfloors hweights fun gap hgap =>
            hgaps gap (List.mem_of_mem_drop hgap))
        · exact NodeKind.measure.inj hm' ▸ hsame
        · exact NodeKind.measure.inj hm' ▸ hspaced

/-- The gaps of neighbouring measures with grids in order. -/
theorem elastic_gapsIn {f : Forest (Node K)} (hf : f.Spaced least) :
    ∀ gap ∈ gapsIn f, gap.Elastic := by
  intro gap hgap
  obtain ⟨p, hp, hgap⟩ := List.mem_flatMap.1 hgap
  obtain ⟨n, hn, heq⟩ := List.mem_filterMap.1 hp
  obtain ⟨m, hm, rfl⟩ := Option.map_eq_some_iff.1 heq
  exact ((hf n (Forest.mem_toList_of_mem_roots hn) m
    (NodeKind.measure?_eq_some_iff.1 hm)).sprung.elastic gap hgap).2

/-! ### The score -/

namespace LayoutOptions

variable (o : LayoutOptions K) (available : K)

theorem respaced_fillTree {n : Node K} {below : Forest (Node K)}
    (hn : ∀ m, n.kind = .measure m → m.grid.Spaced least) (hbelow : below.Spaced least)
    (isLast : Bool) : n.Respaced least (o.fillTree available isLast (n, below)).1 ∧
      Forest.Forall₂ (Node.Respaced least) below (o.fillTree available isLast (n, below)).2 := by
  rw [fillTree]
  split
  · exact ⟨.refl hn, hbelow.respaced⟩
  · rename_i s _
    split_ifs
    · dsimp only
      exact ⟨.mapSystem hn _, respaced_fillRoots below _ (filledGaps available s below) hbelow
        (Gap.map_distribute Gap.floor (fun _ _ => rfl) (gapsIn below) _)
        (Gap.map_distribute Gap.weight (fun _ _ => rfl) (gapsIn below) _)
        (Gap.Elastic.distribute (elastic_gapsIn hbelow) _)⟩
    · exact ⟨.refl hn, hbelow.respaced⟩

theorem respaced_fillTrees (final : Bool) : (f : Forest (Node K)) → f.Spaced least →
    Forest.Forall₂ (Node.Respaced least) f (o.fillTrees available final f)
  | .nil, _ => .nil
  | .cons n below siblings, hf => by
      obtain ⟨hn, hbelow, hsiblings⟩ := Forest.Spaced.cons_iff.1 hf
      obtain ⟨hsystem, hmeasures⟩ := o.respaced_fillTree available hn hbelow
        (siblings.roots.isEmpty && final)
      exact .cons hsystem hmeasures (respaced_fillTrees final siblings hsiblings)

theorem respaced_fillPageTrees : (f : Forest (Node K)) → f.Spaced least →
    Forest.Forall₂ (Node.Respaced least) f (o.fillPageTrees available f)
  | .nil, _ => .nil
  | .cons page systems pages, hf => by
      obtain ⟨hpage, hsystems, hpages⟩ := Forest.Spaced.cons_iff.1 hf
      exact .cons (.refl hpage) (o.respaced_fillTrees available _ systems hsystems)
        (respaced_fillPageTrees pages hpages)

theorem respaced_filledPages {pages : Forest (Node K)} (h : pages.Spaced least) :
    Forest.Forall₂ (Node.Respaced least) pages (o.filledPages pages) := by
  rw [filledPages]
  split
  · exact h.respaced
  · rename_i available _
    split_ifs
    · exact o.respaced_fillPageTrees available pages h
    · exact h.respaced

end LayoutOptions

omit [ExactField K] in
/-- Nothing that is rearranged changes a grid. -/
theorem Node.Rearrangement.grid : Node.Rearrangement (α := K) fun n n' =>
    ∀ m', n'.kind = .measure m' → ∃ m, n.kind = .measure m ∧ m'.grid = m.grid where
  refl _ m hm := ⟨m, hm, rfl⟩
  trans h h' m₂ hm₂ := by
    obtain ⟨m₁, hm₁, h₂⟩ := h' m₂ hm₂
    obtain ⟨m, hm, h₁⟩ := h m₁ hm₁
    exact ⟨m, hm, h₂.trans h₁⟩
  mapSystem n f m hm := ⟨m, by cases hk : n.kind <;> simp_all [Node.mapKind, NodeKind.mapSystem], rfl⟩
  mapPage n f m hm := ⟨m, by cases hk : n.kind <;> simp_all [Node.mapKind, NodeKind.mapPage], rfl⟩
  place n x m hm := by
    rw [Node.mapKind] at hm
    cases hk : n.kind with
    | measure m' =>
      rw [hk, NodeKind.mapMeasure, NodeKind.measure.injEq] at hm
      exact ⟨m', rfl, hm ▸ rfl⟩
    | _ => simp [hk, NodeKind.mapMeasure] at hm

namespace Document

variable {d : Document K}

/-- What filling makes of grids in order. -/
theorem WellFormed.respaced_fillLines (hd : d.WellFormed) (hstaged : d.Staged)
    (h : d.score.Spaced least) (o : LayoutOptions K) :
    Forest.Forall₂ (Node.Respaced least) d.score (d.fillLines o).document.score := by
  by_cases hs : Step.required .horizontalFilling ≤ d.stage
  · obtain ⟨r, pages, hshape⟩ := hd.exists_shape
    have hfitted := hstaged.fitted (Nat.le_trans (by decide) hs)
    obtain ⟨d', heq, hshape'⟩ := hshape.fillLines_eq hs (hshape.fitted_measuresIn hfitted) o
    rw [heq]
    show Forest.Forall₂ _ _ d'.score
    rw [hshape.score] at h
    rw [hshape.score, hshape'.score]
    obtain ⟨hroot, hpages, -⟩ := Forest.Spaced.cons_iff.1 h
    exact .cons (.refl hroot) (o.respaced_filledPages hpages) .nil
  · rw [fillLines, Outcome.guarded, Step.fault?, if_neg hs]
    exact h.respaced

/-- The measures of the score are those of the content. -/
theorem WellFormed.spaced_score (hd : d.WellFormed) (h : d.content.Spaced least) :
    d.score.Spaced least :=
  fun n hn m hm => h n (hd.mem_content hn (Node.depth_of_measure hm)) m hm

/-- Spacing leaves grids in order. -/
theorem Reachable.spaced_space (h : d.Reachable) (hs : .aligned ≤ d.stage) (o : LayoutOptions K) :
    (d.space o.normalized).fault = none ∧
      (d.space o.normalized).document.content.Spaced
        (o.normalized.minSlotWidth * o.normalized.scaledUnit) := by
  have hok : (d.space o.normalized).fault = none := by
    obtain ⟨hok, -⟩ | ⟨hpass, -⟩ := h.wellFormed.fault_run h.settled h.staged ⟨o.normalized, .default⟩
      (show LayoutPass.space.required ≤ d.stage from hs)
    · exact hok
    · cases hpass
  obtain ⟨heq, hgrids⟩ := h.wellFormed.space_eq hok
  have hscore : (d.space o.normalized).document.score =
      d.score.map (Node.spaced (o.normalized.spacing d.longest)) := by
    rw [heq]
    exact score_withScore (R := fun _ _ => True) (Forest.Forall₂.map_right _ fun _ _ => trivial)
  refine ⟨hok, fun n' hn' m hm => ?_⟩
  have hn' := (content_sublist_score _).subset hn'
  rw [hscore, Forest.toList_map] at hn'
  obtain ⟨n, hn, rfl⟩ := List.mem_map.1 hn'
  cases hk : n.kind with
  | measure m' =>
    obtain ⟨grid, hgrid⟩ := hgrids n hn m' hk
    obtain ⟨last, hframed⟩ := h.framed hs n
      (h.wellFormed.mem_content hn (Node.depth_of_measure hk)) m' hk
    obtain ⟨hsprung, horder⟩ :=
      MeasureGrid.sprung_space (o.inRange_spacing d.longest) hframed hgrid
    rw [Node.spaced, hk] at hm
    dsimp only at hm
    rw [hgrid] at hm
    rw [← NodeKind.measure.inj hm]
    exact ⟨⟨last, hframed.of_outline (MeasureGrid.staysPut_space hgrid).outline⟩, hsprung, horder⟩
  | _ =>
    rw [Node.spaced_of_tag_ne (by simp [Node.tag, hk, NodeKind.tag]), hk] at hm
    exact absurd hm (by simp)

/-- Passes behind spacing leave grids in order. -/
theorem WellFormed.spaced_run (hd : d.WellFormed) (hsettled : d.Settled) (hstaged : d.Staged)
    (h : d.content.Spaced least) (e : Engine K) {pass : LayoutPass}
    (hpass : pass ∉ [.prepare, .align, .space]) :
    (e.run d pass).document.content.Spaced least := by
  by_cases hfill : pass = .fillLines
  · subst hfill
    have hrespaced := hd.respaced_fillLines hstaged (hd.spaced_score h) e.options
    intro n' hn' m hm
    obtain ⟨n, -, -, hn⟩ := exists_mem_of_forall₂ hrespaced.toList
      ((content_sublist_score _).subset hn')
    exact hn m hm
  · have hrearranged := hd.rearranged_run hsettled .grid e (show pass ∉ _ by
      simp only [List.mem_cons, List.not_mem_nil, or_false, not_or] at hpass ⊢
      exact ⟨hpass.1, hpass.2.1, hpass.2.2, hfill⟩) fun _ _ _ hn m hm => ⟨m, hn.kind ▸ hm, rfl⟩
    intro n' hn' m' hm'
    obtain ⟨n, hn, hgrid⟩ := exists_mem_of_forall₂ hrearranged.toList hn'
    obtain ⟨m, hm, heq⟩ := hgrid m' hm'
    exact heq ▸ h n hn m hm

/-- From spacing on the slots of all measures stand in order, whatever passes behind spacing follow,
and filling lines changes nothing else about them. -/
theorem Reachable.inOrder_space (h : d.Reachable) (hs : .aligned ≤ d.stage) (o : LayoutOptions K)
    (metrics : GlyphMetrics K) {later : List LayoutPass}
    (hlater : ∀ pass ∈ later, pass ∉ [.prepare, .align, .space]) :
    ((Engine.ofOptions o metrics).run d .space).fault = none ∧
      ∀ d', d' = ((Engine.ofOptions o metrics).runAll d (.space :: later)).document →
        (∀ n ∈ d'.score.toList, ∀ m, n.kind = .measure m →
          m.grid.InOrder (o.normalized.minSlotWidth * o.normalized.scaledUnit)) ∧
        Forest.Forall₂ Node.SameSlots d'.score
          ((Engine.ofOptions o metrics).run d' .fillLines).document.score := by
  obtain ⟨hok, hspaced⟩ := h.spaced_space hs o
  refine ⟨hok, ?_⟩
  rintro d' rfl
  have hrun (d : Document K) (hP : d.WellFormed ∧ d.Settled ∧ d.Staged ∧ d.content.Spaced
      (o.normalized.minSlotWidth * o.normalized.scaledUnit)) (pass : LayoutPass)
      (hpass : pass ∈ later) :
      ((Engine.ofOptions o metrics).run d pass).document.WellFormed ∧
        ((Engine.ofOptions o metrics).run d pass).document.Settled ∧
        ((Engine.ofOptions o metrics).run d pass).document.Staged ∧
        ((Engine.ofOptions o metrics).run d pass).document.content.Spaced
          (o.normalized.minSlotWidth * o.normalized.scaledUnit) := by
    obtain ⟨hd, hsettled, hstaged, hcontent⟩ := hP
    exact ⟨hd.run _ pass, hd.settled_run hsettled _ pass,
      hd.staged_run hsettled hstaged _ fun halign => absurd (by simp [halign]) (hlater pass hpass),
      hd.spaced_run hsettled hstaged hcontent _ (hlater pass hpass)⟩
  have hfirst : ((Engine.ofOptions o metrics).runAll d [.space]).document =
      (d.space o.normalized).document := by
    rw [Engine.runAll, List.foldl_cons, List.foldl_nil, Outcome.done_andThen]
    rfl
  obtain ⟨hd, hsettled, hstaged, hcontent⟩ := of_runAll_append [.space] later (by
    rw [hfirst]
    have hd := h.pass (Engine.ofOptions o metrics) .space hok
    exact ⟨hd.wellFormed, hd.settled, hd.staged, hspaced⟩) hrun
  have hscore := hd.spaced_score hcontent
  refine ⟨fun n hn m hm => (hscore n hn m hm).inOrder, ?_⟩
  exact (hd.respaced_fillLines hstaged hscore _).mono fun _ _ h => h.1

/-- A dynamic at the second of four beats, over two half notes: the slot at its time stands between
those of the notes, before lines are filled and behind that. -/
theorem Reachable.inOrder_space_of_dynamic : ∃ d : Document ℚ, d.Reachable ∧ .aligned ≤ d.stage ∧
    (∀ pass ∈ [LayoutPass.breakSystems, .stackStaves, .breakPages, .fillLines],
      pass ∉ [.prepare, .align, .space]) ∧
    ∀ n ∈ ((Engine.ofOptions (.default : LayoutOptions ℚ) .default).runAll d
        [.space, .breakSystems, .stackStaves, .breakPages, .fillLines]).document.score.toList,
      ∀ m, n.kind = .measure m → m.grid.InOrder 18 := by
  have hlayer := (((Reachable.ofDefinition (α := ℚ) default).contentSystem.add 2
    (.measure (.ofNumber 1))).add 3 (.staff ⟨1, false⟩)).add 4 (.layer 1)
  have hd := ((hlayer.add 5
    (.element (.note ⟨.ofValue .half, ⟨.c, 4, none⟩, none, false⟩))).add 5
    (.element (.note ⟨.ofValue .half, ⟨.d, 4, none⟩, none, false⟩))).add 3
    (.control (.dynamic (.atBeat 2 1) "f"))
  have haligned := (hd.pass .default .prepare (by decide +kernel)).pass .default .align
    (by decide +kernel)
  have hlater : ∀ pass ∈ [LayoutPass.breakSystems, .stackStaves, .breakPages, .fillLines],
      pass ∉ [.prepare, .align, .space] := by decide
  have hleast : (LayoutOptions.default : LayoutOptions ℚ).normalized.minSlotWidth *
      (LayoutOptions.default : LayoutOptions ℚ).normalized.scaledUnit = 18 := by decide +kernel
  exact ⟨_, haligned, by decide +kernel, hlater,
    hleast ▸ ((haligned.inOrder_space (by decide +kernel) .default .default hlater).2 _ rfl).1⟩

end Document

end ScoreLayout
