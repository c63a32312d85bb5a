import ScoreLayout.Proofs.Content
import ScoreLayout.Proofs.Layout.GreedySystems

/-!
# Systems broken greedily

Breaking into systems fills one system after another. Where lone last measures are left alone, a
measure opens a system for two reasons only: a break is written before it, or it does not fit beside
the measures that the current system already holds. Which of these count depends on the mode.

## Main definitions

* `Document.placements` — the children of all systems, each with its system.
* `Document.Consecutive` — a measure and the next one, with what stands between them.
* `Document.Greedy` — where systems begin, and what they and their measures know of their widths.

## Main results

* `Document.Reachable.greedy_breakSystems` — breaking into systems is greedy.
-/

namespace ScoreLayout

variable {α : Type} [Scalar α]

/-- Whether measures of a total width have room in a system with the given signatures. -/
def LayoutOptions.HasRoom (o : LayoutOptions α) (width definitionWidth : α) : Prop :=
  width ≤ o.pageWidth - o.marginLeft - o.marginRight - definitionWidth + fitTolerance

namespace Document

/-- The children of all systems in order, each with its system. -/
def placements (d : Document α) : List (Node α × Node α) :=
  d.systems.flatMap fun system => (d.childNodes system.handle).map fun n => (system, n)

/-- A measure and the next one, each with its system: what stands before the first, and what stands
between them. -/
structure Consecutive (d : Document α) (front : List (Node α × Node α)) (last : Node α × Node α)
    (between : List (Node α × Node α)) (next : Node α × Node α) : Prop where
  placements : ∃ back, d.placements = front ++ last :: (between ++ next :: back)
  last : last.2.tag = .measure
  next : next.2.tag = .measure
  between : ∀ p ∈ between, p.2.tag ≠ .measure

/-- Where systems begin, and what they and their measures know of their widths. -/
structure Greedy (d : Document α) (o : LayoutOptions α) (metrics : GlyphMetrics α) : Prop where
  /-- A measure opens a system at a written break, and where there is no room for it. -/
  filled : o.breaks = .auto ∨ o.breaks = .line → ∀ front last between next,
    d.Consecutive front last between next → ∀ s m, last.1.kind = .system s →
      next.2.kind = .measure m → (next.1.handle ≠ last.1.handle ↔
        (∃ p ∈ between, p.2.IsBreak) ∨
          ¬ o.HasRoom (totalWidth (held front last) + m.width) s.definitionWidth)
  /-- A measure opens a system at a written break only. -/
  encoded : o.breaks = .encoded → ∀ front last between next,
    d.Consecutive front last between next →
      (next.1.handle ≠ last.1.handle ↔ ∃ p ∈ between, p.2.IsBreak)
  /-- No measure but the first opens a system. -/
  unbroken : o.breaks = .unbroken → ∀ front last between next,
    d.Consecutive front last between next → next.1.handle = last.1.handle
  /-- A system knows the total width of its measures. -/
  width : ∀ n ∈ d.systems, ∃ s, n.kind = .system s ∧
    s.measuresWidth = totalWidth (d.childNodes n.handle)
  /-- A system begins with the signatures of its first measure; only the first one shows the
  meter. -/
  opening : ∀ n ∈ d.systems, ∀ s, n.kind = .system s →
    ∀ m ∈ ((d.childNodes n.handle).filterMap fun c => c.kind.measure?).head?,
      s.definitionWidth = definitionWidth d.definition metrics o.scaledUnit m.signatures
        (d.systems.head?.any (hasHandle n.handle))
  /-- The measures of a system stand one beside the other. -/
  place : ∀ n ∈ d.systems, ∀ before c after m, d.childNodes n.handle = before ++ c :: after →
    c.kind = .measure m → m.x = totalWidth before
  /-- Only a single measure may be too wide for its system. -/
  room : o.breaks = .auto ∨ o.breaks = .line → ∀ n ∈ d.systems, ∀ s, n.kind = .system s →
    2 ≤ ((d.childNodes n.handle).filterMap Node.measureWidth?).length →
      o.HasRoom s.measuresWidth s.definitionWidth

end Document

/-! ### The last two measures of a system -/

namespace Document

omit [Scalar α] in
/-- What the system of a measure holds, read off the document. -/
theorem held_of_system {d : Document α} {n x : Node α} {before after : List (Node α)}
    (hnodup : (d.systems.map Node.handle).Nodup) (hn : d.systems = before ++ n :: after)
    (nodes : List (Node α)) :
    held ((before.flatMap fun s => (d.childNodes s.handle).map fun c => (s, c)) ++
      nodes.map fun c => (n, c)) (n, x) = nodes ++ [x] := by
  have hother : (before.flatMap fun s => (d.childNodes s.handle).map fun c => (s, c)).filter
      (fun p => decide (p.1.handle = n.handle)) = [] := by
    refine List.filter_eq_nil_iff.2 fun q hq => ?_
    obtain ⟨s, hs, hq⟩ := List.mem_flatMap.1 hq
    obtain ⟨c, -, rfl⟩ := List.mem_map.1 hq
    rw [hn, List.map_append, List.map_cons, List.nodup_append] at hnodup
    simpa using hnodup.2.2 s.handle (List.mem_map_of_mem hs) n.handle List.mem_cons_self
  have hown : (nodes.map fun c => (n, c)).filter (fun p => decide (p.1.handle = n.handle)) =
      nodes.map fun c => (n, c) := List.filter_eq_self.2 fun q hq => by
    obtain ⟨c, -, rfl⟩ := List.mem_map.1 hq
    exact decide_eq_true rfl
  have hself : (nodes.map fun c => (n, c)).map Prod.snd = nodes := by
    rw [List.map_map]
    exact List.map_id nodes
  rw [held, List.filter_append, List.filter_append, hother, hown, List.nil_append, List.map_append,
    hself]
  simp

/-- The last two measures of a system. -/
theorem exists_consecutive {d : Document α} {n : Node α}
    (hnodup : (d.systems.map Node.handle).Nodup) (hn : n ∈ d.systems)
    (h : 2 ≤ ((d.childNodes n.handle).filterMap Node.measureWidth?).length) :
    ∃ front last between next m, d.Consecutive front (n, last) between (n, next) ∧
      next.kind = .measure m ∧
      totalWidth (d.childNodes n.handle) = totalWidth (held front (n, last)) + m.width := by
  obtain ⟨before, after, hsystems⟩ := List.append_of_mem hn
  obtain ⟨nodes, next, trailing, m, hnodes, hm, htrailing⟩ :=
    exists_last_measure (d.childNodes n.handle) fun hnil => by
      rw [hnil, List.length_nil] at h
      exact absurd h (by decide)
  rw [hnodes, filterMap_measureWidth?_append hm htrailing, List.length_append] at h
  obtain ⟨front, last, between, m', rfl, hm', hbetween⟩ :=
    exists_last_measure nodes fun hnil => by
      rw [hnil, List.length_nil, List.length_singleton] at h
      exact absurd h (by decide)
  refine ⟨(before.flatMap fun s => (d.childNodes s.handle).map fun c => (s, c)) ++
    front.map fun c => (n, c), last, between.map fun c => (n, c), next, m, ⟨?_, ?_, ?_, ?_⟩, hm, ?_⟩
  · refine ⟨trailing.map (fun c => (n, c)) ++
      after.flatMap fun s => (d.childNodes s.handle).map fun c => (s, c), ?_⟩
    rw [placements, hsystems, List.flatMap_append, List.flatMap_cons, hnodes]
    simp
  · exact congrArg NodeKind.tag hm'
  · exact congrArg NodeKind.tag hm
  · intro q hq
    obtain ⟨c, hc, rfl⟩ := List.mem_map.1 hq
    exact hbetween c hc
  · have hheld : totalWidth (front ++ [last]) = totalWidth (front ++ last :: between) := by
      rw [totalWidth, totalWidth, filterMap_measureWidth?_append hm' hbetween,
        filterMap_measureWidth?_append hm' fun _ hc => absurd hc List.not_mem_nil]
    rw [held_of_system hnodup hsystems, hheld, hnodes, totalWidth,
      filterMap_measureWidth?_append hm htrailing, Scalar.sum, List.foldl_concat]
    rfl

end Document

/-! ### Documents broken into systems -/

theorem LayoutOptions.fits_iff {o : LayoutOptions α} (ho : o.breaks ≠ .unbroken)
    (width definitionWidth : α) :
    o.breakRules.fits width definitionWidth ↔ o.HasRoom width definitionWidth := by
  rw [breakRules, BreakRules.fits, contentWidth?, if_neg ho, HasRoom]
  exact decide_eq_true_iff

namespace Document

namespace Shape

variable {d : Document α} {D : ScoreDefinition} {r page : Node α}
  {pages systems detached : Forest (Node α)}

omit [Scalar α] in
/-- The children of trees of the score, each with its tree. -/
theorem flatMap_placements (hd : d.Shape D r pages detached) {f : Forest (Node α)}
    (hf : ∀ n below, Forest.HasTree n below f → Forest.HasTree n below pages) :
    (f.roots.flatMap fun s => (d.childNodes s.handle).map fun n => (s, n)) = f.placements := by
  induction f with
  | nil => rfl
  | cons n below siblings _ hs =>
    rw [Forest.roots, List.flatMap_cons, hs fun m under h => hf m under (.beside n below h),
      childNodes, hd.below_eq (hf n below (.here siblings))]
    rfl

omit [Scalar α] in
theorem placements_eq (hd : d.Shape D r pages detached) :
    d.placements = pages.branches.placements := by
  rw [placements, hd.systems_eq]
  exact hd.flatMap_placements fun _ _ h => h.of_branches

omit [Scalar α] in
/-- A system with what stands in it. -/
theorem exists_mem_trees (hd : d.Shape D r (.tree page systems) detached) {n : Node α}
    (hn : n ∈ d.systems) : ∃ t ∈ systems.trees, t.1 = n ∧ d.childNodes n.handle = t.2.roots := by
  rw [hd.systems_eq, Forest.tree, Forest.branches, Forest.branches, Forest.append_nil,
    ← systems.map_fst_trees] at hn
  obtain ⟨t, ht, rfl⟩ := List.mem_map.1 hn
  refine ⟨t, ht, rfl, ?_⟩
  rw [childNodes, hd.below_eq (.deeper .nil (Forest.hasTree_of_mem_trees ht))]

omit [Scalar α] in
theorem nodup_systems (hd : d.Shape D r (.tree page systems) detached) :
    (systems.roots.map Node.handle).Nodup := by
  refine hd.nodup.sublist (List.Sublist.map _ ?_)
  rw [Forest.tree, Forest.toList, Forest.toList, Forest.toList, List.append_nil]
  exact ((systems.sublist_roots.cons page).trans (List.sublist_append_left ..)).cons r

section Broken

variable {options : LayoutOptions α} {metrics : GlyphMetrics α} {used : List String} {k : Nat}
  {content : Forest (Node α)} (hd : d.Shape D r (.tree page systems) detached)
  (hsystems : SystemsOf options.breakRules used k (systemPlans D options metrics content) content
    systems)
  (hwidow : options.noWidow = false)

include hd hsystems hwidow

/-- A measure opens a system where the rules say so. -/
theorem ne_iff_opens (hmode : options.breaks ≠ .smart) {front between : List (Node α × Node α)}
    {last next : Node α × Node α} (h : d.Consecutive front last between next) {m : Measure α}
    (hm : next.2.kind = .measure m) :
    ∃ s : ScoreSystem α, last.1.kind = .system s ∧ (next.1.handle ≠ last.1.handle ↔
      (options.breaks ≠ .unbroken ∧ ∃ q ∈ between, q.2.IsBreak) ∨
        (options.breakRules.byWidth ∧ ¬ options.breakRules.fits
          (totalWidth (held front last) + m.width) s.definitionWidth)) := by
  obtain ⟨back, hplacements⟩ := h.placements
  rw [hd.placements_eq, Forest.tree, Forest.branches, Forest.branches,
    Forest.append_nil] at hplacements
  exact ScoreLayout.ne_iff_opens hsystems hd.nodup_systems hwidow hmode hplacements h.last hm
    h.between

/-- The plan behind a system. -/
theorem exists_plan {n : Node α} (hn : n ∈ d.systems) : ∃ p taken,
    n.kind = SystemPlan.kind options.breakRules p ∧
      d.childNodes n.handle = (placeRoots 0 taken).roots ∧
      p.Of (d.systems.head?.any (hasHandle n.handle)) ((d.childNodes n.handle).map
        (BreakItem.ofNode D metrics options.scaledUnit)) := by
  obtain ⟨t, ht, rfl, hchildren⟩ := hd.exists_mem_trees hn
  obtain ⟨chunks, hplans, hchunks, hne⟩ := plansOf_planSystems (r := options.breakRules) hwidow
    (content.roots.map (BreakItem.ofNode D metrics options.scaledUnit))
  have hcontent : content.roots.map (BreakItem.ofNode D metrics options.scaledUnit) ≠ [] := by
    intro hnil
    rw [List.map_eq_nil_iff, Forest.roots_eq_nil] at hnil
    rw [hsystems.noLeaf.eq_nil (hsystems.branches.eq_nil_iff.1 hnil)] at ht
    exact List.not_mem_nil ht
  obtain ⟨p, taken, hkind, hbelow, hp⟩ := hsystems.exists_of_mem_trees hd.nodup_systems
    (hne hcontent) hplans hchunks t ht
  refine ⟨p, taken, hkind, by rw [hchildren, hbelow], ?_⟩
  rw [hchildren, hbelow, BreakItem.map_ofNode_of_unplaced D metrics options.scaledUnit
    (roots_placeRoots 0 taken), hd.systems_eq, Forest.tree, Forest.branches, Forest.branches,
    Forest.append_nil]
  exact hp

/-- Breaking into systems is greedy. -/
theorem greedy : d.Greedy options metrics := by
  have hfilled (hmode : options.breaks = .auto ∨ options.breaks = .line) front last between next
      (h : d.Consecutive front last between next) (s : ScoreSystem α) (m : Measure α)
      (hs : last.1.kind = .system s) (hm : next.2.kind = .measure m) :
      next.1.handle ≠ last.1.handle ↔ (∃ p ∈ between, p.2.IsBreak) ∨
        ¬ options.HasRoom (totalWidth (held front last) + m.width) s.definitionWidth := by
    have hunbroken : options.breaks ≠ .unbroken := by
      rcases hmode with hmode | hmode <;> (rw [hmode]; decide)
    have hwidth : options.breakRules.byWidth := by
      rcases hmode with hmode | hmode <;> simp [BreakRules.byWidth, LayoutOptions.breakRules, hmode]
    have hsmart : options.breaks ≠ .smart := by
      rcases hmode with hmode | hmode <;> (rw [hmode]; decide)
    obtain ⟨s', hs', hiff⟩ := hd.ne_iff_opens hsystems hwidow hsmart h hm
    obtain rfl : s = s' := by
      rw [hs, NodeKind.system.injEq] at hs'
      exact hs'
    rw [hiff, LayoutOptions.fits_iff hunbroken, and_iff_right hunbroken, and_iff_right hwidth]
  have hwidth : ∀ n ∈ d.systems, ∃ s, n.kind = .system s ∧
      s.measuresWidth = totalWidth (d.childNodes n.handle) := by
    intro n hn
    obtain ⟨p, taken, hkind, -, hp⟩ := hd.exists_plan hsystems hwidow hn
    exact ⟨_, hkind, hp.width.trans (sum_measure?_ofNode ..)⟩
  refine ⟨hfilled, ?_, ?_, hwidth, ?_, ?_, ?_⟩
  · intro hmode front last between next h
    obtain ⟨m, hm⟩ := NodeKind.exists_of_measure h.next
    obtain ⟨s, -, hiff⟩ := hd.ne_iff_opens hsystems hwidow (by rw [hmode]; decide) h hm
    simp [hiff, hmode, BreakRules.byWidth, LayoutOptions.breakRules]
  · intro hmode front last between next h
    obtain ⟨m, hm⟩ := NodeKind.exists_of_measure h.next
    obtain ⟨s, -, hiff⟩ := hd.ne_iff_opens hsystems hwidow (by rw [hmode]; decide) h hm
    by_contra hne
    simp [hmode, BreakRules.byWidth, LayoutOptions.breakRules] at hiff
    exact hne hiff
  · intro n hn s hs m hm
    obtain ⟨p, taken, hkind, -, hp⟩ := hd.exists_plan hsystems hwidow hn
    obtain rfl : s = _ := NodeKind.system.inj (hs.symm.trans hkind)
    rw [hd.definition]
    refine hp.opening (m.width, definitionWidth D metrics options.scaledUnit m.signatures) ?_
    rw [filterMap_measure?_ofNode, List.head?_map]
    exact Option.mem_map_of_mem _ hm
  · intro n hn before c after m hchildren hc
    obtain ⟨p, taken, -, hplaced, -⟩ := hd.exists_plan hsystems hwidow hn
    exact x_of_placeRoots 0 taken (hplaced ▸ hchildren) hc
  · intro hmode n hn s hs hlength
    have hnodup : (d.systems.map Node.handle).Nodup := by
      rw [hd.systems_eq, Forest.tree, Forest.branches, Forest.branches, Forest.append_nil]
      exact hd.nodup_systems
    obtain ⟨front, last, between, next, m, h, hm, hsum⟩ := exists_consecutive hnodup hn hlength
    obtain ⟨s', hs', hsum'⟩ := hwidth n hn
    obtain rfl : s = s' := NodeKind.system.inj (hs.symm.trans hs')
    rw [hsum', hsum]
    by_contra hroom
    exact (hfilled hmode front (n, last) between (n, next) h s m hs hm).2 (.inr hroom) rfl

end Broken

end Shape

/-- Breaking a document of whatever shape into systems is greedy. -/
theorem WellFormed.exists_greedy {d : Document α} (hd : d.WellFormed)
    (hfree : Unreserved d.trees.rest) (hs : .spaced ≤ d.stage) {options : LayoutOptions α}
    (hwidow : options.noWidow = false) (metrics : GlyphMetrics α) :
    (d.breakSystems options metrics).fault = none ∧
      (d.breakSystems options metrics).document.Greedy options metrics ∧
      (d.breakSystems options metrics).document.placements.map (fun q => q.2.unplaced) =
        d.placements.map fun q => q.2.unplaced := by
  obtain ⟨r, pages, hshape⟩ := hd.exists_shape
  obtain ⟨page, systems, d₁, d', hok, hd', -, hsystems, -⟩ :=
    hshape.breakContent hfree options metrics
  have hunplaced {d : Document α} {pages : Forest (Node α)}
      (hd : d.Shape d.definition r pages d.trees.rest) :
      d.placements.map (fun q => q.2.unplaced) = d.content.roots.map Node.unplaced := by
    rw [hd.placements_eq, hd.content_eq, ← Forest.map_snd_placements, List.map_map]
    rfl
  have hrun : d.breakSystems options metrics =
      .done d' ((Shape.systemPlans d.definition options metrics d.content).flatMap
        (overflowMarks options.breakRules d₁)) := by
    have hstep : Step.systemBreaking.fault? d.stage = none := if_pos hs
    rw [Document.breakSystems, Outcome.guarded, hstep]
    dsimp only
    rw [hok]
  rw [hrun]
  refine ⟨rfl, hd'.greedy hsystems hwidow, ?_⟩
  show d'.placements.map (fun q => q.2.unplaced) = _
  rw [hunplaced hshape, ← hsystems.map_unplaced, hd'.placements_eq, Forest.tree, Forest.branches,
    Forest.branches, Forest.append_nil, ← Forest.map_snd_placements, List.map_map]
  rfl

/-- Breaking whatever a caller comes to into systems is greedy, as long as nothing detached has an
identifier kept for unbroken content. -/
theorem Reachable.greedy_breakSystems {d : Document α} (h : d.Reachable)
    (hfree : Unreserved d.trees.rest) (hs : .spaced ≤ d.stage) {options : LayoutOptions α}
    (hwidow : options.noWidow = false) (metrics : GlyphMetrics α) :
    (d.breakSystems options metrics).fault = none ∧
      (d.breakSystems options metrics).document.Greedy options metrics ∧
      (d.breakSystems options metrics).document.placements.map (fun q => q.2.unplaced) =
        d.placements.map fun q => q.2.unplaced :=
  h.wellFormed.exists_greedy hfree hs hwidow metrics

/-- Two measures with a written break between them. -/
theorem Reachable.greedy_breakSystems_of_break :
    ∃ d : Document Float, d.contentHandles = [3, 4, 5] ∧
      (d.breakSystems .default .default).fault = none ∧
        (d.breakSystems .default .default).document.Greedy .default .default := by
  have hd := (((Reachable.ofDefinition (α := Float) default).contentSystem.add 2
    (.measure (.ofNumber 1))).add 2 .systemBreak).add 2 (.measure (.ofNumber 2))
  have hprepared := hd.pass .default .prepare (by decide +kernel)
  have haligned := hprepared.pass .default .align (by decide +kernel)
  have hspaced := haligned.pass .default .space (by decide +kernel)
  refine ⟨_, ?_, (hspaced.greedy_breakSystems ?_ ?_ rfl .default).imp_right And.left⟩
  · decide +kernel
  · exact fun n hn => absurd hn List.not_mem_nil
  · decide +kernel

end Document

end ScoreLayout
