import ScoreLayout.Proofs.Layout.FaultlessPasses
import ScoreLayout.Proofs.Layout.GreedySystems
import ScoreLayout.Proofs.Layout.PageStarts

/-!
# What filling makes of a score

Filling looks its measures, systems and pages up by their handles. What it makes of the pages of a
score is a function of these pages alone: every system is filled by itself, and only the last needs
to know that no other comes behind it; and the free height of each page is spread over its own gaps.
Stacking, breaking into pages and filling pages leave the lines alone.

## Main definitions

* `fillRoots` — measures among neighbours, placed one after another with new gaps.
* `LayoutOptions.fillTree`, `LayoutOptions.fillTrees` — one system with its lines filled, and the
  systems of a page.
* `LayoutOptions.filledPages` — all pages with their lines filled.
* `LayoutOptions.spreadRoots` — systems among neighbours moved down.
* `LayoutOptions.spreadTree`, `LayoutOptions.spreadTrees` — one page with its free height spread, and
  all pages.
* `LayoutOptions.spreadPages` — the pages of a score, where the options ask for it.
* `Node.Restacked` — two states of one node, of which only staves and vertical places differ.

## Main results

* `Document.Shape.fillLines_eq`, `Document.Shape.fillPages_eq` — the documents that filling leaves.
* `Document.restacked_stackStaves`, `PagesOf.restacked_branches`,
  `LayoutOptions.restacked_spreadPages` — what passes do to the systems.
-/

namespace ScoreLayout

variable {α : Type} [Scalar α]

/-! ### Filling one system -/

/-- The grid with other gaps, if it takes them. -/
def MeasureGrid.regapped (g : MeasureGrid α) (gaps : List (Gap α)) : MeasureGrid α :=
  match g.applyGaps gaps with
  | .ok g' => g'
  | .error _ => g

theorem MeasureGrid.Fitted.applyGaps_eq {g : MeasureGrid α} (h : g.Fitted) {gaps : List (Gap α)}
    (hlength : gaps.length = g.gaps.length) : g.applyGaps gaps = .ok (g.regapped gaps) := by
  obtain ⟨slots, happly⟩ := h.exists_applyGaps hlength
  rw [regapped, happly]

/-- A measure at a place, with other gaps. -/
def Measure.refilled (m : Measure α) (x : α) (gaps : List (Gap α)) : Measure α :=
  { m with grid := m.grid.regapped gaps, x }

omit [Scalar α] in
/-- The measures among neighbours, each with its handle. -/
def measuresIn (f : Forest (Node α)) : List (Handle × Measure α) :=
  f.roots.filterMap fun n => n.kind.measure?.map fun m => (n.handle, m)

omit [Scalar α] in
/-- The gaps of neighbouring measures. -/
def gapsIn (f : Forest (Node α)) : List (Gap α) := (measuresIn f).flatMap fun p => p.2.grid.gaps

/-- Measures among neighbours placed one after another from `x` on, each with its share of the gaps;
with the end of the last. -/
def fillRoots : (x : α) → List (Gap α) → Forest (Node α) → α × Forest (Node α)
  | x, _, .nil => (x, .nil)
  | x, gaps, .cons n below siblings =>
    match n.kind.measure? with
    | some m =>
      let count := m.grid.gaps.length
      let m := m.refilled x (gaps.take count)
      let (last, siblings) := fillRoots (x + m.width) (gaps.drop count) siblings
      (last, .cons { n with kind := .measure m } below siblings)
    | none =>
      let (last, siblings) := fillRoots x gaps siblings
      (last, .cons n below siblings)

omit [Scalar α] in
theorem NodeKind.system?_eq_some_iff {k : NodeKind α} {s : ScoreSystem α} :
    k.system? = some s ↔ k = .system s := by
  cases k <;> simp [system?]

namespace LayoutOptions

/-- Whether the lines of a system are filled to a width. -/
def Fills (o : LayoutOptions α) (available : α) (isLast : Bool) (s : ScoreSystem α) : Prop :=
  ¬ (s.overflow ∨ s.measuresWidth ≤ 0) ∧
    ¬ (isLast ∧ o.leavesLast (fillRatio (available - s.definitionWidth) s.measuresWidth))

instance (o : LayoutOptions α) (available : α) (isLast : Bool) (s : ScoreSystem α) :
    Decidable (o.Fills available isLast s) := inferInstanceAs (Decidable (_ ∧ _))

/-- The gaps of a system that is filled to a width. -/
def filledGaps (available : α) (s : ScoreSystem α) (below : Forest (Node α)) : List (Gap α) :=
  (Gap.distribute (gapsIn below) (available - s.definitionWidth - s.measuresWidth)).1

/-- A system with its lines filled to a width. -/
def fillTree (o : LayoutOptions α) (available : α) (isLast : Bool)
    (t : Node α × Forest (Node α)) : Node α × Forest (Node α) :=
  match t.1.kind.system? with
  | none => t
  | some s =>
    if o.Fills available isLast s then
      let (x, below) := fillRoots 0 (filledGaps available s t.2) t.2
      (t.1.mapKind (.mapSystem fun s => { s with measuresWidth := x }), below)
    else t

/-- The systems of a page with their lines filled; the last of them may be the last of the score. -/
def fillTrees (o : LayoutOptions α) (available : α) (final : Bool) :
    Forest (Node α) → Forest (Node α)
  | .nil => .nil
  | .cons n below siblings =>
    let (n, below) := o.fillTree available (siblings.roots.isEmpty && final) (n, below)
    .cons n below (o.fillTrees available final siblings)

/-- The pages of a score with their lines filled. -/
def fillPageTrees (o : LayoutOptions α) (available : α) : Forest (Node α) → Forest (Node α)
  | .nil => .nil
  | .cons page systems pages =>
    .cons page (o.fillTrees available pages.branches.roots.isEmpty systems)
      (o.fillPageTrees available pages)

/-- The pages of a score with their lines filled, where the options ask for it. -/
def filledPages (o : LayoutOptions α) (pages : Forest (Node α)) : Forest (Node α) :=
  match o.contentWidth? with
  | none => pages
  | some available => if o.justifyHorizontally then o.fillPageTrees available pages else pages

end LayoutOptions

/-! ### Filling lines -/

namespace Document.Shape

variable {D : ScoreDefinition} {r system : Node α} {detached : Forest (Node α)}

omit [Scalar α] in
theorem measuresOf_eq {d : Document α} {pages below : Forest (Node α)}
    (hd : d.Shape D r pages detached) (h : Forest.HasTree system below pages) :
    d.measuresOf system.handle = measuresIn below := by
  rw [measuresOf, childNodes, hd.below_eq h]
  rfl

/-- Neighbouring measures filled one after another; `place` is the score around them. -/
theorem fillMeasures (place : Forest (Node α) → Forest (Node α))
    (hplace : ∀ {b c f g}, Forest.Changed b c f g → Forest.Changed b c (place f) (place g)) :
    (f done : Forest (Node α)) → {d : Document α} → (x : α) → (gaps : List (Gap α)) →
      d.Shape D r (place (done ++ f)) detached →
      (∀ p ∈ measuresIn f, p.2.grid.Fitted) →
      gaps.length = ((measuresIn f).map fun p => p.2.grid.gaps.length).sum →
        ∃ d', d.fillMeasures x gaps (measuresIn f) = .ok ((fillRoots x gaps f).1, d') ∧
          d'.Shape D r (place (done ++ (fillRoots x gaps f).2)) detached
  | .nil, _, d, _, _, hd, _, _ => ⟨d, rfl, hd⟩
  | .cons n below siblings, done, d, x, gaps, hd, hfitted, hlength => by
      have hchanged (m : Node α) : Forest.Changed n m (place (done ++ .cons n below siblings))
          (place (done ++ .cons m below siblings)) :=
        hplace ((Forest.Changed.here below siblings).append_right done)
      rw [measuresIn, Forest.roots] at hfitted hlength ⊢
      rw [fillRoots]
      cases hm : n.kind.measure? with
      | none =>
        rw [List.filterMap_cons_none (by rw [hm]; rfl)] at hfitted hlength ⊢
        obtain ⟨d', hok, hd'⟩ := fillMeasures place hplace siblings (done ++ .tree n below) x gaps
          (by rw [Forest.append_assoc]; exact hd) hfitted hlength
        rw [Forest.append_assoc] at hd'
        exact ⟨d', hok, hd'⟩
      | some m =>
        have hkind : n.kind = .measure m := NodeKind.measure?_eq_some_iff.1 hm
        rw [List.filterMap_cons_some (by rw [hm]; rfl)] at hfitted hlength ⊢
        rw [List.map_cons, List.sum_cons] at hlength
        rw [List.forall_mem_cons] at hfitted
        have htake : (gaps.take m.grid.gaps.length).length = m.grid.gaps.length := by
          rw [List.length_take, hlength]
          simp
        have hstep := hd.modify
          (f := fun n => { n with kind := .measure (m.refilled x (gaps.take m.grid.gaps.length)) })
          (hchanged _) ⟨rfl, rfl, by rw [hkind]; rfl⟩
        obtain ⟨d', hok, hd'⟩ := fillMeasures place hplace siblings
          (done ++ .tree { n with
            kind := .measure (m.refilled x (gaps.take m.grid.gaps.length)) } below)
          (x + (m.refilled x (gaps.take m.grid.gaps.length)).width)
          (gaps.drop m.grid.gaps.length) (by rw [Forest.append_assoc]; exact hstep)
          hfitted.2 (by rw [List.length_drop, hlength]; exact Nat.add_sub_cancel_left ..)
        rw [Forest.append_assoc] at hd'
        refine ⟨d', ?_, hd'⟩
        rw [Document.fillMeasures]
        dsimp only
        rw [hfitted.1.applyGaps_eq htake]
        exact hok

/-- A system of the score filled; `place` is the score around it. -/
theorem fillSystem (place : Forest (Node α) → Forest (Node α))
    (hplace : ∀ {b c f g}, Forest.Changed b c f g → Forest.Changed b c (place f) (place g))
    {below siblings done : Forest (Node α)} {d : Document α}
    (hd : d.Shape D r (place (done ++ .cons system below siblings)) detached)
    (htree : Forest.HasTree system below (place (done ++ .cons system below siblings)))
    (hfitted : ∀ p ∈ measuresIn below, p.2.grid.Fitted) (o : LayoutOptions α) (available : α)
    (isLast : Bool) : ∃ d', d.fillSystem o available isLast system = .ok d' ∧
      d'.Shape D r (place (done ++ .cons (o.fillTree available isLast (system, below)).1
        (o.fillTree available isLast (system, below)).2 siblings)) detached := by
  rw [Document.fillSystem, LayoutOptions.fillTree]
  cases hs : system.kind.system? with
  | none => exact ⟨d, rfl, hd⟩
  | some s =>
    dsimp only
    by_cases hoverflow : s.overflow ∨ s.measuresWidth ≤ 0
    · rw [if_pos hoverflow, if_neg fun h => h.1 hoverflow]
      exact ⟨d, rfl, hd⟩
    · rw [if_neg hoverflow]
      by_cases hleaves : isLast ∧
          o.leavesLast (fillRatio (available - s.definitionWidth) s.measuresWidth)
      · rw [if_pos hleaves, if_neg fun h => h.2 hleaves]
        exact ⟨d, rfl, hd⟩
      · rw [if_neg hleaves, if_pos ⟨hoverflow, hleaves⟩, hd.measuresOf_eq htree]
        have hchanged {m m' : Node α} {f f' : Forest (Node α)} (h : Forest.Changed m m' f f') :
            Forest.Changed m m' (place (done ++ .cons system f siblings))
              (place (done ++ .cons system f' siblings)) :=
          hplace ((Forest.Changed.deeper siblings h).append_right done)
        obtain ⟨d₁, h₁, hd₁⟩ := fillMeasures
          (fun f => place (done ++ .cons system f siblings)) hchanged below .nil 0
          (LayoutOptions.filledGaps available s below) hd hfitted (by
            rw [LayoutOptions.filledGaps, Gap.length_distribute, gapsIn, List.length_flatMap])
        rw [LayoutOptions.filledGaps, gapsIn] at h₁
        rw [h₁]
        rw [Forest.nil_append] at hd₁
        exact ⟨_, rfl, hd₁.modify (hplace ((Forest.Changed.here _ siblings).append_right done))
          ⟨rfl, rfl, NodeKind.bare_mapSystem ..⟩⟩

/-- The systems of a page filled one after another; `later` are those of later pages. -/
theorem fillSystems (place : Forest (Node α) → Forest (Node α))
    (hplace : ∀ {b c f g}, Forest.Changed b c f g → Forest.Changed b c (place f) (place g))
    (htree : ∀ {b below f}, Forest.HasTree b below f → Forest.HasTree b below (place f))
    (o : LayoutOptions α) (available : α) (later : List (Node α)) :
    (f done : Forest (Node α)) → {d : Document α} → d.Shape D r (place (done ++ f)) detached →
      (∀ t ∈ f.trees, ∀ p ∈ measuresIn t.2, p.2.grid.Fitted) →
        ∃ d' : Document α, d.fillSystems o available (f.roots ++ later) = d'.fillSystems o available later ∧
          d'.Shape D r (place (done ++ o.fillTrees available later.isEmpty f)) detached
  | .nil, _, d, hd, _ => ⟨d, rfl, hd⟩
  | .cons n below siblings, done, d, hd, hfitted => by
      rw [Forest.trees, List.forall_mem_cons] at hfitted
      obtain ⟨d₁, h₁, hd₁⟩ := fillSystem place hplace hd
        (htree ((Forest.HasTree.here siblings).append_right done)) hfitted.1 o available
        (siblings.roots ++ later).isEmpty
      obtain ⟨d', hok, hd'⟩ := fillSystems place hplace htree o available later siblings
        (done ++ .tree _ _) (by rw [Forest.append_assoc]; exact hd₁) hfitted.2
      have hlast : (siblings.roots ++ later).isEmpty =
          (siblings.roots.isEmpty && later.isEmpty) := by cases siblings.roots <;> rfl
      rw [Forest.append_assoc, hlast] at hd'
      refine ⟨d', ?_, hd'⟩
      rw [Forest.roots, List.cons_append, Document.fillSystems, h₁]
      exact hok

/-- All systems of the score filled, page by page. -/
theorem fillPageTrees (o : LayoutOptions α) (available : α) :
    (pages done : Forest (Node α)) → {d : Document α} → d.Shape D r (done ++ pages) detached →
      (∀ t ∈ pages.branches.trees, ∀ p ∈ measuresIn t.2, p.2.grid.Fitted) →
        ∃ d', d.fillSystems o available pages.branches.roots = .ok d' ∧
          d'.Shape D r (done ++ o.fillPageTrees available pages) detached
  | .nil, _, d, hd, _ => ⟨d, rfl, hd⟩
  | .cons page systems pages, done, d, hd, hfitted => by
      rw [Forest.branches, Forest.trees_append, List.forall_mem_append] at hfitted
      obtain ⟨d₁, h₁, hd₁⟩ := fillSystems (fun f => done ++ .cons page f pages)
        (fun h => (Forest.Changed.deeper pages h).append_right done)
        (fun h => (Forest.HasTree.deeper pages h).append_right done) o available
        pages.branches.roots systems .nil hd hfitted.1
      rw [Forest.nil_append] at hd₁
      obtain ⟨d', hok, hd'⟩ := fillPageTrees o available pages (done ++ .tree page _)
        (by rw [Forest.append_assoc]; exact hd₁) hfitted.2
      rw [Forest.append_assoc] at hd'
      refine ⟨d', ?_, hd'⟩
      rw [Forest.branches, Forest.roots_append, h₁]
      exact hok

omit [Scalar α] in
/-- The measures of systems are among the content. -/
theorem fitted_measuresIn {d : Document α} {pages : Forest (Node α)} (hd : d.Shape D r pages detached)
    (hfitted : d.content.Fitted) :
    ∀ t ∈ pages.branches.trees, ∀ p ∈ measuresIn t.2, p.2.grid.Fitted := by
  intro t ht p hp
  obtain ⟨n, hn, heq⟩ := List.mem_filterMap.1 hp
  obtain ⟨m, hm, rfl⟩ := Option.map_eq_some_iff.1 heq
  refine hfitted n ?_ m (NodeKind.measure?_eq_some_iff.1 hm)
  rw [hd.content_eq]
  refine Forest.mem_toList_of_mem_roots ?_
  rw [Forest.roots_branches]
  exact List.mem_flatMap_of_mem ht hn

/-- What filling lines makes of a document whose grids have gaps that match their slots. -/
theorem fillLines_eq {d : Document α} {pages : Forest (Node α)} (hd : d.Shape D r pages detached)
    (hs : Step.required .horizontalFilling ≤ d.stage)
    (hfitted : ∀ t ∈ pages.branches.trees, ∀ p ∈ measuresIn t.2, p.2.grid.Fitted)
    (o : LayoutOptions α) :
    ∃ d', d.fillLines o = .done d' [] ∧ d'.Shape D r (o.filledPages pages) detached := by
  rw [Document.fillLines, Outcome.guarded_of_le hs, LayoutOptions.filledPages]
  cases o.contentWidth? with
  | none => exact ⟨d, rfl, hd⟩
  | some available =>
    dsimp only
    split_ifs
    · obtain ⟨d', hok, hd'⟩ := fillPageTrees o available pages .nil hd hfitted
      rw [← hd.systems_eq] at hok
      rw [hok]
      exact ⟨d', rfl, hd'⟩
    · exact ⟨d, rfl, hd⟩

end Document.Shape

namespace LayoutOptions

/-- A system moved down by `shift`, with its staves apart by a share more. -/
def spreadNode (o : LayoutOptions α) (share shift : α) (n : Node α) : Node α :=
  n.mapKind (.mapSystem fun s =>
    { s with y := s.y + shift, stack := s.stack.justify (share * o.staffWeight) })

/-- Systems among neighbours moved down by `shift`, which grows by the weight of every gap above,
times `share`; with the last shift. -/
def spreadRoots (o : LayoutOptions α) (share : α) :
    (first : Bool) → (shift : α) → Forest (Node α) → α × Forest (Node α)
  | _, shift, .nil => (shift, .nil)
  | first, shift, .cons n below siblings =>
    let shift := if first then shift else shift + share * o.systemWeight
    let (last, siblings) := o.spreadRoots share false
      (shift + Scalar.ofNat (Document.staffGaps n) * share * o.staffWeight) siblings
    (last, .cons (o.spreadNode share shift n) below siblings)

/-- Whether the free height of a page is spread. -/
def Spreads (o : LayoutOptions α) (available : α) (isLast : Bool) (p : Page α)
    (systems : List (Node α)) : Prop :=
  ¬ (available - p.contentHeight ≤ 0 ∨ available ≤ 0) ∧
    ¬ (isLast ∧ o.maxVertical ≤ (available - p.contentHeight) / available) ∧
    ¬ Document.gapWeight o systems ≤ 0

instance (o : LayoutOptions α) (available : α) (isLast : Bool) (p : Page α)
    (systems : List (Node α)) : Decidable (o.Spreads available isLast p systems) :=
  inferInstanceAs (Decidable (_ ∧ _))

/-- A page with its free height spread over its gaps. -/
def spreadTree (o : LayoutOptions α) (available : α) (isLast : Bool)
    (t : Node α × Forest (Node α)) : Node α × Forest (Node α) :=
  match t.1.kind.page? with
  | none => t
  | some p =>
    if o.Spreads available isLast p t.2.roots then
      let (shift, systems) := o.spreadRoots
        ((available - p.contentHeight) / Document.gapWeight o t.2.roots) true 0 t.2
      (t.1.mapKind (.mapPage fun p => { p with contentHeight := p.contentHeight + shift }), systems)
    else t

/-- Pages with their free height spread; the last of them is the last of the score. -/
def spreadTrees (o : LayoutOptions α) (available : α) : Forest (Node α) → Forest (Node α)
  | .nil => .nil
  | .cons page systems pages =>
    let (page, systems) := o.spreadTree available pages.roots.isEmpty (page, systems)
    .cons page systems (o.spreadTrees available pages)

/-- The pages of a score with their free height spread, where the options ask for it. -/
def spreadPages (o : LayoutOptions α) (pages : Forest (Node α)) : Forest (Node α) :=
  if o.vertical = .fill then o.spreadTrees o.contentHeight pages else pages

end LayoutOptions

namespace Document.Shape

variable {D : ScoreDefinition} {r page : Node α} {detached : Forest (Node α)}

/-- Neighbouring systems moved down one after another; `place` is the score around them. -/
theorem spreadSystems (place : Forest (Node α) → Forest (Node α))
    (hplace : ∀ {b c f g}, Forest.Changed b c f g → Forest.Changed b c (place f) (place g))
    (o : LayoutOptions α) (share : α) :
    (f done : Forest (Node α)) → {d : Document α} → (first : Bool) → (shift : α) →
      d.Shape D r (place (done ++ f)) detached →
        (Document.spreadSystems o share first shift f.roots d).1 =
            (o.spreadRoots share first shift f).1 ∧
          (Document.spreadSystems o share first shift f.roots d).2.Shape D r
            (place (done ++ (o.spreadRoots share first shift f).2)) detached
  | .nil, _, _, _, _, hd => ⟨rfl, hd⟩
  | .cons n below siblings, done, d, first, shift, hd => by
      rw [Forest.roots, Document.spreadSystems, LayoutOptions.spreadRoots]
      dsimp only
      generalize (if first then shift else shift + share * o.systemWeight) = shift
      have hstep := hd.modify (f := o.spreadNode share shift)
        (hplace ((Forest.Changed.here below siblings).append_right done))
        ⟨rfl, rfl, NodeKind.bare_mapSystem ..⟩
      have hrest := spreadSystems place hplace o share siblings
        (done ++ .tree (o.spreadNode share shift n) below) false
        (shift + Scalar.ofNat (staffGaps n) * share * o.staffWeight)
        (by rw [Forest.append_assoc]; exact hstep)
      rw [Forest.append_assoc] at hrest
      exact hrest

/-- A page of the score filled; `done` are the pages before it. -/
theorem fillPage {systems pages done : Forest (Node α)} {d : Document α}
    (hd : d.Shape D r (done ++ .cons page systems pages) detached) (o : LayoutOptions α)
    (available : α) (isLast : Bool) : (d.fillPage o available isLast page).Shape D r
      (done ++ .cons (o.spreadTree available isLast (page, systems)).1
        (o.spreadTree available isLast (page, systems)).2 pages) detached := by
  rw [Document.fillPage, LayoutOptions.spreadTree]
  cases hp : page.kind.page? with
  | none => exact hd
  | some p =>
    have hchildren : d.childNodes page.handle = systems.roots := by
      rw [childNodes, hd.below_eq ((Forest.HasTree.here pages).append_right done)]
    dsimp only
    rw [hchildren]
    by_cases hfree : available - p.contentHeight ≤ 0 ∨ available ≤ 0
    · rw [if_pos hfree, if_neg fun h => h.1 hfree]
      exact hd
    · rw [if_neg hfree]
      by_cases hlast : isLast ∧ o.maxVertical ≤ (available - p.contentHeight) / available
      · rw [if_pos hlast, if_neg fun h => h.2.1 hlast]
        exact hd
      · rw [if_neg hlast]
        by_cases htotal : gapWeight o systems.roots ≤ 0
        · rw [if_pos htotal, if_neg fun h => h.2.2 htotal]
          exact hd
        · rw [if_neg htotal, if_pos ⟨hfree, hlast, htotal⟩]
          obtain ⟨hshift, hspread⟩ := spreadSystems (fun f => done ++ .cons page f pages)
            (fun h => (Forest.Changed.deeper pages h).append_right done) o
            ((available - p.contentHeight) / gapWeight o systems.roots) systems .nil true 0 hd
          rw [Forest.nil_append] at hspread
          rw [← hshift]
          exact hspread.modify ((Forest.Changed.here _ pages).append_right done)
            ⟨rfl, rfl, NodeKind.bare_mapPage ..⟩

/-- All pages of the score filled one after another. -/
theorem spreadPages (o : LayoutOptions α) (available : α) :
    (pages done : Forest (Node α)) → {d : Document α} → d.Shape D r (done ++ pages) detached →
      (d.spreadPages o available pages.roots).Shape D r
        (done ++ o.spreadTrees available pages) detached
  | .nil, _, _, hd => hd
  | .cons page systems pages, done, d, hd => by
      rw [Forest.roots, Document.spreadPages, LayoutOptions.spreadTrees]
      have hrest := spreadPages o available pages (done ++ .tree _ _) (by
        rw [Forest.append_assoc]
        exact hd.fillPage o available pages.roots.isEmpty)
      rw [Forest.append_assoc] at hrest
      exact hrest

/-- What filling pages makes of a document. -/
theorem fillPages_eq {d : Document α} {pages : Forest (Node α)} (hd : d.Shape D r pages detached)
    (hs : Step.verticalFilling.required ≤ d.stage) (o : LayoutOptions α) :
    ∃ d', d.fillPages o = .done d' [] ∧ d'.Shape D r (o.spreadPages pages) detached ∧
      d'.stage = .justified := by
  rw [Document.fillPages, Outcome.guarded_of_le hs, LayoutOptions.spreadPages]
  refine ⟨_, rfl, ?_, rfl⟩
  split_ifs
  · rw [hd.pages_eq]
    have hspread := spreadPages o o.contentHeight pages .nil hd
    exact ⟨hspread.wellFormed.of_eq rfl rfl rfl, hspread.definition, hspread.trees⟩
  · exact ⟨hd.wellFormed.of_eq rfl rfl rfl, hd.definition, hd.trees⟩

end Document.Shape

/-! ### What stacking and breaking into pages leave alone -/

section Restacked

variable {α : Type}

/-- Two states of one system, of which only staves and vertical places differ. -/
structure ScoreSystem.SameLine (s s' : ScoreSystem α) : Prop where
  definitionWidth : s'.definitionWidth = s.definitionWidth
  measuresWidth : s'.measuresWidth = s.measuresWidth
  overflow : s'.overflow = s.overflow

/-- Two states of one node, of which only staves and vertical places differ. -/
def Node.Restacked (n n' : Node α) : Prop :=
  ∃ f : ScoreSystem α → ScoreSystem α, (∀ s : ScoreSystem α, s.SameLine (f s)) ∧ n' = n.mapKind (.mapSystem f)

namespace Node.Restacked

variable {a b c : Node α}

theorem mapSystem (n : Node α) {f : ScoreSystem α → ScoreSystem α} (hf : ∀ s : ScoreSystem α, s.SameLine (f s)) :
    n.Restacked (n.mapKind (.mapSystem f)) := ⟨f, hf, rfl⟩

theorem refl (n : Node α) : n.Restacked n := by
  refine ⟨fun s => s, fun _ => ⟨rfl, rfl, rfl⟩, ?_⟩
  obtain ⟨handle, id, kind, box, dirty, layout⟩ := n
  cases kind <;> rfl

theorem trans (h : a.Restacked b) (h' : b.Restacked c) : a.Restacked c := by
  obtain ⟨f, hf, rfl⟩ := h
  obtain ⟨g, hg, rfl⟩ := h'
  refine ⟨g ∘ f, fun s => ?_, ?_⟩
  · exact ⟨(hg (f s)).definitionWidth.trans (hf s).definitionWidth,
      (hg (f s)).measuresWidth.trans (hf s).measuresWidth, (hg (f s)).overflow.trans (hf s).overflow⟩
  · obtain ⟨handle, id, kind, box, dirty, layout⟩ := a
    cases kind <;> rfl

theorem handle (h : a.Restacked b) : b.handle = a.handle := by
  obtain ⟨f, -, rfl⟩ := h
  rfl

theorem measure? (h : a.Restacked b) : b.kind.measure? = a.kind.measure? := by
  obtain ⟨f, -, rfl⟩ := h
  rw [Node.mapKind]
  cases a.kind <;> rfl

theorem system (h : a.Restacked b) {s : ScoreSystem α} (hs : b.kind = .system s) :
    ∃ s₀, a.kind = .system s₀ ∧ s₀.SameLine s := by
  obtain ⟨f, hf, rfl⟩ := h
  rw [Node.mapKind] at hs
  cases ha : a.kind with
  | system s₀ =>
    rw [ha, NodeKind.mapSystem, NodeKind.system.injEq] at hs
    exact ⟨s₀, rfl, hs ▸ hf s₀⟩
  | _ => simp [ha, NodeKind.mapSystem] at hs

end Node.Restacked

variable [Scalar α]

omit [Scalar α] in
theorem restacked_placeTops : (ys : List α) → (f : Forest (Node α)) →
    Forest.Forall₂ Node.Restacked f (placeTops ys f)
  | y :: ys, .cons n below siblings =>
      .cons (.mapSystem n fun _ => ⟨rfl, rfl, rfl⟩) (.refl fun m _ => .refl m)
        (restacked_placeTops ys siblings)
  | [], f => by
      rw [placeTops]
      · exact .refl fun m _ => .refl m
      · simp
  | _ :: _, .nil => .nil

theorem PagesOf.restacked_branches {used : List String} {k : Nat} {plans : List (PagePlan α)}
    {systems pages : Forest (Node α)} (h : PagesOf used k plans systems pages) :
    Forest.Forall₂ Node.Restacked systems pages.branches := by
  induction h with
  | nil => exact .nil
  | cons _ _ _ _ ih => exact (restacked_placeTops _ _).append ih

theorem Document.restacked_stackStaves (d : Document α) (options : LayoutOptions α)
    (metrics : GlyphMetrics α) :
    Forest.Forall₂ Node.Restacked d.score (d.stackStaves options metrics).document.score := by
  have hrun (c : StackingContext α) : Forest.Forall₂ Node.Restacked d.score
      (d.score.run (stackingPass c) .start).2.1 := by
    refine Forest.forall₂_run Node.Restacked.refl (fun _ _ _ => Node.Restacked.trans) ?_ ?_ _ _
    · intro s parent n
      rw [stackingPass]
      dsimp only
      split
      all_goals exact .refl n
    · intro s _ n below
      have hstay : Forest.Forall₂ Node.Restacked below below := .refl fun n _ => .refl n
      rw [stackingPass]
      dsimp only
      split
      · refine ⟨?_, hstay⟩
        simp only [Stacking.leaveSystem]
        split
        · exact .mapSystem n fun _ => ⟨rfl, rfl, rfl⟩
        · exact .refl n
      · exact ⟨.refl n, hstay⟩
  rw [Document.stackStaves, Outcome.guarded]
  split
  · exact .refl fun n _ => .refl n
  · dsimp only
    split
    · exact (score_withScore (hrun _)).symm ▸ hrun _
    · show Forest.Forall₂ _ _ (d.withScore _).score
      exact (score_withScore (hrun _)).symm ▸ hrun _

namespace LayoutOptions

theorem restacked_spreadRoots (o : LayoutOptions α) (share : α) : (first : Bool) → (shift : α) →
    (f : Forest (Node α)) → Forest.Forall₂ Node.Restacked f (o.spreadRoots share first shift f).2
  | _, _, .nil => .nil
  | first, shift, .cons n below siblings => by
      rw [spreadRoots]
      dsimp only
      exact .cons (.mapSystem n fun _ => ⟨rfl, rfl, rfl⟩) (.refl fun m _ => .refl m)
        (restacked_spreadRoots o share false _ siblings)

theorem restacked_spreadTrees (o : LayoutOptions α) (available : α) : (pages : Forest (Node α)) →
    Forest.Forall₂ Node.Restacked pages.branches (o.spreadTrees available pages).branches
  | .nil => .nil
  | .cons page systems pages => by
      rw [spreadTrees]
      dsimp only
      refine Forest.Forall₂.append ?_ (restacked_spreadTrees o available pages)
      have hstay : Forest.Forall₂ Node.Restacked systems systems := .refl fun m _ => .refl m
      rw [spreadTree]
      split
      · exact hstay
      · split_ifs
        · exact restacked_spreadRoots ..
        · exact hstay

/-- Systems that are spread over their page keep their lines. -/
theorem restacked_spreadPages (o : LayoutOptions α) (pages : Forest (Node α)) :
    Forest.Forall₂ Node.Restacked pages.branches (o.spreadPages pages).branches := by
  rw [spreadPages]
  split_ifs
  · exact o.restacked_spreadTrees _ pages
  · exact .refl fun n _ => .refl n

end LayoutOptions

end Restacked

end ScoreLayout
