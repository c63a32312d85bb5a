import ScoreLayout.Proofs.Grid.DrawnSlots
import ScoreLayout.Proofs.Layout.TwinFilling
import ScoreLayout.Proofs.Layout.TwinGrids

/-!
# Columns of two documents

Two documents of which one has further control elements draw their symbols in the same columns. What
the passes do to the horizontal places of a score depends on the drawn slots of its measures, and on
the widths of its systems; control elements change neither. In a grid they only ask for slots that
are not drawn, and all other nodes ask for the same in both documents (`tracks_drawsSame`).

Staves and vertical places may differ, and with them the pages, so the documents are compared system
by system. Breaking into pages takes the systems of the content page in their order, stacking and
filling pages keep the order of the systems they find.

## Main definitions

* `Measure.SameColumns`, `Node.SameColumns` — measures and nodes in the same columns.
* `Node.IsFurther` — a control element that only the second document has.
* `Document.OnContentPage` — a score whose systems stand on one page, not broken into pages yet.

## Main results

* `tracks_drawsSame` — the requests of two walks draw the same slots.
* `Document.WellFormed.sameColumns_space`, `Document.WellFormed.sameColumns_breakSystems` — spacing
  and breaking into systems.
* `Forest.Padded.filledSystems` — filling lines.
-/

namespace ScoreLayout

variable {α : Type} [Scalar α]

/-! ### Nodes -/

/-- Two states of one measure with the same columns at the same place. -/
structure Measure.SameColumns (m m' : Measure α) : Prop where
  x : m'.x = m.x
  signatures : m'.signatures = m.signatures
  grid : m.grid.SameColumns m'.grid

/-- Two kinds of nodes in the same columns. -/
inductive NodeKind.SameColumns : NodeKind α → NodeKind α → Prop
  | measure {m m' : Measure α} (columns : m.SameColumns m') : SameColumns (.measure m) (.measure m')
  | system {s s' : ScoreSystem α} (line : s.SameLine s') : SameColumns (.system s) (.system s')
  | other {k k' : NodeKind α} (tag : k'.tag = k.tag) (measure : k.tag ≠ .measure)
      (system : k.tag ≠ .system) : SameColumns k k'

namespace Node

/-- A control element that only the second of two documents has. -/
def IsFurther (gone : Handle → Prop) (n : Node α) : Prop := n.tag = .control ∧ gone n.handle

/-- Two nodes in the same columns. -/
structure SameColumns (gone : Handle → Prop) (n n' : Node α) : Prop where
  handle : ¬ n.IsFrame → n'.handle = n.handle
  kept : ¬ n.IsFrame → ¬ gone n'.handle
  kind : n.kind.SameColumns n'.kind
  slot : n.tag = .element → n'.layout.slot = n.layout.slot

namespace SameColumns

variable {gone : Handle → Prop} {n n' : Node α} (h : n.SameColumns gone n')

include h

theorem tag : n'.tag = n.tag := by
  have hkind := h.kind
  rw [Node.tag, Node.tag]
  generalize n.kind = k, n'.kind = k' at hkind
  cases hkind with
  | measure | system => rfl
  | other ht => exact ht

theorem isFrame : n'.IsFrame ↔ n.IsFrame := by rw [IsFrame, IsFrame, h.tag]

theorem measure? : (n.kind.measure? = none ∧ n'.kind.measure? = none) ∨
    ∃ m m', n.kind.measure? = some m ∧ n'.kind.measure? = some m' ∧ m.SameColumns m' := by
  have hkind := h.kind
  generalize n.kind = k, n'.kind = k' at hkind
  cases hkind with
  | measure hm => exact .inr ⟨_, _, rfl, rfl, hm⟩
  | system => exact .inl ⟨rfl, rfl⟩
  | other ht hm => exact .inl ⟨NodeKind.measure?_eq_none hm, NodeKind.measure?_eq_none (ht ▸ hm)⟩

theorem system? : (n.kind.system? = none ∧ n'.kind.system? = none) ∨
    ∃ s s', n.kind.system? = some s ∧ n'.kind.system? = some s' ∧ s.SameLine s' := by
  have hnone {k : NodeKind α} (hk : k.tag ≠ .system) : k.system? = none := by
    cases k <;> first | rfl | exact absurd rfl hk
  have hkind := h.kind
  generalize n.kind = k, n'.kind = k' at hkind
  cases hkind with
  | measure => exact .inl ⟨rfl, rfl⟩
  | system hs => exact .inr ⟨_, _, rfl, rfl, hs⟩
  | other ht _ hs => exact .inl ⟨hnone hs, hnone (ht ▸ hs)⟩

/-- Two measures that change alike. -/
theorem withMeasure {m m' : Measure α} (hn : n.tag = .measure) (hm : m.SameColumns m') :
    SameColumns gone { n with kind := .measure m } { n' with kind := .measure m' } where
  handle _ := h.handle (Node.not_isFrame (by rw [hn]; decide))
  kept _ := h.kept (Node.not_isFrame (by rw [hn]; decide))
  kind := .measure hm
  slot hs := by cases hs

/-- What has stayed in its line has stayed in its columns. -/
theorem restacked {m m' : Node α} (hm : n.Restacked m) (hm' : n'.Restacked m') :
    m.SameColumns gone m' := by
  have htag {n m : Node α} (hm : n.Restacked m) : m.tag = n.tag := by
    obtain ⟨f, -, rfl⟩ := hm
    rw [Node.tag, Node.tag, Node.mapKind]
    cases n.kind <;> rfl
  have hframe : m.IsFrame ↔ n.IsFrame := by rw [IsFrame, IsFrame, htag hm]
  refine ⟨fun hm₀ => ?_, fun hm₀ => ?_, ?_, fun ht => ?_⟩
  · rw [hm.handle, hm'.handle, h.handle (mt hframe.2 hm₀)]
  · rw [hm'.handle]
    exact h.kept (mt hframe.2 hm₀)
  · obtain ⟨f, hf, rfl⟩ := hm
    obtain ⟨g, hg, rfl⟩ := hm'
    have hkind := h.kind
    rw [Node.mapKind, Node.mapKind]
    dsimp only
    generalize n.kind = k, n'.kind = k' at hkind
    cases hkind with
    | measure hm => exact .measure hm
    | @system s s' hs =>
      exact .system ⟨(hg s').definitionWidth.trans (hs.definitionWidth.trans (hf s).definitionWidth.symm),
        (hg s').measuresWidth.trans (hs.measuresWidth.trans (hf s).measuresWidth.symm),
        (hg s').overflow.trans (hs.overflow.trans (hf s).overflow.symm)⟩
    | @other k k' ht hm hs =>
      have hsame {k : NodeKind α} (hk : k.tag ≠ .system) (f : ScoreSystem α → ScoreSystem α) :
          k.mapSystem f = k := by
        cases k <;> first | rfl | exact absurd rfl hk
      rw [hsame hs, hsame (ht ▸ hs)]
      exact .other ht hm hs
  · rw [htag hm] at ht
    obtain ⟨f, -, rfl⟩ := hm
    obtain ⟨g, -, rfl⟩ := hm'
    exact h.slot ht

/-- What is put into its place has stayed in its columns. -/
theorem boxed {m m' : Node α} (hm : n.Boxed m) (hm' : n'.Boxed m') : m.SameColumns gone m' := by
  have htag : m.tag = n.tag := congrArg NodeKind.tag hm.kind
  refine ⟨fun hframe => ?_, fun hframe => ?_, ?_, fun ht => ?_⟩
  · rw [IsFrame, htag] at hframe
    rw [hm.handle, hm'.handle, h.handle hframe]
  · rw [IsFrame, htag] at hframe
    rw [hm'.handle]
    exact h.kept hframe
  · rw [hm.kind, hm'.kind]
    exact h.kind
  · have hn : n.tag = .element := htag ▸ ht
    rw [hm.layout (by rw [hn]; decide), hm'.layout (by rw [h.tag, hn]; decide), h.slot hn]

end SameColumns

omit [Scalar α] in
theorem IsFurther.boxed {gone : Handle → Prop} {n m : Node α} (h : n.IsFurther gone)
    (hm : n.Boxed m) : m.IsFurther gone :=
  ⟨(congrArg NodeKind.tag hm.kind).trans h.1, hm.handle ▸ h.2⟩

omit [Scalar α] in
theorem IsFurther.restacked {gone : Handle → Prop} {n m : Node α} (h : n.IsFurther gone)
    (hm : n.Restacked m) : m.IsFurther gone := by
  obtain ⟨f, -, rfl⟩ := hm
  refine ⟨?_, h.2⟩
  rw [← h.1, Node.tag, Node.tag, Node.mapKind]
  cases n.kind <;> rfl

/-- Ideal positions put what is drawn the same into the same columns. -/
theorem Gridded.spaced {T : Comparison α} {n n' : Node α} (h : n.Gridded T MeasureGrid.DrawsSame n')
    (hframe : ¬ n.IsFrame) (hn : ∀ m, n.kind = .measure m → m.grid.Finished)
    (hn' : ∀ m, n'.kind = .measure m → m.grid.Finished) (p : Spacing α) :
    (n.spaced p).SameColumns T.spare (n'.spaced p) := by
  cases h with
  | same hnear ht =>
    rw [spaced_of_tag_ne ht]
    exact ⟨fun _ => rfl, hnear.own, .other rfl ht fun hs => hframe (.inr hs), fun _ => rfl⟩
  | @measure _ m m' hnear hm hnode hmusic hgrid =>
    obtain ⟨slots, hspace⟩ := MeasureGrid.exists_space p (hn m hm).state
    obtain ⟨slots', hspace'⟩ := MeasureGrid.exists_space p (hn' m' (by rw [hnode])).state
    have hcolumns := hgrid.space (hn m hm) (hn' m' (by rw [hnode])) hspace hspace'
    rw [Node.spaced, hm, Node.spaced, hnode]
    dsimp only
    rw [hspace, hspace']
    dsimp only
    refine ⟨fun _ => rfl, fun _ => hnear.own hframe, .measure ⟨?_, ?_, hcolumns⟩, fun ht => by cases ht⟩
    · rw [hmusic]
    · rw [hmusic]

end Node

/-! ### Alignment -/

/-- Equal time grids that collect symbols, at slots that are all drawn. -/
structure MeasureGrid.CollectsSame (g g' : MeasureGrid α) : Prop where
  eq : g' = g
  state : g.state = .collecting
  sorted : g.Sorted
  drawn : g.AllDrawn
  elapsed : g.maxTime.Elapsed

/-- Open time grids that draw the same, once control elements may have asked for slots. -/
structure MeasureGrid.StampsSame (g g' : MeasureGrid α) : Prop where
  stampable : g.Stampable
  stampable' : g'.Stampable
  drawn : g'.drawnSlots = g.drawnSlots
  maxTime : g'.maxTime = g.maxTime

/-- Alignment does not tell time grids apart by the slots of control elements. -/
theorem tracks_drawsSame : Tracks (MeasureGrid.CollectsSame (α := α)) MeasureGrid.StampsSame
    MeasureGrid.DrawsSame where
  begin h := ⟨rfl, (MeasureGrid.open_begin h).1.state, MeasureGrid.sorted_begin h,
    MeasureGrid.allDrawn_begin h, .inl (MeasureGrid.open_begin h).2⟩
  slot := by
    rintro g _ ⟨rfl, hg, hsorted, hdrawn, htime⟩ key
    have hok := MeasureGrid.slot_eq hg key
    exact ⟨_, _, hok, hok, rfl, hg, (MeasureGrid.grows_slot hok).1.sorted hsorted, hdrawn.slot hok,
      htime⟩
  addFootprint := by
    rintro g _ ⟨rfl, hg, hsorted, hdrawn, htime⟩ key staff rect
    refine ⟨rfl, ?_, (MeasureGrid.grows_addFootprint _ key staff rect).sorted hsorted,
      hdrawn.addFootprint key staff rect, ?_⟩
    all_goals
      rw [MeasureGrid.addFootprint]
      split_ifs <;> assumption
  extend := by
    rintro g _ ⟨rfl, hg, hsorted, hdrawn, htime⟩ time
    exact ⟨rfl, hg, hsorted, hdrawn, htime.max time⟩
  maxTime h := congrArg MeasureGrid.maxTime h.eq
  elapsed h := h.elapsed
  stamped := by
    rintro g _ ⟨rfl, hg, hsorted, hdrawn, -⟩
    have hstampable := MeasureGrid.Stampable.of_allDrawn hg hsorted hdrawn
    exact ⟨hstampable, hstampable, rfl, rfl⟩
  timestampSlot {g g'} h time htime := by
    obtain ⟨a, ha, hstampable, hdrawn, hmax⟩ := h.stampable.timestampSlot htime
    obtain ⟨a', ha', hstampable', hdrawn', hmax'⟩ := h.stampable'.timestampSlot htime
    exact ⟨a, a', ha, ha', hstampable, hstampable', hdrawn'.trans (h.drawn.trans hdrawn.symm),
      hmax'.trans (h.maxTime.trans hmax.symm)⟩
  finish {g g'} h := by
    obtain ⟨a, ha, hsorted, hdrawn⟩ := h.stampable.finish
    obtain ⟨a', ha', hsorted', hdrawn'⟩ := h.stampable'.finish
    refine ⟨a, a', ha, ha', ?_, hsorted, hsorted'⟩
    rw [hdrawn, hdrawn', h.drawn, h.maxTime]
  closed h key staff rect := h.addFootprint key staff rect

omit [Scalar α] in
/-- A change of the innermost grid that is not seen from another state. -/
theorem AlignState.Beside.updateGrid_right {S : MeasureGrid α → MeasureGrid α → Prop}
    {K : List Mark → List Mark → Prop} {s t : AlignState α} (h : AlignState.Beside S K s t)
    {f : MeasureGrid α → Except GridFault (MeasureGrid α)}
    (hf : ∀ g g', S g g' → ∃ a', f g' = .ok a' ∧ S g a') :
    AlignState.Beside S K s (t.updateGrid f) := by
  obtain ⟨grids, marks, rfl, hg, hm⟩ := h
  dsimp only [AlignState.updateGrid]
  cases grids with
  | nil => exact ⟨_, _, rfl, hg, hm⟩
  | cons g' outer' =>
    obtain ⟨g, outer, hfirst, houter, hgrids⟩ := List.forall₂_cons_right_iff.1 hg
    obtain ⟨a', ha', hstep⟩ := hf _ _ hfirst
    dsimp only
    rw [ha']
    exact ⟨_, _, rfl, by rw [hgrids]; exact .cons hstep houter, hm⟩

/-- A further control element is seen in the slots of its time grid only. -/
theorem unnoticed_isFurther (gone : Handle → Prop) :
    AlignState.Unnoticed (MeasureGrid.StampsSame (α := α)) (fun _ _ => True)
      (Node.IsFurther gone) where
  tag h := h.1
  place {s t n} beat last hlast h hn := by
    rw [AlignState.placeControl]
    split
    · exact ⟨h, hn⟩
    · rename_i control tstamp _
      have honset := AlignState.elapsed_onset tstamp beat hlast
      dsimp only
      generalize (if AlignState.timeOfBeat tstamp beat < 0 then 0
        else if last < AlignState.timeOfBeat tstamp beat then last
        else AlignState.timeOfBeat tstamp beat) = onset at honset ⊢
      refine ⟨AlignState.Beside.updateGrid_right ?_ fun g g' hg => ?_, hn⟩
      · obtain ⟨grids, marks, rfl, hg, -⟩ := h
        split_ifs
        · exact ⟨_, _, rfl, hg, trivial⟩
        · exact ⟨_, _, rfl, hg, trivial⟩
      · obtain ⟨a, ha, hstampable, hdrawn, hmax⟩ := hg.stampable'.timestampSlot honset
        exact ⟨a, ha, hg.stampable, hstampable, hdrawn.trans hg.drawn, hmax.trans hg.maxTime⟩

/-! ### Filling lines -/

/-- Other gaps are taken or refused by both grids. -/
theorem MeasureGrid.SameColumns.regapped {g g' : MeasureGrid α} (h : g.SameColumns g')
    (gaps : List (Gap α)) : (g.regapped gaps).SameColumns (g'.regapped gaps) := by
  by_cases hlength : gaps.length = g.gaps.length
  · obtain ⟨a, ha⟩ := h.placed.exists_applyGaps hlength
    obtain ⟨a', ha'⟩ := h.placed'.exists_applyGaps (hlength.trans (congrArg List.length h.gaps.symm))
    rw [MeasureGrid.regapped, MeasureGrid.regapped, ha, ha']
    exact h.applyGaps ha ha'
  · have hlength' : gaps.length ≠ g'.gaps.length := by rwa [h.gaps]
    rw [MeasureGrid.regapped, MeasureGrid.regapped, MeasureGrid.applyGaps, MeasureGrid.applyGaps,
      if_neg hlength, if_neg hlength']
    exact h

theorem Measure.SameColumns.refilled {m m' : Measure α} (h : m.SameColumns m') (x : α)
    (gaps : List (Gap α)) : (m.refilled x gaps).SameColumns (m'.refilled x gaps) :=
  ⟨rfl, h.signatures, h.grid.regapped gaps⟩

theorem Measure.SameColumns.width {m m' : Measure α} (h : m.SameColumns m') : m'.width = m.width :=
  h.grid.width

/-- Lines in the same columns are filled alike. -/
theorem Node.fillsAlike_sameColumns (gone : Handle → Prop) :
    FillsAlike (α := α) (Node.IsFurther gone) (Node.SameColumns gone) where
  tag h := h.1
  measure? {n n'} h := by
    refine h.measure?.imp_right fun hmeasures => ?_
    obtain ⟨m, m', hm, hm', hcolumns⟩ := hmeasures
    refine ⟨m, m', hm, hm', hcolumns.grid.gaps, fun x gaps => ?_⟩
    have hfilled := hcolumns.refilled x gaps
    refine ⟨hfilled.width, h.withMeasure ?_ hfilled⟩
    rw [Node.tag, NodeKind.measure?_eq_some_iff.1 hm]
    rfl
  system? {n n'} h := by
    refine h.system?.imp_right fun hsystems => ?_
    obtain ⟨s, s', hs, hs', hline⟩ := hsystems
    refine ⟨s, s', hs, hs', hline, fun x => ?_⟩
    rw [Node.mapKind, Node.mapKind, NodeKind.system?_eq_some_iff.1 hs,
      NodeKind.system?_eq_some_iff.1 hs']
    exact ⟨fun hn => absurd (.inr rfl) hn, fun hn => absurd (.inr rfl) hn,
      .system ⟨hline.definitionWidth, rfl, hline.overflow⟩, fun ht => by cases ht⟩

namespace Forest.Padded

variable {gone : Handle → Prop} {f g : Forest (Node α)}
  (h : Padded (Node.IsFurther gone) (Node.SameColumns gone) f g)

include h

/-- Stacking, breaking into pages and filling pages leave the columns alone. -/
theorem restacked {f' g' : Forest (Node α)} (hf : Forall₂ Node.Restacked f f')
    (hg : Forall₂ Node.Restacked g g') :
    Padded (Node.IsFurther gone) (Node.SameColumns gone) f' g' :=
  h.relabel hf hg (fun _ _ hn hm => hn.restacked hm) fun _ _ _ _ hn hm hm' => hn.restacked hm hm'

/-- Where no root is a further control element, the trees are related one by one. -/
theorem trees (hg : ∀ n ∈ g.roots, ¬ n.IsFurther gone) :
    List.Forall₂ (fun t t' => Padded (Node.IsFurther gone) (Node.SameColumns gone) t.2 t'.2) f.trees
      g.trees := by
  induction h with
  | nil => exact .nil
  | cons _ hbelow _ _ ih =>
    rw [Forest.roots, List.forall_mem_cons] at hg
    exact .cons hbelow (ih hg.2)
  | leaf hn =>
    rw [Forest.roots, List.forall_mem_cons] at hg
    exact absurd hn hg.1

/-- Measures put one after another. -/
theorem placeColumns (x : α) : Padded (Node.IsFurther gone) (Node.SameColumns gone)
    (ScoreLayout.placeRoots x f) (ScoreLayout.placeRoots x g) := by
  induction h generalizing x with
  | nil => exact .nil
  | @cons n n' below siblings below' siblings' hn hbelow _ _ ih =>
    rw [ScoreLayout.placeRoots, ScoreLayout.placeRoots]
    obtain ⟨hm, hm'⟩ | ⟨m, m', hm, hm', hcolumns⟩ := hn.measure?
    · rw [hm, hm']
      exact .cons hn hbelow (ih x)
    · have hkind := NodeKind.measure?_eq_some_iff.1 hm
      have hkind' := NodeKind.measure?_eq_some_iff.1 hm'
      rw [hm, hm', Node.mapKind, Node.mapKind, hkind, hkind']
      dsimp only
      rw [hcolumns.width]
      exact .cons (hn.withMeasure (by rw [Node.tag, hkind]; rfl)
        ⟨rfl, hcolumns.signatures, hcolumns.grid⟩) hbelow (ih _)
  | @leaf n f g hn _ ih =>
    have hnone : n.kind.measure? = none := NodeKind.measure?_eq_none (by
      rw [← Node.tag, hn.1]
      decide)
    rw [ScoreLayout.placeRoots.eq_def x (.cons n .nil g)]
    dsimp only
    rw [hnone]
    exact .leaf hn (ih x)

end Forest.Padded

/-- Nodes of the content in the same columns are one item for breaking. -/
theorem Node.SameColumns.breaksAlike (gone : Handle → Prop) :
    BreaksAlike (α := α) gone (Node.IsFurther gone)
      fun n n' => n.SameColumns gone n' ∧ ¬ n.IsFrame where
  tag h := h.1
  isSpare h := h.2
  handle h := h.1.handle h.2
  kept h := h.1.kept h.2
  item {n n'} h definition metrics unit := by
    have hhandle := h.1.handle h.2
    have hkind := h.1.kind
    rw [BreakItem.ofNode, BreakItem.ofNode, hhandle]
    generalize n.kind = k, n'.kind = k' at hkind
    cases hkind with
    | measure hm => dsimp only; rw [hm.width, hm.signatures]
    | system => rfl
    | other ht hm hs =>
      cases k <;> cases k' <;> first | rfl | exact absurd rfl hm | cases ht

namespace LayoutOptions

variable (o : LayoutOptions α)

/-- The systems of a score with their lines filled, where the options ask for it. -/
def filledSystems (systems : Forest (Node α)) : Forest (Node α) :=
  match o.contentWidth? with
  | none => systems
  | some available => if o.justifyHorizontally then o.fillTrees available true systems else systems

theorem fillTrees_append (available : α) (final : Bool) (g : Forest (Node α)) :
    (f : Forest (Node α)) → o.fillTrees available final (f ++ g) =
      o.fillTrees available (g.roots.isEmpty && final) f ++ o.fillTrees available final g
  | .nil => rfl
  | .cons n below siblings => by
      have hlast : (siblings ++ g).roots.isEmpty = (siblings.roots.isEmpty && g.roots.isEmpty) := by
        rw [Forest.roots_append]
        cases siblings.roots <;> rfl
      rw [Forest.cons_append, fillTrees, fillTrees, fillTrees_append available final g siblings, hlast,
        Bool.and_assoc]
      rfl

/-- On which page a system stands does not matter for its line. -/
theorem branches_filledPages (pages : Forest (Node α)) :
    (o.filledPages pages).branches = o.filledSystems pages.branches := by
  have htrees (available : α) (pages : Forest (Node α)) :
      (o.fillPageTrees available pages).branches = o.fillTrees available true pages.branches := by
    induction pages with
    | nil => rfl
    | cons page systems pages _ ih =>
      rw [fillPageTrees, Forest.branches, Forest.branches, ih, fillTrees_append, Bool.and_true]
  rw [filledPages, filledSystems]
  cases o.contentWidth? with
  | none => rfl
  | some available =>
    dsimp only
    split_ifs
    · exact htrees available pages
    · rfl

end LayoutOptions

/-- Filling lines keeps columns. -/
theorem Forest.Padded.filledSystems {gone : Handle → Prop} {f g : Forest (Node α)}
    (h : Forest.Padded (Node.IsFurther gone) (Node.SameColumns gone) f g)
    (hg : ∀ n ∈ g.roots, n.tag ≠ .control) (o : LayoutOptions α) :
    Forest.Padded (Node.IsFurther gone) (Node.SameColumns gone) (o.filledSystems f)
      (o.filledSystems g) := by
  rw [LayoutOptions.filledSystems, LayoutOptions.filledSystems]
  cases o.contentWidth? with
  | none => exact h
  | some available =>
    dsimp only
    split_ifs
    · exact (Node.fillsAlike_sameColumns gone).fillTrees h hg o available true
    · exact h

/-! ### Documents -/

namespace Document

variable {d d' : Document α}

/-- Spacing two documents. -/
theorem WellFormed.sameColumns_space (hd : d.WellFormed) (hd' : d'.WellFormed) {T : Comparison α}
    (h : Forest.Padded (Node.IsFurther T.spare) (Node.Gridded T MeasureGrid.DrawsSame) d.content
      d'.content) (hfinished : d.content.Finished) (hfinished' : d'.content.Finished)
    {options : LayoutOptions α} (hok : (d.space options).fault = none)
    (hok' : (d'.space options).fault = none) :
    Forest.Padded (Node.IsFurther T.spare) (Node.SameColumns T.spare)
      (d.space options).document.content (d'.space options).document.content := by
  have hlongest : d'.longest = d.longest := by
    refine hd.longest_congr hd' h (fun n hn => hn.1) fun n n' hn => ?_
    cases hn with
    | same => exact ⟨rfl, fun _ => ⟨rfl, rfl⟩⟩
    | measure hnear hm hnode =>
      have htag : n.tag = .measure := congrArg NodeKind.tag hm
      exact ⟨by rw [htag, hnode]; rfl, fun ht => by cases htag.symm.trans ht⟩
  obtain ⟨-, -, hscore⟩ := hd.of_space hok
  obtain ⟨-, -, hscore'⟩ := hd'.of_space hok'
  rw [Document.content, Document.content, hscore, hscore', hlongest]
  simp only [Forest.branches_map]
  refine h.mem.map (fun n hn => ?_) fun n n' hn => ?_
  · rw [Node.spaced_of_tag_ne (by rw [hn.1.1]; decide)]
    exact hn.1
  · exact hn.1.spaced (hd.not_isFrame hn.2.1) (hfinished n hn.2.1) (hfinished' n' hn.2.2) _

/-- Breaking two documents into systems. -/
theorem WellFormed.sameColumns_breakSystems (hd : d.WellFormed) (hd' : d'.WellFormed)
    (hfree : Unreserved d.trees.rest) (hfree' : Unreserved d'.trees.rest)
    (hs : .spaced ≤ d.stage) (hs' : .spaced ≤ d'.stage) (hdefinition : d'.definition = d.definition)
    {gone : Handle → Prop}
    (h : Forest.Padded (Node.IsFurther gone) (Node.SameColumns gone) d.content d'.content)
    (hplain : (∀ n ∈ d'.content.roots, ¬ n.IsFurther gone) ∨
      ∃ n ∈ d.content.roots, n.tag = .measure) (options : LayoutOptions α)
    (metrics : GlyphMetrics α) :
    Forest.Padded (Node.IsFurther gone) (Node.SameColumns gone)
      (d.breakSystems options metrics).document.score.branches.branches
      (d'.breakSystems options metrics).document.score.branches.branches := by
  classical
  obtain ⟨r, page, systems, d₁, d₂, hok, hd₂, -, hsystems, -⟩ :=
    hd.exists_breakSystems hfree hs options metrics
  obtain ⟨r', page', systems', d₁', d₂', hok', hd₂', -, hsystems', -⟩ :=
    hd'.exists_breakSystems hfree' hs' options metrics
  rw [hdefinition] at hsystems'
  have hmusic : Forest.Padded (Node.IsFurther gone)
      (fun n n' => n.SameColumns gone n' ∧ ¬ n.IsFrame) d.content d'.content :=
    h.mem.mono (fun _ hn => hn.1) fun _ _ hn => ⟨hn.1, hd.not_isFrame hn.2.1⟩
  have hbreaks := Node.SameColumns.breaksAlike (α := α) gone
  have hdeep : ∀ n ∈ d.content.branches.toList, n.tag ≠ .measure := fun n hn ht => by
    obtain ⟨_, pages, hshape⟩ := hd.exists_shape
    have hdepth := hshape.depth_of_mem_branches (hshape.content_eq ▸ hn)
    rw [ht] at hdepth
    exact absurd hdepth (by decide)
  have hnew (i i' : Handle) (id id' : String) (p : SystemPlan α) :
      (Node.new i id (p.kind options.breakRules)).SameColumns gone
        (Node.new i' id' (p.kind options.breakRules)) :=
    ⟨fun hn => absurd (.inr rfl) hn, fun hn => absurd (.inr rfl) hn, .system ⟨rfl, rfl, rfl⟩,
      fun _ => rfl⟩
  have hpadded := hbreaks.padded_systems (I := fun _ _ => True)
    (fun _ i i' k p => hnew i i' _ _ p) (fun _ _ => trivial)
    (fun hfg _ => (hfg.mono (fun _ hn => hn) fun _ _ hn => hn.1).placeColumns 0) trivial
    hsystems' (hbreaks.nodes_eq_nil hmusic hplain _ _ _)
    (hbreaks.systemPlans_eq hmusic d.definition options metrics ▸ hsystems) hmusic hdeep
  rw [hok, hok']
  show Forest.Padded _ _ d₂.score.branches.branches d₂'.score.branches.branches
  rw [hd₂.score, hd₂'.score]
  simpa only [Forest.branches_tree] using hpadded

/-! ### Systems on pages -/

/-- All systems stand on the page of the unbroken content. -/
def OnContentPage (d : Document α) : Prop :=
  ∃ D r page systems detached, d.Shape D r (.tree page systems) detached ∧ page.id = contentPageId

/-- Breaking leaves all systems on one page. -/
theorem WellFormed.onContentPage_breakSystems (hd : d.WellFormed) (hfree : Unreserved d.trees.rest)
    (hs : .spaced ≤ d.stage) (options : LayoutOptions α) (metrics : GlyphMetrics α) :
    (d.breakSystems options metrics).document.OnContentPage := by
  obtain ⟨r, page, systems, d₁, d₂, hok, hd₂, hid, -⟩ :=
    hd.exists_breakSystems hfree hs options metrics
  rw [hok]
  exact ⟨_, r, page, systems, _, hd₂, hid⟩

namespace OnContentPage

variable (h : d.OnContentPage)

include h

theorem of_sameTree (hd : d.SameTree d') : d'.OnContentPage := by
  obtain ⟨D, r, page, systems, detached, hshape, hid⟩ := h
  obtain ⟨r', page', systems', hshape', hpage, -⟩ := hshape.of_sameTree hd
  exact ⟨D, r', page', systems', detached, hshape', hpage.id.trans hid⟩

/-- Breaking into pages keeps lines. -/
theorem restacked_breakPages (hs : Step.pageBreaking.required ≤ d.stage)
    (options : LayoutOptions α) : Forest.Forall₂ Node.Restacked d.score.branches.branches
      (d.breakPages options).document.score.branches.branches := by
  obtain ⟨D, r, page, systems, detached, hshape, hid⟩ := h
  obtain ⟨pages, d₁, hok, hd₁, hpages, -⟩ := hshape.exists_breakPages hid hs
  rw [hok]
  show Forest.Forall₂ _ d.score.branches.branches d₁.score.branches.branches
  rw [hshape.score, hd₁.score]
  simpa only [Forest.branches_tree] using hpages.restacked_branches

end OnContentPage

variable (hd : d.WellFormed)

include hd

/-- Filling lines of a score, system by system. -/
theorem WellFormed.systems_fillLines (hs : Step.required .horizontalFilling ≤ d.stage)
    (hfitted : d.content.Fitted) {options : LayoutOptions α} :
    (d.fillLines options).document.score.branches.branches =
      options.filledSystems d.score.branches.branches := by
  obtain ⟨r, pages, hshape⟩ := hd.exists_shape
  obtain ⟨d₁, hok, hd₁⟩ := hshape.fillLines_eq hs (hshape.fitted_measuresIn hfitted) options
  rw [hok]
  show d₁.score.branches.branches = _
  rw [hd₁.score, hshape.score, Forest.branches_tree, Forest.branches_tree,
    LayoutOptions.branches_filledPages]

/-- Filling pages keeps lines. -/
theorem WellFormed.restacked_fillPages (hs : Step.verticalFilling.required ≤ d.stage)
    (options : LayoutOptions α) : Forest.Forall₂ Node.Restacked d.score.branches.branches
      (d.fillPages options).document.score.branches.branches := by
  obtain ⟨r, pages, hshape⟩ := hd.exists_shape
  obtain ⟨d₁, hok, hd₁, -⟩ := hshape.fillPages_eq hs options
  rw [hok]
  show Forest.Forall₂ _ _ d₁.score.branches.branches
  rw [hd₁.score, hshape.score, Forest.branches_tree, Forest.branches_tree]
  exact options.restacked_spreadPages pages

end Document

end ScoreLayout
