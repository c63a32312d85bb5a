import ScoreLayout.Proofs.Grid.Fitted
import ScoreLayout.Proofs.Layout.Rearranging
import ScoreLayout.Proofs.Layout.Spacing

/-!
# What later passes keep of slots

From spacing on no pass changes what is recorded on a symbol, nor which slots a time grid has. Two
passes rebuild the pages and systems around the measures; what stands below a measure moves with it.

## Main definitions

* `Node.StaysPut` — two states of one node with the same slots.
* `Document.StaysPut` — the same of the content of a document.

## Main results

* `Document.WellFormed.staysPut_run` — no pass from spacing to filling changes a slot.
* `Document.WellFormed.keeps_run` — no pass behind preparation changes what is left out.
-/

namespace ScoreLayout

variable {α : Type}

/-- Two states of one grid, which differ in widths and positions only. -/
structure MeasureGrid.SameShape (g g' : MeasureGrid α) : Prop where
  outline : g'.outline = g.outline
  state : g'.state = g.state
  positioned : g'.positioned = g.positioned
  gaps : g'.gaps.length = g.gaps.length
  maxTime : g'.maxTime = g.maxTime

/-- Two states of one grid with the same slots; its gaps match the drawn ones if they did before. -/
structure MeasureGrid.StaysPut (g g' : MeasureGrid α) : Prop where
  outline : g'.outline = g.outline
  state : g'.state = g.state
  fitted : g.Fitted → g'.Fitted
  maxTime : g'.maxTime = g.maxTime

/-- Two states of one node with the same slots, tied to the same symbols. -/
structure Node.StaysPut [Scalar α] (n n' : Node α) : Prop extends n.SameMusic n' where
  layout : n.tag = .element → n'.layout = n.layout
  ties : n'.layout.ties = n.layout.ties
  untied : n.layout.startAnchor = none → n'.layout = n.layout
  grid : ∀ m', n'.kind = .measure m' → ∃ m, n.kind = .measure m ∧ m.grid.StaysPut m'.grid

/-! ### Time grids -/

namespace MeasureGrid

variable {g g' g₁ : MeasureGrid α}

/-- The number of drawn slots is read off the outline. -/
theorem length_drawnSlots (g : MeasureGrid α) :
    g.drawnSlots.length = (g.outline.filter fun s => ¬ s.2).length := by
  rw [drawnSlots, outline, List.filter_map, List.length_map]
  rfl

namespace SameShape

theorem symm (h : g.SameShape g') : g'.SameShape g :=
  ⟨h.outline.symm, h.state.symm, h.positioned.symm, h.gaps.symm, h.maxTime.symm⟩

theorem trans (h : g.SameShape g') (h' : g'.SameShape g₁) : g.SameShape g₁ :=
  ⟨h'.outline.trans h.outline, h'.state.trans h.state, h'.positioned.trans h.positioned,
    h'.gaps.trans h.gaps, h'.maxTime.trans h.maxTime⟩

theorem staysPut (h : g.SameShape g') : g.StaysPut g' where
  outline := h.outline
  state := h.state
  maxTime := h.maxTime
  fitted hf := by
    refine ⟨h.positioned.trans hf.positioned, ?_⟩
    rw [h.gaps, hf.gaps, length_drawnSlots, length_drawnSlots, h.outline]

end SameShape

namespace StaysPut

theorem refl (g : MeasureGrid α) : g.StaysPut g := ⟨rfl, rfl, id, rfl⟩

theorem trans (h : g.StaysPut g') (h' : g'.StaysPut g₁) : g.StaysPut g₁ :=
  ⟨h'.outline.trans h.outline, h'.state.trans h.state, h'.fitted ∘ h.fitted,
    h'.maxTime.trans h.maxTime⟩

end StaysPut

/-- What a list of slots is but for positions and footprints. -/
def outlines (slots : List (Slot α)) : List (SlotKey × Bool) :=
  slots.map fun s => (s.key, s.timestampOnly)

variable [Scalar α]

theorem outlines_placeFrom {slots slots' : List (Slot α)} {x : α} {gaps : List (Gap α)}
    (h : placeFrom slots x gaps = some slots') : outlines slots' = outlines slots := by
  induction slots generalizing x gaps slots' with
  | nil => exact Option.some.inj h ▸ rfl
  | cons s rest ih =>
    rw [placeFrom.eq_def] at h
    dsimp only at h
    split_ifs at h
    · obtain ⟨rest', hrest, rfl⟩ := Option.map_eq_some_iff.1 h
      rw [outlines, outlines, List.map_cons, List.map_cons]
      exact congrArg _ (ih hrest)
    · cases gaps with
      | nil => cases h
      | cons gap gaps =>
        obtain ⟨rest', hrest, rfl⟩ := Option.map_eq_some_iff.1 h
        rw [outlines, outlines, List.map_cons, List.map_cons]
        exact congrArg _ (ih hrest)

theorem outlines_placeDrawn {slots slots' : List (Slot α)} {gaps : List (Gap α)}
    (h : placeDrawn slots gaps = some slots') : outlines slots' = outlines slots := by
  induction slots generalizing slots' with
  | nil => exact Option.some.inj h ▸ rfl
  | cons s rest ih =>
    rw [placeDrawn] at h
    split_ifs at h
    · obtain ⟨rest', hrest, rfl⟩ := Option.map_eq_some_iff.1 h
      rw [outlines, outlines, List.map_cons, List.map_cons]
      exact congrArg _ (ih hrest)
    · obtain ⟨rest', hrest, rfl⟩ := Option.map_eq_some_iff.1 h
      rw [outlines, outlines, List.map_cons, List.map_cons]
      exact congrArg _ (outlines_placeFrom hrest)

theorem outlines_placeTimestamps (previous : Option (Slot α)) (slots : List (Slot α)) :
    outlines (placeTimestamps previous slots) = outlines slots := by
  induction slots generalizing previous with
  | nil => rfl
  | cons s rest ih =>
    rw [placeTimestamps]
    split_ifs
    · exact congrArg ((s.key, s.timestampOnly) :: ·) (ih previous)
    · exact congrArg ((s.key, s.timestampOnly) :: ·) (ih (some s))

/-- Placing changes positions only. -/
theorem sameShape_place (h : g.place = .ok g') : g.SameShape g' := by
  rw [place] at h
  split at h
  · rename_i slots hslots
    rw [← Except.ok.inj h]
    exact ⟨(outlines_placeTimestamps none slots).trans (outlines_placeDrawn hslots), rfl, rfl, rfl,
      rfl⟩
  · cases h

/-- Ideal gaps match the drawn slots, unless there are none of these. -/
theorem fitted_space {p : Spacing α} (h : g.space p = .ok g') (hdrawn : g.drawnSlots ≠ []) :
    g'.Fitted := by
  rw [space] at h
  split_ifs at h
  obtain ⟨g₁, hplace, h⟩ := except_bind_eq_ok.1 h
  obtain rfl := Except.ok.inj h
  have hshape := sameShape_place hplace
  have hlength := List.length_pos_iff.2 hdrawn
  have hdrawn₁ : g₁.drawnSlots.length = g.drawnSlots.length := by
    rw [length_drawnSlots, length_drawnSlots, hshape.outline]
    rfl
  have hgaps : g₁.gaps.length = g.drawnSlots.length - 1 :=
    hshape.gaps.trans (length_idealGaps p g.drawnSlots)
  refine ⟨rfl, ?_⟩
  show g₁.gaps.length + 1 = g₁.drawnSlots.length
  omega

theorem staysPut_space {p : Spacing α} (h : g.space p = .ok g') : g.StaysPut g' := by
  have hfitted : g.Fitted → g'.Fitted := fun hg =>
    fitted_space h (List.length_pos_iff.1 (hg.gaps ▸ Nat.succ_pos _))
  rw [space] at h
  split_ifs at h
  obtain ⟨g₁, hplace, h⟩ := except_bind_eq_ok.1 h
  obtain rfl := Except.ok.inj h
  have hshape := sameShape_place hplace
  exact ⟨hshape.outline, hshape.state, hfitted, hshape.maxTime⟩

theorem sameShape_applyGaps {gaps : List (Gap α)} (h : g.applyGaps gaps = .ok g') :
    g.SameShape g' := by
  rw [applyGaps] at h
  split_ifs at h with hlength
  have hshape := sameShape_place h
  exact ⟨hshape.outline, hshape.state, hshape.positioned, hshape.gaps.trans hlength, hshape.maxTime⟩

end MeasureGrid

/-! ### Nodes -/

variable [Scalar α]

namespace Node.StaysPut

variable {a b c : Node α}

theorem anchors (h : a.StaysPut b) : Stacking.anchors b.layout = Stacking.anchors a.layout :=
  LayoutState.anchors_eq_of_ties h.ties

theorem refl (n : Node α) : n.StaysPut n :=
  ⟨.refl n, fun _ => rfl, rfl, fun _ => rfl, fun m hm => ⟨m, hm, .refl _⟩⟩

theorem trans (h : a.StaysPut b) (h' : b.StaysPut c) : a.StaysPut c where
  toSameMusic := h.toSameMusic.trans h'.toSameMusic
  layout ha := (h'.layout (h.tag ▸ ha)).trans (h.layout ha)
  ties := h'.ties.trans h.ties
  untied ha := (h'.untied ((LayoutState.startAnchor_eq_of_ties h.ties).trans ha)).trans (h.untied ha)
  grid m' hm' := by
    obtain ⟨m₁, hm₁, hgrid⟩ := h'.grid m' hm'
    obtain ⟨m, hm, hgrid'⟩ := h.grid m₁ hm₁
    exact ⟨m, hm, hgrid'.trans hgrid⟩

theorem settles (h : a.StaysPut b) : a.Settles [] b where
  tag := h.tag
  element := by
    have hkind := h.kind
    cases ha : a.kind <;> cases hb : b.kind <;> simp_all [NodeKind.bare, NodeKind.element?]
  onset ha := by rw [h.layout ha]
  duration ha := by rw [h.layout ha]
  slot ha := by rw [h.layout ha]; rfl
  grid m' hm' := by
    obtain ⟨m, hm, hgrid⟩ := h.grid m' hm'
    exact ⟨m, hm, hgrid.outline⟩

theorem mapSystem (n : Node α) (f : ScoreSystem α → ScoreSystem α) :
    n.StaysPut (n.mapKind (.mapSystem f)) where
  toSameMusic := ⟨rfl, rfl, Document.NodeKind.bare_mapSystem ..⟩
  layout _ := rfl
  ties := rfl
  untied _ := rfl
  grid m hm := ⟨m, by cases hk : n.kind <;> simp_all [Node.mapKind, NodeKind.mapSystem], .refl _⟩

theorem mapPage (n : Node α) (f : Page α → Page α) :
    n.StaysPut (n.mapKind (.mapPage f)) where
  toSameMusic := ⟨rfl, rfl, Document.NodeKind.bare_mapPage ..⟩
  layout _ := rfl
  ties := rfl
  untied _ := rfl
  grid m hm := ⟨m, by cases hk : n.kind <;> simp_all [Node.mapKind, NodeKind.mapPage], .refl _⟩

theorem place (n : Node α) (x : α) :
    n.StaysPut (n.mapKind (.mapMeasure fun m => { m with x })) where
  toSameMusic := ⟨rfl, rfl, by rw [Node.mapKind]; cases n.kind <;> rfl⟩
  layout _ := rfl
  ties := rfl
  untied _ := rfl
  grid m hm := by
    rw [Node.mapKind] at hm
    cases hk : n.kind with
    | measure m' =>
      rw [hk, NodeKind.mapMeasure, NodeKind.measure.injEq] at hm
      exact ⟨m', rfl, hm ▸ .refl _⟩
    | _ => simp [hk, NodeKind.mapMeasure] at hm

theorem spaced (n : Node α) (p : Spacing α) : n.StaysPut (n.spaced p) := by
  rw [Node.spaced]
  split
  · rename_i m hm
    split
    · rename_i grid hgrid
      refine ⟨⟨rfl, rfl, by rw [hm]; rfl⟩, fun _ => rfl, rfl, fun _ => rfl,
        fun m' hm' => ⟨m, hm, ?_⟩⟩
      rw [← NodeKind.measure.inj hm']
      exact MeasureGrid.staysPut_space hgrid
    · exact .refl n
  · exact .refl n

theorem of_boxed (h : a.Boxed b) : a.StaysPut b where
  toSameMusic := h.sameMusic
  layout ha := h.layout (by rw [ha]; decide)
  ties := h.ties
  untied := h.untied
  grid m hm := ⟨m, h.kind ▸ hm, .refl _⟩

end Node.StaysPut

theorem Node.Rearrangement.staysPut : Node.Rearrangement (Node.StaysPut (α := α)) where
  refl := .refl
  trans := .trans
  mapSystem := .mapSystem
  mapPage := .mapPage
  place := .place

/-! ### Documents -/

namespace Document

/-- Two states of one document with the same slots. -/
def StaysPut (d d' : Document α) : Prop := Forest.Forall₂ Node.StaysPut d.content d'.content

namespace StaysPut

variable {d d₁ d₂ : Document α}

theorem refl (d : Document α) : d.StaysPut d := Forest.Forall₂.refl fun n _ => .refl n

theorem trans (h : d.StaysPut d₁) (h' : d₁.StaysPut d₂) : d.StaysPut d₂ :=
  Forest.Forall₂.trans h h' fun _ _ _ => Node.StaysPut.trans

theorem of_score {d' : Document α} (h : Forest.Forall₂ Node.StaysPut d.score d'.score) :
    d.StaysPut d' := h.branches.branches.branches

theorem withScore {score : Forest (Node α)} (h : Forest.Forall₂ Node.StaysPut d.score score) :
    d.StaysPut (d.withScore score) := of_score ((score_withScore h).symm ▸ h)

theorem modify (d : Document α) (h : Handle) {f : Node α → Node α}
    (hf : ∀ n ∈ d.trees.toList, n.handle = h → n.StaysPut (f n)) : d.StaysPut (d.modify h f) :=
  of_score (forall₂_modify Node.StaysPut.refl d h hf).first

end StaysPut

variable {d : Document α}

/-! ### Spacing -/

theorem staysPut_space (d : Document α) (options : LayoutOptions α) :
    d.StaysPut (d.space options).document := by
  rw [space, Outcome.guarded]
  split
  · exact .refl d
  · have hrun := Forest.forall₂_run (p := spacingPass (options.spacing d.longest))
      Node.StaysPut.refl (fun _ _ _ => Node.StaysPut.trans) (fun fault parent n => ?_)
      (fun _ _ n below => ⟨.refl n, .refl fun m _ => .refl m⟩) none d.score
    · dsimp only
      split
      · exact .withScore hrun
      · exact .withScore hrun
    · rw [spacingPass]
      dsimp only
      split
      · rename_i m hm
        split
        · rename_i grid hgrid
          have hspaced : n.spaced (options.spacing d.longest) =
              { n with kind := .measure { m with grid } } := by
            rw [Node.spaced, hm]
            dsimp only
            rw [hgrid]
          exact hspaced ▸ .spaced n _
        · exact .refl n
      · exact .refl n

/-! ### Filling lines -/

theorem staysPut_fillMeasures : {measures : List (Handle × Measure α)} → {d d' : Document α} →
    {x x' : α} → {gaps : List (Gap α)} →
    (∀ p ∈ measures, ∀ n ∈ d.trees.toList, n.handle = p.1 →
      ∃ m, n.kind = .measure m ∧ m.grid.SameShape p.2.grid ∧
        n.kind.bare = (NodeKind.measure p.2).bare) →
    d.fillMeasures x gaps measures = .ok (x', d') → d.StaysPut d'
  | [], d, _, _, _, _, _, hok => by
      rw [fillMeasures, Except.ok.injEq, Prod.mk.injEq] at hok
      exact hok.2 ▸ .refl d
  | (h, m) :: measures, d, _, x, _, gaps, hmeasures, hok => by
      rw [fillMeasures] at hok
      dsimp only at hok
      split at hok
      · rename_i grid hgrid
        have hgrid := MeasureGrid.sameShape_applyGaps hgrid
        have hchange : ∀ n ∈ d.trees.toList, n.handle = h →
            n.StaysPut { n with kind := .measure { m with grid, x } } := fun n hn hh => by
          obtain ⟨m₀, hm₀, hshape, hbare⟩ := hmeasures _ List.mem_cons_self n hn hh
          refine ⟨⟨rfl, rfl, hbare.symm⟩, fun _ => rfl, rfl, fun _ => rfl, fun m' hm' => ⟨m₀, hm₀, ?_⟩⟩
          rw [← NodeKind.measure.inj hm']
          exact (hshape.trans hgrid).staysPut
        refine (StaysPut.modify d h hchange).trans
          (staysPut_fillMeasures (fun p hp n' hn' hh => ?_) hok)
        rw [Document.modify, Forest.modify, Forest.toList_map] at hn'
        obtain ⟨n, hn, rfl⟩ := List.mem_map.1 hn'
        have hhandle : n.handle = p.1 := by
          rw [← hh]
          split_ifs <;> rfl
        obtain ⟨m₁, hm₁, hshape, hbare⟩ := hmeasures p (List.mem_cons_of_mem _ hp) n hn hhandle
        split_ifs with hsame
        · obtain ⟨m₀, hm₀, hshape₀, hbare₀⟩ :=
            hmeasures _ List.mem_cons_self n hn (by simpa [hasHandle] using hsame)
          obtain rfl := NodeKind.measure.inj (hm₁.symm.trans hm₀)
          exact ⟨_, rfl, hgrid.symm.trans (hshape₀.symm.trans hshape), hbare₀.symm.trans hbare⟩
        · exact ⟨m₁, hm₁, hshape, hbare⟩
      · exact absurd hok (by simp)

theorem WellFormed.staysPut_fillSystem {d' : Document α} (hd : d.WellFormed)
    {options : LayoutOptions α} {available : α} {isLast : Bool} {n : Node α}
    (hl : d.isLive n.handle) (hok : d.fillSystem options available isLast n = .ok d') :
    d.StaysPut d' := by
  rw [fillSystem] at hok
  split at hok
  · exact Except.ok.inj hok ▸ .refl d
  · dsimp only at hok
    split at hok
    · exact Except.ok.inj hok ▸ .refl d
    · split at hok
      · exact Except.ok.inj hok ▸ .refl d
      · obtain ⟨⟨x, d₁⟩, h₁, hok⟩ := except_bind_eq_ok.1 hok
        rw [← Except.ok.inj hok]
        refine (staysPut_fillMeasures (fun p hp m hm hh => ?_) h₁).trans
          (.modify d₁ n.handle fun n _ _ => .mapSystem n _)
        have hkind := (hd.mem_measuresOf hl hp).2 m hm hh
        exact ⟨p.2, hkind, ⟨rfl, rfl, rfl, rfl, rfl⟩, by rw [hkind]⟩

theorem WellFormed.staysPut_fillSystems {options : LayoutOptions α} {available : α} :
    {systems : List (Node α)} → {d d' : Document α} → d.WellFormed →
    (∀ n ∈ systems, d.isLive n.handle) → d.fillSystems options available systems = .ok d' →
      d.StaysPut d'
  | [], d, _, _, _, hok => Except.ok.inj hok ▸ .refl d
  | n :: systems, d, _, hd, hlive, hok => by
      obtain ⟨d₁, h₁, hok⟩ := except_bind_eq_ok.1 hok
      have hstep := hd.sameTree_fillSystem (hlive n List.mem_cons_self) h₁
      refine (hd.staysPut_fillSystem (hlive n List.mem_cons_self) h₁).trans
        (staysPut_fillSystems (hstep.wellFormed hd) (fun m hm => ?_) hok)
      exact hstep.isLive (hlive m (List.mem_cons_of_mem n hm))

theorem WellFormed.staysPut_fillLines (hd : d.WellFormed) (options : LayoutOptions α) :
    d.StaysPut (d.fillLines options).document := by
  rw [fillLines, Outcome.guarded]
  split
  · exact .refl d
  · split
    · exact .refl d
    · rename_i available _
      split
      · cases hok : d.fillSystems options available d.systems with
        | error f => exact .refl d
        | ok d' => exact hd.staysPut_fillSystems (fun n hn => hd.isLive_of_mem_systems hn) hok
      · exact .refl d

/-- No pass behind alignment changes a slot, also where it ends in a fault. -/
theorem WellFormed.staysPut_run (hd : d.WellFormed) (hs : d.Settled) (e : Engine α)
    {pass : LayoutPass} (hprepare : pass ≠ .prepare) (halign : pass ≠ .align) :
    d.StaysPut (e.run d pass).document := by
  by_cases hpass : pass ∈ [.prepare, .align, .space, .fillLines]
  · simp only [List.mem_cons, List.not_mem_nil, or_false] at hpass
    obtain rfl | rfl | rfl | rfl := hpass
    · exact absurd rfl hprepare
    · exact absurd rfl halign
    · exact d.staysPut_space e.options
    · exact hd.staysPut_fillLines e.options
  · exact hd.rearranged_run hs .staysPut e hpass fun _ => .of_boxed

/-- No pass behind preparation changes what a node is tied to or whether it is left out. -/
theorem WellFormed.keeps_run (hd : d.WellFormed) (hs : d.Settled) (e : Engine α)
    {pass : LayoutPass} (hprepare : pass ≠ .prepare) :
    Forest.Forall₂ AlignState.Keeps d.content (e.run d pass).document.content := by
  by_cases halign : pass = .align
  · subst halign
    show Forest.Forall₂ _ _ (d.align e.metrics e.options.scaledUnit).document.content
    rw [align, Outcome.guarded]
    split
    · exact .refl fun n _ => .refl n
    · obtain ⟨score, heq, hkeeps⟩ := d.keeps_fillGrids e.metrics e.options.scaledUnit
      have hcontent : (d.withScore score).content = score.branches.branches.branches := by
        rw [content, score_withScore hkeeps]
      dsimp only
      split
      all_goals
        show Forest.Forall₂ _ _ (d.fillGrids e.metrics e.options.scaledUnit).2.content
        rw [heq, hcontent]
        exact hkeeps.branches.branches.branches
  · exact (hd.staysPut_run hs e hprepare halign).mono fun _ _ h => ⟨h.toSameMusic, h.ties⟩

end Document

end ScoreLayout
