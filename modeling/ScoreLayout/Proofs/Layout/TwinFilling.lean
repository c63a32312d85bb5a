import ScoreLayout.Proofs.Layout.FilledScores
import ScoreLayout.Proofs.Layout.Twins

/-!
# Filling lines and pages of two scores

Filling is a function of the pages of a score that looks at measures, systems and pages only. Two
scores whose measures and systems are filled alike are filled side by side, and twins are among them.

## Main definitions

* `FillsAlike` — relations of nodes that filling lines keeps.

## Main results

* `FillsAlike.filledPages`, `Forest.Padded.spreadPages` — the pages of two scores after filling.
* `Document.Twin.fillLines`, `Document.Twin.fillPages` — two documents after filling.
-/

namespace ScoreLayout

variable {α : Type} [Scalar α] {T : Comparison α}

/-! ### Lines -/

/-- Relations between the nodes of two scores that filling lines keeps: the second score may have
further control elements, and the lines of the two are filled alike. -/
structure FillsAlike (P : Node α → Prop) (R : Node α → Node α → Prop) : Prop where
  tag : ∀ {n}, P n → n.tag = .control
  measure? : ∀ {n n'}, R n n' → n.kind.measure? = none ∧ n'.kind.measure? = none ∨
    ∃ m m', n.kind.measure? = some m ∧ n'.kind.measure? = some m' ∧ m'.grid.gaps = m.grid.gaps ∧
      ∀ x gaps, (m'.refilled x gaps).width = (m.refilled x gaps).width ∧
        R { n with kind := .measure (m.refilled x gaps) }
          { n' with kind := .measure (m'.refilled x gaps) }
  system? : ∀ {n n'}, R n n' → n.kind.system? = none ∧ n'.kind.system? = none ∨
    ∃ s s', n.kind.system? = some s ∧ n'.kind.system? = some s' ∧ s.SameLine s' ∧
      ∀ x, R (n.mapKind (.mapSystem fun s => { s with measuresWidth := x }))
        (n'.mapKind (.mapSystem fun s => { s with measuresWidth := x }))

namespace FillsAlike

variable {P : Node α → Prop} {R : Node α → Node α → Prop} (hR : FillsAlike P R)
  {f g : Forest (Node α)} (h : Forest.Padded P R f g)

include hR

theorem measure?_eq_none {n : Node α} (hn : P n) : n.kind.measure? = none :=
  NodeKind.measure?_eq_none (by
    rw [← Node.tag, hR.tag hn]
    decide)

include h

theorem forall₂_roots (hg : ∀ n ∈ g.roots, n.tag ≠ .control) : List.Forall₂ R f.roots g.roots :=
  h.roots fun n hn hp => hg n hn (hR.tag hp)

theorem isEmpty_roots (hg : ∀ n ∈ g.roots, n.tag ≠ .control) :
    g.roots.isEmpty = f.roots.isEmpty := by
  rw [Bool.eq_iff_iff, List.isEmpty_iff_length_eq_zero, List.isEmpty_iff_length_eq_zero,
    (hR.forall₂_roots h hg).length_eq]

theorem gapsIn_eq : gapsIn g = gapsIn f := by
  have hgaps (f : Forest (Node α)) : gapsIn f =
      (f.roots.filterMap fun n => n.kind.measure?.map fun m => m.grid.gaps).flatten := by
    rw [gapsIn, measuresIn, List.flatMap_def, List.map_filterMap]
    refine congrArg List.flatten (List.filterMap_congr fun n _ => ?_)
    rw [Option.map_map]
    rfl
  rw [hgaps, hgaps]
  refine congrArg List.flatten (h.filterMap_roots (fun n hn => ?_) fun n n' hn => ?_).symm
  · rw [hR.measure?_eq_none hn, Option.map_none]
  · obtain ⟨hm, hm'⟩ | ⟨m, m', hm, hm', hgaps, -⟩ := hR.measure? hn
    · rw [hm, hm']
    · rw [hm, hm', Option.map_some, Option.map_some, hgaps]

/-- Measures given the same gaps. -/
theorem fillRoots (x : α) (gaps : List (Gap α)) :
    (fillRoots x gaps g).1 = (ScoreLayout.fillRoots x gaps f).1 ∧
      Forest.Padded P R (ScoreLayout.fillRoots x gaps f).2 (ScoreLayout.fillRoots x gaps g).2 := by
  induction h generalizing x gaps with
  | nil => exact ⟨rfl, .nil⟩
  | @cons n n' below siblings below' siblings' hn hbelow _ _ ih =>
    rw [ScoreLayout.fillRoots, ScoreLayout.fillRoots]
    obtain ⟨hm, hm'⟩ | ⟨m, m', hm, hm', hgaps, hfilled⟩ := hR.measure? hn
    · rw [hm, hm']
      exact ⟨(ih x gaps).1, .cons hn hbelow (ih x gaps).2⟩
    · obtain ⟨hwidth, hmeasure⟩ := hfilled x (gaps.take m.grid.gaps.length)
      rw [hm, hm']
      dsimp only
      rw [hgaps, hwidth]
      obtain ⟨hlast, hrest⟩ := ih (x + (m.refilled x (gaps.take m.grid.gaps.length)).width)
        (gaps.drop m.grid.gaps.length)
      exact ⟨hlast, .cons hmeasure hbelow hrest⟩
  | @leaf n f g hn _ ih =>
    rw [ScoreLayout.fillRoots.eq_def x gaps (.cons n .nil g)]
    dsimp only
    rw [hR.measure?_eq_none hn]
    exact ⟨(ih x gaps).1, .leaf hn (ih x gaps).2⟩

/-- Systems with their lines filled. -/
theorem fillTree {n n' : Node α} (hn : R n n') (o : LayoutOptions α) (available : α)
    (isLast : Bool) :
    R (o.fillTree available isLast (n, f)).1 (o.fillTree available isLast (n', g)).1 ∧
      Forest.Padded P R (o.fillTree available isLast (n, f)).2
        (o.fillTree available isLast (n', g)).2 := by
  rw [LayoutOptions.fillTree, LayoutOptions.fillTree]
  obtain ⟨hs, hs'⟩ | ⟨s, s', hs, hs', hline, hsystem⟩ := hR.system? hn
  · dsimp only
    rw [hs, hs']
    exact ⟨hn, h⟩
  · have hfills : o.Fills available isLast s' ↔ o.Fills available isLast s := by
      rw [LayoutOptions.Fills, LayoutOptions.Fills, hline.overflow, hline.measuresWidth,
        hline.definitionWidth]
    have hgaps : LayoutOptions.filledGaps available s' g = LayoutOptions.filledGaps available s f := by
      rw [LayoutOptions.filledGaps, LayoutOptions.filledGaps, hR.gapsIn_eq h, hline.measuresWidth,
        hline.definitionWidth]
    dsimp only
    rw [hs, hs']
    dsimp only
    by_cases hf : o.Fills available isLast s
    · rw [if_pos hf, if_pos (hfills.2 hf), hgaps]
      obtain ⟨hlast, hfilled⟩ := hR.fillRoots h 0 (LayoutOptions.filledGaps available s f)
      refine ⟨?_, hfilled⟩
      dsimp only
      rw [hlast]
      exact hsystem _
    · rw [if_neg hf, if_neg (mt hfills.1 hf)]
      exact ⟨hn, h⟩

/-- Neighbouring systems with their lines filled. -/
theorem fillTrees (hg : ∀ n ∈ g.roots, n.tag ≠ .control) (o : LayoutOptions α) (available : α)
    (final : Bool) :
    Forest.Padded P R (o.fillTrees available final f) (o.fillTrees available final g) := by
  induction h with
  | nil => exact .nil
  | @cons n n' below siblings below' siblings' hn hbelow hbeside _ ih =>
    rw [Forest.roots, List.forall_mem_cons] at hg
    obtain ⟨hnode, htree⟩ := hR.fillTree hbelow hn o available (siblings.roots.isEmpty && final)
    rw [LayoutOptions.fillTrees, LayoutOptions.fillTrees, hR.isEmpty_roots hbeside hg.2]
    exact .cons hnode htree (ih hg.2)
  | leaf hn =>
    rw [Forest.roots, List.forall_mem_cons] at hg
    exact absurd (hR.tag hn) hg.1

/-- The pages of two scores with their lines filled. -/
theorem filledPages (hg : ∀ n ∈ g.roots, n.tag ≠ .control)
    (hbranches : ∀ n ∈ g.branches.roots, n.tag ≠ .control) (o : LayoutOptions α) :
    Forest.Padded P R (o.filledPages f) (o.filledPages g) := by
  have htrees (available : α) :
      Forest.Padded P R (o.fillPageTrees available f) (o.fillPageTrees available g) := by
    induction h with
    | nil => exact .nil
    | @cons n n' below siblings below' siblings' hn hbelow hbeside _ ih =>
      rw [Forest.roots, List.forall_mem_cons] at hg
      rw [Forest.branches, Forest.roots_append, List.forall_mem_append] at hbranches
      rw [LayoutOptions.fillPageTrees, LayoutOptions.fillPageTrees,
        hR.isEmpty_roots hbeside.branches hbranches.2]
      exact .cons hn (hR.fillTrees hbelow hbranches.1 o available _) (ih hg.2 hbranches.2)
    | leaf hn =>
      rw [Forest.roots, List.forall_mem_cons] at hg
      exact absurd (hR.tag hn) hg.1
  rw [LayoutOptions.filledPages, LayoutOptions.filledPages]
  split
  · exact h
  · split_ifs
    · exact htrees _
    · exact h

end FillsAlike

/-- Lines of twins are filled alike. -/
theorem Node.fillsAlike_near : FillsAlike (Node.IsSpare T) (Node.Near T) where
  tag h := h.tag
  measure? {n n'} h := by
    rw [h.kind]
    cases hm : n.kind.measure? with
    | none => exact .inl ⟨rfl, rfl⟩
    | some m =>
      refine .inr ⟨m, m, rfl, rfl, rfl, fun x gaps => ⟨rfl, h.withKind ?_⟩⟩
      rw [Node.tag, NodeKind.measure?_eq_some_iff.1 hm]
      rfl
  system? {n n'} h := by
    rw [h.kind]
    cases n.kind.system? with
    | none => exact .inl ⟨rfl, rfl⟩
    | some s => exact .inr ⟨s, s, rfl, rfl, ⟨rfl, rfl, rfl⟩, fun x => h.mapKind fun k => by cases k <;> rfl⟩

/-! ### Pages -/

namespace Forest.Padded

variable {f g : Forest (Node α)}

omit [Scalar α] in
/-- Only control elements are spare. -/
theorem forall₂_roots (h : Padded (Node.IsSpare T) (Node.Near T) f g)
    (hg : ∀ n ∈ g.roots, n.tag ≠ .control) : List.Forall₂ (Node.Near T) f.roots g.roots :=
  h.roots fun n hn hs => hg n hn hs.tag

omit [Scalar α] in
theorem gapWeight [Scalar α] (h : Padded (Node.IsSpare T) (Node.Near T) f g)
    (hg : ∀ n ∈ g.roots, n.tag ≠ .control) (o : LayoutOptions α) :
    Document.gapWeight o g.roots = Document.gapWeight o f.roots := by
  have hroots := h.forall₂_roots hg
  have hgaps : f.roots.map Document.staffGaps = g.roots.map Document.staffGaps :=
    map_eq_of_forall₂ (fun n n' hn => by rw [Document.staffGaps, Document.staffGaps, hn.kind]) hroots
  have hsum (nodes : List (Node α)) : nodes.foldl (fun n s => n + Document.staffGaps s) 0 =
      (nodes.map Document.staffGaps).foldl (· + ·) 0 := List.foldl_map.symm
  rw [Document.gapWeight, Document.gapWeight, hroots.length_eq, hsum, hsum, hgaps]

/-- Systems moved down by the same distances. -/
theorem spreadRoots (h : Padded (Node.IsSpare T) (Node.Near T) f g)
    (hg : ∀ n ∈ g.roots, n.tag ≠ .control) (o : LayoutOptions α) (share : α) (first : Bool)
    (shift : α) : (o.spreadRoots share first shift g).1 = (o.spreadRoots share first shift f).1 ∧
      Padded (Node.IsSpare T) (Node.Near T) (o.spreadRoots share first shift f).2
        (o.spreadRoots share first shift g).2 := by
  induction h generalizing first shift with
  | nil => exact ⟨rfl, .nil⟩
  | @cons n n' below siblings below' siblings' hn hbelow _ _ ih =>
    rw [Forest.roots, List.forall_mem_cons] at hg
    have hgaps : Document.staffGaps n' = Document.staffGaps n := by
      rw [Document.staffGaps, Document.staffGaps, hn.kind]
    rw [LayoutOptions.spreadRoots, LayoutOptions.spreadRoots, hgaps]
    obtain ⟨hlast, hrest⟩ := ih hg.2 false _
    exact ⟨hlast, .cons (hn.mapKind fun k => by cases k <;> rfl) hbelow hrest⟩
  | leaf hn =>
    rw [Forest.roots, List.forall_mem_cons] at hg
    exact absurd hn.tag hg.1

/-- Pages with their free heights spread. -/
theorem spreadTree (h : Padded (Node.IsSpare T) (Node.Near T) f g)
    (hg : ∀ n ∈ g.roots, n.tag ≠ .control) {n n' : Node α} (hn : n.Near T n') (o : LayoutOptions α)
    (available : α) (isLast : Bool) :
    (o.spreadTree available isLast (n, f)).1.Near T (o.spreadTree available isLast (n', g)).1 ∧
      Padded (Node.IsSpare T) (Node.Near T) (o.spreadTree available isLast (n, f)).2
        (o.spreadTree available isLast (n', g)).2 := by
  rw [LayoutOptions.spreadTree, LayoutOptions.spreadTree]
  dsimp only
  rw [hn.kind, h.gapWeight hg]
  cases n.kind.page? with
  | none => exact ⟨hn, h⟩
  | some p =>
    have hspreads : o.Spreads available isLast p g.roots ↔ o.Spreads available isLast p f.roots := by
      rw [LayoutOptions.Spreads, LayoutOptions.Spreads, h.gapWeight hg]
    obtain ⟨hshift, hspread⟩ := h.spreadRoots hg o
      ((available - p.contentHeight) / Document.gapWeight o f.roots) true 0
    dsimp only
    by_cases hp : o.Spreads available isLast p f.roots
    · rw [if_pos hp, if_pos (hspreads.2 hp), hshift]
      exact ⟨hn.mapKind fun k => by cases k <;> rfl, hspread⟩
    · rw [if_neg hp, if_neg (mt hspreads.1 hp)]
      exact ⟨hn, h⟩

theorem spreadTrees (h : Padded (Node.IsSpare T) (Node.Near T) f g)
    (hg : ∀ n ∈ g.roots, n.tag ≠ .control) (hbranches : ∀ n ∈ g.branches.roots, n.tag ≠ .control)
    (o : LayoutOptions α) (available : α) : Padded (Node.IsSpare T) (Node.Near T)
      (o.spreadTrees available f) (o.spreadTrees available g) := by
  induction h with
  | nil => exact .nil
  | @cons n n' below siblings below' siblings' hn hbelow hbeside _ ih =>
    rw [Forest.roots, List.forall_mem_cons] at hg
    rw [Forest.branches, Forest.roots_append, List.forall_mem_append] at hbranches
    obtain ⟨hnode, htree⟩ := hbelow.spreadTree hbranches.1 hn o available siblings.roots.isEmpty
    rw [LayoutOptions.spreadTrees, LayoutOptions.spreadTrees, Node.fillsAlike_near.isEmpty_roots hbeside hg.2]
    exact .cons hnode htree (ih hg.2 hbranches.2)
  | leaf hn =>
    rw [Forest.roots, List.forall_mem_cons] at hg
    exact absurd hn.tag hg.1

/-- The pages of two scores with their free heights spread. -/
theorem spreadPages (h : Padded (Node.IsSpare T) (Node.Near T) f g)
    (hg : ∀ n ∈ g.roots, n.tag ≠ .control) (hbranches : ∀ n ∈ g.branches.roots, n.tag ≠ .control)
    (o : LayoutOptions α) :
    Padded (Node.IsSpare T) (Node.Near T) (o.spreadPages f) (o.spreadPages g) := by
  rw [LayoutOptions.spreadPages, LayoutOptions.spreadPages]
  split_ifs
  · exact h.spreadTrees hg hbranches o _
  · exact h

end Forest.Padded

/-! ### Documents -/

namespace Document.Twin

variable {d d' : Document α} (h : d.Twin T d')

include h

omit [Scalar α] in
/-- The pages of two documents. -/
theorem exists_shapes : ∃ r r' pages pages', d.Shape d.definition r pages d.trees.rest ∧
    d'.Shape d'.definition r' pages' d'.trees.rest ∧ r.Near T r' ∧
    Forest.Padded (Node.IsSpare T) (Node.Near T) pages pages' ∧
    (∀ n ∈ pages'.roots, n.tag ≠ .control) ∧ ∀ n ∈ pages'.branches.roots, n.tag ≠ .control := by
  obtain ⟨r, pages, hd⟩ := h.left.exists_shape
  obtain ⟨r', pages', hd'⟩ := h.right.exists_shape
  have hscore := h.score
  rw [hd.score, hd'.score] at hscore
  refine ⟨r, r', pages, pages', hd, hd', ?_⟩
  cases hscore with
  | cons hr hpages _ =>
    exact ⟨hr, hpages, fun n hn => by rw [hd'.tag_of_mem_pages hn]; decide,
      fun n hn => by rw [hd'.tag_of_mem_systems hn]; decide⟩
  | leaf hs => exact absurd (hs.tag.symm.trans hd'.root_tag) (by decide)

/-- Two documents after filling lines. -/
theorem fillLines (hfitted : d.content.Fitted) (hfitted' : d'.content.Fitted)
    {options : LayoutOptions α} (hok : (d.fillLines options).fault = none) :
    (d'.fillLines options).fault = none ∧
      (d'.fillLines options).marks = (d.fillLines options).marks ∧
      (d.fillLines options).document.Twin T (d'.fillLines options).document := by
  have hs := Outcome.required_le_of_guarded hok
  obtain ⟨r, r', pages, pages', hd, hd', hr, hpages, htags, htags'⟩ := h.exists_shapes
  have hstage := (h.left.fault_fillLines hfitted hs options).2
  have hstage' := (h.right.fault_fillLines hfitted' (h.stage ▸ hs) options).2
  have htree := h.left.sameTree_fillLines options
  have htree' := h.right.sameTree_fillLines options
  obtain ⟨d₁, hok₁, hd₁⟩ := hd.fillLines_eq hs (hd.fitted_measuresIn hfitted) options
  obtain ⟨d₁', hok₁', hd₁'⟩ := hd'.fillLines_eq (h.stage ▸ hs) (hd'.fitted_measuresIn hfitted')
    options
  rw [hok₁] at hstage htree ⊢
  rw [hok₁'] at hstage' htree' ⊢
  refine ⟨rfl, rfl, h.of_sameTree htree htree' ?_ (hstage'.trans (h.stage.trans hstage.symm))⟩
  show Forest.Padded _ _ d₁.score d₁'.score
  rw [hd₁.score, hd₁'.score]
  exact .cons hr (Node.fillsAlike_near.filledPages hpages htags htags' options) .nil

/-- Two documents after filling pages. -/
theorem fillPages {options : LayoutOptions α} (hok : (d.fillPages options).fault = none) :
    (d'.fillPages options).fault = none ∧
      (d'.fillPages options).marks = (d.fillPages options).marks ∧
      (d.fillPages options).document.Twin T (d'.fillPages options).document := by
  have hs := Outcome.required_le_of_guarded hok
  obtain ⟨r, r', pages, pages', hd, hd', hr, hpages, htags, htags'⟩ := h.exists_shapes
  have htree := h.left.sameTree_fillPages options
  have htree' := h.right.sameTree_fillPages options
  obtain ⟨d₁, hok₁, hd₁, hstage⟩ := hd.fillPages_eq hs options
  obtain ⟨d₁', hok₁', hd₁', hstage'⟩ := hd'.fillPages_eq (h.stage ▸ hs) options
  rw [hok₁] at htree ⊢
  rw [hok₁'] at htree' ⊢
  refine ⟨rfl, rfl, h.of_sameTree htree htree' ?_ (hstage'.trans hstage.symm)⟩
  show Forest.Padded _ _ d₁.score d₁'.score
  rw [hd₁.score, hd₁'.score]
  exact .cons hr (hpages.spreadPages htags htags' options) .nil

end Document.Twin

end ScoreLayout
