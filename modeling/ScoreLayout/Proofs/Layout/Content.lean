import ScoreLayout.Proofs.Layout.Settling

/-!
# The content of a score

No pass changes what stands in the systems of the score: not the nodes, not their order, not their
music. What is detached stays as it is. This holds for a single pass from any stage as well as for a
whole layout, and also where a fault ends it.

## Main definitions

* `Document.SameContent` — two documents with one content.
* `Document.Filled` — no page and no system is empty.

## Main results

* `Document.Shape.sameContent_run` — every pass keeps the content.
* `Document.Shape.filled_run` — every pass keeps pages and systems from being empty.
-/

namespace ScoreLayout

variable {α : Type}

/-! ### Trees without their children -/

theorem Forest.Forall₂.stubs {β γ : Type} {R : β → γ → Prop} {f : Forest β} {g : Forest γ}
    (h : Forest.Forall₂ R f g) : Forest.Forall₂ R f.stubs g.stubs := by
  induction h with
  | nil => exact .nil
  | cons hb _ _ _ hs => exact .cons hb .nil hs

namespace Document

/-- Two documents with one content and the same detached trees. -/
structure SameContent [Scalar α] (d d' : Document α) : Prop where
  definition : d'.definition = d.definition
  /-- The score has the same root. -/
  root : Forest.Forall₂ Node.SameMusic d.score.stubs d'.score.stubs
  content : Forest.Forall₂ Node.SameMusic d.content d'.content
  rest : d'.trees.rest = d.trees.rest

variable [Scalar α]

namespace SameContent

variable {d d₁ d₂ : Document α}

theorem refl (d : Document α) : d.SameContent d :=
  ⟨rfl, .refl fun n _ => .refl n, .refl fun n _ => .refl n, rfl⟩

theorem trans (h : d.SameContent d₁) (h' : d₁.SameContent d₂) : d.SameContent d₂ where
  definition := h'.definition.trans h.definition
  root := h.root.trans h'.root fun _ _ _ => Node.SameMusic.trans
  content := h.content.trans h'.content fun _ _ _ => Node.SameMusic.trans
  rest := h'.rest.trans h.rest

end SameContent

theorem SameTree.sameContent {d d' : Document α} (h : d.SameTree d') : d.SameContent d' :=
  ⟨h.definition, h.score.stubs, h.score.branches.branches.branches, h.rest⟩

/-! ### Every pass -/

namespace Shape

variable {d : Document α} {D : ScoreDefinition} {r : Node α} {pages detached : Forest (Node α)}
  (hd : d.Shape D r pages detached)

include hd

theorem sameContent {d' : Document α} {pages' : Forest (Node α)}
    (hd' : d'.Shape D r pages' detached)
    (h : Forest.Forall₂ Node.SameMusic d.content pages'.branches.branches) :
    d.SameContent d' where
  definition := hd'.definition.trans hd.definition.symm
  root := by
    rw [hd.score, hd'.score]
    exact .cons (.refl r) .nil .nil
  content := by rwa [hd'.content_eq]
  rest := hd'.rest.trans hd.rest.symm

theorem sameContent_prepare : d.SameContent d.prepare.document := by
  obtain ⟨page, system, d₁, hok, hd₁, -⟩ := hd.unbreak?
  have htree := d₁.sameTree_reset.trans d₁.reset.sameTree_anchorControls
  rw [Document.prepare, hok]
  refine (hd.sameContent hd₁ ?_).trans (htree.withStage _).sameContent
  rw [Forest.tree, Forest.branches, Forest.branches, Forest.append_nil, Forest.tree,
    Forest.branches, Forest.branches, Forest.append_nil]
  exact .refl fun n _ => .refl n

theorem sameContent_breakSystems (hfree : Unreserved detached) (options : LayoutOptions α)
    (metrics : GlyphMetrics α) : d.SameContent (d.breakSystems options metrics).document := by
  rw [Document.breakSystems, Outcome.guarded]
  split
  · exact .refl d
  · obtain ⟨page, systems, d₁, d', hok, hd', -, hsystems, -⟩ := hd.breakContent hfree options metrics
    rw [hok]
    refine hd.sameContent hd' ?_
    rw [Forest.tree, Forest.branches, Forest.branches, Forest.append_nil]
    exact hsystems.branches

theorem sameContent_breakPages (hs : d.Settled) (options : LayoutOptions α) :
    d.SameContent (d.breakPages options).document := by
  rw [Document.breakPages, Outcome.guarded]
  split
  · exact .refl d
  · rename_i hstep
    split
    · rename_i h hf
      obtain ⟨front, page, systems, rfl, rfl, -⟩ :=
        hd.exists_of_findLive? hs (Step.ne_built hstep) hf
      obtain ⟨made, d', hok, hd', -, hmade⟩ := hd.paginate options
      rw [hok]
      refine hd.sameContent hd' ?_
      rw [hd.content_eq, Forest.branches_append, Forest.branches_append, Forest.branches_append,
        Forest.branches_append, Forest.tree, Forest.branches, Forest.branches, Forest.append_nil]
      exact Forest.Forall₂.append (.refl fun n _ => .refl n) hmade.branches.branches
    · exact ((SameTree.refl d).withStage _).sameContent

/-- Every pass keeps the content, also where it ends in a fault. -/
theorem sameContent_run (hfree : Unreserved detached) (hs : d.Settled) (e : Engine α)
    (pass : LayoutPass) : d.SameContent (e.run d pass).document := by
  cases pass with
  | prepare => exact hd.sameContent_prepare
  | align => exact (d.sameTree_align e.metrics e.options.scaledUnit).sameContent
  | space => exact (d.sameTree_space e.options).sameContent
  | breakSystems => exact hd.sameContent_breakSystems hfree e.options e.metrics
  | stackStaves => exact (d.sameTree_stackStaves e.options e.metrics).sameContent
  | breakPages => exact hd.sameContent_breakPages hs e.options
  | fillLines => exact (hd.wellFormed.sameTree_fillLines e.options).sameContent
  | fillPages => exact (hd.wellFormed.sameTree_fillPages e.options).sameContent
  | place => exact (hd.wellFormed.sameTree_place e.options e.metrics).sameContent

end Shape

/-! ### Empty pages and systems -/

/-- No page and no system is empty. -/
def Filled (d : Document α) : Prop := d.score.branches.NoLeaf ∧ d.score.branches.branches.NoLeaf

theorem SameTree.filled {d d' : Document α} (h : d.SameTree d') (hd : d.Filled) : d'.Filled :=
  ⟨h.score.branches.noLeaf hd.1, h.score.branches.branches.noLeaf hd.2⟩

namespace Shape

variable {d : Document α} {D : ScoreDefinition} {r : Node α} {pages detached : Forest (Node α)}
  (hd : d.Shape D r pages detached)

include hd

omit [Scalar α] in
theorem filled_iff : d.Filled ↔ pages.NoLeaf ∧ pages.branches.NoLeaf := by
  rw [Filled, hd.score, Forest.tree, Forest.branches, Forest.branches, Forest.append_nil]

theorem filled_prepare (hne : d.content ≠ .nil) :
    d.prepare.document.Filled := by
  obtain ⟨page, system, d₁, hok, hd₁, -⟩ := hd.unbreak?
  have htree := d₁.sameTree_reset.trans d₁.reset.sameTree_anchorControls
  rw [Document.prepare, hok]
  refine (htree.withStage .prepared).filled (hd₁.filled_iff.2 ⟨?_, ?_⟩)
  · exact Forest.noLeaf_tree (by simp [Forest.tree])
  · rw [Forest.tree, Forest.branches, Forest.branches, Forest.append_nil]
    exact Forest.noLeaf_tree hne

theorem filled_breakSystems (hfree : Unreserved detached) (hne : d.content ≠ .nil)
    (h : d.Filled) (options : LayoutOptions α) (metrics : GlyphMetrics α) :
    (d.breakSystems options metrics).document.Filled := by
  rw [Document.breakSystems, Outcome.guarded]
  split
  · exact h
  · obtain ⟨page, systems, d₁, d', hok, hd', -, hsystems, -⟩ := hd.breakContent hfree options metrics
    rw [hok]
    refine hd'.filled_iff.2 ⟨Forest.noLeaf_tree fun hnil => hne ?_, ?_⟩
    · rw [hsystems.branches.eq_nil_iff, hnil]
      rfl
    · rw [Forest.tree, Forest.branches, Forest.branches, Forest.append_nil]
      exact hsystems.noLeaf

theorem filled_breakPages (hs : d.Settled) (h : d.Filled) (options : LayoutOptions α) :
    (d.breakPages options).document.Filled := by
  rw [Document.breakPages, Outcome.guarded]
  split
  · exact h
  · rename_i hstep
    split
    · rename_i i hf
      obtain ⟨front, page, systems, rfl, rfl, -⟩ := hd.exists_of_findLive? hs (Step.ne_built hstep) hf
      obtain ⟨made, d', hok, hd', -, hmade⟩ := hd.paginate options
      obtain ⟨hpages, hsystems⟩ := hd.filled_iff.1 h
      rw [Forest.branches_append, Forest.tree, Forest.branches, Forest.branches, Forest.append_nil,
        Forest.noLeaf_append] at hsystems
      rw [hok]
      refine hd'.filled_iff.2 ⟨Forest.noLeaf_append.2 ⟨?_, hmade.noLeaf⟩, ?_⟩
      · exact (Forest.noLeaf_append.1 hpages).1
      · rw [Forest.branches_append, Forest.noLeaf_append]
        exact ⟨hsystems.1, hmade.branches.noLeaf hsystems.2⟩
    · exact ((SameTree.refl d).withStage _).filled h

/-- Every pass keeps pages and systems from being empty. -/
theorem filled_run (hfree : Unreserved detached) (hs : d.Settled) (hne : d.content ≠ .nil)
    (h : d.Filled) (e : Engine α) (pass : LayoutPass) : (e.run d pass).document.Filled := by
  cases pass with
  | prepare => exact hd.filled_prepare hne
  | align => exact (d.sameTree_align e.metrics e.options.scaledUnit).filled h
  | space => exact (d.sameTree_space e.options).filled h
  | breakSystems => exact hd.filled_breakSystems hfree hne h e.options e.metrics
  | stackStaves => exact (d.sameTree_stackStaves e.options e.metrics).filled h
  | breakPages => exact hd.filled_breakPages hs h e.options
  | fillLines => exact (hd.wellFormed.sameTree_fillLines e.options).filled h
  | fillPages => exact (hd.wellFormed.sameTree_fillPages e.options).filled h
  | place => exact (hd.wellFormed.sameTree_place e.options e.metrics).filled h

end Shape

end Document

end ScoreLayout
