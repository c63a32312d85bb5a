import ScoreLayout.Proofs.Layout.Anchoring
import ScoreLayout.Proofs.Layout.TwinPages

/-!
# Preparing two documents side by side

Preparation clears all that a layout has written, except the signatures at the start of measures,
which alignment overwrites. It puts all content into one system on one page and ties each control
element to its symbols. Two documents with one content are prepared alike, whatever pages and systems
they had before, and whatever an earlier layout has left on their nodes.

## Main definitions

* `Node.Akin` — nodes that are the same, but for the signatures of measures.
* `Document.Readied` — two prepared documents.

## Main results

* `Document.Shape.readied` — two unbroken documents after preparation.
-/

namespace ScoreLayout

variable {α : Type} {T : Comparison α}

namespace Node

/-- A node beside itself. -/
theorem near_self {n : Node α} (hown : ¬ n.IsFrame → ¬ T.spare n.handle)
    (htied : n.tag = .control → ∀ a ∈ Stacking.anchors n.layout, T.symbol a) : n.Near T n where
  id := rfl
  kind := rfl
  handle _ := rfl
  own := hown
  layout := rfl
  staff _ := rfl
  rect _ := rfl
  tied := htied
  agree := T.agree_of_eq rfl

/-- Two nodes that are the same, but for the signatures of measures. -/
inductive Akin (T : Comparison α) : Node α → Node α → Prop
  | same {n : Node α} (near : n.Near T n) : Akin T n n
  | measure {n n' : Node α} {m m' : Measure α} (near : n.Near T n) (kind : n.kind = .measure m)
      (node : n' = { n with kind := .measure m' })
      (music : m' = { m with signatures := m'.signatures }) : Akin T n n'

namespace Akin

variable {n n' : Node α}

theorem near (h : n.Akin T n') : n.Near T n := by
  cases h with
  | same h => exact h
  | measure h => exact h

theorem tag (h : n.Akin T n') : n'.tag = n.tag := by
  cases h with
  | same => rfl
  | measure _ hm hn => rw [hn, Node.tag, Node.tag, hm]; rfl

theorem handle (h : n.Akin T n') : n'.handle = n.handle := by
  cases h with
  | same => rfl
  | measure _ _ hn => rw [hn]

theorem eq (h : n.Akin T n') (ht : n.tag ≠ .measure) : n' = n := by
  cases h with
  | same => rfl
  | measure _ hm => exact absurd (congrArg NodeKind.tag hm) ht

end Akin

variable [Scalar α]

@[simp] theorem tag_reset (n : Node α) : n.reset.tag = n.tag := by
  rw [Node.tag, reset, Node.tag]
  cases n.kind <;> rfl

theorem kind_of_reset {n : Node α} {c : Control α} (h : n.reset.kind = .control c) :
    n.kind = .control c := by
  rw [reset] at h
  cases hk : n.kind <;> rw [hk] at h <;> first | exact h | cases h

theorem anchors_reset (n : Node α) : Stacking.anchors n.reset.layout = [] := rfl

/-- Nodes of one music are the same once they are cleared, but for signatures. -/
theorem SameMusic.akin_reset {n n' : Node α} (h : n.SameMusic n') (hn : ¬ n.IsFrame)
    (hown : ¬ T.spare n.handle) : n.reset.Akin T n'.reset := by
  have hself : n.reset.Near T n.reset := near_self (fun _ => hown) fun _ a ha =>
    absurd ha (by rw [anchors_reset]; exact List.not_mem_nil)
  obtain ⟨i, id, kind, box, dirty, layout⟩ := n
  obtain ⟨i', id', kind', box', dirty', layout'⟩ := n'
  obtain ⟨rfl, rfl, hkind⟩ : i' = i ∧ id' = id ∧ kind'.bare = kind.bare := ⟨h.handle, h.id, h.kind⟩
  cases kind with
  | page => exact absurd (.inl rfl) hn
  | system => exact absurd (.inr rfl) hn
  | measure m =>
    cases kind' with
    | measure m' =>
      obtain ⟨number, grid, x, left, right, signatures⟩ := m
      obtain ⟨number', grid', x', left', right', signatures'⟩ := m'
      simp only [NodeKind.bare, NodeKind.measure.injEq, Measure.mk.injEq, true_and, and_true]
        at hkind
      obtain ⟨rfl, rfl, rfl⟩ := hkind
      exact .measure hself rfl rfl rfl
    | _ => cases hkind
  | _ =>
    cases kind' <;> cases hkind
    exact .same hself

end Node

namespace Document

/-- Two documents after preparation, with all content in one system on one page. -/
structure Readied (T : Comparison α) (d d' : Document α) : Prop where
  shapes : ∃ r page page' system system' content content',
    d.Shape d.definition r (.tree page (.tree system content)) d.trees.rest ∧
      d'.Shape d'.definition r (.tree page' (.tree system' content')) d'.trees.rest ∧
      r.Near T r ∧ Forest.Padded (Node.IsSpare T) (Node.Akin T) content content'
  ids : d'.musicIds.Perm d.musicIds
  definition : d'.definition = d.definition
  stage : d'.stage = d.stage
  unreserved : Unreserved d.trees.rest
  unreserved' : Unreserved d'.trees.rest
  symbols : ∀ a, T.symbol a → d.HasSymbol a

variable [Scalar α]

omit [Scalar α] in
/-- What becomes of a control element depends on what it is tied to, if it is, and on whether it
stands in a measure. -/
theorem anchored_congr {d d' : Document α} {above above' : Option (Node α)} {n : Node α}
    (habove : inMeasure above' = inMeasure above)
    (hok : ∀ c, n.kind = .control c → (d'.anchor? (inMeasure above) n.id c).toOption =
      (d.anchor? (inMeasure above) n.id c).toOption) : d'.anchored above' n = d.anchored above n := by
  rw [anchored, anchored]
  cases hk : n.kind with
  | control c =>
    have hc := hok c hk
    rw [inMeasure, inMeasure] at habove
    rw [inMeasure] at hc
    dsimp only [NodeKind.control?]
    rw [anchorNode, anchorNode, habove]
    generalize d.anchor? ((above.map fun p => decide (p.tag = .measure)).getD false) n.id c = o
      at hc ⊢
    generalize d'.anchor? ((above.map fun p => decide (p.tag = .measure)).getD false) n.id c = o'
      at hc ⊢
    -- the mark on an element that is not tied goes elsewhere
    cases o <;> cases o' <;> cases hc <;> rfl
  | _ => rfl

omit [Scalar α] in
theorem inMeasure_map {u : Node α → Node α} (hu : ∀ n, (u n).tag = n.tag)
    (above : Option (Node α)) : inMeasure (above.map u) = inMeasure above := by
  cases above with
  | none => rfl
  | some n => rw [inMeasure, inMeasure, Option.map_some, Option.map_some, Option.map_some, hu]

/-- A control element that is not tied is left out. -/
theorem isSpare_anchored {d : Document α} {above : Option (Node α)} {n : Node α} {c : Control α}
    {mark : Mark} (hc : n.kind = .control c)
    (hok : d.anchor? (inMeasure above) n.id c = .error mark) (hn : T.spare n.handle) :
    (d.anchored (above.map Node.reset) n.reset).IsSpare T := by
  have hkind : n.reset.kind = .control c := by
    rw [Node.reset, hc]
    rfl
  have hcontrol : n.reset.kind.control? = some c := by rw [hkind]; rfl
  rw [← inMeasure_map Node.tag_reset, inMeasure] at hok
  rw [anchored, hcontrol]
  dsimp only
  rw [anchorNode, show n.reset.id = n.id from rfl, hok]
  exact ⟨congrArg NodeKind.tag hkind, rfl, hn, rfl⟩

omit [Scalar α] in
/-- Nodes of one content after preparation. -/
theorem WellFormed.akin_anchored {d d' : Document α} (hd : d.WellFormed)
    (hsymbols : ∀ a, d.HasSymbol a → T.symbol a) {above above' : Option (Node α)} {n n' : Node α}
    (hn : n.Akin T n') (habove : inMeasure above' = inMeasure above)
    (hok : ∀ c, n.kind = .control c → (d'.anchor? (inMeasure above) n.id c).toOption =
      (d.anchor? (inMeasure above) n.id c).toOption) :
    (d.anchored above n).Akin T (d'.anchored above' n') := by
  by_cases ht : n.tag = .control
  · obtain ⟨c, hc⟩ := NodeKind.exists_of_control ht
    obtain rfl := hn.eq (by rw [ht]; decide)
    have hcontrol : n'.kind.control? = some c := by rw [hc]; rfl
    have htied := hn.near.tied ht
    have hanchors := hd.hasSymbol_anchorNode [] above n' c
    obtain ⟨layout, heq⟩ := d.anchorNode_eq [] above n' c
    rw [anchored_congr habove hok, anchored, hcontrol]
    dsimp only
    rw [heq] at hanchors ⊢
    exact .same (Node.near_self hn.near.own fun _ a ha =>
      (hanchors a ha).elim (hsymbols a) (htied a))
  · rw [d.anchored_of_tag_ne ht, d'.anchored_of_tag_ne (by rwa [hn.tag])]
    exact hn

omit [Scalar α] in
/-- What tying control elements leaves of an unbroken document. -/
theorem Shape.anchorControls_score {d : Document α} {D : ScoreDefinition}
    {r page system : Node α} {content detached : Forest (Node α)}
    (hd : d.Shape D r (.tree page (.tree system content)) detached) :
    d.anchorControls.2.score =
      .tree r (.tree page (.tree system (content.mapLinked d.anchored (some system)))) := by
  have hpage : page.tag = .page := hd.tag_of_mem_pages List.mem_cons_self
  have hsystem : system.tag = .system := hd.tag_of_mem_systems List.mem_cons_self
  rw [hd.wellFormed.anchorControls_eq, hd.score, Forest.mapLinked_tree, Forest.mapLinked_tree,
    Forest.mapLinked_tree, d.anchored_of_tag_ne (by rw [hd.root_tag]; decide),
    d.anchored_of_tag_ne (by rw [hpage]; decide), d.anchored_of_tag_ne (by rw [hsystem]; decide)]
  rfl

/-- Clearing a document. -/
theorem Shape.reset {d : Document α} {D : ScoreDefinition} {r : Node α}
    {pages detached : Forest (Node α)} (hd : d.Shape D r pages detached) :
    d.reset.Shape D r.reset (pages.map Node.reset) detached := by
  refine hd.of_score d.sameTree_reset ?_
  rw [Document.reset, hd.score]
  rfl

omit [Scalar α] in
/-- The marks of an unbroken document come from its content. -/
theorem Shape.anchorControls_marks {d : Document α} {D : ScoreDefinition}
    {r page system : Node α} {content detached : Forest (Node α)}
    (hd : d.Shape D r (.tree page (.tree system content)) detached) :
    d.anchorControls.1 =
      (content.links (some system)).flatMap fun l => d.anchorMarks l.1 l.2 := by
  have hpage : page.tag = .page := hd.tag_of_mem_pages List.mem_cons_self
  have hsystem : system.tag = .system := hd.tag_of_mem_systems List.mem_cons_self
  rw [hd.wellFormed.anchorControls_eq, hd.score]
  simp only [Forest.tree, Forest.links, List.append_nil, List.flatMap_cons]
  rw [d.anchorMarks_of_tag_ne (by rw [hd.root_tag]; decide),
    d.anchorMarks_of_tag_ne (by rw [hpage]; decide),
    d.anchorMarks_of_tag_ne (by rw [hsystem]; decide)]
  rfl

/-- An unbroken document after preparation. -/
theorem Shape.prepared {d : Document α} {D : ScoreDefinition} {r page system : Node α}
    {content detached : Forest (Node α)}
    (hd : d.Shape D r (.tree page (.tree system content)) detached) (stage : Stage) :
    Shape { d.reset.anchorControls.2 with stage } D r.reset (.tree page.reset (.tree system.reset
      ((content.map Node.reset).mapLinked d.reset.anchored (some system.reset)))) detached := by
  have hreset : d.reset.Shape D r.reset (.tree page.reset (.tree system.reset
      (content.map Node.reset))) detached := hd.reset
  exact hreset.of_score (d.reset.sameTree_anchorControls.withStage stage)
    hreset.anchorControls_score

section Prepared

variable {d d' : Document α} {r r' page page' system system' : Node α}
  {content content' detached detached' : Forest (Node α)} {D : ScoreDefinition}
  (hd : d.Shape D r (.tree page (.tree system content)) detached)
  (hd' : d'.Shape D r' (.tree page' (.tree system' content')) detached')
  (hcontent : Forest.Padded (fun n => n.tag = .control ∧ T.spare n.handle)
    (fun n n' => n.SameMusic n' ∧ ¬ T.spare n.handle) content content')
  (hsymbols : ∀ a, T.symbol a ↔ d.HasSymbol a)
  (hshared : ∀ l ∈ content.links (some system), ∀ c, l.2.kind = .control c →
    (d'.reset.anchor? (inMeasure l.1) l.2.id c).toOption =
      (d.reset.anchor? (inMeasure l.1) l.2.id c).toOption)

include hd hd' hcontent hsymbols hshared

/-- The contents of two unbroken documents after preparation. -/
theorem Shape.padded_prepared {P : Node α → Prop}
    (hspare : ∀ l ∈ content'.links (some system'), ∀ c, l.2.kind = .control c →
      T.spare l.2.handle → P (d'.reset.anchored (l.1.map Node.reset) l.2.reset)) :
    Forest.Padded P (Node.Akin T)
    ((content.map Node.reset).mapLinked d.reset.anchored (some system.reset))
    ((content'.map Node.reset).mapLinked d'.reset.anchored (some system'.reset)) := by
  have hlinks {content : Forest (Node α)} {system : Node α} {l : Option (Node α) × Node α}
      (hl : l ∈ (content.map Node.reset).links (some system.reset)) :
      ∃ l₀ ∈ content.links (some system), l = (l₀.1.map Node.reset, l₀.2.reset) := by
    rw [show some system.reset = (some system).map Node.reset from rfl, Forest.links_map,
      List.mem_map] at hl
    obtain ⟨l₀, hl₀, rfl⟩ := hl
    exact ⟨l₀, hl₀, rfl⟩
  have hreset : Forest.Padded (fun n => n.tag = .control ∧ T.spare n.handle) (Node.Akin T)
      (content.map Node.reset) (content'.map Node.reset) := by
    refine hcontent.mem.map (fun n hn => ⟨n.tag_reset.trans hn.1.1, hn.1.2⟩) fun n n' hn =>
      hn.1.1.akin_reset (hd.wellFormed.not_isFrame ?_) hn.1.2
    rw [hd.content_eq, Forest.branches_tree, Forest.branches_tree]
    exact hn.2.1
  refine hreset.mapLinked (A := fun a a' => inMeasure a' = inMeasure a) (fun n n' hn => ?_) ?_
    (fun l hl hn => ?_) fun l hl l' _ habove hn => ?_
  · rw [inMeasure, inMeasure, Option.map_some, Option.map_some, hn.tag]
  · have htag : system.tag = .system := hd.tag_of_mem_systems List.mem_cons_self
    have htag' : system'.tag = .system := hd'.tag_of_mem_systems List.mem_cons_self
    rw [inMeasure, inMeasure, Option.map_some, Option.map_some, Node.tag_reset, Node.tag_reset,
      htag, htag']
  · obtain ⟨l₀, hl₀, rfl⟩ := hlinks hl
    obtain ⟨c, hc⟩ := NodeKind.exists_of_control hn.1
    exact hspare l₀ hl₀ c (Node.kind_of_reset hc) hn.2
  · obtain ⟨l₀, hl₀, rfl⟩ := hlinks hl
    refine (d.sameTree_reset.wellFormed hd.wellFormed).akin_anchored (fun a ha => ?_) hn habove
      fun c hc => ?_
    · exact (hsymbols a).2 (ha.of_sameMusic (d.sameTree_reset.sameContent.content.flip.mono
        fun _ _ h => Node.SameMusic.symm h))
    · have hok := hshared l₀ hl₀ c (Node.kind_of_reset hc)
      rwa [← inMeasure_map Node.tag_reset l₀.1] at hok

omit hd' hcontent hsymbols hshared in
/-- The roots of two unbroken documents after preparation. -/
theorem Shape.reset_root_eq (hr : r.SameMusic r') (hown : ¬ T.spare r.handle) :
    r'.reset = r.reset := by
  refine (hr.akin_reset ?_ hown).eq ?_
  · rw [Node.IsFrame, hd.root_tag]
    decide
  · rw [Node.tag_reset, hd.root_tag]
    decide

omit hd' hcontent hsymbols hshared in
theorem Shape.near_reset_root (hown : ¬ T.spare r.handle) : r.reset.Near T r.reset := by
  refine Node.near_self (fun _ => hown) fun ht => ?_
  rw [Node.tag_reset, hd.root_tag] at ht
  exact absurd ht (by decide)

/-- Two unbroken documents after preparation. -/
theorem Shape.readied (hr : r.SameMusic r') (hown : ¬ T.spare r.handle)
    (hspare : ∀ l ∈ content'.links (some system'), ∀ c, l.2.kind = .control c →
      T.spare l.2.handle → (d'.reset.anchored (l.1.map Node.reset) l.2.reset).IsSpare T)
    (hids : d'.musicIds.Perm d.musicIds) (hfree : Unreserved detached)
    (hfree' : Unreserved detached') (stage : Stage) :
    Readied T { d.reset.anchorControls.2 with stage } { d'.reset.anchorControls.2 with stage } := by
  have hp := hd.prepared stage
  have hp' := hd'.prepared stage
  have htree := d.sameTree_reset.trans (d.reset.sameTree_anchorControls.withStage stage)
  have htree' := d'.sameTree_reset.trans (d'.reset.sameTree_anchorControls.withStage stage)
  have hpadded := hd.padded_prepared hd' hcontent hsymbols hshared hspare
  have hstage : ({ d'.reset.anchorControls.2 with stage } : Document α).stage =
      ({ d.reset.anchorControls.2 with stage } : Document α).stage := rfl
  generalize ({ d.reset.anchorControls.2 with stage } : Document α) = e at hp htree hstage ⊢
  generalize ({ d'.reset.anchorControls.2 with stage } : Document α) = e' at hp' htree' hstage ⊢
  rw [hd.reset_root_eq hr hown] at hp'
  refine ⟨⟨r.reset, page.reset, page'.reset, system.reset, system'.reset, _, _,
    ?_, ?_, hd.near_reset_root hown, hpadded⟩, ?_, hp'.definition.trans hp.definition.symm, hstage,
    ?_, ?_, ?_⟩
  · rw [hp.definition, hp.rest]
    exact hp
  · rw [hp'.definition, hp'.rest]
    exact hp'
  · rw [htree.sameContent.musicIds_eq, htree'.sameContent.musicIds_eq]
    exact hids
  · rw [hp.rest]
    exact hfree
  · rw [hp'.rest]
    exact hfree'
  · exact fun a ha => ((hsymbols a).1 ha).of_sameMusic htree.sameContent.content

end Prepared

end Document

end ScoreLayout
