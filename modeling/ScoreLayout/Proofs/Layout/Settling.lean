import ScoreLayout.Proofs.Layout.PageEmission

/-!
# The page of the unbroken content

A single breaking into pages takes the systems from the page of the unbroken content and puts them
on new pages behind all others. Their order stays only if that page is the last. Edits could upset
this, but they take a score back to its first stage, where nothing is broken; every pass, and every
other call, keeps it.

## Main definitions

* `ContentLast` — nothing comes after the identifier kept for the page of the unbroken content.
* `Document.Settled` — the page of the unbroken content is the last, unless the score has been
  edited.

## Main results

* `Document.Shape.exists_of_findLive?` — where the page of the unbroken content stands.
* `Document.WellFormed.settled_run`, `Document.WellFormed.settled_contentSystem` — what keeps a
  score settled.
-/

namespace ScoreLayout

variable {α : Type}

/-! ### Steps on edited scores -/

/-- No step runs on a score that has been edited. -/
theorem Step.exists_fault_of_built (step : Step) : ∃ f, step.fault? .built = some f := by
  cases step <;> exact ⟨_, rfl⟩

theorem Step.ne_built {step : Step} {reached : Stage} (h : step.fault? reached = none) :
    reached ≠ .built := by
  rintro rfl
  obtain ⟨f, hf⟩ := step.exists_fault_of_built
  exact Option.some_ne_none f (hf.symm.trans h)

/-! ### The last identifier -/

/-- Nothing comes after the identifier kept for the page of the unbroken content. -/
def ContentLast (ids : List String) : Prop :=
  ∀ front back, ids = front ++ Document.contentPageId :: back → back = []

theorem contentLast_of_not_mem {ids : List String} (h : Document.contentPageId ∉ ids) :
    ContentLast ids := by
  rintro front back rfl
  exact absurd (List.mem_append_right _ List.mem_cons_self) h

theorem contentLast_append {ids : List String} (h : Document.contentPageId ∉ ids) (id : String) :
    ContentLast (ids ++ [id]) := by
  intro front back heq
  obtain rfl | ⟨back, last, rfl⟩ := List.eq_nil_or_concat back
  · rfl
  · rw [List.concat_eq_append, ← List.cons_append, ← List.append_assoc] at heq
    rw [(List.append_inj' heq rfl).1] at h
    exact absurd (List.mem_append_right _ List.mem_cons_self) h

namespace Document

/-- The page of the unbroken content, if there is one, is the last, unless the score has been
edited since the last layout. -/
def Settled (d : Document α) : Prop := d.stage = .built ∨ ContentLast (d.pages.map Node.id)

theorem Settled.of_pages {d d' : Document α} (hd : d.Settled) (hs : d.stage ≠ .built)
    (hp : d'.pages.map Node.id = d.pages.map Node.id) : d'.Settled := by
  refine .inr ?_
  rw [hp]
  exact hd.resolve_left hs

namespace Shape

variable {d : Document α} {D : ScoreDefinition} {r : Node α} {pages detached : Forest (Node α)}

theorem settled_of_tree {page : Node α} {systems : Forest (Node α)}
    (hd : d.Shape D r (.tree page systems) detached) : d.Settled := by
  refine .inr ?_
  rw [hd.pages_eq]
  exact contentLast_append List.not_mem_nil page.id

/-- The last page has another identifier than those before it. -/
theorem id_ne_of_mem_front {page n : Node α} {front systems : Forest (Node α)}
    (hd : d.Shape D r (front ++ .tree page systems) detached) (hn : n ∈ front.roots) :
    n.id ≠ page.id := by
  have hnodup := hd.wellFormed.ids
  rw [ids, hd.trees, Forest.toList, List.map_cons, List.map_append, Forest.toList_append,
    List.map_append, List.nodup_cons, List.nodup_append, List.nodup_append] at hnodup
  exact hnodup.2.1.2.2 _ (List.mem_map_of_mem (Forest.mem_toList_of_mem_roots hn)) _
    (List.mem_map_of_mem List.mem_cons_self)

variable (hd : d.Shape D r pages detached)

include hd

/-- The pages are the nodes of their kind. -/
theorem mem_roots_of_tag {n : Node α} (hn : n ∈ d.score.toList) (ht : n.tag = .page) :
    n ∈ pages.roots := by
  rw [hd.score, Forest.toList_tree] at hn
  rcases List.mem_cons.1 hn with rfl | hn
  · rw [hd.root_tag] at ht
    exact absurd ht (by decide)
  · obtain ⟨a, hl⟩ := Forest.exists_link_some r hn
    have ha : a.tag = .document := NodeKind.eq_document_of_accepts (hd.accepts hl) ht
    have hlink : (some a, n) ∈ d.trees.links none := by
      rw [hd.trees, Forest.links]
      exact List.mem_cons_of_mem _ (List.mem_append_left _ hl)
    have hroot : a.handle = Document.root := by
      rcases Forest.mem_of_mem_links hl with har | hmem
      · rw [← Option.some.inj har]
        exact hd.root_handle
      · exact absurd ha (hd.wellFormed.tag_ne_document_of_mem_below hd.trees hmem)
    rw [← hd.pages_eq, Document.pages, hd.wellFormed.mem_childNodes_iff]
    exact ⟨a, hlink, hroot⟩

theorem contentPageId_mem_iff :
    contentPageId ∈ pages.roots.map Node.id ↔ ∃ h, d.findLive? contentPageId = some h := by
  simp only [hd.wellFormed.findLive?_eq_some_iff, List.mem_map]
  constructor
  · rintro ⟨n, hn, hid⟩
    refine ⟨n.handle, n, ?_, hid, rfl⟩
    rw [hd.score, Forest.tree, Forest.toList]
    exact List.mem_cons_of_mem _ (List.mem_append_left _ (Forest.mem_toList_of_mem_roots hn))
  · rintro ⟨_, n, hn, hid, rfl⟩
    have htag := (hd.wellFormed.reserved n ((score_sublist d).subset hn)).1 hid
    exact ⟨n, hd.mem_roots_of_tag hn htag, hid⟩

/-- The page of the unbroken content stands between other pages. -/
theorem exists_page_of_findLive? {h : Handle} (hf : d.findLive? contentPageId = some h) :
    ∃ front page systems back, pages = front ++ .cons page systems back ∧ page.handle = h ∧
      page.id = contentPageId := by
  obtain ⟨page, hpage, hid, hh⟩ := hd.wellFormed.findLive?_eq_some_iff.1 hf
  have htag := (hd.wellFormed.reserved page ((score_sublist d).subset hpage)).1 hid
  obtain ⟨front, back, hroots⟩ := List.append_of_mem (hd.mem_roots_of_tag hpage htag)
  obtain ⟨f, g, rfl, -, hg⟩ :=
    exists_append_of_roots (fun n : Node α => n) ((List.map_id' _).trans hroots)
  rw [List.map_id'] at hg
  cases g with
  | nil => simp [Forest.roots] at hg
  | cons n systems siblings =>
    obtain rfl : n = page := (List.cons.inj hg).1
    exact ⟨f, n, systems, siblings, rfl, hh, hid⟩

/-- Where the page of the unbroken content is the last, it stands behind the other pages. -/
theorem exists_of_findLive? (hs : d.Settled) (hstage : d.stage ≠ .built) {h : Handle}
    (hf : d.findLive? contentPageId = some h) :
    ∃ front page systems, pages = front ++ .tree page systems ∧ page.handle = h ∧
      page.id = contentPageId := by
  obtain ⟨front, page, systems, back, rfl, hh, hid⟩ := hd.exists_page_of_findLive? hf
  have hback : back.roots.map Node.id = [] := by
    refine hs.resolve_left hstage (front.roots.map Node.id) _ ?_
    rw [hd.pages_eq, Forest.roots_append, Forest.roots, List.map_append, List.map_cons, hid]
  rw [List.map_eq_nil_iff, Forest.roots_eq_nil] at hback
  exact ⟨front, page, systems, by rw [hback, Forest.tree], hh, hid⟩

end Shape

variable [Scalar α]

/-! ### The system of the unbroken content -/

/-- Where no system is kept for the unbroken content, one is made, on the page kept for it or on a
new page behind all others. -/
theorem Shape.exists_contentSystem {d : Document α} {D : ScoreDefinition} {r : Node α}
    {pages detached : Forest (Node α)} (hd : d.Shape D r pages detached)
    (hnone : d.findLive? contentSystemId = none) :
    ∃ front page systems back system, d.contentSystem.1 = system.handle ∧
      d.contentSystem.2.Shape D r
        (front ++ .cons page (systems ++ .tree system .nil) back) detached ∧
      d.contentSystem.2.stage = d.stage ∧
      (pages = front ++ .cons page systems back ∨
        pages = front ∧ systems = .nil ∧ back = .nil ∧
          contentPageId ∉ pages.roots.map Node.id) := by
  have hstage (d : Document α) (parent : Handle) (base : String) (kind : NodeKind α) :
      (d.insert parent base kind).2.stage = d.stage := by
    rw [insert_eq, insertAs, attach, allocate]
    split <;> rfl
  rw [contentSystem_eq, hnone]
  dsimp only
  rw [hstage, contentPage]
  split
  · rename_i h hf
    obtain ⟨front, page, systems, back, rfl, rfl, -⟩ := hd.exists_page_of_findLive? hf
    have hpage : page.tag = .page := hd.tag_of_mem_pages (by
      rw [Forest.roots_append]
      exact List.mem_append_right _ List.mem_cons_self)
    have hmade := hd.insert contentSystemId (.system .empty) (p := page)
      (.deeper detached ((Forest.With.here systems back).append_right front))
      (NodeKind.accepts_of_page hpage rfl) (.inr (.inr ⟨rfl, rfl⟩))
    exact ⟨front, page, systems, back, _, rfl, hmade, rfl, .inl rfl⟩
  · rename_i hf
    have hmade := hd.insert contentPageId (.page .empty)
      (.here pages detached) (NodeKind.accepts_of_document hd.root_tag rfl)
      (.inr (.inl ⟨rfl, rfl⟩))
    have hmade' := hmade.insert contentSystemId (.system .empty)
      (p := .new d.allocate.1 (freeId d.ids contentPageId) (.page .empty))
      (.deeper detached ((Forest.With.here .nil .nil).append_right pages))
      (NodeKind.accepts_of_page rfl rfl) (.inr (.inr ⟨rfl, rfl⟩))
    rw [hd.root_handle] at hmade'
    refine ⟨pages, _, .nil, .nil, _, rfl, hmade', hstage .., .inr ⟨rfl, rfl, rfl, ?_⟩⟩
    rw [hd.contentPageId_mem_iff, hf]
    simp

theorem WellFormed.settled_contentSystem {d : Document α} (hd : d.WellFormed) (hs : d.Settled) :
    d.contentSystem.2.Settled := by
  obtain ⟨r, pages, hshape⟩ := hd.exists_shape
  cases hf : d.findLive? contentSystemId with
  | some h =>
    rw [contentSystem_eq, hf]
    exact hs
  | none =>
    obtain ⟨front, page, systems, back, system, -, hmade, hstage, hpages⟩ :=
      hshape.exists_contentSystem hf
    rw [Settled, hstage, hmade.pages_eq]
    refine hs.imp_right fun hlast => ?_
    rw [hshape.pages_eq] at hlast
    rcases hpages with rfl | ⟨rfl, rfl, rfl, hnone⟩
    · rwa [Forest.roots_append, Forest.roots] at hlast ⊢
    · rw [Forest.roots_append, Forest.roots, Forest.roots, List.map_append]
      exact contentLast_append hnone page.id

/-! ### Passes that write results -/

theorem SameTree.pages {d d' : Document α} (h : d.SameTree d') :
    d'.pages.map Node.id = d.pages.map Node.id := by
  have hbelow := h.trees.childrenOf? (p := hasHandle Document.root) (q := hasHandle Document.root)
    fun a b hab => by rw [hasHandle, hasHandle, hab.handle]
  rw [Document.pages, Document.pages, childNodes, childNodes, Document.below, Document.below]
  generalize d.trees.childrenOf? (hasHandle Document.root) = below at hbelow ⊢
  generalize d'.trees.childrenOf? (hasHandle Document.root) = below' at hbelow ⊢
  cases hbelow with
  | none => rfl
  | some hbelow => exact (map_eq_of_forall₂ (fun a b hab => hab.id.symm) hbelow.roots).symm

/-- A pass that runs only from some stage on and only writes results of the layout. -/
theorem SameTree.settled_guarded {step : Step} {d : Document α} {next : Document α → Outcome α}
    (h : d.SameTree (Outcome.guarded step d next).document) (hd : d.Settled) :
    (Outcome.guarded step d next).document.Settled := by
  by_cases hbuilt : d.stage = .built
  · obtain ⟨f, hf⟩ := step.exists_fault_of_built
    rw [Outcome.guarded, hbuilt, hf]
    exact hd
  · exact hd.of_pages hbuilt h.pages

theorem WellFormed.settled_prepare {d : Document α} (hd : d.WellFormed) :
    d.prepare.document.Settled := by
  obtain ⟨r, pages, hshape⟩ := hd.exists_shape
  obtain ⟨page, system, d₁, hok, hd₁, -⟩ := hshape.unbreak?
  have htree := (d₁.sameTree_reset.trans d₁.reset.sameTree_anchorControls).withStage .prepared
  rw [Document.prepare, hok]
  refine .inr ?_
  show ContentLast
    ((Document.pages { d₁.reset.anchorControls.2 with stage := .prepared }).map Node.id)
  rw [htree.pages, hd₁.pages_eq]
  exact contentLast_append List.not_mem_nil page.id

/-! ### Breaking into systems -/

theorem emitSystems_of_nil {rules : BreakRules α} {page : Handle} :
    {plans : List (SystemPlan α)} → {k : Nat} → {marks : List Mark} → {d : Document α} →
      (∀ p ∈ plans, p.nodes = []) → emitSystems rules page k marks d plans = .ok (marks, d)
  | [], _, _, _, _ => rfl
  | p :: plans, k, marks, d, h => by
      rw [emitSystems, h p List.mem_cons_self]
      exact emitSystems_of_nil fun q hq => h q (List.mem_cons_of_mem _ hq)

omit [Scalar α] in
/-- On a single page with a single system, only that can be kept for the unbroken content. -/
theorem Shape.id_of_findLive? {d : Document α} {D : ScoreDefinition} {r page system : Node α}
    {content detached : Forest (Node α)}
    (hd : d.Shape D r (.tree page (.tree system content)) detached) {h : Handle}
    (hf : d.findLive? contentSystemId = some h) : system.id = contentSystemId := by
  obtain ⟨n, hn, hid, -⟩ := hd.wellFormed.findLive?_eq_some_iff.1 hf
  have htag := (hd.wellFormed.reserved n ((score_sublist d).subset hn)).2 hid
  have hcontent : n ∉ content.toList := fun hmem => by
    have hdepth := hd.depth_of_mem_content (n := n) (by
      simpa [Forest.tree, Forest.branches] using hmem)
    rw [htag] at hdepth
    exact absurd hdepth (by decide)
  rw [hd.score] at hn
  simp only [Forest.tree, Forest.toList, List.append_nil, List.mem_cons] at hn
  rcases hn with rfl | rfl | rfl | hn
  · exact absurd (htag.symm.trans hd.root_tag) (by decide)
  · exact absurd (htag.symm.trans (hd.tag_of_mem_pages List.mem_cons_self)) (by decide)
  · exact hid
  · exact absurd hn hcontent

/-- A system that has just been made for the content has nothing to break. -/
theorem breakContent_of_none {d d₁ : Document α} {D : ScoreDefinition} {r page system : Node α}
    {front systems back detached : Forest (Node α)} (hok : d.unbreak? = .ok d₁)
    (hhandle : d₁.contentSystem.1 = system.handle)
    (hmade : d₁.contentSystem.2.Shape D r
      (front ++ .cons page (systems ++ .tree system .nil) back) detached)
    (options : LayoutOptions α) (metrics : GlyphMetrics α) :
    ∃ d', d.breakContent options metrics = .ok ([], d') ∧
      d'.Shape D r (front ++ .cons page systems back) detached ∧ d'.stage = .systems := by
  have htree : Forest.HasTree system .nil
      (front ++ .cons page (systems ++ .tree system .nil) back) :=
    (Forest.HasTree.deeper back ((Forest.HasTree.here .nil).append_right systems)).append_right front
  have hdestroyed := hmade.destroy
    ((Forest.Without.deeper back ((Forest.Without.here .nil).append_right systems)).append_right
      front)
  rw [Forest.append_nil, Forest.append_nil] at hdestroyed
  refine ⟨{ d₁.contentSystem.2.destroy system.handle with stage := .systems }, ?_,
    ⟨hdestroyed.wellFormed.of_eq rfl rfl rfl, hdestroyed.definition, hdestroyed.trees⟩, rfl⟩
  have hchildren : d₁.contentSystem.2.childNodes system.handle = [] := by
    rw [childNodes, hmade.below_eq htree, Forest.roots]
  rw [Document.breakContent, hok]
  dsimp only [bind, Except.bind]
  generalize d₁.contentSystem = target at hhandle hchildren
  obtain ⟨content, d₂⟩ := target
  dsimp only at hhandle hchildren ⊢
  subst hhandle
  have hnil := flatMap_nodes_planSystems options.breakRules ([] : List (BreakItem α))
  rw [List.map_nil, List.flatMap_eq_nil_iff] at hnil
  rw [hchildren, List.map_nil, emitSystems_of_nil hnil]
  rfl

/-- The system kept for the content is found again, or has been made anew and is empty. -/
theorem WellFormed.settled_breakSystems {d : Document α} (hd : d.WellFormed) (hs : d.Settled)
    (options : LayoutOptions α) (metrics : GlyphMetrics α) :
    (d.breakSystems options metrics).document.Settled := by
  rw [Document.breakSystems, Outcome.guarded]
  split
  · exact hs
  obtain ⟨r, pages, hshape⟩ := hd.exists_shape
  obtain ⟨page, system, d₁, hok, hd₁, -⟩ := hshape.unbreak?
  cases hf : d₁.findLive? contentSystemId with
  | some h =>
    obtain ⟨systems, d', hbroken, hd', -⟩ :=
      Shape.breakContent_of_unbreak? hok hd₁ (hd₁.id_of_findLive? hf) options metrics
    rw [hbroken]
    exact hd'.settled_of_tree
  | none =>
    obtain ⟨front, page', systems, back, empty, hhandle, hmade, -, hpages⟩ :=
      hd₁.exists_contentSystem hf
    obtain ⟨d', hbroken, hd', -⟩ := breakContent_of_none hok hhandle hmade options metrics
    rw [hbroken]
    refine .inr ?_
    show ContentLast (d'.pages.map Node.id)
    rw [hd'.pages_eq]
    rcases hpages with heq | ⟨rfl, rfl, rfl, hnone⟩
    · rw [← heq]
      exact contentLast_append List.not_mem_nil page.id
    · rw [Forest.roots_append, List.map_append]
      exact contentLast_append hnone page'.id

/-! ### Breaking into pages -/

/-- Once a score is broken into pages, the page of the unbroken content is gone. -/
theorem WellFormed.contentPageId_notMem_breakPages {d : Document α} (hd : d.WellFormed)
    (hs : d.Settled) (hstep : Step.pageBreaking.fault? d.stage = none) (options : LayoutOptions α) :
    contentPageId ∉ (d.breakPages options).document.pages.map Node.id := by
  obtain ⟨r, pages, hshape⟩ := hd.exists_shape
  rw [Document.breakPages, Outcome.guarded, hstep]
  dsimp only
  split
  · rename_i h hf
    obtain ⟨front, page, systems, rfl, rfl, hid⟩ :=
      hshape.exists_of_findLive? hs (Step.ne_built hstep) hf
    obtain ⟨made, d', hok, hd', -, hmade⟩ := hshape.paginate options
    rw [hok]
    show contentPageId ∉ d'.pages.map Node.id
    rw [hd'.pages_eq, Forest.roots_append, List.map_append]
    intro hmem
    rcases List.mem_append.1 hmem with hmem | hmem
    · obtain ⟨n, hn, hnid⟩ := List.mem_map.1 hmem
      exact hshape.id_ne_of_mem_front hn (hnid.trans hid.symm)
    · obtain ⟨n, hn, hnid⟩ := List.mem_map.1 hmem
      exact (hmade.endsInDigit n hn).ne_contentPageId hnid
  · rename_i hf
    show contentPageId ∉ d.pages.map Node.id
    rw [hshape.pages_eq, hshape.contentPageId_mem_iff, hf]
    simp

theorem WellFormed.settled_breakPages {d : Document α} (hd : d.WellFormed) (hs : d.Settled)
    (options : LayoutOptions α) : (d.breakPages options).document.Settled := by
  cases hstep : Step.pageBreaking.fault? d.stage with
  | some f =>
    rw [Document.breakPages, Outcome.guarded, hstep]
    exact hs
  | none => exact .inr (contentLast_of_not_mem (hd.contentPageId_notMem_breakPages hs hstep options))

/-! ### Every pass -/

/-- Every pass leaves a settled score settled, also where it ends in a fault. -/
theorem WellFormed.settled_run {d : Document α} (hd : d.WellFormed) (hs : d.Settled)
    (e : Engine α) (pass : LayoutPass) : (e.run d pass).document.Settled := by
  cases pass with
  | prepare => exact hd.settled_prepare
  | align => exact (d.sameTree_align e.metrics e.options.scaledUnit).settled_guarded hs
  | space => exact (d.sameTree_space e.options).settled_guarded hs
  | breakSystems => exact hd.settled_breakSystems hs e.options e.metrics
  | stackStaves => exact (d.sameTree_stackStaves e.options e.metrics).settled_guarded hs
  | breakPages => exact hd.settled_breakPages hs e.options
  | fillLines => exact (hd.sameTree_fillLines e.options).settled_guarded hs
  | fillPages => exact (hd.sameTree_fillPages e.options).settled_guarded hs
  | place => exact (hd.sameTree_place e.options e.metrics).settled_guarded hs

end Document

end ScoreLayout
