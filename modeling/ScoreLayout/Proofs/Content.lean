import ScoreLayout.Proofs.Layout.Content
import ScoreLayout.Proofs.Reachable

/-!
# What a layout keeps

A layout takes all pages and systems of a score away and makes new ones. Whatever the options, the
metrics, and the pages and systems before, the content comes out as it went in, in systems and on
pages of which none is empty.

## Main definitions

* `Document.Ready` — what every pass of a layout relies on and leaves behind.
* `Document.Kept` — what a layout keeps.

## Main results

* `Document.Ready.run`, `Document.Ready.layout` — the content after a pass and after a layout.
* `Document.Reachable.kept_layout` — what a caller comes to keeps its content in every layout.
-/

namespace ScoreLayout

variable {α : Type} [Scalar α]

namespace Document

/-! ### Documents ready for a layout -/

/-- What every pass of a layout relies on. -/
structure Ready (d : Document α) : Prop where
  wellFormed : d.WellFormed
  unreserved : Unreserved d.trees.rest
  settled : d.Settled

theorem Ready.run {d : Document α} (hd : d.Ready) (e : Engine α) (pass : LayoutPass) :
    d.SameContent (e.run d pass).document ∧ (e.run d pass).document.Ready := by
  obtain ⟨r, pages, hshape⟩ := hd.wellFormed.exists_shape
  have hsame := hshape.sameContent_run hd.unreserved hd.settled e pass
  exact ⟨hsame, hd.wellFormed.run e pass, hsame.rest ▸ hd.unreserved,
    hd.wellFormed.settled_run hd.settled e pass⟩

/-- What holds before passes and after each of them holds after all of them. -/
theorem foldl_run {P : Document α → Prop} {e : Engine α} :
    (passes : List LayoutPass) → {o : Outcome α} →
    (∀ d, P d → ∀ pass ∈ passes, P (e.run d pass).document) → P o.document →
      P (passes.foldl (fun o pass => o.andThen fun d => e.run d pass) o).document
  | [], _, _, ho => ho
  | pass :: passes, o, hrun, ho => by
      rw [List.foldl_cons]
      refine foldl_run passes (fun d hd pass hp => hrun d hd pass (List.mem_cons_of_mem _ hp)) ?_
      rw [Outcome.andThen]
      split
      · exact ho
      · exact hrun o.document ho pass List.mem_cons_self

theorem Ready.layout {d : Document α} (hd : d.Ready) (e : Engine α) :
    d.SameContent (e.layout d).document ∧ (e.layout d).document.Ready := by
  rw [Engine.layout, Engine.runAll]
  exact foldl_run LayoutPass.all (P := fun d' => d.SameContent d' ∧ d'.Ready)
    (fun _ h pass _ => ⟨h.1.trans (h.2.run e pass).1, (h.2.run e pass).2⟩) ⟨.refl d, hd⟩

/-! ### Scores without content -/

omit [Scalar α] in
/-- What stands above all content. -/
theorem NodeKind.of_depth_le {k : NodeKind α} (h : k.tag.depth ≤ 2) :
    k = .document ∨ (∃ p, k = .page p) ∨ ∃ s, k = .system s := by
  cases k <;> simp_all [NodeKind.tag, NodeTag.depth]

/-- A score without content at some stage of its layout. -/
structure Bare (d : Document α) (stage : Stage) : Prop where
  ready : d.Ready
  content : d.content = .nil
  stage : d.stage = stage

namespace Bare

variable {d : Document α} {stage : Stage} (hd : d.Bare stage)

include hd

omit [Scalar α] in
/-- The nodes of a score without content stand above all content. -/
theorem depth_le {n : Node α} (hn : n ∈ d.score.toList) : n.tag.depth ≤ 2 := by
  obtain ⟨r, pages, hshape⟩ := hd.ready.wellFormed.exists_shape
  have hnil : pages.branches.branches = .nil := hshape.content_eq ▸ hd.content
  rw [hshape.score, Forest.toList_tree, List.mem_cons,
    Forest.mem_toList_iff, Forest.mem_toList_iff (f := pages.branches), hnil, Forest.toList] at hn
  rcases hn with rfl | hn | hn | hn
  · rw [hshape.root_tag]
    decide
  · rw [hshape.tag_of_mem_pages hn]
    decide
  · rw [hshape.tag_of_mem_systems hn]
    decide
  · exact absurd hn List.not_mem_nil

/-- A walk that meets no fault above the content meets none at all. -/
theorem run_of_depth {σ : Type} {p : Pass σ (Node α)} (fault : σ → Option Fault)
    (henter : ∀ s parent (n : Node α), fault s = none → n.tag.depth ≤ 2 →
      n.SameMusic (p.enter s parent n).2.1 ∧ fault (p.enter s parent n).1 = none)
    (hleave : ∀ s whole (n : Node α) below, fault s = none → n.tag.depth ≤ 2 →
      n.SameMusic (p.leave s whole n below).2.1 ∧
        Forest.Forall₂ Node.SameMusic below (p.leave s whole n below).2.2.1 ∧
          fault (p.leave s whole n below).1 = none)
    {s : σ} (hs : fault s = none) : fault (d.score.run p s).1 = none :=
  (Forest.forall₂_runWithin Node.SameMusic.refl (fun _ _ _ => Node.SameMusic.trans)
    (fun a b hab ha => by rwa [hab.tag]) henter hleave d.score (fun n hn => hd.depth_le hn)
    none id s hs).2

/-- The score after a pass that has met no fault. -/
theorem of_run (e : Engine α) (pass : LayoutPass) {stage' : Stage}
    (hs : (e.run d pass).document.stage = stage') : (e.run d pass).document.Bare stage' := by
  obtain ⟨hsame, hready⟩ := hd.ready.run e pass
  exact ⟨hready, hsame.content.eq_nil_iff.1 hd.content, hs⟩

theorem fault_align (hs : stage = .prepared) (metrics : GlyphMetrics α) (unit : α) :
    (d.align metrics unit).fault = none ∧ (d.align metrics unit).document.stage = .aligned := by
  have hfault : (d.fillGrids metrics unit).1.fault = none := by
    refine hd.run_of_depth AlignState.fault (fun s parent n hs hn => ?_)
      (fun s whole n below hs hn => ?_) rfl
    · dsimp only [alignPass, AlignState.enter]
      rcases NodeKind.of_depth_le hn with hk | ⟨_, hk⟩ | ⟨_, hk⟩ <;> (rw [hk]; exact ⟨.refl n, hs⟩)
    · dsimp only [alignPass, AlignState.leave]
      rcases NodeKind.of_depth_le hn with hk | ⟨_, hk⟩ | ⟨_, hk⟩ <;>
        (rw [hk]; exact ⟨.refl n, .refl fun m _ => .refl m, hs⟩)
  rw [Document.align, Outcome.guarded, hd.stage, hs]
  dsimp only [Step.fault?]
  rw [if_pos (by decide), hfault]
  exact ⟨rfl, rfl⟩

theorem fault_space (hs : stage = .aligned) (options : LayoutOptions α) :
    (d.space options).fault = none ∧ (d.space options).document.stage = .spaced := by
  have hfault : (d.score.run (spacingPass (options.spacing d.longest)) none).1 = none := by
    refine hd.run_of_depth id (fun s parent n hs hn => ?_)
      (fun s whole n below hs _ => ⟨.refl n, .refl fun m _ => .refl m, hs⟩) rfl
    dsimp only [spacingPass]
    rcases NodeKind.of_depth_le hn with hk | ⟨_, hk⟩ | ⟨_, hk⟩ <;> (rw [hk]; exact ⟨.refl n, hs⟩)
  rw [Document.space, Outcome.guarded, hd.stage, hs]
  dsimp only [Step.fault?]
  rw [if_pos (by decide), hfault]
  exact ⟨rfl, rfl⟩

theorem fault_stackStaves (hs : stage = .systems) (options : LayoutOptions α)
    (metrics : GlyphMetrics α) :
    (d.stackStaves options metrics).fault = none ∧
      (d.stackStaves options metrics).document.stage = .stacked := by
  rw [Document.stackStaves, Outcome.guarded, hd.stage, hs]
  dsimp only [Step.fault?]
  rw [if_pos (by decide)]
  dsimp only
  generalize (⟨d, metrics, options.scaledUnit, options.spacingStaff * options.scaledUnit⟩ :
    StackingContext α) = c
  have hfault : (d.score.run (stackingPass c) .start).1.fault = none := by
    refine hd.run_of_depth Stacking.fault (fun s parent n hs hn => ?_)
      (fun s whole n below hs hn => ?_) rfl
    · dsimp only [stackingPass]
      rcases NodeKind.of_depth_le hn with hk | ⟨_, hk⟩ | ⟨_, hk⟩ <;> (rw [hk]; exact ⟨.refl n, hs⟩)
    · dsimp only [stackingPass]
      rcases NodeKind.of_depth_le hn with hk | ⟨_, hk⟩ | ⟨_, hk⟩ <;> rw [hk]
      · exact ⟨.refl n, .refl fun m _ => .refl m, hs⟩
      · exact ⟨.refl n, .refl fun m _ => .refl m, hs⟩
      · dsimp only [Stacking.leaveSystem]
        split
        · exact ⟨⟨rfl, rfl, NodeKind.bare_mapSystem ..⟩, .refl fun m _ => .refl m, hs⟩
        · exact ⟨.refl n, .refl fun m _ => .refl m, hs⟩
  rw [hfault]
  exact ⟨rfl, rfl⟩

/-- Without content there are no systems. -/
theorem fault_breakSystems (hs : stage = .spaced) (options : LayoutOptions α)
    (metrics : GlyphMetrics α) :
    (d.breakSystems options metrics).fault = none ∧
      (d.breakSystems options metrics).document.stage = .systems ∧
      (d.breakSystems options metrics).document.pages.map Node.id = [contentPageId] ∧
      (d.breakSystems options metrics).document.score.branches.branches = .nil := by
  obtain ⟨r, pages, hshape⟩ := hd.ready.wellFormed.exists_shape
  obtain ⟨page, systems, d₁, d', hok, hd', hstage, hsystems, -, hid, -⟩ :=
    hshape.breakContent hd.ready.unreserved options metrics
  rw [Document.breakSystems, Outcome.guarded, hd.stage, hs]
  dsimp only [Step.fault?]
  rw [if_pos (by decide), hok]
  refine ⟨rfl, hstage, ?_, ?_⟩
  · show d'.pages.map Node.id = _
    rw [hd'.pages_eq, Forest.tree, Forest.roots, Forest.roots, List.map_singleton, hid]
  · show d'.score.branches.branches = _
    rw [hd'.score, Forest.tree, Forest.branches, Forest.branches, Forest.append_nil, Forest.tree,
      Forest.branches, Forest.branches, Forest.append_nil]
    exact hsystems.noLeaf.eq_nil (hsystems.branches.eq_nil_iff.1 hd.content)

/-- Without systems there are no pages. -/
theorem fault_breakPages (hs : stage = .stacked) (hid : d.pages.map Node.id = [contentPageId])
    (hsystems : d.score.branches.branches = .nil) (options : LayoutOptions α) :
    (d.breakPages options).fault = none ∧ (d.breakPages options).document.score.branches = .nil := by
  obtain ⟨r, pages, hshape⟩ := hd.ready.wellFormed.exists_shape
  rw [hshape.pages_eq] at hid
  obtain ⟨page, hpages, hpage⟩ := List.map_eq_singleton_iff.1 hid
  obtain ⟨systems, rfl⟩ := Forest.eq_tree_of_roots hpages
  rw [hshape.score, Forest.tree, Forest.branches, Forest.branches, Forest.append_nil, Forest.tree,
    Forest.branches, Forest.branches, Forest.append_nil] at hsystems
  have hmem : page ∈ d.score.toList := by
    rw [hshape.score]
    simp [Forest.tree, Forest.toList]
  have hpages : d.Shape d.definition r (.nil ++ .tree page systems) d.trees.rest := hshape
  obtain ⟨made, d', hok, hd', -, hmade⟩ := hpages.paginate options
  rw [Document.breakPages, Outcome.guarded, hd.stage, hs]
  dsimp only [Step.fault?]
  rw [if_pos (by decide), hd.ready.wellFormed.findLive?_eq_some_iff.2 ⟨page, hmem, hpage, rfl⟩]
  dsimp only
  rw [hok]
  refine ⟨rfl, ?_⟩
  show d'.score.branches = _
  rw [hd'.score, Forest.tree, Forest.branches, Forest.branches, Forest.append_nil]
  refine hmade.noLeaf.eq_nil (hmade.branches.eq_nil_iff.1 hsystems)

end Bare

/-! ### Whole layouts -/

omit [Scalar α] in
/-- A further pass after one that has met no fault. -/
theorem andThen_of_fault {P : Document α → Prop} (next : Document α → Outcome α) {o : Outcome α}
    (ho : o.fault = none) (h : (next o.document).fault = none ∧ P (next o.document).document) :
    (o.andThen next).fault = none ∧ P (o.andThen next).document := by
  rw [Outcome.andThen, ho]
  exact h

theorem Ready.fault_prepare {d : Document α} (hd : d.Ready) :
    d.prepare.fault = none ∧ d.prepare.document.stage = .prepared := by
  obtain ⟨r, pages, hshape⟩ := hd.wellFormed.exists_shape
  obtain ⟨_, _, d₁, hok, -⟩ := hshape.unbreak?
  rw [Document.prepare, hok]
  exact ⟨rfl, rfl⟩

/-- In a score without content no page is left. -/
theorem Ready.layout_of_nil {d : Document α} (hd : d.Ready) (hc : d.content = .nil)
    (e : Engine α) : (e.layout d).document.score.branches = .nil := by
  have hbare {stage stage' : Stage} {d : Document α} (hd : d.Bare stage) (pass : LayoutPass)
      (h : (e.run d pass).fault = none ∧ (e.run d pass).document.stage = stage') :
      (e.run d pass).fault = none ∧ (e.run d pass).document.Bare stage' :=
    ⟨h.1, hd.of_run e pass h.2⟩
  have hstart : d.Bare d.stage := ⟨hd, hc, rfl⟩
  obtain ⟨h₁, hd₁⟩ := andThen_of_fault (fun d => e.run d .prepare)
    (o := .done d []) (P := (Bare · .prepared)) rfl (hbare hstart .prepare hd.fault_prepare)
  obtain ⟨h₂, hd₂⟩ := andThen_of_fault (fun d => e.run d .align) (P := (Bare · .aligned)) h₁
    (hbare hd₁ .align (hd₁.fault_align rfl e.metrics e.options.scaledUnit))
  obtain ⟨h₃, hd₃⟩ := andThen_of_fault (fun d => e.run d .space) (P := (Bare · .spaced)) h₂
    (hbare hd₂ .space (hd₂.fault_space rfl e.options))
  have hempty {d d' : Document α} (h : d.SameTree d')
      (hd : d.pages.map Node.id = [contentPageId] ∧ d.score.branches.branches = .nil) :
      d'.pages.map Node.id = [contentPageId] ∧ d'.score.branches.branches = .nil :=
    ⟨h.pages.trans hd.1, h.score.branches.branches.eq_nil_iff.1 hd.2⟩
  obtain ⟨h₄, hd₄, hpages₄⟩ := andThen_of_fault (fun d => e.run d .breakSystems) h₃
    (P := fun d => d.Bare .systems ∧
      d.pages.map Node.id = [contentPageId] ∧ d.score.branches.branches = .nil) <| by
    obtain ⟨hfault, hstage, hpages⟩ := hd₃.fault_breakSystems rfl e.options e.metrics
    exact ⟨hfault, hd₃.of_run e .breakSystems hstage, hpages⟩
  obtain ⟨h₅, hd₅, hid₅, hsystems₅⟩ := andThen_of_fault (fun d => e.run d .stackStaves) h₄
    (P := fun d => d.Bare .stacked ∧
      d.pages.map Node.id = [contentPageId] ∧ d.score.branches.branches = .nil) <| by
    obtain ⟨hfault, hstage⟩ := hd₄.fault_stackStaves rfl e.options e.metrics
    exact ⟨hfault, hd₄.of_run e .stackStaves hstage,
      hempty (sameTree_stackStaves _ e.options e.metrics) hpages₄⟩
  obtain ⟨h₆, hd₆, hpages₆⟩ := andThen_of_fault (fun d => e.run d .breakPages) h₅
    (P := fun d => d.WellFormed ∧ d.score.branches = .nil) <| by
    obtain ⟨hfault, hpages⟩ := hd₅.fault_breakPages rfl hid₅ hsystems₅ e.options
    exact ⟨hfault, hd₅.ready.wellFormed.breakPages e.options, hpages⟩
  rw [Engine.layout, Engine.runAll, LayoutPass.all, List.foldl_cons, List.foldl_cons,
    List.foldl_cons, List.foldl_cons, List.foldl_cons, List.foldl_cons]
  refine (foldl_run (e := e) [.fillLines, .fillPages, .place]
    (P := fun d => d.WellFormed ∧ d.score.branches = .nil) ?_ ⟨hd₆, hpages₆⟩).2
  intro d ⟨hd, hpages⟩ pass hpass
  have hwalk {d' : Document α} (h : d.SameTree d') : d'.WellFormed ∧ d'.score.branches = .nil :=
    ⟨h.wellFormed hd, h.score.branches.eq_nil_iff.1 hpages⟩
  simp only [List.mem_cons, List.not_mem_nil, or_false] at hpass
  rcases hpass with rfl | rfl | rfl
  · exact hwalk (hd.sameTree_fillLines e.options)
  · exact hwalk (hd.sameTree_fillPages e.options)
  · exact hwalk (hd.sameTree_place e.options e.metrics)

/-- After a layout no page and no system is empty. -/
theorem Ready.filled_layout {d : Document α} (hd : d.Ready) (e : Engine α) :
    (e.layout d).document.Filled := by
  by_cases hc : d.content = .nil
  · rw [Filled, hd.layout_of_nil hc e]
    exact ⟨trivial, trivial⟩
  · have hprepare : (e.run d .prepare).document.Ready ∧ (e.run d .prepare).document.content ≠ .nil ∧
        (e.run d .prepare).document.Filled := by
      obtain ⟨r, pages, hshape⟩ := hd.wellFormed.exists_shape
      obtain ⟨hsame, hready⟩ := hd.run e .prepare
      exact ⟨hready, fun hnil => hc (hsame.content.eq_nil_iff.2 hnil),
        hshape.filled_prepare hc⟩
    rw [Engine.layout, Engine.runAll, LayoutPass.all, List.foldl_cons]
    refine (foldl_run (e := e) LayoutPass.all.tail
      (P := fun d => d.Ready ∧ d.content ≠ .nil ∧ d.Filled) ?_
      (o := (Outcome.done d []).andThen fun d => e.run d .prepare) hprepare).2.2
    rintro d ⟨hd, hc, hfilled⟩ pass -
    obtain ⟨r, pages, hshape⟩ := hd.wellFormed.exists_shape
    obtain ⟨hsame, hready⟩ := hd.run e pass
    exact ⟨hready, fun hnil => hc (hsame.content.eq_nil_iff.2 hnil),
      hshape.filled_run hd.unreserved hd.settled hc hfilled e pass⟩

/-! ### What a caller comes to -/

theorem stage_addNamed {d d' : Document α} {parent child : Handle} {id : String}
    {kind : NodeKind α} (hok : d.addNamed parent id kind = .ok (child, d')) :
    d'.stage = .built := by
  rw [Document.addNamed] at hok
  split at hok
  · exact absurd hok (by simp)
  · split_ifs at hok
    rw [Except.ok.injEq, Prod.mk.injEq] at hok
    rw [← hok.2]

omit [Scalar α] in
theorem stage_remove {d d' : Document α} {parent child : Handle}
    (hok : d.remove parent child = .ok d') : d'.stage = .built := by
  rw [Document.remove] at hok
  split_ifs at hok
  rw [← Except.ok.inj hok]

theorem settled_add {d : Document α} (hs : d.Settled) (parent : Handle) (kind : NodeKind α) :
    (d.add parent kind).2.Settled := by
  rw [Document.add]
  dsimp only
  split
  · rename_i hok
    exact .inl (stage_addNamed hok)
  · exact hs

omit [Scalar α] in
theorem settled_detach {d d' : Document α} (hs : d.Settled) {h : Handle}
    (hok : d.detach h = .ok d') : d'.Settled := by
  rw [Document.detach] at hok
  split_ifs at hok
  split at hok
  · exact .inl (stage_remove hok)
  · exact Except.ok.inj hok ▸ hs

omit [Scalar α] in
theorem WellFormed.settled_collect {d : Document α} (hd : d.WellFormed) (hs : d.Settled) :
    d.collect.2.Settled := by
  obtain ⟨r, pages, hshape⟩ := hd.exists_shape
  have hcollected : d.collect.2.Shape d.definition r pages .nil := by
    refine ⟨hd.collect, by rw [collect_eq], ?_⟩
    rw [collect_eq, hshape.trees]
    rfl
  rw [Settled, hcollected.pages_eq, ← hshape.pages_eq, collect_eq]
  exact hs

theorem Reachable.settled {d : Document α} (h : d.Reachable) : d.Settled := by
  induction h with
  | ofDefinition definition => exact .inl rfl
  | contentSystem h hs => exact h.wellFormed.settled_contentSystem hs
  | add _ parent kind hs => exact settled_add hs parent kind
  | addNamed _ _ hok => exact .inl (stage_addNamed hok)
  | remove _ hok => exact .inl (stage_remove hok)
  | detach _ hok hs => exact settled_detach hs hok
  | collect h hs => exact h.wellFormed.settled_collect hs
  | layout h e hs =>
    rw [Engine.layout, Engine.runAll]
    exact (foldl_run LayoutPass.all (P := fun d => d.WellFormed ∧ d.Settled)
      (fun _ hd pass _ => ⟨hd.1.run e pass, hd.1.settled_run hd.2 e pass⟩) ⟨h.wellFormed, hs⟩).2
  | pass h e pass _ hs => exact h.wellFormed.settled_run hs e pass

theorem Reachable.ready {d : Document α} (h : d.Reachable) (hfree : Unreserved d.trees.rest) :
    d.Ready :=
  ⟨h.wellFormed, hfree, h.settled⟩

/-! ### What a layout keeps -/

/-- What stands in the systems of a score, by handle, system after system. -/
def contentHandles (d : Document α) : List Handle :=
  d.systems.flatMap fun system => d.children system.handle

/-- What a layout keeps of a document. -/
structure Kept (d d' : Document α) : Prop where
  /-- The systems hold the same in the same order. -/
  content : d'.contentHandles = d.contentHandles
  /-- Nothing stands in two systems, or twice in one. -/
  once : d'.contentHandles.Nodup
  /-- All that stands below the systems keeps its handle, identifier, children and music. -/
  below : ∀ system ∈ d.systems, ∀ n ∈ d.descendants system.handle, ∃ n',
    d'.node? n.handle = some n' ∧ n.SameMusic n' ∧ d'.children n.handle = d.children n.handle
  detached : d'.trees.rest = d.trees.rest
  pages : ∀ page ∈ d'.pages, d'.children page.handle ≠ []
  systems : ∀ system ∈ d'.systems, d'.children system.handle ≠ []

omit [Scalar α] in
/-- Trees that are no leaves have children. -/
theorem Shape.children_ne_nil {d : Document α} {D : ScoreDefinition} {r n : Node α}
    {pages detached f : Forest (Node α)} (hd : d.Shape D r pages detached)
    (hf : ∀ n below, Forest.HasTree n below f → Forest.HasTree n below pages) (hne : f.NoLeaf)
    (hn : n ∈ f.roots) : d.children n.handle ≠ [] := by
  obtain ⟨below, hbelow, htree⟩ := hne.of_mem_roots hn
  rw [children, childNodes, hd.below_eq (hf n below htree)]
  exact fun hnil => hbelow (Forest.roots_eq_nil.1 (List.map_eq_nil_iff.1 hnil))

theorem SameContent.contentHandles_eq {d d' : Document α} (h : d.SameContent d')
    (hd : d.WellFormed) (hd' : d'.WellFormed) : d'.contentHandles = d.contentHandles := by
  obtain ⟨r, pages, hshape⟩ := hd.exists_shape
  obtain ⟨r', pages', hshape'⟩ := hd'.exists_shape
  rw [contentHandles, contentHandles, hshape'.content_handles, hshape.content_handles]
  exact (map_eq_of_forall₂ (fun a b hab => hab.handle.symm) h.content.roots).symm

theorem SameContent.kept {d d' : Document α} (h : d.SameContent d') (hd : d.WellFormed)
    (hd' : d'.WellFormed) (hfilled : d'.Filled) : d.Kept d' := by
  obtain ⟨r, pages, hshape⟩ := hd.exists_shape
  obtain ⟨r', pages', hshape'⟩ := hd'.exists_shape
  obtain ⟨hpages, hsystems⟩ := hshape'.filled_iff.1 hfilled
  have hin {n : Node α} {below : Forest (Node α)} (ht : Forest.HasTree n below d.content) :
      Forest.HasTree n below pages := (hshape.content_eq ▸ ht).of_branches.of_branches
  have hin' {n : Node α} {below : Forest (Node α)} (ht : Forest.HasTree n below d'.content) :
      Forest.HasTree n below pages' := (hshape'.content_eq ▸ ht).of_branches.of_branches
  refine ⟨h.contentHandles_eq hd hd', ?_, ?_, h.rest, ?_, ?_⟩
  · rw [contentHandles, hshape'.content_handles, hshape'.content_eq]
    refine hshape'.nodup.sublist (List.Sublist.map _ ?_)
    rw [Forest.toList]
    exact (((Forest.sublist_roots _).trans (Forest.sublist_branches _)).trans
      (Forest.sublist_branches _)).trans ((List.sublist_append_left ..).cons r')
  · intro system hsystem n hn
    rw [hshape.systems_eq] at hsystem
    obtain ⟨below, htree, hbelow⟩ := Forest.exists_below_of_mem_roots hsystem
    rw [descendants, Forest.unwind_eq_toList, hshape.below_eq htree.of_branches] at hn
    obtain ⟨under, hunder⟩ := Forest.exists_hasTree hn
    have hn : Forest.HasTree n under d.content := hshape.content_eq ▸ hbelow n under hunder
    obtain ⟨n', under', hn', hsame, hforall⟩ := h.content.hasTree hn
    refine ⟨n', ?_, hsame, ?_⟩
    · rw [← hsame.handle]
      exact hd'.node?_handle (hshape'.mem (hin' hn').mem)
    · rw [children, childNodes, children, childNodes, hshape.below_eq (hin hn), ← hsame.handle,
        hshape'.below_eq (hin' hn')]
      exact (map_eq_of_forall₂ (fun a b hab => hab.handle.symm) hforall.roots).symm
  · intro page hpage
    rw [hshape'.pages_eq] at hpage
    exact hshape'.children_ne_nil (fun _ _ ht => ht) hpages hpage
  · intro system hsystem
    rw [hshape'.systems_eq] at hsystem
    exact hshape'.children_ne_nil (fun _ _ ht => ht.of_branches) hsystems hsystem

/-- A layout keeps the content of whatever a caller comes to, as long as nothing detached has an
identifier kept for unbroken content. -/
theorem Reachable.kept_layout {d : Document α} (h : d.Reachable)
    (hfree : Unreserved d.trees.rest) (e : Engine α) : d.Kept (e.layout d).document := by
  obtain ⟨hsame, hready⟩ := (h.ready hfree).layout e
  exact hsame.kept h.wellFormed hready.wellFormed ((h.ready hfree).filled_layout e)

/-- A written break alone, which has its place before and after a layout. -/
theorem Reachable.kept_layout_of_break :
    ∃ d : Document Float, d.contentHandles = [3] ∧
      d.Kept (Engine.default.layout d).document := by
  refine ⟨((Document.ofDefinition default).contentSystem.2.add 2 .systemBreak).2,
    by decide +kernel, ?_⟩
  have hd := (Reachable.ofDefinition (α := Float) default).contentSystem.add 2 .systemBreak
  exact hd.kept_layout (fun n hn => absurd hn List.not_mem_nil) .default

end Document

end ScoreLayout
