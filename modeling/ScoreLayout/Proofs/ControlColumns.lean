import ScoreLayout.Proofs.Layout.Columns
import ScoreLayout.Proofs.Layout.DrawnSymbols
import ScoreLayout.Proofs.Layout.Frames
import ScoreLayout.Proofs.OmittedControls
import ScoreLayout.Proofs.OverWide
import ScoreLayout.Proofs.Score.Addresses

/-!
# Control elements and the places of the music

A control element that is added to a measure moves no music sideways. It may bring a time of its own
into the grid of its measure, and a staff with it may need more room, so that systems come to stand
on other pages. But its slot is not drawn: no gap begins or ends there, and what is spaced, broken
into systems and stretched are the gaps between drawn slots.

The two layouts are followed pass by pass. After alignment the grids draw the same slots
(`MeasureGrid.DrawsSame`); after spacing the measures have the same widths, so they are broken into
the same systems; stacking, page breaks and filling then leave the columns as they are. Placement
puts measures behind the same left margin and symbols on the columns of their measures.

## Main definitions

* `Document.Further`, `Document.SystemColumns` — what two layouts have in common up to spacing, and
  from breaking into systems on.
* `Document.AddsControl` — adding a control element, with a generated or a given identifier.
* `Document.SameColumns` — two layouts with all music at the same horizontal places.

## Main results

* `Document.LacksControls.columns_layout` — two whole layouts.
* `Document.SystemColumns.exists_element` — the place of a symbol.
* `Document.Reachable.keeps_columns` — a control element added to a measure.
-/

namespace ScoreLayout

variable {α : Type} [Scalar α]

namespace Document

variable {d d' : Document α} {gone : Handle → Prop}

/-! ### Preparation -/

omit [Scalar α] in
theorem isFurther_anchored {above : Option (Node α)} {n : Node α} (h : n.IsFurther gone) :
    (d.anchored above n).IsFurther gone := by
  obtain ⟨c, hc⟩ := NodeKind.exists_of_control h.1
  obtain ⟨layout, heq⟩ := d.anchorNode_eq [] above n c
  rw [anchored, hc]
  dsimp only [NodeKind.control?]
  rw [heq]
  exact h

/-- Two documents of which one lacks control elements, after preparation. -/
theorem LacksControls.exists_prepare (h : LacksControls gone d d') (hd : d.WellFormed) :
    ∃ r page page' system system' content content',
      d'.prepare.document.Shape d.definition r (.tree page (.tree system content)) d'.trees.rest ∧
      d.prepare.document.Shape d.definition r (.tree page' (.tree system' content')) d.trees.rest ∧
      r.Near (.strict gone d'.HasSymbol) r ∧ Forest.Padded (Node.IsFurther gone)
        (Node.Akin (.strict gone d'.HasSymbol)) content content' := by
  obtain ⟨r, pages, hshape⟩ := hd.exists_shape
  obtain ⟨r', pages', hshape'⟩ := h.wellFormed.exists_shape
  obtain ⟨page, system, d₁, hok, hd₁, -⟩ := hshape.unbreak?
  obtain ⟨page', system', d₁', hok', hd₁', -⟩ := hshape'.unbreak?
  obtain ⟨hroot, hown⟩ := h.root hshape hshape'
  rw [h.definition] at hd₁'
  refine ⟨r'.reset, page'.reset, page.reset, system'.reset, system.reset, _, _, ?_, ?_,
    hd₁'.near_reset_root hown, hd₁'.padded_prepared hd₁ h.content (fun a => ?_) (fun l hl c hc => ?_)
      fun l hl c hc hgone => ?_⟩
  · rw [prepare_eq hok']
    exact hd₁'.prepared .prepared
  · have hroot : r.reset = r'.reset :=
      hd₁'.reset_root_eq (T := .strict gone d'.HasSymbol) hroot hown
    rw [prepare_eq hok, ← hroot]
    exact hd₁.prepared .prepared
  · show d'.HasSymbol a ↔ d₁'.HasSymbol a
    rw [HasSymbol, HasSymbol, hd₁'.content_eq, Forest.branches_tree, Forest.branches_tree]
  · have hresolve {id : String} {i : Handle} :
        d₁.reset.resolveAnchor id = .ok i ↔ d₁'.reset.resolveAnchor id = .ok i := by
      rw [hd₁.resolveAnchor_reset hd, hd₁'.resolveAnchor_reset h.wellFormed, h.resolveAnchor_iff hd]
    have htied (tied : Option Handle × Option Handle) :
        d₁.reset.anchor? (inMeasure l.1) l.2.id c = .ok tied ↔
          d₁'.reset.anchor? (inMeasure l.1) l.2.id c = .ok tied := by
      rw [show tied = (tied.1, tied.2) from rfl, anchor?_eq_ok_iff, anchor?_eq_ok_iff]
      exact ⟨.mono fun _ _ => hresolve.1, .mono fun _ _ => hresolve.2⟩
    generalize d₁.reset.anchor? (inMeasure l.1) l.2.id c = o,
      d₁'.reset.anchor? (inMeasure l.1) l.2.id c = o' at htied
    cases o with
    | ok tied => rw [(htied tied).1 rfl]
    | error =>
      cases o' with
      | ok tied => cases (htied tied).2 rfl
      | error => rfl
  · refine isFurther_anchored ⟨?_, hgone⟩
    rw [Node.tag_reset, Node.tag, hc]
    rfl

/-! ### Passes -/

/-- Two contents with related nodes, the second with further control elements. None of these stands
directly in a system. -/
structure Further (gone : Handle → Prop) (R : Node α → Node α → Prop) (d d' : Document α) :
    Prop where
  definition : d'.definition = d.definition
  content : Forest.Padded (Node.IsFurther gone) R d.content d'.content
  deeper : ∀ n ∈ d'.content.roots, ¬ n.IsFurther gone

/-- Two scores with their systems in the same columns. -/
def SystemColumns (gone : Handle → Prop) (d d' : Document α) : Prop :=
  Forest.Padded (Node.IsFurther gone) (Node.SameColumns gone) d.score.branches.branches
    d'.score.branches.branches

/-- Systems and measures stand at their places behind a left margin. -/
def FramedAt (left : α) (d : Document α) : Prop :=
  ∃ c : PlacingContext α, c.marginLeft = left ∧ d.score.Framed c

variable {e : Engine α} {s : Stage}

/-- Two runs that meet no fault and end in related documents. -/
structure Arrive (R : Document α → Document α → Prop) (o o' : Outcome α) : Prop where
  fault : o.fault = none
  fault' : o'.fault = none
  document : R o.document o'.document

/-- A pass that meets no fault, and those behind it. -/
theorem Arrive.runAll_cons {R S : Document α → Document α → Prop} {pass : LayoutPass}
    {passes : List LayoutPass} (h : Arrive R (e.run d pass) (e.run d' pass))
    (hnext : ∀ d d', R d d' → Arrive S (e.runAll d passes) (e.runAll d' passes)) :
    Arrive S (e.runAll d (pass :: passes)) (e.runAll d' (pass :: passes)) := by
  obtain ⟨hfault, hfault', hdocument⟩ := hnext _ _ h.document
  rw [Engine.runAll_cons, Engine.runAll_cons, Outcome.andThen, Outcome.andThen, h.fault, h.fault']
  exact ⟨hfault, hfault', hdocument⟩

/-- A pass behind alignment meets no fault. -/
theorem Together.arrive {R S : Document α → Document α → Prop} (h : Together R s d d')
    (pass : LayoutPass) (hs : pass.required ≤ s) (hp : pass ≠ .align)
    (hS : (e.run d pass).fault = none → (e.run d' pass).fault = none →
      S (e.run d pass).document (e.run d' pass).document) :
    Arrive (Together S (pass.leaves s)) (e.run d pass) (e.run d' pass) := by
  have hok := h.left.fault_run (e := e) hs hp
  have hok' := h.right.fault_run (e := e) hs hp
  exact ⟨hok, hok', hS hok hok', h.left.run_of_fault hs hok, h.right.run_of_fault hs hok'⟩

namespace Together

theorem columns_fillPages (h : Together (SystemColumns gone) .paginated d d') :
    Arrive (Together (SystemColumns gone) .justified) (e.run d .fillPages) (e.run d' .fillPages) :=
  h.arrive .fillPages (by decide) (by decide) fun _ _ => h.related.restacked
    (h.left.ready.wellFormed.restacked_fillPages (by rw [h.left.stage]; decide) e.options)
    (h.right.ready.wellFormed.restacked_fillPages (by rw [h.right.stage]; decide) e.options)

theorem columns_fillLines (h : Together (SystemColumns gone) .paginated d d') :
    Arrive (Together (SystemColumns gone) .paginated) (e.run d .fillLines) (e.run d' .fillLines) :=
  h.arrive .fillLines (by decide) (by decide) fun _ _ => by
    show Forest.Padded _ _ (d.fillLines e.options).document.score.branches.branches
      (d'.fillLines e.options).document.score.branches.branches
    rw [h.left.ready.wellFormed.systems_fillLines (by rw [h.left.stage]; decide)
        (h.left.staged.fitted (by rw [h.left.stage]; decide)),
      h.right.ready.wellFormed.systems_fillLines (by rw [h.right.stage]; decide)
        (h.right.staged.fitted (by rw [h.right.stage]; decide))]
    obtain ⟨r, pages, hshape⟩ := h.right.ready.wellFormed.exists_shape
    refine Forest.Padded.filledSystems h.related (fun n hn => ?_) e.options
    rw [hshape.score, Forest.branches_tree] at hn
    rw [hshape.tag_of_mem_systems hn]
    decide

theorem columns_breakPages (h : Together (fun d d' => SystemColumns gone d d' ∧ d.OnContentPage ∧
      d'.OnContentPage) .stacked d d') :
    Arrive (Together (SystemColumns gone) .paginated) (e.run d .breakPages) (e.run d' .breakPages) :=
  h.arrive .breakPages (by decide) (by decide) fun _ _ => h.related.1.restacked
    (h.related.2.1.restacked_breakPages (by rw [h.left.stage]; decide) e.options)
    (h.related.2.2.restacked_breakPages (by rw [h.right.stage]; decide) e.options)

theorem columns_stackStaves (h : Together (fun d d' => SystemColumns gone d d' ∧ d.OnContentPage ∧
      d'.OnContentPage) .systems d d') :
    Arrive (Together (fun d d' => SystemColumns gone d d' ∧ d.OnContentPage ∧ d'.OnContentPage)
      .stacked) (e.run d .stackStaves) (e.run d' .stackStaves) :=
  h.arrive .stackStaves (by decide) (by decide) fun _ _ =>
    ⟨h.related.1.restacked (restacked_stackStaves d e.options e.metrics).branches.branches
      (restacked_stackStaves d' e.options e.metrics).branches.branches,
      h.related.2.1.of_sameTree (sameTree_stackStaves d e.options e.metrics),
      h.related.2.2.of_sameTree (sameTree_stackStaves d' e.options e.metrics)⟩

theorem columns_breakSystems (h : Together (Further gone (Node.SameColumns gone)) .spaced d d') :
    Arrive (Together (fun d d' => SystemColumns gone d d' ∧ d.OnContentPage ∧ d'.OnContentPage)
      .systems) (e.run d .breakSystems) (e.run d' .breakSystems) :=
  h.arrive .breakSystems (by decide) (by decide) fun _ _ => by
    obtain ⟨⟨hd, hfree, -⟩, -, hstage⟩ := h.left
    obtain ⟨⟨hd', hfree', -⟩, -, hstage'⟩ := h.right
    have hs : .spaced ≤ d.stage := by rw [hstage]; decide
    have hs' : .spaced ≤ d'.stage := by rw [hstage']; decide
    exact ⟨hd.sameColumns_breakSystems hd' hfree hfree' hs hs' h.related.definition
      h.related.content (.inl h.related.deeper) e.options e.metrics,
      hd.onContentPage_breakSystems hfree hs e.options e.metrics,
      hd'.onContentPage_breakSystems hfree' hs' e.options e.metrics⟩

end Together

/-- Passes put nothing directly into systems that has not been there. -/
theorem Further.of_sameContent {R S : Node α → Node α → Prop} {d₁ d₁' : Document α}
    (h : Further gone R d d') (hd : d.SameContent d₁) (hd' : d'.SameContent d₁')
    (hcontent : Forest.Padded (Node.IsFurther gone) S d₁.content d₁'.content) :
    Further gone S d₁ d₁' where
  definition := hd'.definition.trans (h.definition.trans hd.definition.symm)
  content := hcontent
  deeper n' hn' hfurther := by
    obtain ⟨n, hn, hnn⟩ := exists_mem_of_forall₂ hd'.content.roots hn'
    exact h.deeper n hn ⟨hnn.tag.symm.trans hfurther.1, hnn.handle ▸ hfurther.2⟩

namespace Together

theorem columns_space {T : Comparison α}
    (h : Together (Further T.spare (Node.Gridded T MeasureGrid.DrawsSame)) .aligned d d') :
    Arrive (Together (Further T.spare (Node.SameColumns T.spare)) .spaced) (e.run d .space)
      (e.run d' .space) :=
  h.arrive .space (by decide) (by decide) fun hok hok' =>
    h.related.of_sameContent (h.left.ready.run e .space).1 (h.right.ready.run e .space).1
      (h.left.ready.wellFormed.sameColumns_space h.right.ready.wellFormed h.related.content
        (h.left.staged.finished (by rw [h.left.stage]; decide))
        (h.right.staged.finished (by rw [h.right.stage]; decide)) hok hok')

theorem columns_place (h : Together (SystemColumns gone) .justified d d') :
    Arrive (Together (fun d d' => SystemColumns gone d d' ∧ d.FramedAt e.options.marginLeft ∧
      d'.FramedAt e.options.marginLeft) .finalized) (e.run d .place) (e.run d' .place) :=
  h.arrive .place (by decide) (by decide) fun hok hok' => by
    have hboxed {d : Document α} (hd : d.WellFormed) (hok : (e.run d .place).fault = none) :
        Forest.Forall₂ Node.Boxed d.score (e.run d .place).document.score := by
      obtain ⟨_, _, -, hboxed, hlater⟩ := hd.exists_walk_place hok
      exact hboxed.trans hlater fun _ _ _ hn hn' => hn.trans hn'.boxed
    have hd := h.left.ready.wellFormed
    have hd' := h.right.ready.wellFormed
    refine ⟨?_, ⟨_, rfl, hd.framed_place hok⟩, _, rfl, hd'.framed_place hok'⟩
    exact Forest.Padded.relabel h.related (hboxed hd hok).branches.branches
      (hboxed hd' hok').branches.branches (fun _ _ hn hm => hn.boxed hm)
      fun _ _ _ _ hn hm hm' => hn.boxed hm hm'

end Together

/-- Two prepared documents of which one lacks control elements, after alignment. -/
theorem LacksControls.columns_align (h : LacksControls gone d' d) (hd : d.Ready) (hd' : d'.Ready)
    (hdeeper : ∀ n ∈ d'.content.roots, ¬ n.IsFurther gone) (e : Engine α) :
    (e.run d'.prepare.document .align).fault = (e.run d.prepare.document .align).fault ∧
      ((e.run d.prepare.document .align).fault = none →
        Arrive (Together (Further gone
          (Node.Gridded (.strict gone d.HasSymbol) MeasureGrid.DrawsSame)) .aligned)
          (e.run d.prepare.document .align) (e.run d'.prepare.document .align)) := by
  obtain ⟨r, page, page', system, system', content, content', hshape, hshape', hr, hcontent⟩ :=
    h.exists_prepare hd'.wellFormed
  have hready := Underway.prepare hd
  have hready' := Underway.prepare hd'
  have hs : LayoutPass.align.required ≤ Stage.prepared := by decide
  have hfurther : Further gone (fun n n' => n.SameMusic n' ∧ ¬ gone n.handle) d d' :=
    ⟨h.definition.symm, h.content, hdeeper⟩
  obtain ⟨hfault, -, hok⟩ := Shape.align_padded (hshape.definition ▸ hshape)
    (hshape'.definition ▸ hshape') hr hcontent (hshape'.definition.trans hshape.definition.symm)
    (hready'.stage.trans hready.stage.symm) tracks_drawsSame (fun _ _ _ _ => trivial) trivial
    (unnoticed_isFurther gone) (fun slots n hn => by
      rw [AlignState.applyGraceSlots]
      split
      · exact hn
      · exact hn) e.metrics e.options.scaledUnit (hready.stage ▸ hs)
  refine ⟨hfault, fun hnone => ⟨hnone, hfault.trans hnone, ?_, hready.run_of_fault hs hnone,
    hready'.run_of_fault hs (hfault.trans hnone)⟩⟩
  obtain ⟨-, -, r₁, page₁, page₁', system₁, system₁', content₁, content₁', hscore, hscore', -,
    hpadded⟩ := hok hnone
  refine hfurther.of_sameContent ((hd.run e .prepare).1.trans (hready.ready.run e .align).1)
    ((hd'.run e .prepare).1.trans (hready'.ready.run e .align).1) ?_
  show Forest.Padded _ _ (d.prepare.document.align e.metrics e.options.scaledUnit).document.content
    (d'.prepare.document.align e.metrics e.options.scaledUnit).document.content
  rw [Document.content, Document.content, hscore, hscore']
  simpa only [Forest.branches_tree] using hpadded

/-- A layout breaks down exactly where it aligns. -/
theorem Ready.fault_layout (hd : d.Ready) (e : Engine α) :
    (e.layout d).fault = (e.run d.prepare.document .align).fault := by
  rw [hd.wellFormed.layout_eq e, show LayoutPass.all.tail = .align :: LayoutPass.all.drop 2 from rfl]
  dsimp only
  rw [Engine.runAll_cons, Outcome.andThen]
  cases halign : (e.run d.prepare.document .align).fault with
  | some f => exact halign
  | none =>
    exact ((Underway.prepare hd).run_of_fault (by decide : LayoutPass.align.required ≤ .prepared)
      halign).fault_runAll (LayoutPass.all.drop 2) (LayoutPass.follow_all .prepared).2.2 (by decide)

/-- Two documents of which one lacks control elements, after a layout. -/
theorem LacksControls.columns_layout (h : LacksControls gone d' d) (hd : d.Ready) (hd' : d'.Ready)
    (hdeeper : ∀ n ∈ d'.content.roots, ¬ n.IsFurther gone) (e : Engine α) :
    (e.layout d').fault = (e.layout d).fault ∧ ((e.layout d).fault = none →
      SystemColumns gone (e.layout d).document (e.layout d').document ∧
        (e.layout d).document.FramedAt e.options.marginLeft ∧
        (e.layout d').document.FramedAt e.options.marginLeft) := by
  obtain ⟨hfault, hok⟩ := h.columns_align hd hd' hdeeper e
  rw [hd.fault_layout, hd'.fault_layout, hd.wellFormed.layout_eq, hd'.wellFormed.layout_eq]
  refine ⟨hfault, fun hnone => ?_⟩
  have harrive : Arrive (Together (fun d d' => SystemColumns gone d d' ∧
      d.FramedAt e.options.marginLeft ∧ d'.FramedAt e.options.marginLeft) .finalized)
      (e.runAll d.prepare.document LayoutPass.all.tail)
      (e.runAll d'.prepare.document LayoutPass.all.tail) :=
    (hok hnone).runAll_cons fun _ _ h =>
      (h.columns_space (T := .strict gone d.HasSymbol)).runAll_cons fun _ _ h =>
        h.columns_breakSystems.runAll_cons fun _ _ h =>
          h.columns_stackStaves.runAll_cons fun _ _ h =>
            h.columns_breakPages.runAll_cons fun _ _ h =>
              h.columns_fillLines.runAll_cons fun _ _ h =>
                h.columns_fillPages.runAll_cons fun _ _ h =>
                  h.columns_place.runAll_cons fun _ _ h => ⟨rfl, rfl, h⟩
  exact harrive.document.related

/-! ### Places -/

/-- Two documents with the same measures in the same systems, and with all music at the same
horizontal places. -/
structure SameColumns (d d' : Document α) : Prop where
  /-- The measures of the systems, one system after another. -/
  systems : (d'.systems.map fun s => (d'.measureNodes s.handle).map Node.handle) =
    d.systems.map fun s => (d.measureNodes s.handle).map Node.handle
  /-- The gaps, the width and the place of a measure in its system. -/
  measures : ∀ i, (d'.node? i).bind (fun n => n.kind.measure?.map fun m =>
      (m.grid.gaps, m.width, m.x)) =
    (d.node? i).bind fun n => n.kind.measure?.map fun m => (m.grid.gaps, m.width, m.x)
  /-- The place of a symbol on its page. -/
  elements : ∀ i, (d'.node? i).bind (fun n => n.kind.element?.map fun _ => n.box.x) =
    (d.node? i).bind fun n => n.kind.element?.map fun _ => n.box.x

omit [Scalar α] in
/-- A symbol of a system stands in one of its measures. -/
theorem WellFormed.exists_measureTree (hd : d.WellFormed) {t : Node α × Forest (Node α)}
    (ht : t ∈ d.score.branches.branches.trees) {e : Node α} (he : e ∈ t.2.toList)
    (htag : e.tag = .element) : t.1.tag = .system ∧
      ∃ u ∈ t.2.trees, u.1.tag = .measure ∧ e ∈ u.2.toList := by
  obtain ⟨r, pages, hshape⟩ := hd.exists_shape
  have htree : Forest.HasTree t.1 t.2 d.score :=
    (Forest.hasTree_of_mem_trees ht).of_branches.of_branches
  have hsystem : t.1.tag = .system := by
    rw [hshape.score, Forest.branches_tree] at ht
    exact hshape.tag_of_mem_systems (Forest.map_fst_trees pages.branches ▸ List.mem_map_of_mem ht)
  refine ⟨hsystem, ?_⟩
  obtain ⟨htakes, hnested⟩ := hd.nested_score.of_hasTree htree
  have hroot {n : Node α} (hn : n ∈ t.2.roots) := (NodeKind.tag_of_system (htakes n hn) hsystem).2
  rw [Forest.mem_toList_iff] at he
  rcases he with he | he
  · have := hroot he
    rw [← Node.tag, htag] at this
    simp at this
  · obtain ⟨u, hu, he⟩ := Forest.exists_tree_of_mem_branches he
    refine ⟨u, hu, ?_, he⟩
    refine (hroot (Forest.map_fst_trees t.2 ▸ List.mem_map_of_mem hu)).resolve_right fun hleaf => ?_
    have hbelow := (hnested.of_hasTree (Forest.hasTree_of_mem_trees hu)).1
    cases hunder : u.2 with
    | nil => rw [hunder] at he; exact List.not_mem_nil he
    | cons k under siblings =>
      refine NodeKind.not_accepts_of_tag ?_ k.kind (hbelow k (by rw [hunder]; exact List.mem_cons_self))
      exact hleaf

omit [Scalar α] in
/-- The measures of a score, system by system. -/
theorem WellFormed.map_measureNodes (hd : d.WellFormed) :
    (d.systems.map fun s => (d.measureNodes s.handle).map Node.handle) =
      d.score.branches.branches.trees.map fun t => t.2.roots.filterMap fun n =>
        if n.tag = .measure then some n.handle else none := by
  obtain ⟨r, pages, hshape⟩ := hd.exists_shape
  rw [hshape.systems_eq, hshape.score, Forest.branches_tree, ← Forest.map_fst_trees, List.map_map]
  refine List.map_congr_left fun t ht => ?_
  rw [Function.comp_apply, measureNodes, childNodes,
    hshape.below_eq (Forest.hasTree_of_mem_trees ht).of_branches, ← List.filterMap_eq_map,
    List.filterMap_filter]
  refine List.filterMap_congr fun n _ => ?_
  simp

omit [Scalar α] in
/-- What is read off nodes is the same in two documents if it is at every node that something is read
off in the first, and all such nodes are found there. -/
theorem WellFormed.bind_node?_eq (hd : d.WellFormed) (hd' : d'.WellFormed) {β : Type}
    {u : Node α → Option β}
    (h : ∀ n ∈ d.trees.toList, (u n).isSome → ∃ n' ∈ d'.trees.toList, n'.handle = n.handle ∧ u n' = u n)
    (h' : ∀ n' ∈ d'.trees.toList, (u n').isSome → ∃ n ∈ d.trees.toList, n.handle = n'.handle ∧
      (u n).isSome) (i : Handle) : (d'.node? i).bind u = (d.node? i).bind u := by
  refine Option.ext fun x => ?_
  rw [Option.bind_eq_some_iff, Option.bind_eq_some_iff]
  constructor
  · rintro ⟨n', hn', hx⟩
    obtain ⟨hmem', rfl⟩ := hd'.node?_eq_some_iff.1 hn'
    obtain ⟨n, hmem, hhandle, hsome⟩ := h' n' hmem' (by rw [hx]; rfl)
    obtain ⟨n'', hmem'', hhandle'', heq⟩ := h n hmem hsome
    obtain rfl := hd'.eq_of_handle_eq hmem'' hmem' (hhandle''.trans hhandle)
    exact ⟨n, hd.node?_eq_some_iff.2 ⟨hmem, hhandle⟩, heq.symm.trans hx⟩
  · rintro ⟨n, hn, hx⟩
    obtain ⟨hmem, rfl⟩ := hd.node?_eq_some_iff.1 hn
    obtain ⟨n', hmem', hhandle, heq⟩ := h n hmem (by rw [hx]; rfl)
    exact ⟨n', hd'.node?_eq_some_iff.2 ⟨hmem', hhandle⟩, heq.trans hx⟩

section Placed

variable (hd : d.WellFormed) (hd' : d'.WellFormed) (h : SystemColumns gone d d')

include hd hd' h

theorem SystemColumns.systems : (d'.systems.map fun s => (d'.measureNodes s.handle).map Node.handle) =
    d.systems.map fun s => (d.measureNodes s.handle).map Node.handle := by
  rw [hd.map_measureNodes, hd'.map_measureNodes]
  obtain ⟨r, pages, hshape⟩ := hd'.exists_shape
  have hplain : ∀ n ∈ d'.score.branches.branches.roots, ¬ n.IsFurther gone := fun n hn hfurther => by
    rw [hshape.score, Forest.branches_tree] at hn
    exact absurd (hfurther.1.symm.trans (hshape.tag_of_mem_systems hn)) (by decide)
  refine (map_eq_of_forall₂ (fun t t' ht => ?_) (h.trees hplain)).symm
  refine ht.filterMap_roots (fun n hn => if_neg (by rw [hn.1]; decide)) fun n n' hn => ?_
  rw [hn.tag]
  split_ifs with htag
  · rw [hn.handle (Node.not_isFrame (by rw [htag]; decide))]
  · rfl

/-- Symbols stand at the same places. -/
theorem SystemColumns.exists_element {left : α} (hframed : d.FramedAt left)
    (hframed' : d'.FramedAt left) (hslots : d.score.SlotsPlaced) (hslots' : d'.score.SlotsPlaced)
    (hdrawn : d.content.SymbolsDrawn []) {e : Node α} (he : e ∈ d.content.toList)
    (htag : e.tag = .element) :
    ∃ e' ∈ d'.content.toList, e.SameColumns gone e' ∧ e'.box.x = e.box.x := by
  obtain ⟨t, ht, het⟩ := Forest.exists_tree_of_mem_branches he
  obtain ⟨hsystem, u, hu, hmeasure, heu⟩ := hd.exists_measureTree ht het htag
  -- its system, its measure and itself in both documents
  have hs := Forest.hasTree_of_mem_trees ht
  have hn := Forest.hasTree_of_mem_trees hu
  obtain ⟨s', below', hs', hss, hbelow⟩ := Forest.Padded.exists_hasTree_right h hs
  obtain ⟨n', under', hn', hnn, hunder⟩ := hbelow.exists_hasTree_right hn
  obtain ⟨e', he', hee⟩ := hunder.exists_right e heu
  obtain ⟨system, hkind⟩ := Node.exists_system hsystem
  obtain ⟨m, hm⟩ := NodeKind.exists_of_measure hmeasure
  obtain ⟨hnone, -⟩ | ⟨_, system', hkind₀, hkind', hline⟩ := hss.system?
  · rw [hkind] at hnone
    cases hnone
  obtain rfl := NodeKind.system.inj (hkind.symm.trans (NodeKind.system?_eq_some_iff.1 hkind₀))
  obtain ⟨hnone, -⟩ | ⟨_, m', hm₀, hm', hcolumns⟩ := hnn.measure?
  · rw [hm] at hnone
    cases hnone
  obtain rfl := NodeKind.measure.inj (hm.symm.trans (NodeKind.measure?_eq_some_iff.1 hm₀))
  rw [NodeKind.system?_eq_some_iff] at hkind'
  rw [NodeKind.measure?_eq_some_iff] at hm'
  have htree := hs.of_branches.of_branches
  have htree' := hs'.of_branches.of_branches
  -- the measure begins at the same place
  obtain ⟨c, hc, hframes⟩ := hframed
  obtain ⟨c', hc', hframes'⟩ := hframed'
  have hmeasureX : n'.box.x = u.1.box.x := by
    rw [(hframes t.1 t.2 system htree hkind).2 u.1 hn.mem m hm,
      (hframes' s' below' system' htree' hkind').2 n' hn'.mem m' hm']
    show c'.marginLeft + system'.definitionWidth + m'.x = c.marginLeft + system.definitionWidth + m.x
    rw [hc, hc', hline.definitionWidth, hcolumns.x]
  -- and the slot stands at the same place in it
  have hslot : (e.layout.slot.bind m'.grid.xOf?) = e.layout.slot.bind m.grid.xOf? := by
    cases hkey : e.layout.slot with
    | none => rfl
    | some key =>
      obtain ⟨r, pages, hshape⟩ := hd.exists_shape
      exact hcolumns.grid.xOf?_eq
        (hdrawn u.1 u.2 m (hshape.hasTree_content (htree.trans hn) hmeasure) hm e heu htag key hkey)
  obtain ⟨r', pages', hshape'⟩ := hd'.exists_shape
  refine ⟨e', (hshape'.hasTree_content (htree'.trans hn') (hnn.tag.trans hmeasure)).mem_of_mem he',
    hee, ?_⟩
  rw [hslots u.1 u.2 m (htree.trans hn) hm e heu htag,
    hslots' n' under' m' (htree'.trans hn') hm' e' he' (hee.tag.trans htag), hmeasureX,
    hee.slot htag, hslot]

/-- What is read off measures, or symbols, in the systems and detached. -/
theorem SystemColumns.bind_node?_eq
    (hrest : Forest.Padded (fun n => n.tag = .control ∧ gone n.handle)
      (fun n n' => n' = { n with dirty := n'.dirty } ∧ ¬ gone n.handle) d.trees.rest d'.trees.rest)
    {t : NodeTag} (ht : t = .measure ∨ t = .element) {β : Type} {u : Node α → Option β}
    (hu : ∀ n, (u n).isSome ↔ n.tag = t) (hdirty : ∀ n dirty, u { n with dirty } = u n)
    (hcontent : ∀ n ∈ d.content.toList, n.tag = t →
      ∃ n' ∈ d'.content.toList, n.SameColumns gone n' ∧ u n' = u n) (i : Handle) :
    (d'.node? i).bind u = (d.node? i).bind u := by
  have hdepth : 3 ≤ t.depth := by rcases ht with rfl | rfl <;> decide
  have hcontrol : NodeTag.control ≠ t := by rcases ht with rfl | rfl <;> decide
  have hsplit {d : Document α} (hd : d.WellFormed) {n : Node α} (hn : n ∈ d.trees.toList)
      (htag : n.tag = t) : n ∈ d.content.toList ∨ n ∈ d.trees.rest.toList := by
    rw [toList_eq_score_append, List.mem_append] at hn
    exact hn.imp_left fun hn => hd.mem_content hn (htag ▸ hdepth)
  have hlive {d : Document α} {n : Node α} (hn : n ∈ d.content.toList) : n ∈ d.trees.toList :=
    d.content_sublist.subset hn
  have hdetached {d : Document α} {n : Node α} (hn : n ∈ d.trees.rest.toList) :
      n ∈ d.trees.toList := by
    rw [toList_eq_score_append]
    exact List.mem_append_right _ hn
  refine hd.bind_node?_eq hd' (fun n hn hsome => ?_) (fun n' hn' hsome => ?_) i
  · rcases hsplit hd hn ((hu n).1 hsome) with hn | hn
    · obtain ⟨n', hn', hnn, heq⟩ := hcontent n hn ((hu n).1 hsome)
      exact ⟨n', hlive hn', hnn.handle (hd.not_isFrame hn), heq⟩
    · obtain ⟨n', hn', heq, -⟩ := hrest.exists_right n hn
      exact ⟨n', hdetached hn', by rw [heq], by rw [heq, hdirty]⟩
  · rcases hsplit hd' hn' ((hu n').1 hsome) with hn' | hn'
    · obtain hfurther | ⟨n, hn, hnn⟩ := (Forest.Padded.branches h).exists_left n' hn'
      · exact absurd (hfurther.1.symm.trans ((hu n').1 hsome)) hcontrol
      · exact ⟨n, hlive hn, (hnn.handle (hd.not_isFrame hn)).symm,
          (hu n).2 (hnn.tag.symm.trans ((hu n').1 hsome))⟩
    · obtain hfurther | ⟨n, hn, heq, -⟩ := hrest.exists_left n' hn'
      · exact absurd (hfurther.1.symm.trans ((hu n').1 hsome)) hcontrol
      · refine ⟨n, hdetached hn, by rw [heq], ?_⟩
        rw [← hdirty n n'.dirty, ← heq]
        exact hsome

end Placed

/-! ### Adding control elements -/

/-- A document that has got a further control element below a node, with a generated or a given
identifier. -/
def AddsControl (d : Document α) (parent : Handle) (c : Control α) (d' : Document α) : Prop :=
  ∃ child, d.add parent (.control c) = (.ok child, d') ∨
    ∃ id, (id ≠ contentPageId ∧ id ≠ contentSystemId) ∧
      d.addNamed parent id (.control c) = .ok (child, d')

namespace AddsControl

variable {parent : Handle} {c : Control α} (h : d.AddsControl parent c d')

include h

/-- Generating an identifier only counts on. -/
theorem exists_addNamed : ∃ (child : Handle) (counter : Nat) (id : String),
    Document.addNamed { d with counter } parent id (.control c) = .ok (child, d') := by
  obtain ⟨child, hadd | ⟨id, -, hok⟩⟩ := h
  · rw [add] at hadd
    dsimp only at hadd
    split at hadd
    · rename_i hok
      obtain ⟨hchild, rfl⟩ := Prod.mk.inj hadd
      obtain rfl := Except.ok.inj hchild
      exact ⟨_, _, _, hok⟩
    · cases (Prod.mk.inj hadd).1
  · exact ⟨child, d.counter, id, hok⟩

theorem reachable (hd : d.Reachable) : d'.Reachable := by
  obtain ⟨child, hadd | ⟨id, hid, hok⟩⟩ := h
  · have hd' := hd.add parent (.control c)
    rwa [hadd] at hd'
  · exact hd.addNamed hid hok

/-- A control element added to a measure stands beside measures. -/
theorem exists_gainsControl (hd : d.WellFormed) (hd' : d'.WellFormed) {n : Node α}
    (hn : d.node? parent = some n) (ht : n.tag = .measure) :
    ∃ i, d.GainsControl i d' ∧ ∀ k ∈ d'.content.roots, ¬ k.IsFurther (· = i) := by
  obtain ⟨i, counter, id, hok⟩ := h.exists_addNamed
  have hd₀ : WellFormed { d with counter } := hd.of_eq rfl rfl rfl
  have hgains := hd₀.gainsControl hok
  refine ⟨i, ⟨hgains.definition, hgains.trees⟩, fun k hk hfurther => ?_⟩
  obtain ⟨p, m, hlink, hm, htag⟩ := hd₀.exists_link_addNamed hok
  rw [show Document.node? { d with counter } parent = d.node? parent from rfl, hn, Option.map_some,
    Option.some.injEq, ht] at htag
  obtain ⟨r, pages, hshape⟩ := hd'.exists_shape
  rw [hshape.content_eq] at hk
  obtain ⟨s, hs, hlink'⟩ := Forest.exists_link_branches none hk
  have hlink' : (some s, k) ∈ d'.trees.links none := by
    rw [hshape.trees, Forest.links]
    exact List.mem_cons_of_mem _
      (List.mem_append_left _ (Forest.mem_links_of_branches (some r) hlink'))
  have hparent := hd'.parentNode?_eq_some_iff.2 ⟨m, hlink, hm⟩
  rw [hd'.parentNode?_eq_some_iff.2 ⟨k, hlink', hfurther.2⟩, Option.some.injEq] at hparent
  rw [← hparent, hshape.tag_of_mem_systems hs] at htag
  cases htag

end AddsControl

/-- A control element added to a measure leaves all music at its horizontal places: both layouts meet
the same fault, or the measures stand in the same systems, with the same gaps and widths, and all
symbols at the same places. -/
theorem Reachable.keeps_columns (h : d.Reachable) (hfree : Unreserved d.trees.rest)
    {measure : Handle} {n : Node α} (hn : d.node? measure = some n) (ht : n.tag = .measure)
    {c : Control α} (hadd : d.AddsControl measure c d') (e : Engine α) :
    (e.layout d').fault = (e.layout d).fault ∧ ((e.layout d).fault = none →
      (e.layout d).document.SameColumns (e.layout d').document) := by
  have h' := hadd.reachable h
  have hd := h.ready hfree
  obtain ⟨i, hgains, hdeeper⟩ := hadd.exists_gainsControl h.wellFormed h'.wellFormed hn ht
  have hd' := h'.ready (hgains.unreserved h.wellFormed h'.wellFormed hfree)
  obtain ⟨hfault, hlayout⟩ :=
    (hgains.lacksControls h.wellFormed h'.wellFormed).columns_layout hd hd' hdeeper e
  refine ⟨hfault, fun hok => ?_⟩
  obtain ⟨hcolumns, hframed, hframed'⟩ := hlayout hok
  have hok' := hfault.trans hok
  obtain ⟨hcontent, hready⟩ := hd.layout e
  obtain ⟨hcontent', hready'⟩ := hd'.layout e
  have hrest := (hgains.parts h.wellFormed h'.wellFormed).2
  rw [← hcontent.rest, ← hcontent'.rest] at hrest
  refine ⟨hcolumns.systems hready.wellFormed hready'.wellFormed, ?_, ?_⟩
  · refine hcolumns.bind_node?_eq hready.wellFormed hready'.wellFormed hrest (.inl rfl) (fun n => ?_)
      (fun _ _ => rfl) fun n hn _ => ?_
    · rw [Option.isSome_map, Node.tag]
      cases n.kind <;> simp [NodeKind.measure?, NodeKind.tag]
    · obtain ⟨n', hn', hnn⟩ := (Forest.Padded.branches hcolumns).exists_right n hn
      refine ⟨n', hn', hnn, ?_⟩
      obtain ⟨hm, hm'⟩ | ⟨m, m', hm, hm', hsame⟩ := hnn.measure?
      · rw [hm, hm']
      · rw [hm, hm', Option.map_some, Option.map_some, hsame.grid.gaps, hsame.width, hsame.x]
  · refine hcolumns.bind_node?_eq hready.wellFormed hready'.wellFormed hrest (.inr rfl) (fun n => ?_)
      (fun _ _ => rfl) fun n hn htag => ?_
    · rw [Option.isSome_map, Node.tag]
      cases n.kind <;> simp [NodeKind.element?, NodeKind.tag]
    · obtain ⟨n', hn', hnn, hx⟩ := hcolumns.exists_element hready.wellFormed hready'.wellFormed
        hframed hframed' (hd.wellFormed.slotsPlaced_layout hd.settled hok)
        (hd'.wellFormed.slotsPlaced_layout hd'.settled hok')
        (hd.wellFormed.symbolsDrawn_layout hd.settled hok) hn htag
      refine ⟨n', hn', hnn, ?_⟩
      obtain ⟨el, hel⟩ := Node.exists_element htag
      obtain ⟨el', hel'⟩ := Node.exists_element (hnn.tag.trans htag)
      rw [hel, hel', hx]
      rfl

/-- A dynamic mark between the two quarter notes of a measure. -/
theorem Reachable.keeps_columns_of_quarters : ∃ d d' : Document ℚ, d.Reachable ∧
    (d.node? 3).map Node.tag = some .measure ∧
    d.AddsControl 3 (.dynamic (.atBeat (3 / 2) 1) "f") d' ∧ (Engine.default.layout d).fault = none ∧
    (Engine.default.layout d).document.SameColumns (Engine.default.layout d').document ∧
    ((Engine.default.layout d).document.score.toList.filterMap fun n =>
      n.kind.measure?.map fun m => (m.grid.slots.length, m.grid.gaps.length)) = [(6, 5)] ∧
    ((Engine.default.layout d').document.score.toList.filterMap fun n =>
      n.kind.measure?.map fun m => (m.grid.slots.length, m.grid.gaps.length)) = [(7, 5)] := by
  have hlayer := (((Reachable.ofDefinition (α := ℚ) default).contentSystem.add 2
    (.measure (.ofNumber 1))).add 3 (.staff ⟨1, false⟩)).add 4 (.layer 1)
  have hd := (hlayer.add 5
    (.element (.note ⟨.ofValue .quarter, ⟨.c, 4, none⟩, none, false⟩))).add 5
    (.element (.note ⟨.ofValue .quarter, ⟨.d, 4, none⟩, none, false⟩))
  have hadd {d : Document ℚ} {c : Control ℚ} {child : Handle}
      (h : (d.add 3 (.control c)).1 = .ok child) : d.AddsControl 3 c (d.add 3 (.control c)).2 :=
    ⟨child, .inl (Prod.ext h rfl)⟩
  have hkeeps {c : Control ℚ} (h : (Document.add _ 3 (.control c)).1 = .ok 8) :=
    hd.keeps_columns (fun n hn => absurd hn List.not_mem_nil)
      (show Document.node? _ 3 = some _ from rfl) rfl (hadd h) .default
  refine ⟨_, _, hd, rfl, hadd (show _ = Except.ok 8 from rfl), ?_, (hkeeps rfl).2 ?_, ?_, ?_⟩
  · decide +kernel
  · decide +kernel
  · decide +kernel
  · decide +kernel

end Document

end ScoreLayout
