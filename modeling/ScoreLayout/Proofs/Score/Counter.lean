import ScoreLayout.Layout.Engine
import ScoreLayout.Proofs.Score.Edits

/-!
# The number in generated identifiers

A document counts the identifiers that it generates. No other call reads the number or changes it:
edits, collections and passes do to a document with another number what they do to the document
itself.

## Main definitions

* `Document.withCounter` — a document with another number.

## Main results

* `Document.addNamed_withCounter`, `Document.remove_withCounter`, `Document.detach_withCounter`,
  `Document.collect_withCounter`, `Document.contentSystem_withCounter` — edits by a caller.
* `Engine.run_withCounter`, `Engine.layout_withCounter` — passes and layouts.
-/

namespace ScoreLayout

variable {α : Type}

/-- What comes after a computation whose result is changed. -/
theorem except_map_bind {ε β γ δ : Type} {f : β → β} {g : γ → δ} {next : β → Except ε δ}
    {next' : β → Except ε γ} (x : Except ε β) (h : ∀ b, next (f b) = (next' b).map g) :
    (x.map f >>= next) = (x >>= next').map g := by
  cases x with
  | error e => rfl
  | ok b => exact h b

/-- The document with another number in its last generated identifier. -/
def Document.withCounter (k : Nat) (d : Document α) : Document α := { d with counter := k }

/-- What a step does, to a document with another number. -/
def Outcome.withCounter (k : Nat) (o : Outcome α) : Outcome α :=
  { o with document := o.document.withCounter k }

namespace Document

variable (k : Nat) (d : Document α)

@[simp] theorem trees_withCounter : (d.withCounter k).trees = d.trees := rfl

@[simp] theorem definition_withCounter : (d.withCounter k).definition = d.definition := rfl

@[simp] theorem stage_withCounter : (d.withCounter k).stage = d.stage := rfl

@[simp] theorem score_withCounter : (d.withCounter k).score = d.score := rfl

@[simp] theorem node?_withCounter (h : Handle) : (d.withCounter k).node? h = d.node? h := rfl

@[simp] theorem childNodes_withCounter (h : Handle) :
    (d.withCounter k).childNodes h = d.childNodes h := rfl

theorem modify_withCounter (h : Handle) (f : Node α → Node α) :
    (d.withCounter k).modify h f = (d.modify h f).withCounter k := rfl

/-! ### Edits of nodes -/

theorem allocate_withCounter :
    (d.withCounter k).allocate = (d.allocate.1, d.allocate.2.withCounter k) := by
  obtain ⟨trees, capacity, freed, counter, definition, stage⟩ := d
  cases freed <;> rfl

theorem cut_withCounter (h : Handle) : (d.withCounter k).cut h = (d.cut h).withCounter k := by
  simp only [cut, trees_withCounter]
  cases d.trees.prune? (hasHandle h) <;> rfl

theorem destroy_withCounter (h : Handle) :
    (d.withCounter k).destroy h = (d.destroy h).withCounter k := by
  simp only [destroy, trees_withCounter]
  cases d.trees.prune? (hasHandle h) <;> rfl

theorem foldl_withCounter {β : Type} {f : Document α → β → Document α}
    (hf : ∀ d b, f (withCounter k d) b = (f d b).withCounter k) (bs : List β) :
    bs.foldl f (d.withCounter k) = (bs.foldl f d).withCounter k := by
  induction bs generalizing d with
  | nil => rfl
  | cons b bs ih => rw [List.foldl_cons, List.foldl_cons, hf, ih]

theorem reparent?_withCounter (h parent : Handle) :
    (d.withCounter k).reparent? h parent = (d.reparent? h parent).map (withCounter k) := by
  simp only [reparent?, node?_withCounter, trees_withCounter]
  cases d.node? h with
  | none => rfl
  | some n =>
    cases d.node? parent with
    | none => rfl
    | some p =>
      dsimp only
      split_ifs
      · cases d.trees.prune? (hasHandle h) <;> rfl
      · rfl

theorem reparentAll?_withCounter (nodes : List Handle) (parent : Handle) :
    (d.withCounter k).reparentAll? nodes parent =
      (d.reparentAll? nodes parent).map (withCounter k) := by
  simp only [reparentAll?]
  induction nodes generalizing d with
  | nil => rfl
  | cons h nodes ih =>
    rw [List.foldlM_cons, List.foldlM_cons, reparent?_withCounter]
    exact except_map_bind _ ih

theorem insert_withCounter [Scalar α] (parent : Handle) (base : String) (kind : NodeKind α) :
    (d.withCounter k).insert parent base kind =
      ((d.insert parent base kind).1, (d.insert parent base kind).2.withCounter k) := by
  have hid : (d.withCounter k).suffixedId base = d.suffixedId base := rfl
  rw [insert, insert, allocate_withCounter, hid]
  rfl

/-! ### Edits by a caller -/

theorem collect_withCounter :
    (d.withCounter k).collect = (d.collect.1, d.collect.2.withCounter k) := by
  refine Prod.ext rfl ?_
  dsimp only
  rw [collect_eq, collect_eq]
  rfl

theorem remove_withCounter (parent child : Handle) :
    (d.withCounter k).remove parent child = (d.remove parent child).map (withCounter k) := by
  have hchildren : (d.withCounter k).children parent = d.children parent := rfl
  simp only [remove, node?_withCounter, cut_withCounter, hchildren]
  split_ifs <;> rfl

theorem detach_withCounter (h : Handle) :
    (d.withCounter k).detach h = (d.detach h).map (withCounter k) := by
  have hparent : (d.withCounter k).parent? h = d.parent? h := rfl
  simp only [detach, node?_withCounter, hparent]
  split_ifs
  · rfl
  · rfl
  · cases d.parent? h with
    | none => rfl
    | some parent => exact d.remove_withCounter k parent h

variable [Scalar α]

theorem addNamed_withCounter (parent : Handle) (id : String) (kind : NodeKind α) :
    (d.withCounter k).addNamed parent id kind =
      (d.addNamed parent id kind).map fun p => (p.1, p.2.withCounter k) := by
  have hid : (d.withCounter k).hasNodeWithId id = d.hasNodeWithId id := rfl
  simp only [addNamed, node?_withCounter, hid, allocate_withCounter]
  cases d.node? parent with
  | none => rfl
  | some p =>
    dsimp only
    split_ifs <;> rfl

theorem contentSystem_withCounter : (d.withCounter k).contentSystem =
    (d.contentSystem.1, d.contentSystem.2.withCounter k) := by
  have hlive (d : Document α) (id : String) : (d.withCounter k).findLive? id = d.findLive? id := rfl
  simp only [contentSystem, hlive]
  cases d.findLive? contentSystemId with
  | some system => rfl
  | none =>
    cases d.findLive? contentPageId with
    | some page => exact d.insert_withCounter k page contentSystemId _
    | none =>
      dsimp only
      rw [insert_withCounter]
      exact Document.insert_withCounter k _ _ contentSystemId _

/-! ### Passes -/

theorem unbreak?_withCounter :
    (d.withCounter k).unbreak? = d.unbreak?.map (withCounter k) := by
  have hunbroken : (d.withCounter k).isUnbroken = d.isUnbroken := rfl
  have hpages : (d.withCounter k).pages = d.pages := rfl
  have hsystems : (d.withCounter k).systems = d.systems := rfl
  have hchildren : (d.withCounter k).children = d.children := rfl
  simp only [unbreak?, hunbroken, hpages, hsystems, hchildren, foldl_withCounter k _ (destroy_withCounter k),
    contentSystem_withCounter, reparentAll?_withCounter]
  split_ifs <;> rfl

theorem prepare_withCounter : (d.withCounter k).prepare = d.prepare.withCounter k := by
  have hanchor (d : Document α) : (d.withCounter k).reset.anchorControls =
      (d.reset.anchorControls.1, d.reset.anchorControls.2.withCounter k) := rfl
  simp only [prepare, unbreak?_withCounter]
  cases d.unbreak? with
  | error f => rfl
  | ok d =>
    simp only [Except.map, hanchor]
    rfl

omit [Scalar α] in
/-- A step that needs a stage. -/
theorem guarded_withCounter (step : Step) {run : Document α → Outcome α}
    (hrun : run (d.withCounter k) = (run d).withCounter k) :
    Outcome.guarded step (d.withCounter k) run = (Outcome.guarded step d run).withCounter k := by
  rw [Outcome.guarded, Outcome.guarded, stage_withCounter, hrun]
  cases step.fault? d.stage <;> rfl

omit [Scalar α] in
theorem ofExcept_withCounter (marks : List Mark) (r : Except Fault (Document α)) :
    Outcome.ofExcept (d.withCounter k) marks (r.map (withCounter k)) =
      (Outcome.ofExcept d marks r).withCounter k := by
  cases r <;> rfl

theorem align_withCounter (metrics : GlyphMetrics α) (unit : α) :
    (d.withCounter k).align metrics unit = (d.align metrics unit).withCounter k := by
  refine d.guarded_withCounter k _ ?_
  have hfill : (d.withCounter k).fillGrids metrics unit =
    ((d.fillGrids metrics unit).1, (d.fillGrids metrics unit).2.withCounter k) := rfl
  rw [hfill]
  dsimp only
  cases (d.fillGrids metrics unit).1.fault <;> rfl

theorem space_withCounter (options : LayoutOptions α) :
    (d.withCounter k).space options = (d.space options).withCounter k := by
  refine d.guarded_withCounter k _ ?_
  have hlongest : (d.withCounter k).longest = d.longest := rfl
  simp only [hlongest, score_withCounter]
  cases (d.score.run (spacingPass (options.spacing d.longest)) none).1 <;> rfl

theorem placeMeasures_withCounter (x : α) (nodes : List Handle) :
    (d.withCounter k).placeMeasures x nodes = (d.placeMeasures x nodes).withCounter k := by
  induction nodes generalizing d x with
  | nil => rfl
  | cons h nodes ih =>
    rw [placeMeasures, placeMeasures, node?_withCounter]
    cases (d.node? h).bind fun n => n.kind.measure? with
    | none => exact ih d x
    | some m =>
      dsimp only
      rw [← ih]
      rfl

theorem emitSystem_withCounter (page : Handle) (i : Nat) (overflow : Bool) (p : SystemPlan α) :
    (d.withCounter k).emitSystem page i overflow p =
      (d.emitSystem page i overflow p).map (withCounter k) := by
  simp only [emitSystem, insert_withCounter, reparentAll?_withCounter]
  exact except_map_bind _ fun d => congrArg Except.ok (d.placeMeasures_withCounter k 0 p.nodes)

theorem emitSystems_withCounter (r : BreakRules α) (page : Handle) (plans : List (SystemPlan α))
    (i : Nat) (marks : List Mark) : emitSystems r page i marks (d.withCounter k) plans =
      (emitSystems r page i marks d plans).map fun p => (p.1, p.2.withCounter k) := by
  induction plans generalizing d i marks with
  | nil => rfl
  | cons p plans ih =>
    have hmark : (d.withCounter k).overflowMark = d.overflowMark := rfl
    rw [emitSystems, emitSystems, hmark]
    split
    · exact ih d _ _
    · dsimp only
      rw [emitSystem_withCounter]
      exact except_map_bind _ fun d => ih d _ _

theorem breakContent_withCounter (options : LayoutOptions α) (metrics : GlyphMetrics α) :
    (d.withCounter k).breakContent options metrics =
      (d.breakContent options metrics).map fun p => (p.1, p.2.withCounter k) := by
  rw [breakContent, breakContent, unbreak?_withCounter]
  refine except_map_bind _ fun d => ?_
  have hparent (h : Handle) (d : Document α) : (d.withCounter k).parent? h = d.parent? h := rfl
  rw [contentSystem_withCounter]
  dsimp only
  rw [emitSystems_withCounter, hparent]
  refine except_map_bind _ fun p => ?_
  rw [destroy_withCounter]
  rfl

theorem breakSystems_withCounter (options : LayoutOptions α) (metrics : GlyphMetrics α) :
    (d.withCounter k).breakSystems options metrics =
      (d.breakSystems options metrics).withCounter k := by
  refine d.guarded_withCounter k _ ?_
  rw [breakContent_withCounter]
  cases d.breakContent options metrics <;> rfl

theorem stackStaves_withCounter (options : LayoutOptions α) (metrics : GlyphMetrics α) :
    (d.withCounter k).stackStaves options metrics =
      (d.stackStaves options metrics).withCounter k := by
  refine d.guarded_withCounter k _ ?_
  have hpass (unit spacing : α) : stackingPass ⟨d.withCounter k, metrics, unit, spacing⟩ =
    stackingPass ⟨d, metrics, unit, spacing⟩ := rfl
  simp only [hpass, score_withCounter]
  generalize d.score.run _ _ = r
  cases r.1.fault <;> rfl

omit [Scalar α] in
theorem placeSystems_withCounter (systems : List (Handle × α)) :
    (d.withCounter k).placeSystems systems = (d.placeSystems systems).withCounter k :=
  d.foldl_withCounter k (fun _ _ => rfl) systems

theorem emitPages_withCounter (plans : List (PagePlan α)) (i : Nat) :
    emitPages i (d.withCounter k) plans = (emitPages i d plans).map (withCounter k) := by
  induction plans generalizing d i with
  | nil => rfl
  | cons p plans ih =>
    have hemit : (d.withCounter k).emitPage i p = (d.emitPage i p).map (withCounter k) := by
      rw [emitPage, emitPage, placeSystems_withCounter, insert_withCounter]
      exact reparentAll?_withCounter k _ _ _
    rw [emitPages, emitPages, hemit]
    exact except_map_bind _ fun d => ih d _

theorem breakPages_withCounter (options : LayoutOptions α) :
    (d.withCounter k).breakPages options = (d.breakPages options).withCounter k := by
  refine d.guarded_withCounter k _ ?_
  have hlive : (d.withCounter k).findLive? contentPageId = d.findLive? contentPageId := rfl
  have hitem : (d.withCounter k).systemItem = d.systemItem := rfl
  rw [hlive]
  cases d.findLive? contentPageId with
  | none => rfl
  | some content =>
    dsimp only
    rw [paginate, paginate, hitem]
    dsimp only
    rw [childNodes_withCounter, emitPages_withCounter, ← ofExcept_withCounter]
    refine congrArg _ (except_map_bind _ fun d => ?_)
    rw [destroy_withCounter]
    rfl

theorem fillMeasures_withCounter (measures : List (Handle × Measure α)) (x : α)
    (gaps : List (Gap α)) : (d.withCounter k).fillMeasures x gaps measures =
      (d.fillMeasures x gaps measures).map fun p => (p.1, p.2.withCounter k) := by
  induction measures generalizing d x gaps with
  | nil => rfl
  | cons p measures ih =>
    rw [fillMeasures, fillMeasures]
    dsimp only
    cases p.2.grid.applyGaps (gaps.take p.2.grid.gaps.length) with
    | error f => rfl
    | ok grid =>
      dsimp only
      rw [modify_withCounter]
      exact ih _ _ _

theorem fillSystem_withCounter (options : LayoutOptions α) (available : α) (isLast : Bool)
    (n : Node α) : (d.withCounter k).fillSystem options available isLast n =
      (d.fillSystem options available isLast n).map (withCounter k) := by
  rw [fillSystem, fillSystem]
  cases n.kind.system? with
  | none => rfl
  | some s =>
    have hmeasures : (d.withCounter k).measuresOf n.handle = d.measuresOf n.handle := rfl
    dsimp only
    rw [hmeasures]
    split_ifs
    · rfl
    · rfl
    · rw [fillMeasures_withCounter]
      exact except_map_bind _ fun p => rfl

theorem fillSystems_withCounter (options : LayoutOptions α) (available : α)
    (systems : List (Node α)) : (d.withCounter k).fillSystems options available systems =
      (d.fillSystems options available systems).map (withCounter k) := by
  induction systems generalizing d with
  | nil => rfl
  | cons n systems ih =>
    rw [fillSystems, fillSystems, fillSystem_withCounter]
    exact except_map_bind _ ih

theorem fillLines_withCounter (options : LayoutOptions α) :
    (d.withCounter k).fillLines options = (d.fillLines options).withCounter k := by
  refine d.guarded_withCounter k _ ?_
  have hsystems : (d.withCounter k).systems = d.systems := rfl
  rw [hsystems]
  cases options.contentWidth? with
  | none => rfl
  | some available =>
    dsimp only
    rw [fillSystems_withCounter, ofExcept_withCounter]
    split_ifs <;> rfl

theorem spreadSystems_withCounter (options : LayoutOptions α) (share : α) (systems : List (Node α))
    (first : Bool) (shift : α) : spreadSystems options share first shift systems (d.withCounter k) =
      ((spreadSystems options share first shift systems d).1,
        (spreadSystems options share first shift systems d).2.withCounter k) := by
  induction systems generalizing d first shift with
  | nil => rfl
  | cons n systems ih =>
    rw [spreadSystems, spreadSystems, modify_withCounter]
    exact ih _ _ _

theorem fillPage_withCounter (options : LayoutOptions α) (available : α) (isLast : Bool)
    (n : Node α) : (d.withCounter k).fillPage options available isLast n =
      (d.fillPage options available isLast n).withCounter k := by
  rw [fillPage, fillPage]
  cases n.kind.page? with
  | none => rfl
  | some p =>
    dsimp only
    rw [childNodes_withCounter, spreadSystems_withCounter]
    split_ifs <;> rfl

theorem spreadPages_withCounter (options : LayoutOptions α) (available : α)
    (pages : List (Node α)) : (d.withCounter k).spreadPages options available pages =
      (d.spreadPages options available pages).withCounter k := by
  induction pages generalizing d with
  | nil => rfl
  | cons n pages ih => rw [spreadPages, spreadPages, fillPage_withCounter, ih]

theorem fillPages_withCounter (options : LayoutOptions α) :
    (d.withCounter k).fillPages options = (d.fillPages options).withCounter k := by
  refine d.guarded_withCounter k _ ?_
  have hpages : (d.withCounter k).pages = d.pages := rfl
  rw [hpages, spreadPages_withCounter]
  split_ifs <;> rfl

theorem placeAnchored_withCounter (c : PlacingContext α) (h : Handle) :
    (d.withCounter k).placeAnchored c h = (d.placeAnchored c h).map (withCounter k) := by
  have hend (start : Node α) (stop : Handle) :
      (d.withCounter k).spanEnd? start stop = d.spanEnd? start stop := rfl
  have hstaff (h : Handle) (tag : NodeTag) :
      (d.withCounter k).ancestorOfKind? h tag = d.ancestorOfKind? h tag := rfl
  simp only [placeAnchored, node?_withCounter, hend, hstaff]
  cases d.node? h with
  | none => rfl
  | some n =>
    dsimp only
    cases n.kind.control? with
    | none => rfl
    | some control =>
      cases n.layout.startAnchor with
      | none => rfl
      | some i =>
        dsimp only
        cases d.node? i with
        | none => rfl
        | some start =>
          dsimp only
          split_ifs
          · rfl
          · cases d.spanEnd? start (n.layout.endAnchor.getD i) <;> rfl

theorem foldlM_placeAnchored_withCounter (c : PlacingContext α) (waiting : List Handle) :
    waiting.foldlM (placeAnchored c) (d.withCounter k) =
      (waiting.foldlM (placeAnchored c) d).map (withCounter k) := by
  induction waiting generalizing d with
  | nil => rfl
  | cons h waiting ih =>
    rw [List.foldlM_cons, List.foldlM_cons, placeAnchored_withCounter]
    exact except_map_bind _ ih

/-- Placement puts nodes in their places in a copy of the document. -/
theorem placingPass_withCounter (c : PlacingContext α) :
    placingPass { c with document := c.document.withCounter k } = placingPass c := by
  have hwaiting (s : Placing α) (score : Forest (Node α)) :
      s.placeWaiting { c with document := c.document.withCounter k } score =
        s.placeWaiting c score := by
    have hd : (c.document.withCounter k).withScore (score.map s.latest) =
      (c.document.withScore (score.map s.latest)).withCounter k := rfl
    have hanchored : placeAnchored { c with document := c.document.withCounter k } =
      placeAnchored c := rfl
    rw [Placing.placeWaiting, Placing.placeWaiting, hd, hanchored, foldlM_placeAnchored_withCounter]
    generalize s.waiting.foldlM (placeAnchored c) _ = r
    cases r <;> rfl
  simp only [placingPass, hwaiting]
  rfl

theorem place_withCounter (options : LayoutOptions α) (metrics : GlyphMetrics α) :
    (d.withCounter k).place options metrics = (d.place options metrics).withCounter k := by
  refine d.guarded_withCounter k _ ?_
  dsimp only
  rw [placingPass_withCounter k ⟨metrics, _, _, _, d⟩, score_withCounter]
  generalize d.score.run _ _ = r
  cases r.1.fault <;> rfl

end Document

namespace Engine

variable [Scalar α] (k : Nat) (d : Document α) (e : Engine α)

/-- No pass reads the number or changes it. -/
theorem run_withCounter (pass : LayoutPass) :
    e.run (d.withCounter k) pass = (e.run d pass).withCounter k := by
  cases pass with
  | prepare => exact d.prepare_withCounter k
  | align => exact d.align_withCounter k ..
  | space => exact d.space_withCounter k _
  | breakSystems => exact d.breakSystems_withCounter k ..
  | stackStaves => exact d.stackStaves_withCounter k ..
  | breakPages => exact d.breakPages_withCounter k _
  | fillLines => exact d.fillLines_withCounter k _
  | fillPages => exact d.fillPages_withCounter k _
  | place => exact d.place_withCounter k ..

theorem andThen_withCounter (o : Outcome α) (pass : LayoutPass) :
    (o.withCounter k).andThen (fun d => e.run d pass) =
      (o.andThen fun d => e.run d pass).withCounter k := by
  obtain ⟨d, marks, fault⟩ := o
  cases fault with
  | some f => rfl
  | none =>
    have hrun := e.run_withCounter k d pass
    exact congrArg (fun o' : Outcome α => { o' with marks := marks ++ o'.marks }) hrun

/-- No layout reads the number or changes it. -/
theorem layout_withCounter : e.layout (d.withCounter k) = (e.layout d).withCounter k := by
  have hpasses (passes : List LayoutPass) (o : Outcome α) :
      passes.foldl (fun o pass => o.andThen fun d => e.run d pass) (o.withCounter k) =
        (passes.foldl (fun o pass => o.andThen fun d => e.run d pass) o).withCounter k := by
    induction passes generalizing o with
    | nil => rfl
    | cons pass passes ih => rw [List.foldl_cons, List.foldl_cons, andThen_withCounter, ih]
  exact hpasses _ (.done d [])

end Engine

end ScoreLayout
