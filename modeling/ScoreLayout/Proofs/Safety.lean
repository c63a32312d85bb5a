import ScoreLayout.Proofs.InRange
import ScoreLayout.Proofs.Layout.FaultlessPasses

/-!
# Layouts run to their end

Whatever a caller does to a score, it keeps what its stage promises: edits take it back to the first
stage, and every pass leaves what the next ones need. So a pass that has found the stage it needs
runs to its end. There are two exceptions, which are defects: alignment breaks down over a performed
time that is written over a negative number, and at a location out of reach.

## Main definitions

* `LayoutPass.required`, `LayoutPass.leaves` — the stages before and behind a pass.
* `Document.Promise` — a property that edits give up and passes keep.
* `Document.Safe` — passes find what they look for.

## Main results

* `Document.WellFormed.fault_run` — what a pass may end in.
* `Document.Promise.of_reachable` — what a caller comes to has such a property.
* `Document.WellFormed.staged_run`, `Document.Reachable.staged` — every pass and every edit keeps
  the promises of the stages.
* `Document.Reachable.safe` — passes and layouts of any document that a caller comes to.
* `Document.Reachable.breakdown_over_negative`, `Document.Reachable.breakdown_out_of_reach` — the
  exceptions.
-/

namespace ScoreLayout

variable {α : Type} [Scalar α]

namespace LayoutPass

/-- The stage that a pass needs. -/
def required : LayoutPass → Stage
  | prepare => .built
  | align => Step.alignment.required
  | space => Step.spacing.required
  | breakSystems => Step.systemBreaking.required
  | stackStaves => Step.stacking.required
  | breakPages => Step.pageBreaking.required
  | fillLines => Step.horizontalFilling.required
  | fillPages => Step.verticalFilling.required
  | place => Step.placement.required

/-- The stage that a pass leaves behind, if it does not end in a fault. -/
def leaves (reached : Stage) : LayoutPass → Stage
  | prepare => .prepared
  | align => .aligned
  | space => .spaced
  | breakSystems => .systems
  | stackStaves => .stacked
  | breakPages => .paginated
  | fillLines => reached
  | fillPages => .justified
  | place => .finalized

/-- Passes that find the stages they need, one after another from some stage on. -/
def Follow : Stage → List LayoutPass → Prop
  | _, [] => True
  | reached, pass :: passes => pass.required ≤ reached ∧ Follow (pass.leaves reached) passes

/-- All passes follow each other from any stage on. -/
theorem follow_all (reached : Stage) : Follow reached all := by
  refine ⟨Nat.zero_le _, (?_ : Follow .prepared all.tail)⟩
  exact ⟨by decide, by decide, by decide, by decide, by decide, by decide, by decide, by decide,
    trivial⟩

end LayoutPass

namespace Document

variable {d d' : Document α}

/-! ### Single passes -/

/-- A pass that does not find the stage it needs leaves the document as it is. -/
theorem run_of_not_required (e : Engine α) {pass : LayoutPass} (hs : ¬ pass.required ≤ d.stage) :
    ∃ step, pass.required = step.required ∧
      e.run d pass = .failed d [] (.tooEarly step d.stage) := by
  have hguarded (step : Step) (hs : ¬ step.required ≤ d.stage) {o : Outcome α}
      (run : Document α → Outcome α) (ho : o = .guarded step d run) :
      o = .failed d [] (.tooEarly step d.stage) := by
    rw [ho, Outcome.guarded, Step.fault?, if_neg hs]
  cases pass with
  | prepare => exact absurd (Nat.zero_le _) hs
  | align => exact ⟨.alignment, rfl, hguarded .alignment hs _ (align.eq_def ..)⟩
  | space => exact ⟨.spacing, rfl, hguarded .spacing hs _ (space.eq_def ..)⟩
  | breakSystems => exact ⟨.systemBreaking, rfl, hguarded .systemBreaking hs _ (breakSystems.eq_def ..)⟩
  | stackStaves => exact ⟨.stacking, rfl, hguarded .stacking hs _ (stackStaves.eq_def ..)⟩
  | breakPages => exact ⟨.pageBreaking, rfl, hguarded .pageBreaking hs _ (breakPages.eq_def ..)⟩
  | fillLines => exact ⟨.horizontalFilling, rfl, hguarded .horizontalFilling hs _ (fillLines.eq_def ..)⟩
  | fillPages => exact ⟨.verticalFilling, rfl, hguarded .verticalFilling hs _ (fillPages.eq_def ..)⟩
  | place => exact ⟨.placement, rfl, hguarded .placement hs _ (place.eq_def ..)⟩

/-- What alignment may end in. -/
theorem WellFormed.fault_align (hd : d.WellFormed) (hs : Step.alignment.required ≤ d.stage)
    (metrics : GlyphMetrics α) (unit : α) :
    ((d.align metrics unit).fault = none ∧ (d.align metrics unit).document.stage = .aligned) ∨
      (d.align metrics unit).fault = some .breakdown ∧ ∃ n ∈ d.content.toList, n.BreaksDown := by
  rw [align, Outcome.guarded_of_le hs]
  dsimp only
  obtain hfault | ⟨hfault, n, hn, hbreaks⟩ := d.fault_fillGrids metrics unit
  · rw [hfault]
    exact .inl ⟨rfl, rfl⟩
  · rw [hfault]
    refine .inr ⟨rfl, n, hd.mem_content hn ?_, hbreaks⟩
    obtain ⟨e, he⟩ := hbreaks.exists_element
    rw [Node.tag, he]
    show 3 ≤ 6
    decide

/-- A pass that finds the stage it needs runs to its end, but for the breakdown of alignment. -/
theorem WellFormed.fault_run (hd : d.WellFormed) (hsettled : d.Settled) (h : d.Staged)
    (e : Engine α) {pass : LayoutPass} (hs : pass.required ≤ d.stage) :
    ((e.run d pass).fault = none ∧ (e.run d pass).document.stage = pass.leaves d.stage) ∨
      pass = .align ∧ (e.run d pass).fault = some .breakdown ∧
        ∃ n ∈ d.content.toList, n.BreaksDown := by
  cases pass with
  | align => exact (hd.fault_align hs e.metrics e.options.scaledUnit).imp_right fun h => ⟨rfl, h⟩
  | prepare => exact .inl hd.fault_prepare
  | space => exact .inl (hd.fault_space (h.finished hs) hs e.options)
  | breakSystems => exact .inl (hd.fault_breakSystems hs e.options e.metrics)
  | stackStaves =>
    have hanchored := h.anchored (Nat.le_trans (by decide) hs)
    exact .inl (hd.fault_stackStaves hanchored hs e.options e.metrics)
  | breakPages => exact .inl (hd.fault_breakPages hsettled hs e.options)
  | fillLines =>
    exact .inl (hd.fault_fillLines (h.fitted (Nat.le_trans (by decide) hs)) hs e.options)
  | fillPages => exact .inl (fault_fillPages hs e.options)
  | place =>
    have hanchored := h.anchored (Nat.le_trans (by decide) hs)
    exact .inl (hd.fault_place hanchored hs e.options e.metrics)

/-! ### What passes keep -/

theorem WellFormed.staged_align (hd : d.WellFormed) (h : d.Staged)
    (hs : Step.alignment.required ≤ d.stage) {metrics : GlyphMetrics α} {unit : α}
    (hok : (d.align metrics unit).fault = none ∨ d.stage = .prepared) :
    (d.align metrics unit).document.Staged := by
  have hanchored : (d.align metrics unit).document.Anchored := by
    obtain ⟨score, heq, hkeeps⟩ := d.keeps_fillGrids metrics unit
    have hcontent : (d.align metrics unit).document.content = (d.withScore score).content := by
      rw [align, Outcome.guarded_of_le hs, ← heq]
      dsimp only
      split <;> rfl
    refine (h.anchored hs).of_forall₂ (R := AlignState.Keeps)
      (fun _ _ hn => ⟨hn.toSameMusic, hn.anchors⟩) ?_
    rw [hcontent, content, content, score_withScore hkeeps]
    exact hkeeps.branches.branches.branches
  obtain ⟨hfault, hstage⟩ | ⟨hfault, hstage⟩ := d.stage_align metrics unit
  · exact ⟨fun _ => hanchored,
      fun _ n hn => hd.finished_align hfault n ((content_sublist_score _).subset hn),
      fun hs' => absurd (hstage ▸ hs') (by decide)⟩
  · exact .of_prepared (hstage.trans (hok.resolve_left hfault)) hanchored

theorem WellFormed.staged_space (hd : d.WellFormed) (h : d.Staged)
    (hs : Step.spacing.required ≤ d.stage) (options : LayoutOptions α) :
    (d.space options).document.Staged := by
  have hfinished := h.finished hs
  have hstays := d.staysPut_space options
  refine .of_all (hstays.anchored (h.anchored (Nat.le_trans (by decide) hs)))
    (hstays.finished hfinished) ?_
  obtain ⟨heq, hgrids⟩ := hd.space_eq (hd.fault_space hfinished hs options).1
  have hscore := score_withScore (d := d) (R := fun _ _ => True)
    (Forest.Forall₂.map_right (Node.spaced (options.spacing d.longest)) fun _ _ => trivial)
  rw [heq]
  intro n' hn' m' hm'
  have hn' : n' ∈ (d.withScore _).score.toList := (content_sublist_score _).subset hn'
  rw [hscore, Forest.toList_map] at hn'
  obtain ⟨n, hn, rfl⟩ := List.mem_map.1 hn'
  cases hk : n.kind with
  | measure m =>
    obtain ⟨grid, hgrid⟩ := hgrids n hn m hk
    rw [Node.spaced, hk] at hm'
    dsimp only at hm'
    rw [hgrid] at hm'
    obtain rfl := NodeKind.measure.inj hm'
    have hcontent := hd.mem_content hn (Node.depth_of_measure hk)
    exact MeasureGrid.fitted_space hgrid (hfinished n hcontent m hk).drawn
  | _ =>
    rw [Node.spaced_of_tag_ne (by simp [Node.tag, hk, NodeKind.tag]), hk] at hm'
    exact absurd hm' (by simp)

/-- Every pass keeps what the stages promise. Alignment that breaks down has lost the grids of an
earlier layout, so it keeps the promises of a document that has not come further. -/
theorem WellFormed.staged_run (hd : d.WellFormed) (hsettled : d.Settled) (h : d.Staged)
    (e : Engine α) {pass : LayoutPass}
    (hok : pass = .align → (e.run d pass).fault = none ∨ d.stage = .prepared) :
    (e.run d pass).document.Staged := by
  by_cases hs : pass.required ≤ d.stage
  · by_cases hprepare : pass = .prepare
    · subst hprepare
      exact .of_prepared hd.fault_prepare.2 hd.anchored_prepare
    · by_cases halign : pass = .align
      · subst halign
        exact hd.staged_align h hs (hok rfl)
      · by_cases hspace : pass = .space
        · subst hspace
          exact hd.staged_space h hs e.options
        · have hspaced : .spaced ≤ d.stage := by
            cases pass <;> first | contradiction | exact Nat.le_trans (by decide) hs
          have hstays := hd.staysPut_run hsettled e hprepare halign
          exact .of_all (hstays.anchored (h.anchored (Nat.le_trans (by decide) hspaced)))
            (hstays.finished (h.finished (Nat.le_trans (by decide) hspaced)))
            (hstays.fitted (h.fitted hspaced))
  · obtain ⟨step, -, hrun⟩ := run_of_not_required e hs
    rw [hrun]
    exact h

/-- What a property of documents has to keep for every document that a caller comes to to have it: it
is one of the stage and of the content, edits take a document back to where it promises nothing, and
passes keep it. Alignment need keep it only where it meets no fault, and behind preparation. -/
structure Promise (P : Document α → Prop) : Prop where
  of_content : ∀ {d d' : Document α}, d'.stage = d.stage → d'.content = d.content → P d → P d'
  built : ∀ {d : Document α}, d.stage = .built → P d
  run : ∀ {d : Document α}, d.WellFormed → d.Settled → P d → ∀ (e : Engine α) {pass : LayoutPass},
    (pass = .align → (e.run d pass).fault = none ∨ d.stage = .prepared) → P (e.run d pass).document

/-- What passes keep, a whole layout keeps, also where it ends in a fault. -/
theorem Promise.layout {P : Document α → Prop} (hP : Promise P) (hd : d.WellFormed)
    (hsettled : d.Settled) (h : P d) (e : Engine α) : P (e.layout d).document := by
  have hprepared := (hd.fault_prepare).2
  have hd₁ := hd.run e .prepare
  have hsettled₁ := hd.settled_run hsettled e .prepare
  have hpromise₁ : P (e.run d .prepare).document := hP.run hd hsettled h e nofun
  have htwo : (e.runAll d (LayoutPass.all.take 2)).document =
      (e.run (e.run d .prepare).document .align).document := by
    show (e.runAll d [.prepare, .align]).document = _
    rw [Engine.runAll_cons, Outcome.andThen, show (e.run d .prepare).fault = none from hd.fault_prepare.1]
    rfl
  refine (of_runAll_append (P := fun d => d.WellFormed ∧ d.Settled ∧ P d)
    (LayoutPass.all.take 2) (LayoutPass.all.drop 2) ?_ fun d hd pass hpass => ?_).2.2
  · rw [htwo]
    exact ⟨hd₁.run e .align, hd₁.settled_run hsettled₁ e .align,
      hP.run hd₁ hsettled₁ hpromise₁ e fun _ => .inr hprepared⟩
  · refine ⟨hd.1.run e pass, hd.1.settled_run hd.2.1 e pass,
      hP.run hd.1 hd.2.1 hd.2.2 e fun halign => ?_⟩
    subst halign
    exact absurd hpass (by decide)

/-! ### Several passes -/

/-- Passes keep the music. -/
theorem WellFormed.sameMusic_run (hd : d.WellFormed) (hsettled : d.Settled) (e : Engine α)
    (pass : LayoutPass) :
    Forest.Forall₂ Node.SameMusic d.content (e.run d pass).document.content := by
  by_cases hprepare : pass = .prepare
  · subst hprepare
    obtain ⟨r, pages, hshape⟩ := hd.exists_shape
    exact hshape.sameContent_prepare.content
  · by_cases halign : pass = .align
    · subst halign
      exact (d.sameTree_align e.metrics e.options.scaledUnit).sameContent.content
    · exact (hd.staysPut_run hsettled e hprepare halign).mono fun _ _ h => h.toSameMusic

theorem breaksDown_of_sameMusic {n n' : Node α} (h : n.SameMusic n') (hn : n'.BreaksDown) :
    n.BreaksDown := by
  have hkind {e : Element} (he : n'.kind = .element e) : n.kind = .element e := by
    have hbare := h.kind
    rw [he] at hbare
    cases hk : n.kind <;> rw [hk] at hbare <;> first | exact hbare.symm | cases hbare
  obtain ⟨e, d, he, hover⟩ | ⟨e, loc, lines, he, hout⟩ := hn
  · exact .inl ⟨e, d, hkind he, hover⟩
  · exact .inr ⟨e, loc, lines, hkind he, hout⟩

/-- Passes that follow each other run to their end, but for the breakdown of alignment. -/
theorem WellFormed.fault_runAll (e : Engine α) : (passes : List LayoutPass) → {d : Document α} →
    d.WellFormed → d.Settled → d.Staged → LayoutPass.Follow d.stage passes →
      (e.runAll d passes).fault = none ∨
        (e.runAll d passes).fault = some .breakdown ∧ ∃ n ∈ d.content.toList, n.BreaksDown
  | [], _, _, _, _, _ => .inl rfl
  | pass :: passes, d, hd, hsettled, h, hfollow => by
      rw [Engine.runAll_cons, Outcome.andThen]
      obtain ⟨hfault, hstage⟩ | ⟨-, hfault, hbreaks⟩ := hd.fault_run hsettled h e hfollow.1
      · rw [hfault]
        refine (fault_runAll e passes (hd.run e pass) (hd.settled_run hsettled e pass)
          (hd.staged_run hsettled h e fun _ => .inl hfault) (hstage ▸ hfollow.2)).imp_right ?_
        rintro ⟨hlater, n', hn', hbreaks⟩
        obtain ⟨n, hn, hsame⟩ :=
          exists_mem_of_forall₂ (hd.sameMusic_run hsettled e pass).toList hn'
        exact ⟨hlater, n, hn, breaksDown_of_sameMusic hsame hbreaks⟩
      · rw [hfault]
        exact .inr ⟨hfault, hbreaks⟩

/-! ### What a caller comes to -/

theorem WellFormed.content_contentSystem (hd : d.WellFormed) :
    d.contentSystem.2.content = d.content := by
  obtain ⟨r, pages, hshape⟩ := hd.exists_shape
  cases hf : d.findLive? contentSystemId with
  | some h => rw [contentSystem_eq, hf]
  | none =>
    obtain ⟨front, page, systems, back, system, -, hmade, -, hpages⟩ :=
      hshape.exists_contentSystem hf
    rw [hmade.content_eq, hshape.content_eq]
    rcases hpages with rfl | ⟨rfl, rfl, rfl, -⟩
    · simp [Forest.tree, Forest.branches]
    · simp [Forest.tree, Forest.branches]

/-- Whatever a caller comes to has what edits and passes promise. -/
theorem Promise.of_reachable {P : Document α → Prop} (hP : Promise P) (h : d.Reachable) : P d := by
  induction h with
  | ofDefinition definition => exact hP.built rfl
  | contentSystem h hd =>
    exact hP.of_content (stage_contentSystem _) h.wellFormed.content_contentSystem hd
  | add h parent kind hd =>
    rw [Document.add]
    dsimp only
    split
    · rename_i hok
      exact hP.built (stage_addNamed hok)
    · refine hP.of_content ?_ ?_ hd <;> rfl
  | addNamed _ _ hok => exact hP.built (stage_addNamed hok)
  | remove _ hok => exact hP.built (stage_remove hok)
  | detach _ hok hd =>
    rw [Document.detach] at hok
    split_ifs at hok
    split at hok
    · exact hP.built (stage_remove hok)
    · exact Except.ok.inj hok ▸ hd
  | @collect d h hd =>
    refine hP.of_content (by rw [collect_eq]) ?_ hd
    rw [collect_eq, content, content, score, score]
    cases d.trees <;> rfl
  | layout h e hd => exact hP.layout h.wellFormed h.settled hd e
  | pass h e pass hok hd => exact hP.run h.wellFormed h.settled hd e fun _ => .inl hok

theorem promise_staged : Promise (α := α) Staged where
  of_content hstage hcontent h := h.of_content hstage hcontent
  built := .of_built
  run hd hsettled h e _ hok := hd.staged_run hsettled h e hok

/-- What a caller comes to keeps what its stage promises. -/
theorem Reachable.staged (h : d.Reachable) : d.Staged := promise_staged.of_reachable h

/-- What makes a document safe: its passes find what they look for, so they meet no fault but that of
a stage not reached, and the breakdown of alignment. -/
structure Safe (d : Document α) : Prop where
  /-- Control elements are tied to symbols of the score. -/
  anchors : .prepared ≤ d.stage → ∀ n ∈ d.score.toList, n.tag = .control →
    ∀ a, n.layout.startAnchor = some a ∨ n.layout.endAnchor = some a →
      ∃ m ∈ d.score.toList, m.handle = a ∧ m.tag = .element
  closed : .aligned ≤ d.stage → ∀ n ∈ d.score.toList, ∀ m, n.kind = .measure m →
    m.grid.state = .aligned
  fitted : .spaced ≤ d.stage → ∀ n ∈ d.score.toList, ∀ m, n.kind = .measure m →
    m.grid.positioned = true ∧ m.grid.gaps.length + 1 = m.grid.drawnSlots.length
  pass : ∀ (e : Engine α) pass, (e.run d pass).fault = none ∨
    (¬ pass.required ≤ d.stage ∧ ∃ step, pass.required = step.required ∧
      e.run d pass = .failed d [] (.tooEarly step d.stage)) ∨
    (pass = .align ∧ (e.run d pass).fault = some .breakdown ∧
      ∃ n ∈ d.content.toList, n.BreaksDown)
  layout : ∀ e : Engine α, (e.layout d).fault = none ∨
    (e.layout d).fault = some .breakdown ∧ ∃ n ∈ d.content.toList, n.BreaksDown

/-- Whatever a caller comes to is safe. -/
theorem Reachable.safe (h : d.Reachable) : d.Safe where
  anchors hs n hn ht a ha := by
    have hanchor : a ∈ Stacking.anchors n.layout := by
      rw [Stacking.anchors, List.mem_append]
      exact ha.imp (fun ha => by simp [ha]) fun ha => by simp [ha]
    obtain ⟨m, hm, hh, htag⟩ :=
      h.staged.anchored hs n (h.wellFormed.mem_content hn (by rw [ht]; decide)) a hanchor
    exact ⟨m, d.content_sublist_score.subset hm, hh, htag⟩
  closed hs n hn m hm :=
    (h.staged.finished hs n (h.wellFormed.mem_content hn (Node.depth_of_measure hm)) m hm).state
  fitted hs n hn m hm := by
    have hfitted :=
      h.staged.fitted hs n (h.wellFormed.mem_content hn (Node.depth_of_measure hm)) m hm
    exact ⟨hfitted.positioned, hfitted.gaps⟩
  pass e pass := by
    by_cases hs : pass.required ≤ d.stage
    · exact (h.wellFormed.fault_run h.settled h.staged e hs).imp And.left .inr
    · exact .inr (.inl ⟨hs, run_of_not_required e hs⟩)
  layout e := h.wellFormed.fault_runAll e _ h.settled h.staged (LayoutPass.follow_all d.stage)

/-- A slur over two notes, laid out. -/
theorem Reachable.safe_of_slur : ∃ d : Document ℚ, d.Reachable ∧ d.stage = .finalized ∧
    ((d.nodesOfKind .control).map fun n => Stacking.anchors n.layout) = [[6, 7]] ∧ d.Safe := by
  have hlayer := (((Reachable.ofDefinition (α := ℚ) default).contentSystem.add 2
    (.measure (.ofNumber 1))).add 3 (.staff ⟨1, false⟩)).add 4 (.layer 1)
  have hnotes := (hlayer.addNamed (by decide) (show Document.addNamed _ 5 "a"
    (.element (.note ⟨.ofValue .quarter, ⟨.c, 4, none⟩, none, false⟩)) = _ from rfl)).addNamed
    (by decide) (show Document.addNamed _ 5 "b"
    (.element (.note ⟨.ofValue .quarter, ⟨.d, 4, none⟩, none, false⟩)) = _ from rfl)
  have hd := (hnotes.add 3 (.control (.slur (.between "a" "b") none))).layout .default
  exact ⟨_, hd, by decide +kernel, by decide +kernel, hd.safe⟩

/-- A performed time of the lowest word over minus one. -/
def lowestOverMinusOne : Fraction :=
  ⟨-9223372036854775808, -1, by decide, by decide, by decide⟩

/-- A note with such a performed time breaks alignment down, although the score is prepared. -/
theorem Reachable.breakdown_over_negative : ∃ d : Document Float, d.Reachable ∧
    LayoutPass.required .align ≤ d.stage ∧
      (Engine.default.run d .align).fault = some .breakdown := by
  have hlayer := (((Reachable.ofDefinition (α := Float) default).contentSystem.add 2
    (.measure (.ofNumber 1))).add 3 (.staff ⟨1, false⟩)).add 4 (.layer 1)
  have hnote := hlayer.add 5 (.element (.note
    ⟨{ Duration.ofValue .quarter with performed := some lowestOverMinusOne }, ⟨.c, 5, none⟩, none,
      false⟩))
  exact ⟨_, hnote.pass .default .prepare (by decide +kernel), by decide +kernel, by decide +kernel⟩

/-- So does a note at the lowest location of all. -/
theorem Reachable.breakdown_out_of_reach : ∃ d : Document Float, d.Reachable ∧
    LayoutPass.required .align ≤ d.stage ∧
      (Engine.default.run d .align).fault = some .breakdown := by
  have hlayer := (((Reachable.ofDefinition (α := Float) default).contentSystem.add 2
    (.measure (.ofNumber 1))).add 3 (.staff ⟨1, false⟩)).add 4 (.layer 1)
  have hnote := hlayer.add 5 (.element (.note
    ⟨.ofValue .quarter, ⟨.c, 5, none⟩, some Int32.minValue, false⟩))
  exact ⟨_, hnote.pass .default .prepare (by decide +kernel), by decide +kernel, by decide +kernel⟩

end Document

end ScoreLayout
