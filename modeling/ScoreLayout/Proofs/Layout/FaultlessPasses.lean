import ScoreLayout.Proofs.Layout.AlignmentFaults
import ScoreLayout.Proofs.Layout.ContentSymbols

/-!
# What the stage of a document promises

Each pass relies on what the passes before it have left: the symbols that control elements are tied
to, closed time grids, and gaps that match their slots. A document that has reached a stage has all
of this. So a pass that has found the stage it needs finds all that it asks the document for, and
only alignment can end in a fault. Where there is none, the document has come to the next stage.

## Main definitions

* `Document.Anchored` — control elements are tied to symbols of the score.
* `Forest.Fitted` — the time grids of all measures have positions and matching gaps.
* `Document.Staged` — what the stage of a document promises.
* `Document.Tied` — a control element whose symbols are in the document.

## Main results

* `Document.StaysPut.anchored`, `Document.StaysPut.finished`, `Document.StaysPut.fitted` — what
  later passes keep.
* `Document.WellFormed.anchored_prepare` — what preparation leaves.
* `Document.WellFormed.fault_space`, `Document.WellFormed.fault_stackStaves`,
  `Document.WellFormed.fault_fillLines`, `Document.WellFormed.fault_place` — passes that meet no
  fault.
-/

namespace ScoreLayout

variable {α : Type} [Scalar α]

/-- The time grids of all measures of a forest have positions and gaps that match their slots. -/
def Forest.Fitted {α : Type} (f : Forest (Node α)) : Prop :=
  ∀ n ∈ f.toList, ∀ m, n.kind = .measure m → m.grid.Fitted

namespace Document

/-- All nodes of the content are tied to symbols of the content. -/
def Anchored {α : Type} (d : Document α) : Prop :=
  ∀ n ∈ d.content.toList, ∀ h ∈ Stacking.anchors n.layout, d.HasSymbol h

/-- What the stage of a document promises. -/
structure Staged {α : Type} (d : Document α) : Prop where
  anchored : .prepared ≤ d.stage → d.Anchored
  finished : .aligned ≤ d.stage → d.content.Finished
  fitted : .spaced ≤ d.stage → d.content.Fitted

variable {d d' : Document α}

/-! ### What is kept -/

/-- Nodes that stay tied to the same symbols. -/
theorem Anchored.of_forall₂ {R : Node α → Node α → Prop}
    (hR : ∀ n n', R n n' → n.SameMusic n' ∧
      Stacking.anchors n'.layout = Stacking.anchors n.layout)
    (h : Forest.Forall₂ R d.content d'.content) (hd : d.Anchored) : d'.Anchored := by
  intro n' hn' i hi
  obtain ⟨n, hn, hnn⟩ := exists_mem_of_forall₂ h.toList hn'
  exact (hd n hn i ((hR n n' hnn).2 ▸ hi)).of_sameMusic (h.mono fun _ _ h => (hR _ _ h).1)

namespace StaysPut

theorem anchored (h : d.StaysPut d') (hd : d.Anchored) : d'.Anchored :=
  hd.of_forall₂ (fun _ _ hn => ⟨hn.toSameMusic, hn.anchors⟩) h

theorem finished (h : d.StaysPut d') (hd : d.content.Finished) : d'.content.Finished := by
  intro n' hn' m' hm'
  obtain ⟨n, hn, hnn⟩ := exists_mem_of_forall₂ (Forest.Forall₂.toList h) hn'
  obtain ⟨m, hm, hgrid⟩ := hnn.grid m' hm'
  exact hgrid.finished (hd n hn m hm)

theorem fitted (h : d.StaysPut d') (hd : d.content.Fitted) : d'.content.Fitted := by
  intro n' hn' m' hm'
  obtain ⟨n, hn, hnn⟩ := exists_mem_of_forall₂ (Forest.Forall₂.toList h) hn'
  obtain ⟨m, hm, hgrid⟩ := hnn.grid m' hm'
  exact hgrid.fitted (hd n hn m hm)

end StaysPut

omit [Scalar α] in
/-- Only the stage and the content count. -/
theorem Staged.of_content (h : d.Staged) (hstage : d'.stage = d.stage)
    (hcontent : d'.content = d.content) : d'.Staged where
  anchored hs := by
    rw [Anchored, hcontent]
    refine fun n hn i hi => ?_
    rw [HasSymbol, hcontent]
    exact h.anchored (hstage ▸ hs) n hn i hi
  finished hs := hcontent ▸ h.finished (hstage ▸ hs)
  fitted hs := hcontent ▸ h.fitted (hstage ▸ hs)

omit [Scalar α] in
/-- Nothing is promised of a document that has just been edited. -/
theorem Staged.of_built (h : d.stage = .built) : d.Staged := by
  constructor <;> exact fun hs => absurd (h ▸ hs) (by decide)

omit [Scalar α] in
/-- Of a prepared document only the anchors are promised. -/
theorem Staged.of_prepared (hstage : d.stage = .prepared) (h : d.Anchored) : d.Staged where
  anchored _ := h
  finished hs := absurd (hstage ▸ hs) (by decide)
  fitted hs := absurd (hstage ▸ hs) (by decide)

omit [Scalar α] in
/-- Where all is as behind spacing, every stage keeps its promise. -/
theorem Staged.of_all (hanchored : d.Anchored) (hfinished : d.content.Finished)
    (hfitted : d.content.Fitted) : d.Staged :=
  ⟨fun _ => hanchored, fun _ => hfinished, fun _ => hfitted⟩

/-! ### Preparation -/

/-- After preparation all control elements are tied to symbols of the score, or to nothing. -/
theorem WellFormed.anchored_prepare (hd : d.WellFormed) : d.prepare.document.Anchored := by
  obtain ⟨r, pages, hshape⟩ := hd.exists_shape
  obtain ⟨page, system, d₁, hok, hd₁, -⟩ := hshape.unbreak?
  have hd₂ := d₁.sameTree_reset.wellFormed hd₁.wellFormed
  have hscore : d₁.reset.score = d₁.score.map Node.reset :=
    score_withScore (R := fun _ _ => True) (Forest.Forall₂.map_right _ fun _ _ => trivial)
  have hnone : ∀ n ∈ d₁.reset.score.toList, Stacking.anchors n.layout = [] := by
    rw [hscore, Forest.toList_map]
    exact List.forall_mem_map.2 fun _ _ => rfl
  have hrun := Forest.forall₂_run (p := d₁.reset.anchorPass)
    (R := fun n n' : Node α => n.SameMusic n' ∧ ∀ a ∈ Stacking.anchors n'.layout,
      d₁.reset.HasSymbol a ∨ a ∈ Stacking.anchors n.layout)
    (fun n => ⟨.refl n, fun _ => .inr⟩)
    (fun _ _ _ h h' => ⟨h.1.trans h'.1, fun a ha => (h'.2 a ha).elim .inl (h.2 a)⟩)
    (fun marks parent n => ?_)
    (fun _ _ n below => ⟨⟨.refl n, fun _ => .inr⟩, .refl fun m _ => ⟨.refl m, fun _ => .inr⟩⟩)
    [] d₁.reset.score
  · rw [prepare_eq hok]
    have hcontent := (score_withScore hrun ▸ hrun).branches.branches.branches
    intro n' hn' a ha
    obtain ⟨n, hn, -, hanchors⟩ := exists_mem_of_forall₂ hcontent.toList hn'
    have hsymbol := (hanchors a ha).resolve_right
      (by rw [hnone n (d₁.reset.content_sublist_score.subset hn)]; exact List.not_mem_nil)
    exact hsymbol.of_sameMusic (hcontent.mono fun _ _ h => h.1)
  · rw [anchorPass]
    dsimp only
    split
    · rename_i c _
      refine ⟨?_, hd₂.hasSymbol_anchorNode marks parent n c⟩
      obtain ⟨layout, heq⟩ := d₁.reset.anchorNode_eq marks parent n c
      rw [heq]
      exact ⟨rfl, rfl, rfl⟩
    all_goals exact ⟨.refl n, fun _ => .inr⟩

/-! ### Rebuilding pages and systems -/

theorem WellFormed.fault_prepare (hd : d.WellFormed) :
    d.prepare.fault = none ∧ d.prepare.document.stage = .prepared := by
  obtain ⟨r, pages, hshape⟩ := hd.exists_shape
  obtain ⟨page, system, d₁, hok, -⟩ := hshape.unbreak?
  rw [prepare_eq hok]
  exact ⟨rfl, rfl⟩

theorem WellFormed.fault_breakSystems (hd : d.WellFormed) (hs : Step.systemBreaking.required ≤ d.stage)
    (options : LayoutOptions α) (metrics : GlyphMetrics α) :
    (d.breakSystems options metrics).fault = none ∧
      (d.breakSystems options metrics).document.stage = .systems := by
  rw [Document.breakSystems, Outcome.guarded_of_le hs]
  obtain ⟨r, pages, hshape⟩ := hd.exists_shape
  obtain ⟨page, system, d₁, hok, hd₁, -⟩ := hshape.unbreak?
  cases hf : d₁.findLive? contentSystemId with
  | some h =>
    obtain ⟨systems, d', hbroken, -, hstage, -⟩ :=
      Shape.breakContent_of_unbreak? hok hd₁ (hd₁.id_of_findLive? hf) options metrics
    rw [hbroken]
    exact ⟨rfl, hstage⟩
  | none =>
    obtain ⟨front, page', systems, back, empty, hhandle, hmade, -⟩ := hd₁.exists_contentSystem hf
    obtain ⟨d', hbroken, -, hstage⟩ := breakContent_of_none hok hhandle hmade options metrics
    rw [hbroken]
    exact ⟨rfl, hstage⟩

theorem WellFormed.fault_breakPages (hd : d.WellFormed) (hsettled : d.Settled)
    (hs : Step.pageBreaking.required ≤ d.stage) (options : LayoutOptions α) :
    (d.breakPages options).fault = none ∧ (d.breakPages options).document.stage = .paginated := by
  rw [Document.breakPages, Outcome.guarded_of_le hs]
  split
  · rename_i h hf
    obtain ⟨r, pages, hshape⟩ := hd.exists_shape
    have hbuilt : d.stage ≠ .built := fun h => absurd (h ▸ hs) (by decide)
    obtain ⟨front, page, systems, rfl, rfl, -⟩ := hshape.exists_of_findLive? hsettled hbuilt hf
    obtain ⟨made, d', hok, -, hstage, -⟩ := hshape.paginate options
    rw [hok]
    exact ⟨rfl, hstage⟩
  · exact ⟨rfl, rfl⟩

/-! ### Ideal positions -/

/-- Closed grids can all be given ideal positions. -/
theorem WellFormed.fault_space (hd : d.WellFormed) (h : d.content.Finished)
    (hs : Step.spacing.required ≤ d.stage) (options : LayoutOptions α) :
    (d.space options).fault = none ∧ (d.space options).document.stage = .spaced := by
  have hrun := Forest.invariant_runWithin (p := spacingPass (options.spacing d.longest))
    (I := fun fault : Option Fault => fault = none)
    (P := fun n : Node α => ∀ m, n.kind = .measure m → m.grid.Finished) (E := fun _ => True)
    (fun fault above n hfault hn => ⟨?_, trivial⟩) (fun _ _ _ _ hfault _ => hfault) d.score
    (fun n hn m hm => h n (hd.mem_content hn (Node.depth_of_measure hm)) m hm)
    none id none rfl
  · rw [space, Outcome.guarded_of_le hs]
    rw [← Forest.run] at hrun
    dsimp only
    rw [hrun]
    exact ⟨rfl, rfl⟩
  · rw [spacingPass]
    dsimp only
    split
    · rename_i m hm
      obtain ⟨slots, hspace⟩ := m.grid.exists_space (options.spacing d.longest) (hn m hm).state
      rw [hspace]
      exact hfault
    · exact hfault

/-! ### Room for control elements -/

omit [Scalar α] in
/-- A symbol of the content is found. -/
theorem WellFormed.exists_node? (hd : d.WellFormed) {h : Handle} (hh : d.HasSymbol h) :
    ∃ n, d.node? h = some n := by
  obtain ⟨n, hn, hhandle, -⟩ := hh
  exact ⟨n, hd.node?_eq_some_iff.2 ⟨d.content_sublist.subset hn, hhandle⟩⟩

end Document

namespace Stacking

/-- A control element is given room if the symbols that it is tied to are there. -/
theorem exists_reserveControl {c : StackingContext α} (s : Stacking α) (control : Control α)
    {l : LayoutState α} (hl : ∀ h ∈ anchors l, ∃ n, c.document.node? h = some n) :
    ∃ s', s.reserveControl c control l = .ok s' ∧ s'.fault = s.fault := by
  have hexisting : ∀ h ∈ anchors l, ∃ n, existing c.document h = .ok n := fun h hh => by
    obtain ⟨n, hn⟩ := hl h hh
    exact ⟨n, by rw [existing, hn]⟩
  have hall : (handles : List Handle) → (∀ h ∈ handles, ∃ n, existing c.document h = .ok n) →
      ∃ nodes, handles.mapM (existing c.document) = .ok nodes := by
    intro handles
    induction handles with
    | nil => exact fun _ => ⟨[], rfl⟩
    | cons h handles ih =>
      intro hh
      obtain ⟨n, hn⟩ := hh h List.mem_cons_self
      obtain ⟨nodes, hnodes⟩ := ih fun h h' => hh h (List.mem_cons_of_mem _ h')
      refine ⟨n :: nodes, ?_⟩
      rw [List.mapM_cons]
      exact except_bind_eq_ok.2 ⟨n, hn, except_bind_eq_ok.2 ⟨nodes, hnodes, rfl⟩⟩
  have hreserve (staff : UInt32) (top bottom : α) : (s.reserve staff top bottom).fault = s.fault := by
    rw [reserve]
    split <;> rfl
  have hstaff : ∃ staff, controlStaff? c.document l = .ok staff := by
    rw [controlStaff?]
    split
    · rename_i first rest heq
      obtain ⟨n, hn⟩ := hexisting first (heq ▸ List.mem_cons_self)
      exact ⟨n.layout.staff, by rw [hn]; rfl⟩
    · exact ⟨_, rfl⟩
  obtain ⟨staff, hstaff⟩ := hstaff
  obtain ⟨symbols, hsymbols⟩ := hall (anchors l) hexisting
  rw [reserveControl, hstaff]
  dsimp only [bind, Except.bind]
  split
  · rw [hsymbols]
    exact ⟨_, rfl, hreserve ..⟩
  · exact ⟨s, rfl, rfl⟩

end Stacking

namespace Document

variable {d d' : Document α}

theorem WellFormed.fault_stackStaves (hd : d.WellFormed) (h : d.Anchored) (hs : Step.stacking.required ≤ d.stage)
    (options : LayoutOptions α) (metrics : GlyphMetrics α) :
    (d.stackStaves options metrics).fault = none ∧
      (d.stackStaves options metrics).document.stage = .stacked := by
  rw [Document.stackStaves, Outcome.guarded_of_le hs]
  dsimp only
  generalize hc : (⟨d, metrics, options.scaledUnit, options.spacingStaff * options.scaledUnit⟩ :
    StackingContext α) = c
  have hdocument : c.document = d := by rw [← hc]
  have hrun := Forest.invariant_runWithin (p := stackingPass c)
    (I := fun s : Stacking α => s.fault = none)
    (P := fun n : Node α => n.tag = .control →
      ∀ h ∈ Stacking.anchors n.layout, ∃ n, c.document.node? h = some n)
    (E := fun _ => True) (fun s above n hfault hn => ⟨?_, trivial⟩)
    (fun s whole n below hfault _ => ?_) d.score
    (fun n hn ht i hi => hdocument ▸
      hd.exists_node? (h n (hd.mem_content hn (by rw [ht]; decide)) i hi))
    none id .start rfl
  · rw [← Forest.run] at hrun
    rw [hrun]
    exact ⟨rfl, rfl⟩
  · rw [stackingPass]
    dsimp only
    split
    · exact hfault
    · simp only [Stacking.enterStaff]
      split <;> exact hfault
    · simp only [Stacking.enterElement, Stacking.reserve]
      repeat' split
      all_goals exact hfault
    · rename_i control hk
      obtain ⟨s', hok, hs'⟩ := s.exists_reserveControl control (hn (by rw [Node.tag, hk]; rfl))
      simp only [Stacking.enterControl]
      split
      · exact hfault
      · rw [hok]
        exact hs'.trans hfault
    · exact hfault
  · rw [stackingPass]
    dsimp only
    split
    · simp only [Stacking.leaveSystem]
      split <;> exact hfault
    · exact hfault

/-! ### Filling lines and pages -/

theorem exists_fillMeasures : (measures : List (Handle × Measure α)) → (d : Document α) →
    (x : α) → (gaps : List (Gap α)) → (∀ p ∈ measures, p.2.grid.Fitted) →
      gaps.length = (measures.map fun p => p.2.grid.gaps.length).sum →
        ∃ filled, d.fillMeasures x gaps measures = .ok filled
  | [], d, x, _, _, _ => ⟨(x, d), rfl⟩
  | (h, m) :: measures, d, x, gaps, hfitted, hlength => by
      rw [List.map_cons, List.sum_cons] at hlength
      have htake : (gaps.take m.grid.gaps.length).length = m.grid.gaps.length := by
        rw [List.length_take, hlength]
        simp
      obtain ⟨slots, happly⟩ := (hfitted _ List.mem_cons_self).exists_applyGaps htake
      rw [fillMeasures]
      dsimp only
      rw [happly]
      exact exists_fillMeasures measures _ _ _
        (fun p hp => hfitted p (List.mem_cons_of_mem _ hp)) (by rw [List.length_drop, hlength]; simp)

theorem stage_fillMeasures : (measures : List (Handle × Measure α)) → {d d' : Document α} →
    {x x' : α} → {gaps : List (Gap α)} → d.fillMeasures x gaps measures = .ok (x', d') →
      d'.stage = d.stage
  | [], _, _, _, _, _, hok => by
      rw [fillMeasures, Except.ok.injEq, Prod.mk.injEq] at hok
      rw [← hok.2]
  | (h, m) :: measures, d, _, _, _, _, hok => by
      rw [fillMeasures] at hok
      dsimp only at hok
      split at hok
      · exact (stage_fillMeasures measures hok).trans rfl
      · cases hok

theorem stage_fillSystem {options : LayoutOptions α} {available : α} {isLast : Bool} {n : Node α}
    (hok : d.fillSystem options available isLast n = .ok d') : d'.stage = d.stage := by
  rw [fillSystem] at hok
  split at hok
  · exact Except.ok.inj hok ▸ rfl
  · dsimp only at hok
    split at hok
    · exact Except.ok.inj hok ▸ rfl
    · split at hok
      · exact Except.ok.inj hok ▸ rfl
      · obtain ⟨⟨x, d₁⟩, h₁, hok⟩ := except_bind_eq_ok.1 hok
        rw [← Except.ok.inj hok]
        exact (rfl : _ = d₁.stage).trans (stage_fillMeasures _ h₁)

theorem WellFormed.exists_fillSystem (hd : d.WellFormed) (h : d.content.Fitted)
    (options : LayoutOptions α) (available : α) (isLast : Bool) {n : Node α}
    (hl : d.isLive n.handle) : ∃ d', d.fillSystem options available isLast n = .ok d' := by
  rw [fillSystem]
  split
  · exact ⟨d, rfl⟩
  · dsimp only
    split
    · exact ⟨d, rfl⟩
    · split
      · exact ⟨d, rfl⟩
      · have hfitted : ∀ p ∈ d.measuresOf n.handle, p.2.grid.Fitted := fun p hp => by
          obtain ⟨hlive, hkind⟩ := hd.mem_measuresOf hl hp
          obtain ⟨m, hm, hh⟩ := (isLive_iff d p.1).1 hlive
          have hm' := hkind m ((score_sublist d).subset hm) hh
          exact h m (hd.mem_content hm (Node.depth_of_measure hm')) p.2 hm'
        obtain ⟨filled, hok⟩ := exists_fillMeasures (d.measuresOf n.handle) d 0 _ hfitted
          ((Gap.length_distribute _ _).trans List.length_flatMap)
        rw [hok]
        exact ⟨_, rfl⟩

theorem WellFormed.exists_fillSystems (options : LayoutOptions α) (available : α) :
    (systems : List (Node α)) → {d : Document α} → d.WellFormed → d.content.Fitted →
    (∀ n ∈ systems, d.isLive n.handle) →
      ∃ d', d.fillSystems options available systems = .ok d' ∧ d'.stage = d.stage
  | [], d, _, _, _ => ⟨d, rfl, rfl⟩
  | n :: systems, d, hd, h, hlive => by
      have hl := hlive n List.mem_cons_self
      obtain ⟨d₁, hok⟩ := hd.exists_fillSystem h options available systems.isEmpty hl
      have hstep := hd.sameTree_fillSystem hl hok
      obtain ⟨d', hok', hstage⟩ := exists_fillSystems options available systems (hstep.wellFormed hd)
        ((hd.staysPut_fillSystem hl hok).fitted h)
        fun m hm => hstep.isLive (hlive m (List.mem_cons_of_mem n hm))
      exact ⟨d', except_bind_eq_ok.2 ⟨d₁, hok, hok'⟩, hstage.trans (stage_fillSystem hok)⟩

theorem WellFormed.fault_fillLines (hd : d.WellFormed) (h : d.content.Fitted)
    (hs : Step.horizontalFilling.required ≤ d.stage) (options : LayoutOptions α) :
    (d.fillLines options).fault = none ∧ (d.fillLines options).document.stage = d.stage := by
  rw [fillLines, Outcome.guarded_of_le hs]
  split
  · exact ⟨rfl, rfl⟩
  · split
    · obtain ⟨d', hok, hstage⟩ := WellFormed.exists_fillSystems options _ d.systems hd h
        fun n hn => hd.isLive_of_mem_systems hn
      rw [hok]
      exact ⟨rfl, hstage⟩
    · exact ⟨rfl, rfl⟩

theorem fault_fillPages (hs : Step.verticalFilling.required ≤ d.stage) (options : LayoutOptions α) :
    (d.fillPages options).fault = none ∧ (d.fillPages options).document.stage = .justified := by
  rw [fillPages, Outcome.guarded_of_le hs]
  exact ⟨rfl, rfl⟩

/-! ### Control elements between symbols -/

/-- The symbols that a control element of a document is tied to are in the document. -/
def Tied {α : Type} (d : Document α) (h : Handle) : Prop :=
  ∃ n ∈ d.trees.toList, n.handle = h ∧ (n.tag = .control →
    ∀ a ∈ Stacking.anchors n.layout, ∃ m ∈ d.trees.toList, m.handle = a)

omit [Scalar α] in
/-- What moves control elements only does not untie them. -/
theorem Tied.of_forall₂ {h : Handle} (hh : d.Tied h)
    (hsame : Forest.Forall₂ Node.Boxed d.trees d'.trees) : d'.Tied h := by
  obtain ⟨n, hn, hhandle, hanchors⟩ := hh
  obtain ⟨n', hn', hnn⟩ := exists_mem_of_forall₂ hsame.flip.toList hn
  refine ⟨n', hn', hnn.handle.trans hhandle, fun ht a ha => ?_⟩
  rw [Node.tag, hnn.kind] at ht
  obtain ⟨m, hm, hma⟩ := hanchors ht a (hnn.anchors ▸ ha)
  obtain ⟨m', hm', hmm⟩ := exists_mem_of_forall₂ hsame.flip.toList hm
  exact ⟨m', hm', hmm.handle.trans hma⟩

/-- A control element is placed where the symbols that it is tied to are there. -/
theorem exists_placeAnchored (c : PlacingContext α) {h : Handle} (hd : d.handles.Nodup)
    (hh : d.Tied h) : ∃ d', d.placeAnchored c h = .ok d' := by
  have hnode {n : Node α} {i : Handle} (hn : n ∈ d.trees.toList) (hi : n.handle = i) :
      d.node? i = some n := by
    rw [node?, Forest.find?_eq_find?_toList]
    exact (find?_key_eq_some_iff hd).2 ⟨hn, hi⟩
  obtain ⟨n, hn, hhandle, hanchors⟩ := hh
  rw [placeAnchored, hnode hn hhandle]
  dsimp only
  split
  · rename_i control start hcontrol hstart
    have htag : n.tag = .control := by
      rw [Node.tag]
      cases hk : n.kind <;> rw [hk] at hcontrol <;> first | rfl | cases hcontrol
    obtain ⟨first, hfirst, hfirst'⟩ := hanchors htag start
      (by rw [Stacking.anchors, hstart]; exact List.mem_cons_self)
    obtain ⟨last, hlast, hlast'⟩ : ∃ m ∈ d.trees.toList, m.handle = n.layout.endAnchor.getD start := by
      cases hend : n.layout.endAnchor with
      | none => exact ⟨first, hfirst, hfirst'⟩
      | some stop =>
        refine hanchors htag stop ?_
        rw [Stacking.anchors, hend]
        exact List.mem_append_right _ List.mem_cons_self
    have hspan : ∃ span, d.spanEnd? first (n.layout.endAnchor.getD start) = .ok span := by
      rw [spanEnd?]
      dsimp only
      split
      · rw [hnode hlast hlast']
        exact ⟨_, rfl⟩
      · exact ⟨_, rfl⟩
    obtain ⟨span, hspan⟩ := hspan
    rw [hnode hfirst hfirst']
    dsimp only
    split
    · exact ⟨d, rfl⟩
    · rw [hspan]
      exact ⟨_, rfl⟩
  · exact ⟨d, rfl⟩

/-- So are several one after another. -/
theorem exists_placeAllAnchored (c : PlacingContext α) : (waiting : List Handle) →
    {d : Document α} → d.handles.Nodup → (∀ h ∈ waiting, d.Tied h) →
      ∃ d', waiting.foldlM (placeAnchored c) d = .ok d'
  | [], d, _, _ => ⟨d, rfl⟩
  | h :: waiting, d, hd, hwaiting => by
      obtain ⟨d₁, hok⟩ := exists_placeAnchored c hd (hwaiting h List.mem_cons_self)
      have hsame := (forall₂_placeAnchored hd hok).mono fun _ _ => Node.Reanchored.boxed
      obtain ⟨d', hok'⟩ := exists_placeAllAnchored c waiting (nodup_handles_placeAnchored hd hok)
        fun i hi => (hwaiting i (List.mem_cons_of_mem h hi)).of_forall₂ hsame
      exact ⟨d', except_bind_eq_ok.2 ⟨d₁, hok, hok'⟩⟩

theorem WellFormed.fault_place (hd : d.WellFormed) (h : d.Anchored)
    (hs : Step.placement.required ≤ d.stage) (options : LayoutOptions α)
    (metrics : GlyphMetrics α) : (d.place options metrics).fault = none ∧
      (d.place options metrics).document.stage = .finalized := by
  rw [Document.place, Outcome.guarded_of_le hs]
  dsimp only
  generalize hc : (⟨metrics, options.scaledUnit, options.marginLeft, options.marginTop, d⟩ :
    PlacingContext α) = c
  have hdocument : c.document = d := by rw [← hc]
  obtain ⟨r, below, detached, htrees, -, htag⟩ := hd.root
  have hscore : d.score = .tree r below := by rw [Document.score, htrees]; rfl
  have htied : ∀ n ∈ below.toList, d.Tied n.handle := fun n hn => by
    have hmem : n ∈ d.score.toList := by
      rw [hscore]
      exact List.mem_cons_of_mem _ (List.mem_append_left _ hn)
    refine ⟨n, (score_sublist d).subset hmem, rfl, fun ht a ha => ?_⟩
    obtain ⟨m, hm, hma, -⟩ := h n (hd.mem_content hmem (by rw [ht]; decide)) a ha
    exact ⟨m, d.content_sublist.subset hm, hma⟩
  obtain ⟨s, below', hsame, ⟨hplaced, hfault, hwaiting⟩, -, hstate⟩ := Placing.run_score c
    (W := d.Tied) (NodeKind.eq_document htag)
    fun n hn => ⟨hd.tag_ne_document_of_mem_below htrees hn, htied n hn⟩
  have htree : Forest.Forall₂ Node.Boxed d.score (.tree r below') :=
    hscore ▸ .cons (.refl r) hsame .nil
  have hwhole := (d.sameTree_withScore (htree.mono fun _ _ h => h.sameMusic)).wellFormed hd
  have hboxed : Forest.Forall₂ Node.Boxed d.trees (d.withScore (.tree r below')).trees := by
    have hall := htree.append (Forest.Forall₂.refl (R := Node.Boxed) (f := d.trees.rest)
      fun n _ => .refl n)
    rwa [score, first_append_rest] at hall
  have hlatest : (Forest.tree r below').map s.latest = .tree r below' :=
    Forest.map_eq_self fun n _ => by rw [Placing.latest, hplaced]; rfl
  obtain ⟨d', hok⟩ := exists_placeAllAnchored c s.waiting hwhole.nodup_handles
    fun i hi => (hwaiting i hi).of_forall₂ hboxed
  have hend : (d.score.run (placingPass c) .start).1.fault = none := by
    rw [hscore]
    rcases hstate with hstate | hstate <;> rw [hstate]
    · exact hfault
    · rw [Placing.placeWaiting, hlatest, hdocument, hok]
      exact hfault
  rw [hend]
  exact ⟨rfl, rfl⟩

end Document

end ScoreLayout
