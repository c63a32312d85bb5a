import ScoreLayout.Layout.Engine
import ScoreLayout.Proofs.Score.Edits

/-!
# What walking passes leave alone

Most passes walk over the score and write their results into its nodes. They change neither its
shape nor its music, and they do not touch what is detached. This holds also where a fault ends the
pass.

## Main definitions

* `Document.SameTree` — two states of one document, which differ in results of the layout only.
* `Node.SameKind` — two states of one node, before and after placement.

## Main results

* `Document.sameTree_reset`, `Document.sameTree_anchorControls`, `Document.sameTree_align`,
  `Document.sameTree_space`, `Document.sameTree_stackStaves`, `Document.sameTree_place` — the
  passes that walk.
* `Document.WellFormed.sameTree_fillLines`, `Document.WellFormed.sameTree_fillPages` — the passes
  that look nodes up by their handles.
-/

namespace ScoreLayout

variable {α : Type} [Scalar α]

/-- Two states of one node, which differ in its box and in what the layout notes beside its kind. -/
structure Node.SameKind {α : Type} (n n' : Node α) : Prop where
  handle : n'.handle = n.handle
  id : n'.id = n.id
  kind : n'.kind = n.kind
  dirty : n'.dirty = n.dirty

namespace Node.SameKind

variable {a b c : Node α}

omit [Scalar α] in
theorem refl (n : Node α) : n.SameKind n := ⟨rfl, rfl, rfl, rfl⟩

omit [Scalar α] in
theorem trans (h : a.SameKind b) (h' : b.SameKind c) : a.SameKind c :=
  ⟨h'.handle.trans h.handle, h'.id.trans h.id, h'.kind.trans h.kind, h'.dirty.trans h.dirty⟩

theorem sameMusic (h : a.SameKind b) : a.SameMusic b :=
  ⟨h.handle, h.id, congrArg NodeKind.bare h.kind⟩

end Node.SameKind

/-- The symbols that a node is tied to, and whether it is left out. -/
def LayoutState.ties {α : Type} (l : LayoutState α) : Option Handle × Option Handle × Bool :=
  (l.startAnchor, l.endAnchor, l.omitted)

omit [Scalar α] in
theorem LayoutState.anchors_eq_of_ties {l l' : LayoutState α} (h : l'.ties = l.ties) :
    Stacking.anchors l' = Stacking.anchors l := by
  rw [Stacking.anchors, Stacking.anchors, show l'.startAnchor = l.startAnchor from
    congrArg Prod.fst h, show l'.endAnchor = l.endAnchor from congrArg (·.2.1) h]

omit [Scalar α] in
theorem LayoutState.omitted_eq_of_ties {l l' : LayoutState α} (h : l'.ties = l.ties) :
    l'.omitted = l.omitted := congrArg (·.2.2) h

/-- Two states of one node, which differ in its box and, if it is a control element, in what the
layout notes. It is tied to the same symbols, and nothing is noted on one that is tied to none. -/
structure Node.Boxed {α : Type} (n n' : Node α) : Prop extends n.SameKind n' where
  layout : n.tag ≠ .control → n'.layout = n.layout
  ties : n'.layout.ties = n.layout.ties
  untied : n.layout.startAnchor = none → n'.layout = n.layout

omit [Scalar α] in
theorem LayoutState.startAnchor_eq_of_ties {l l' : LayoutState α} (h : l'.ties = l.ties) :
    l'.startAnchor = l.startAnchor := congrArg Prod.fst h

namespace Node.Boxed

variable {a b c : Node α}

omit [Scalar α] in
theorem anchors (h : a.Boxed b) : Stacking.anchors b.layout = Stacking.anchors a.layout :=
  LayoutState.anchors_eq_of_ties h.ties

omit [Scalar α] in
theorem refl (n : Node α) : n.Boxed n := ⟨.refl n, fun _ => rfl, rfl, fun _ => rfl⟩

omit [Scalar α] in
theorem trans (h : a.Boxed b) (h' : b.Boxed c) : a.Boxed c where
  toSameKind := h.toSameKind.trans h'.toSameKind
  layout ha := (h'.layout (by rwa [Node.tag, h.kind])).trans (h.layout ha)
  ties := h'.ties.trans h.ties
  untied ha := (h'.untied ((LayoutState.startAnchor_eq_of_ties h.ties).trans ha)).trans (h.untied ha)

end Node.Boxed

/-- Two states of one node, which differ only if it is a control element. It is tied to the same
symbols, and one that is tied to none does not differ. -/
structure Node.Reanchored {α : Type} (n n' : Node α) : Prop extends n.SameKind n' where
  same : n.tag ≠ .control → n' = n
  ties : n'.layout.ties = n.layout.ties
  untied : n.layout.startAnchor = none → n' = n

namespace Node.Reanchored

variable {a b c : Node α}

omit [Scalar α] in
theorem refl (n : Node α) : n.Reanchored n := ⟨.refl n, fun _ => rfl, rfl, fun _ => rfl⟩

omit [Scalar α] in
theorem trans (h : a.Reanchored b) (h' : b.Reanchored c) : a.Reanchored c where
  toSameKind := h.toSameKind.trans h'.toSameKind
  same ha := (h'.same (by rwa [Node.tag, h.kind])).trans (h.same ha)
  ties := h'.ties.trans h.ties
  untied ha := (h'.untied ((LayoutState.startAnchor_eq_of_ties h.ties).trans ha)).trans (h.untied ha)

omit [Scalar α] in
theorem boxed (h : a.Reanchored b) : a.Boxed b :=
  ⟨h.toSameKind, fun ha => by rw [h.same ha], h.ties, fun ha => by rw [h.untied ha]⟩

end Node.Reanchored

namespace Document

/-- Two states of one document, which differ in results of the layout only. -/
structure SameTree (d d' : Document α) : Prop where
  trees : Forest.Forall₂ Node.SameMusic d.trees d'.trees
  /-- What is detached has not been touched at all. -/
  rest : d'.trees.rest = d.trees.rest
  capacity : d'.capacity = d.capacity
  freed : d'.freed = d.freed
  counter : d'.counter = d.counter
  definition : d'.definition = d.definition

namespace SameTree

variable {d d₁ d₂ : Document α}

theorem refl (d : Document α) : d.SameTree d :=
  ⟨.refl fun n _ => .refl n, rfl, rfl, rfl, rfl, rfl⟩

theorem trans (h : d.SameTree d₁) (h' : d₁.SameTree d₂) : d.SameTree d₂ where
  trees := h.trees.trans h'.trees fun _ _ _ => Node.SameMusic.trans
  rest := h'.rest.trans h.rest
  capacity := h'.capacity.trans h.capacity
  freed := h'.freed.trans h.freed
  counter := h'.counter.trans h.counter
  definition := h'.definition.trans h.definition

theorem withStage (h : d.SameTree d₁) (stage : Stage) : d.SameTree { d₁ with stage } :=
  ⟨h.trees, h.rest, h.capacity, h.freed, h.counter, h.definition⟩

theorem wellFormed (h : d.SameTree d₁) (hd : d.WellFormed) : d₁.WellFormed :=
  hd.of_forall₂ h.trees h.capacity h.freed

theorem score (h : d.SameTree d₁) : Forest.Forall₂ Node.SameMusic d.score d₁.score := h.trees.first

theorem isLive (h : d.SameTree d₁) {i : Handle} (hi : d.isLive i) : d₁.isLive i := by
  obtain ⟨n, hn, hh⟩ := (isLive_iff d i).1 hi
  obtain ⟨n', hn', hm⟩ := exists_mem_of_forall₂ h.score.flip.toList hn
  exact (isLive_iff d₁ i).2 ⟨n', hn', hm.handle.trans hh⟩

end SameTree

/-- A score with the same music in place of the score. -/
theorem sameTree_withScore (d : Document α) {score : Forest (Node α)}
    (h : Forest.Forall₂ Node.SameMusic d.score score) : d.SameTree (d.withScore score) := by
  rw [Document.score] at h
  refine ⟨?_, ?_, rfl, rfl, rfl, rfl⟩
  · rw [withScore]
    cases htrees : d.trees with
    | nil =>
      rw [htrees] at h
      cases h
      exact .nil
    | cons n below detached =>
      rw [htrees] at h
      cases h with
      | cons hn hb hs =>
        cases hs
        exact .cons hn hb (.refl fun m _ => .refl m)
  · rw [withScore]
    cases htrees : d.trees with
    | nil =>
      rw [htrees] at h
      cases h
      rfl
    | cons n below detached =>
      rw [htrees] at h
      cases h with
      | cons _ _ hs =>
        cases hs
        rfl

omit [Scalar α] in
theorem score_withScore {d : Document α} {R : Node α → Node α → Prop} {score : Forest (Node α)}
    (h : Forest.Forall₂ R d.score score) : (d.withScore score).score = score := by
  rw [Document.score] at h
  rw [withScore, Document.score]
  cases htrees : d.trees with
  | nil =>
    rw [htrees] at h
    cases h
    rfl
  | cons n below detached =>
    rw [htrees] at h
    cases h with
    | cons _ _ hs =>
      cases hs
      rfl

/-- A walk over the score whose callbacks keep the music of the nodes. -/
theorem sameTree_run {σ : Type} (d : Document α) {p : Pass σ (Node α)}
    (henter : ∀ s parent n, Node.SameMusic n (p.enter s parent n).2.1)
    (hleave : ∀ s whole n below, Node.SameMusic n (p.leave s whole n below).2.1 ∧
      Forest.Forall₂ Node.SameMusic below (p.leave s whole n below).2.2.1) (s : σ) :
    Forest.Forall₂ Node.SameMusic d.score (d.score.run p s).2.1 :=
  Forest.forall₂_run Node.SameMusic.refl (fun _ _ _ => Node.SameMusic.trans) henter hleave s d.score

private theorem forall₂_refl (f : Forest (Node α)) : Forest.Forall₂ Node.SameMusic f f :=
  .refl fun n _ => .refl n

/-! ### Preparation -/

theorem sameTree_reset (d : Document α) : d.SameTree d.reset := by
  refine d.sameTree_withScore (Forest.Forall₂.map_right _ fun n _ => ⟨rfl, rfl, ?_⟩)
  rw [Node.reset]
  cases n.kind <;> rfl

omit [Scalar α] in
theorem anchorNode_eq (d : Document α) (marks : List Mark) (parent : Option (Node α))
    (n : Node α) (c : Control α) :
    ∃ layout, (d.anchorNode marks parent n c).2 = { n with layout } := by
  rw [anchorNode]
  split
  · exact ⟨_, rfl⟩
  · exact ⟨_, rfl⟩

theorem sameTree_anchorControls (d : Document α) : d.SameTree d.anchorControls.2 := by
  refine d.sameTree_withScore (d.sameTree_run ?_ ?_ _)
  · intro marks parent n
    rw [anchorPass]
    dsimp only
    split
    · rename_i c _
      obtain ⟨layout, h⟩ := d.anchorNode_eq marks parent n c
      rw [h]
      exact ⟨rfl, rfl, rfl⟩
    · exact .refl n
    · exact .refl n
  · exact fun _ _ n below => ⟨.refl n, forall₂_refl below⟩

end Document

/-! ### Horizontal alignment -/

namespace AlignState

variable (c : AlignContext α) (s : AlignState α) (n : Node α)

/-- What alignment keeps of a node: its music, the symbols that it is tied to, and whether it is left
out. -/
structure Keeps (n n' : Node α) : Prop extends n.SameMusic n' where
  ties : n'.layout.ties = n.layout.ties

theorem Keeps.anchors {n n' : Node α} (h : Keeps n n') :
    Stacking.anchors n'.layout = Stacking.anchors n.layout := LayoutState.anchors_eq_of_ties h.ties

theorem Keeps.refl (n : Node α) : Keeps n n := ⟨.refl n, rfl⟩

theorem Keeps.trans {a b c : Node α} (h : Keeps a b) (h' : Keeps b c) : Keeps a c :=
  ⟨h.toSameMusic.trans h'.toSameMusic, h'.ties.trans h.ties⟩

/-- What alignment makes of a node: results of the layout, and the box. -/
def Writes (n n' : Node α) : Prop :=
  ∃ box layout, n' = { n with box, layout } ∧ layout.ties = n.layout.ties

omit [Scalar α] in
theorem Writes.trans {a b c : Node α} (h : Writes a b) (h' : Writes b c) : Writes a c := by
  obtain ⟨box, layout, rfl, ha⟩ := h
  obtain ⟨box', layout', rfl, ha'⟩ := h'
  exact ⟨box', layout', rfl, ha'.trans ha⟩

theorem Writes.keeps {n n' : Node α} (h : Writes n n') : Keeps n n' := by
  obtain ⟨box, layout, rfl, ha⟩ := h
  exact ⟨⟨rfl, rfl, rfl⟩, ha⟩

theorem writes_record (onset time : Fraction) (y : α) (rect : Option (Rect α)) :
    Writes n (s.record n onset time y rect).2 := ⟨_, _, rfl, rfl⟩

theorem writes_assign (key : SlotKey) : Writes n (s.assign n key).2 := ⟨n.box, _, rfl, rfl⟩

omit [Scalar α] in
theorem writes_advance (time : Fraction) : Writes n (s.advance n time).2 := by
  rw [advance]
  split
  · exact ⟨n.box, n.layout, rfl, rfl⟩
  · exact ⟨n.box, _, rfl, rfl⟩

theorem writes_enterChordNote (chord : OpenChord) (note : Note) (rect : Option (Rect α)) :
    Writes n (s.enterChordNote c chord n note rect).2 := by
  rw [enterChordNote]
  dsimp only
  split
  · exact (writes_record ..).trans (writes_assign ..)
  · exact writes_record ..

theorem writes_enterTimed (e : Element) (d : Duration) (rect : Option (Rect α)) :
    Writes n (s.enterTimed c n e d rect).2 := by
  rw [enterTimed]
  dsimp only
  refine Writes.trans ?_ (writes_advance ..)
  split
  · exact writes_record ..
  · exact ⟨_, _, rfl, rfl⟩

theorem writes_enterFullMeasure (e : Element) (rect : Option (Rect α)) :
    Writes n (s.enterFullMeasure c n e rect).2 := by
  rw [enterFullMeasure]
  exact Writes.trans ⟨_, _, rfl, rfl⟩ (writes_advance ..)

theorem writes_enterUntimed (kind : SlotKind) (rect : Option (Rect α)) :
    Writes n (s.enterUntimed n kind rect).2 := ⟨_, _, rfl, rfl⟩

theorem writes_enterSymbol (e : Element) (rect : Option (Rect α)) :
    Writes n (s.enterSymbol c n e rect).2 := by
  unfold enterSymbol
  split
  · exact writes_enterTimed ..
  · exact writes_enterTimed ..
  · exact writes_enterTimed ..
  · exact writes_enterTimed ..
  · exact writes_enterFullMeasure ..
  · exact writes_enterFullMeasure ..
  · exact writes_enterUntimed ..
  · exact writes_enterUntimed ..
  · exact writes_enterUntimed ..
  · exact writes_enterUntimed ..
  · exact writes_record ..
  · exact writes_record ..

theorem writes_enterElement (parent : Option (Node α)) (e : Element) :
    Writes n (s.enterElement c parent n e).2 := by
  unfold enterElement
  dsimp only
  split
  · split
    · exact writes_enterChordNote ..
    · exact writes_enterSymbol ..
  · exact writes_enterSymbol ..

omit [Scalar α] in
theorem writes_leaveElement (e : Element) : Writes n (s.leaveElement n e).2 := by
  unfold leaveElement
  dsimp only
  -- closing a chord or a tuplet changes the state alone
  repeat' split
  all_goals first | exact ⟨n.box, n.layout, rfl, rfl⟩ | exact ⟨n.box, _, rfl, rfl⟩

theorem writes_placeControl (beat last : Fraction) : Writes n (placeControl beat last s n).2 := by
  rw [placeControl]
  split
  · exact ⟨n.box, n.layout, rfl, rfl⟩
  · exact ⟨n.box, _, rfl, rfl⟩

theorem writes_placeControls (beat last : Fraction) :
    (s : AlignState α) → (f : Forest (Node α)) →
      Forest.Forall₂ Writes f (placeControls beat last s f).2
  | _, .nil => .nil
  | s, .cons n _ siblings =>
      .cons (writes_placeControl s n beat last) (.refl fun m _ => ⟨m.box, m.layout, rfl, rfl⟩)
        (writes_placeControls beat last _ siblings)

theorem keeps_enter (parent : Option (Node α)) : Keeps n (s.enter c parent n).2.1 := by
  rw [enter]
  split
  case h_7 m hm =>
    simp only [enterMeasure]
    split
    · exact ⟨⟨rfl, rfl, by rw [hm]; rfl⟩, rfl⟩
    · exact .refl n
  case h_8 => exact ⟨⟨rfl, rfl, rfl⟩, rfl⟩
  case h_9 => exact ⟨⟨rfl, rfl, rfl⟩, rfl⟩
  case h_10 e _ =>
    split
    · exact (writes_enterElement c (s.reach e) n parent e).keeps
    · exact .refl n
  all_goals exact .refl n

theorem keeps_leave (below : Forest (Node α)) :
    Keeps n (s.leave c n below).2.1 ∧ Forest.Forall₂ Keeps below (s.leave c n below).2.2.1 := by
  have hstay (f : Forest (Node α)) : Forest.Forall₂ Keeps f f := .refl fun m _ => .refl m
  rw [leave]
  split
  case h_1 m hm =>
    have hbelow := (writes_placeControls s.signatures.meter.beatDuration
      (s.grids.headD m.grid).maxTime s below).mono fun _ _ => Writes.keeps
    simp only [leaveMeasure]
    split
    · exact ⟨⟨⟨rfl, rfl, by rw [hm]; rfl⟩, rfl⟩, hbelow⟩
    · exact ⟨.refl n, hbelow⟩
  case h_2 => exact ⟨.refl n, hstay below⟩
  case h_3 e _ => exact ⟨(writes_leaveElement s n e).keeps, hstay below⟩
  case h_4 => exact ⟨.refl n, hstay below⟩

theorem keeps_applyGraceSlots (slots : List (Handle × SlotKey)) :
    Keeps n (applyGraceSlots slots n) := by
  rw [applyGraceSlots]
  split
  · exact ⟨⟨rfl, rfl, rfl⟩, rfl⟩
  · exact .refl n

end AlignState

namespace Document

/-- The nodes of the score keep their music and what they are tied to. -/
theorem keeps_fillGrids (d : Document α) (metrics : GlyphMetrics α) (unit : α) :
    ∃ score, (d.fillGrids metrics unit).2 = d.withScore score ∧
      Forest.Forall₂ AlignState.Keeps d.score score := by
  have hrun := Forest.forall₂_run AlignState.Keeps.refl
    (fun _ _ _ => AlignState.Keeps.trans) (p := alignPass ⟨metrics, unit, d⟩)
    (fun s parent n => AlignState.keeps_enter _ s n parent)
    (fun s _ n below => AlignState.keeps_leave _ s n below) (.start d.definition) d.score
  exact ⟨_, rfl, hrun.trans (Forest.Forall₂.map_right _ fun n _ =>
    AlignState.keeps_applyGraceSlots n _) fun _ _ _ => AlignState.Keeps.trans⟩

theorem sameTree_fillGrids (d : Document α) (metrics : GlyphMetrics α) (unit : α) :
    d.SameTree (d.fillGrids metrics unit).2 := by
  obtain ⟨score, heq, hscore⟩ := d.keeps_fillGrids metrics unit
  rw [heq]
  exact d.sameTree_withScore (hscore.mono fun _ _ h => h.toSameMusic)

theorem sameTree_align (d : Document α) (metrics : GlyphMetrics α) (unit : α) :
    d.SameTree (d.align metrics unit).document := by
  rw [align, Outcome.guarded]
  split
  · exact .refl d
  · have h := d.sameTree_fillGrids metrics unit
    dsimp only
    split
    · exact h
    · exact h.withStage _

/-! ### Spacing and stacking -/

theorem sameTree_space (d : Document α) (options : LayoutOptions α) :
    d.SameTree (d.space options).document := by
  rw [space, Outcome.guarded]
  split
  · exact .refl d
  · have hrun := d.sameTree_run (p := spacingPass (options.spacing d.longest)) (s := none)
      (fun fault parent n => ?_) fun _ _ n below => ⟨.refl n, forall₂_refl below⟩
    · have h := d.sameTree_withScore hrun
      dsimp only
      split
      · exact h
      · exact h.withStage _
    · rw [spacingPass]
      dsimp only
      split
      · rename_i m hm
        split
        · exact ⟨rfl, rfl, by rw [hm]; rfl⟩
        · exact .refl n
      · exact .refl n

theorem sameTree_stackStaves (d : Document α) (options : LayoutOptions α)
    (metrics : GlyphMetrics α) : d.SameTree (d.stackStaves options metrics).document := by
  rw [stackStaves, Outcome.guarded]
  split
  · exact .refl d
  · have hrun (c : StackingContext α) := d.sameTree_run (p := stackingPass c) (s := .start)
      (fun s parent n => ?_) fun s _ n below => ?_
    · have h := d.sameTree_withScore
        (hrun ⟨d, metrics, options.scaledUnit, options.spacingStaff * options.scaledUnit⟩)
      dsimp only
      split
      · exact h
      · exact h.withStage _
    · rw [stackingPass]
      dsimp only
      split
      all_goals exact .refl n
    · rw [stackingPass]
      dsimp only
      split
      · rename_i system hsystem
        refine ⟨?_, forall₂_refl below⟩
        simp only [Stacking.leaveSystem]
        split
        · exact ⟨rfl, rfl, by rw [Node.mapKind, hsystem]; rfl⟩
        · exact .refl n
      · exact ⟨.refl n, forall₂_refl below⟩

/-! ### Placement -/

omit [Scalar α] in
theorem forall₂_modify {R : Node α → Node α → Prop} (hrefl : ∀ n, R n n) (d : Document α)
    (h : Handle) {f : Node α → Node α} (hf : ∀ n ∈ d.trees.toList, n.handle = h → R n (f n)) :
    Forest.Forall₂ R d.trees (d.modify h f).trees := by
  refine Forest.Forall₂.map_right _ fun n hn => ?_
  split
  · rename_i hh
    exact hf n hn (by simpa [hasHandle] using hh)
  · exact hrefl n

/-- A control element that is placed between its symbols: one that begins on a visible staff. -/
structure Spans (c : PlacingContext α) (d : Document α) (n : Node α) (control : Control α)
    (start : Handle) (first : Node α) (span : α × Rect α) : Prop where
  kind : n.kind.control? = some control
  tied : n.layout.startAnchor = some start
  node? : d.node? start = some first
  shown : ((d.ancestorOfKind? start .staff).map fun s => s.box.rect.isNone).getD false = false
  span : d.spanEnd? first (n.layout.endAnchor.getD start) = .ok span

/-- The node of a control element that is placed between its symbols. -/
def spanned (c : PlacingContext α) (d : Document α) (control : Control α) (start : Handle)
    (first : Node α) (span : α × Rect α) : Node α → Node α :=
  Node.spanned c control (d.ancestorOfKind? start .staff) first span.1 span.2

/-- What placing a control element comes to. -/
theorem placeAnchored_cases {d d' : Document α} {c : PlacingContext α} {h : Handle}
    (hok : d.placeAnchored c h = .ok d') : ∃ n, d.node? h = some n ∧
      ((∃ control start first span, d.Spans c n control start first span ∧
          d' = d.modify h (d.spanned c control start first span)) ∨
        d' = d ∧ ∀ control start, n.kind.control? = some control → n.layout.startAnchor = some start →
          ∃ staff, d.ancestorOfKind? start .staff = some staff ∧ staff.box.rect = none) := by
  rw [placeAnchored] at hok
  split at hok
  · rename_i n hn
    refine ⟨n, hn, ?_⟩
    split at hok
    · rename_i control start hcontrol hstart
      split at hok
      · rename_i first hfirst
        dsimp only at hok
        split at hok
        · rename_i hhidden
          refine .inr ⟨(Except.ok.inj hok).symm, fun _ start' _ hstart' => ?_⟩
          obtain rfl := Option.some.inj (hstart.symm.trans hstart')
          cases hstaff : d.ancestorOfKind? start .staff with
          | none => simp [hstaff] at hhidden
          | some staff => exact ⟨staff, rfl, by simpa [hstaff] using hhidden⟩
        · rename_i hshown
          obtain ⟨span, hspan, hok⟩ := except_bind_eq_ok.1 hok
          exact .inl ⟨control, start, first, span,
            ⟨hcontrol, hstart, hfirst, Bool.eq_false_iff.2 hshown, hspan⟩, (Except.ok.inj hok).symm⟩
      · simp at hok
    · rename_i hno
      exact .inr ⟨(Except.ok.inj hok).symm, fun control start hc hs => (hno control start hc hs).elim⟩
  · simp at hok

theorem forall₂_placeAnchored {d d' : Document α} {c : PlacingContext α} {h : Handle}
    (hd : d.handles.Nodup) (hok : d.placeAnchored c h = .ok d') :
    Forest.Forall₂ Node.Reanchored d.trees d'.trees := by
  obtain ⟨n, hn, ⟨control, start, first, span, hspans, rfl⟩ | ⟨rfl, -⟩⟩ := placeAnchored_cases hok
  · rw [node?, Forest.find?_eq_find?_toList] at hn
    obtain ⟨hmem, hh⟩ := (find?_key_eq_some_iff hd).1 hn
    refine forall₂_modify Node.Reanchored.refl d h fun m hm hm' => ?_
    obtain rfl := List.inj_on_of_nodup_map hd hm hmem (hm'.trans hh.symm)
    refine ⟨⟨rfl, rfl, rfl, rfl⟩, fun htag => absurd ?_ htag, rfl, fun hnone => ?_⟩
    · have hcontrol := hspans.kind
      rw [Node.tag]
      cases hk : m.kind <;> rw [hk] at hcontrol <;> first | rfl | cases hcontrol
    · rw [hspans.tied] at hnone
      cases hnone
  · exact .refl fun n _ => .refl n

theorem nodup_handles_placeAnchored {d d' : Document α} {c : PlacingContext α} {h : Handle}
    (hd : d.handles.Nodup) (hok : d.placeAnchored c h = .ok d') : d'.handles.Nodup := by
  rw [handles, ← map_eq_of_forall₂ (fun _ _ h => h.handle.symm) (forall₂_placeAnchored hd hok).toList]
  exact hd

theorem forall₂_placeAllAnchored {c : PlacingContext α} : {waiting : List Handle} →
    {d d' : Document α} → d.handles.Nodup → waiting.foldlM (placeAnchored c) d = .ok d' →
      Forest.Forall₂ Node.Reanchored d.trees d'.trees
  | [], d, _, _, hok => Except.ok.inj hok ▸ .refl fun n _ => .refl n
  | h :: waiting, d, _, hd, hok => by
      obtain ⟨d₁, h₁, hok⟩ := except_bind_eq_ok.1 hok
      exact (forall₂_placeAnchored hd h₁).trans
        (forall₂_placeAllAnchored (nodup_handles_placeAnchored hd h₁) hok)
        fun _ _ _ => Node.Reanchored.trans

end Document

namespace Placing

/-- The control elements that have waited are nodes of the document. -/
theorem exists_of_mem_placed {c : PlacingContext α} {s : Placing α} (hs : s.placed = [])
    {score : Forest (Node α)} (hd : (c.document.withScore score).handles.Nodup) {m : Node α}
    (hm : m ∈ (s.placeWaiting c score).placed) :
    ∃ n ∈ (c.document.withScore score).trees.toList, n.Reanchored m := by
  have hlatest : score.map s.latest = score :=
    Forest.map_eq_self fun n _ => by rw [latest, hs]; rfl
  rw [placeWaiting, hlatest] at hm
  split at hm
  · rename_i d hok
    rw [hs, List.append_nil, List.mem_filterMap] at hm
    obtain ⟨h, -, hnode⟩ := hm
    rw [Document.node?, Forest.find?_eq_find?_toList] at hnode
    exact exists_mem_of_forall₂ (Document.forall₂_placeAllAnchored hd hok).toList
      (List.mem_of_find?_eq_some hnode)
  · rw [hs] at hm
    exact absurd hm List.not_mem_nil

/-- A state in which control elements with some handles wait, and none has been placed. -/
structure Waits {α : Type} (W : Handle → Prop) (s : Placing α) : Prop where
  placed : s.placed = []
  fault : s.fault = none
  waiting : ∀ h ∈ s.waiting, W h

/-- Below the document node nothing that has waited is placed. -/
theorem run_below (c : PlacingContext α) {W : Handle → Prop} (below : Forest (Node α))
    (hbelow : ∀ n ∈ below.toList, n.tag ≠ .document ∧ W n.handle) (parent : Option (Node α))
    (around : Forest (Node α) → Forest (Node α)) {s : Placing α} (hs : s.Waits W) :
    Forest.Forall₂ Node.Boxed below
        (below.runWithin (placingPass c) parent around s).2.1 ∧
      (below.runWithin (placingPass c) parent around s).1.Waits W := by
  refine Forest.forall₂_runWithin (R := Node.Boxed) (I := Waits W)
    (P := fun n => n.tag ≠ .document ∧ W n.handle) Node.Boxed.refl
    (fun _ _ _ => Node.Boxed.trans)
    (fun n n' h ht => by rwa [Node.tag, h.kind, h.handle]) ?_ ?_ below hbelow parent around s hs
  · intro s parent n hs hn
    have hgoes {s' : Placing α} (hplaced : s'.placed = s.placed) (hfault : s'.fault = s.fault)
        (hwaiting : s'.waiting = s.waiting) : s'.Waits W :=
      ⟨hplaced.trans hs.placed, hfault.trans hs.fault, hwaiting ▸ hs.waiting⟩
    rw [placingPass]
    dsimp only
    split
    · exact ⟨⟨⟨rfl, rfl, rfl, rfl⟩, fun _ => rfl, rfl, fun _ => rfl⟩, hgoes rfl rfl rfl⟩
    · simp only [enterMeasure]
      split
      · exact ⟨⟨⟨rfl, rfl, rfl, rfl⟩, fun _ => rfl, rfl, fun _ => rfl⟩, hgoes rfl rfl rfl⟩
      · exact ⟨.refl n, hs⟩
    · simp only [enterStaff]
      split
      · exact ⟨⟨⟨rfl, rfl, rfl, rfl⟩, fun _ => rfl, rfl, fun _ => rfl⟩, hgoes rfl rfl rfl⟩
      · exact ⟨.refl n, hs⟩
    · simp only [enterElement]
      split
      · exact ⟨⟨⟨rfl, rfl, rfl, rfl⟩, fun _ => rfl, rfl, fun _ => rfl⟩, hs⟩
      · exact ⟨.refl n, hs⟩
    · simp only [enterControl]
      have hwaiting : ∀ h ∈ s.waiting ++ [n.handle], W h :=
        List.forall_mem_append.2 ⟨hs.waiting, List.forall_mem_singleton.2 hn.2⟩
      repeat' split
      all_goals first
        | exact ⟨.refl n, hs⟩
        | exact ⟨.refl n, hs.placed, hs.fault, hwaiting⟩
        | exact ⟨⟨⟨rfl, rfl, rfl, rfl⟩, fun _ => rfl, rfl, fun _ => rfl⟩, hs⟩
    · exact ⟨.refl n, hs⟩
  · intro s whole n below hs hn
    have hstay : Forest.Forall₂ Node.Boxed below below := .refl fun m _ => .refl m
    have hgoes {s' : Placing α} (hplaced : s'.placed = s.placed) (hfault : s'.fault = s.fault)
        (hwaiting : s'.waiting = s.waiting) : s'.Waits W :=
      ⟨hplaced.trans hs.placed, hfault.trans hs.fault, hwaiting ▸ hs.waiting⟩
    rw [placingPass]
    dsimp only
    split
    · rename_i hk
      exact absurd (by rw [Node.tag, hk]; rfl) hn.1
    · refine ⟨?_, hstay, hs⟩
      rw [leaveElement]
      split
      · exact ⟨⟨rfl, rfl, rfl, rfl⟩, fun _ => rfl, rfl, fun _ => rfl⟩
      · exact .refl n
    all_goals exact ⟨.refl n, hstay, hgoes rfl rfl rfl⟩

/-- A walk over a score places what has waited when it leaves the document node, unless it has been
stopped before. -/
theorem run_score (c : PlacingContext α) {W : Handle → Prop} {r : Node α}
    {below : Forest (Node α)} (hr : r.kind = .document)
    (hbelow : ∀ n ∈ below.toList, n.tag ≠ .document ∧ W n.handle) :
    ∃ s below', Forest.Forall₂ Node.Boxed below below' ∧ s.Waits W ∧
      ((Forest.tree r below).run (placingPass c) .start).2.1 = .tree r below' ∧
      (((Forest.tree r below).run (placingPass c) .start).1 = s ∨
        ((Forest.tree r below).run (placingPass c) .start).1 =
          s.placeWaiting c (.tree r below')) := by
  have henter : (placingPass c).enter .start none r = (.start, r, .proceed) := by
    simp only [placingPass, hr]
  obtain ⟨hsame, hplaced⟩ := run_below c below hbelow (some r) (fun f => .cons r f .nil)
    (s := .start) ⟨rfl, rfl, nofun⟩
  rw [Forest.run, Forest.tree, Forest.runWithin, henter]
  dsimp only [id]
  generalize below.runWithin (placingPass c) (some r) (fun f => .cons r f .nil) .start = ran
    at hsame hplaced
  obtain ⟨s, below', v⟩ := ran
  refine ⟨s, below', hsame, hplaced, ?_⟩
  have hleave : (placingPass c).leave s (fun b children => .cons b children .nil) r below' =
      (s.placeWaiting c (.tree r below'), r, below',
        if (s.placeWaiting c (.tree r below')).fault.isSome then .stop else .proceed) := by
    simp only [placingPass, hr]
    rfl
  cases v with
  | stop => exact ⟨rfl, .inl rfl⟩
  | proceed | skipChildren =>
    dsimp only
    rw [hleave]
    split
    · rename_i heq
      rw [Prod.mk.injEq, Prod.mk.injEq, Prod.mk.injEq] at heq
      obtain ⟨rfl, rfl, rfl, -⟩ := heq
      exact ⟨rfl, .inr rfl⟩
    · rename_i heq
      rw [Prod.mk.injEq, Prod.mk.injEq, Prod.mk.injEq] at heq
      obtain ⟨rfl, rfl, rfl, -⟩ := heq
      exact ⟨rfl, .inr rfl⟩

end Placing

namespace Document

/-- The score hangs from the only document node in it. -/
def Rooted (d : Document α) : Prop :=
  ∃ r below detached, d.trees = .cons r below detached ∧ r.tag = .document ∧
    ∀ n ∈ below.toList, n.tag ≠ .document

omit [Scalar α] in
theorem WellFormed.rooted {d : Document α} (hd : d.WellFormed) : d.Rooted := by
  obtain ⟨r, below, detached, htrees, -, htag⟩ := hd.root
  exact ⟨r, below, detached, htrees, htag, fun n hn => hd.tag_ne_document_of_mem_below htrees hn⟩

namespace Rooted

variable {d : Document α} (hd : d.Rooted)

include hd

omit [Scalar α] in
theorem withScore_self : d.withScore d.score = d := by
  obtain ⟨r, below, detached, htrees, -⟩ := hd
  have hall : d.trees.first ++ d.trees.rest = d.trees := by
    rw [htrees]
    rfl
  rw [withScore, score, hall]

/-- The walk of placement changes no kind of a node, and what has waited then is put in its place
changes control elements only. -/
theorem reanchored_latest (hnodup : d.handles.Nodup) {c : PlacingContext α}
    (hc : c.document = d) : Forest.Forall₂ Node.Boxed d.score
        (d.score.run (placingPass c) .start).2.1 ∧
      ∀ n ∈ (d.score.run (placingPass c) .start).2.1.toList,
        n.Reanchored ((d.score.run (placingPass c) .start).1.latest n) := by
  obtain ⟨r, below, detached, htrees, htag, hbelow⟩ := hd
  have hscore : d.score = .tree r below := by rw [Document.score, htrees]; rfl
  obtain ⟨s, below', hsame, ⟨hs, -, -⟩, hrun, hstate⟩ := Placing.run_score c
    (W := fun _ => True) (NodeKind.eq_document htag) fun n hn => ⟨hbelow n hn, trivial⟩
  rw [hscore]
  generalize (Forest.tree r below).run (placingPass c) .start = ran at hrun hstate
  obtain ⟨s', score, v⟩ := ran
  obtain rfl : score = .tree r below' := hrun
  have htree : Forest.Forall₂ Node.Boxed (.tree r below) (.tree r below') :=
    .cons (.refl r) hsame .nil
  have hwhole : (d.withScore (.tree r below')).handles.Nodup := by
    have hsame := d.sameTree_withScore (hscore ▸ htree.mono fun _ _ h => h.sameMusic)
    rwa [handles, ← map_eq_of_forall₂ (fun _ _ h => h.handle.symm) hsame.trees.toList]
  refine ⟨htree, fun n hn => ?_⟩
  dsimp only at hn hstate ⊢
  rw [Placing.latest]
  cases hm : s'.placed.find? (hasHandle n.handle) with
  | none => exact .refl n
  | some m =>
    have hmem := List.mem_of_find?_eq_some hm
    have hhandle : m.handle = n.handle := by
      simpa [hasHandle] using List.find?_some hm
    rcases hstate with rfl | rfl
    · rw [hs] at hmem
      exact absurd hmem List.not_mem_nil
    · obtain ⟨n₀, hn₀, hsame₀⟩ := Placing.exists_of_mem_placed hs (hc ▸ hwhole) hmem
      rw [hc] at hn₀
      have hn' : n ∈ (d.withScore (.tree r below')).trees.toList := by
        rw [withScore, Forest.toList_append]
        exact List.mem_append_left _ hn
      obtain rfl := List.inj_on_of_nodup_map hwhole hn₀ hn' (hsame₀.handle.symm.trans hhandle)
      exact hsame₀

/-- Placement changes no kind of a node. -/
theorem exists_place (hnodup : d.handles.Nodup) (options : LayoutOptions α)
    (metrics : GlyphMetrics α) : ∃ score stage,
      Forest.Forall₂ Node.Boxed d.score score ∧
        (d.place options metrics).document = { d.withScore score with stage } := by
  rw [place, Outcome.guarded]
  split
  · exact ⟨d.score, d.stage, .refl fun n _ => .refl n, by rw [hd.withScore_self]; rfl⟩
  · dsimp only
    obtain ⟨hsame, hlatest⟩ := hd.reanchored_latest hnodup
      (c := ⟨metrics, options.scaledUnit, options.marginLeft, options.marginTop, d⟩) rfl
    generalize d.score.run (placingPass
      ⟨metrics, options.scaledUnit, options.marginLeft, options.marginTop, d⟩) .start = ran
      at hsame hlatest
    obtain ⟨s, score, v⟩ := ran
    refine ⟨_, if s.fault.isSome then d.stage else .finalized,
      hsame.trans (Forest.Forall₂.map_right s.latest hlatest) fun _ _ _ h h' => h.trans h'.boxed,
      ?_⟩
    cases s.fault with
    | none => rfl
    | some f => rfl

end Rooted

omit [Scalar α] in
theorem withScore_self {d : Document α} (hd : d.WellFormed) : d.withScore d.score = d :=
  hd.rooted.withScore_self

theorem WellFormed.reanchored_latest {d : Document α} (hd : d.WellFormed) {c : PlacingContext α}
    (hc : c.document = d) : Forest.Forall₂ Node.Boxed d.score
        (d.score.run (placingPass c) .start).2.1 ∧
      ∀ n ∈ (d.score.run (placingPass c) .start).2.1.toList,
        n.Reanchored ((d.score.run (placingPass c) .start).1.latest n) :=
  hd.rooted.reanchored_latest hd.nodup_handles hc

/-- Placement changes no kind of a node of a well-formed document. -/
theorem WellFormed.exists_place {d : Document α} (hd : d.WellFormed)
    (options : LayoutOptions α) (metrics : GlyphMetrics α) : ∃ score stage,
      Forest.Forall₂ Node.Boxed d.score score ∧
        (d.place options metrics).document = { d.withScore score with stage } :=
  hd.rooted.exists_place hd.nodup_handles options metrics

theorem WellFormed.sameTree_place {d : Document α} (hd : d.WellFormed)
    (options : LayoutOptions α) (metrics : GlyphMetrics α) :
    d.SameTree (d.place options metrics).document := by
  obtain ⟨score, stage, hsame, heq⟩ := hd.exists_place options metrics
  rw [heq]
  exact (d.sameTree_withScore (hsame.mono fun _ _ h => h.sameMusic)).withStage stage

/-! ### Filling -/

/-- A change of a node of the score touches nothing that is detached. -/
theorem WellFormed.sameTree_modify {d : Document α} (hd : d.WellFormed) {h : Handle}
    (hl : d.isLive h) {f : Node α → Node α}
    (hf : ∀ n ∈ d.trees.toList, n.handle = h → Node.SameMusic n (f n)) :
    d.SameTree (d.modify h f) := by
  refine ⟨forall₂_modify Node.SameMusic.refl d h hf, ?_, rfl, rfl, rfl, rfl⟩
  have habsent : ∀ n ∈ d.trees.rest.toList, ¬ hasHandle h n := by
    intro n hn hh
    obtain rfl : n.handle = h := by simpa [hasHandle] using hh
    exact hd.not_isLive_of_mem_rest hn hl
  refine Eq.trans ?_ (Forest.modify_of_absent habsent f)
  rw [Document.modify, Forest.modify, Forest.modify]
  cases d.trees <;> rfl

omit [Scalar α] in
theorem WellFormed.mem_measuresOf {d : Document α} (hd : d.WellFormed) {system h : Handle}
    {m : Measure α} (hl : d.isLive system) (hm : (h, m) ∈ d.measuresOf system) :
    d.isLive h ∧ ∀ n ∈ d.trees.toList, n.handle = h → n.kind = .measure m := by
  obtain ⟨n, hn, heq⟩ := List.mem_filterMap.1 hm
  cases hk : n.kind with
  | measure m' =>
    simp only [NodeKind.measure?, hk, Option.map_some, Option.some.injEq, Prod.mk.injEq] at heq
    obtain ⟨rfl, rfl⟩ := heq
    refine ⟨hd.isLive_of_mem_childNodes hl hn, fun n' hn' hh => ?_⟩
    obtain ⟨a, hlink, -⟩ := hd.mem_childNodes_iff.1 hn
    obtain rfl := hd.eq_of_handle_eq hn' (Forest.mem_toList_of_mem_links hlink) hh
    exact hk
  | _ => simp [NodeKind.measure?, hk] at heq

theorem WellFormed.sameTree_fillMeasures : {measures : List (Handle × Measure α)} →
    {d d' : Document α} → {x x' : α} → {gaps : List (Gap α)} → d.WellFormed →
    (∀ p ∈ measures, d.isLive p.1 ∧ ∀ n ∈ d.trees.toList, n.handle = p.1 →
      n.kind.bare = (NodeKind.measure p.2).bare) →
    d.fillMeasures x gaps measures = .ok (x', d') → d.SameTree d'
  | [], d, _, _, _, _, _, _, hok => by
      rw [fillMeasures, Except.ok.injEq, Prod.mk.injEq] at hok
      exact hok.2 ▸ .refl d
  | (h, m) :: measures, d, _, x, _, gaps, hd, hmeasures, hok => by
      rw [fillMeasures] at hok
      dsimp only at hok
      split at hok
      · rename_i grid _
        obtain ⟨hl, hkind⟩ := hmeasures _ List.mem_cons_self
        have hstep := hd.sameTree_modify
          (f := fun n => { n with kind := .measure { m with grid, x } }) hl fun n hn hh =>
            ⟨rfl, rfl, (hkind n hn hh).symm⟩
        refine hstep.trans (sameTree_fillMeasures (hstep.wellFormed hd) ?_ hok)
        intro p hp
        obtain ⟨hl', hkind'⟩ := hmeasures p (List.mem_cons_of_mem _ hp)
        refine ⟨hstep.isLive hl', fun n' hn' hh => ?_⟩
        obtain ⟨n, hn, hsame⟩ := exists_mem_of_forall₂ hstep.trees.toList hn'
        exact hsame.kind.trans (hkind' n hn (hsame.handle.symm.trans hh))
      · exact absurd hok (by simp)

theorem NodeKind.bare_mapSystem (k : NodeKind α) (f : ScoreSystem α → ScoreSystem α) :
    (k.mapSystem f).bare = k.bare := by cases k <;> rfl

theorem NodeKind.bare_mapPage (k : NodeKind α) (f : Page α → Page α) :
    (k.mapPage f).bare = k.bare := by cases k <;> rfl

theorem WellFormed.sameTree_fillSystem {d d' : Document α} (hd : d.WellFormed)
    {options : LayoutOptions α} {available : α} {isLast : Bool} {n : Node α}
    (hl : d.isLive n.handle) (hok : d.fillSystem options available isLast n = .ok d') :
    d.SameTree d' := by
  rw [fillSystem] at hok
  split at hok
  · exact Except.ok.inj hok ▸ .refl d
  · dsimp only at hok
    split at hok
    · exact Except.ok.inj hok ▸ .refl d
    · split at hok
      · exact Except.ok.inj hok ▸ .refl d
      · obtain ⟨⟨x, d₁⟩, h₁, hok⟩ := except_bind_eq_ok.1 hok
        rw [← Except.ok.inj hok]
        have hfill : d.SameTree d₁ := hd.sameTree_fillMeasures (fun p hp => by
          obtain ⟨hlive, hkind⟩ := hd.mem_measuresOf hl hp
          exact ⟨hlive, fun n hn hh => by rw [hkind n hn hh]⟩) h₁
        refine hfill.trans ((hfill.wellFormed hd).sameTree_modify (hfill.isLive hl) ?_)
        exact fun n _ _ => ⟨rfl, rfl, NodeKind.bare_mapSystem ..⟩

theorem WellFormed.sameTree_fillSystems {options : LayoutOptions α} {available : α} :
    {systems : List (Node α)} → {d d' : Document α} → d.WellFormed →
    (∀ n ∈ systems, d.isLive n.handle) → d.fillSystems options available systems = .ok d' →
      d.SameTree d'
  | [], d, _, _, _, hok => Except.ok.inj hok ▸ .refl d
  | n :: systems, d, _, hd, hlive, hok => by
      obtain ⟨d₁, h₁, hok⟩ := except_bind_eq_ok.1 hok
      have hstep := hd.sameTree_fillSystem (hlive n List.mem_cons_self) h₁
      refine hstep.trans (sameTree_fillSystems (hstep.wellFormed hd) (fun m hm => ?_) hok)
      exact hstep.isLive (hlive m (List.mem_cons_of_mem n hm))

theorem WellFormed.sameTree_fillLines {d : Document α} (hd : d.WellFormed)
    (options : LayoutOptions α) : d.SameTree (d.fillLines options).document := by
  rw [fillLines, Outcome.guarded]
  split
  · exact .refl d
  · split
    · exact .refl d
    · rename_i available _
      split
      · cases hok : d.fillSystems options available d.systems with
        | error f => exact .refl d
        | ok d' => exact hd.sameTree_fillSystems (fun n hn => hd.isLive_of_mem_systems hn) hok
      · exact .refl d

theorem WellFormed.sameTree_spreadSystems (options : LayoutOptions α) (share : α) :
    {systems : List (Node α)} → {d : Document α} → (first : Bool) → (shift : α) →
    d.WellFormed → (∀ n ∈ systems, d.isLive n.handle) →
      d.SameTree (spreadSystems options share first shift systems d).2
  | [], d, _, _, _, _ => .refl d
  | n :: systems, d, first, shift, hd, hlive => by
      have hstep (f : ScoreSystem α → ScoreSystem α) :=
        hd.sameTree_modify (f := fun n => n.mapKind (.mapSystem f)) (hlive n List.mem_cons_self)
          fun n _ _ => ⟨rfl, rfl, NodeKind.bare_mapSystem ..⟩
      refine (hstep _).trans
        (sameTree_spreadSystems options share false _ ((hstep _).wellFormed hd) fun m hm => ?_)
      exact (hstep _).isLive (hlive m (List.mem_cons_of_mem n hm))

theorem WellFormed.sameTree_fillPage {d : Document α} (hd : d.WellFormed)
    (options : LayoutOptions α) (available : α) (isLast : Bool) {n : Node α}
    (hl : d.isLive n.handle) : d.SameTree (d.fillPage options available isLast n) := by
  rw [fillPage]
  split
  · exact .refl d
  · dsimp only
    split
    · exact .refl d
    · split
      · exact .refl d
      · split
        · exact .refl d
        · have hspread (share : α) := hd.sameTree_spreadSystems options share true 0
            fun m hm => hd.isLive_of_mem_childNodes hl hm
          refine (hspread _).trans
            (((hspread _).wellFormed hd).sameTree_modify ((hspread _).isLive hl) ?_)
          exact fun n _ _ => ⟨rfl, rfl, NodeKind.bare_mapPage ..⟩

theorem WellFormed.sameTree_spreadPages {options : LayoutOptions α} {available : α} :
    {pages : List (Node α)} → {d : Document α} → d.WellFormed →
    (∀ n ∈ pages, d.isLive n.handle) → d.SameTree (d.spreadPages options available pages)
  | [], d, _, _ => .refl d
  | n :: pages, d, hd, hlive => by
      have hstep := hd.sameTree_fillPage options available pages.isEmpty
        (hlive n List.mem_cons_self)
      refine hstep.trans (sameTree_spreadPages (hstep.wellFormed hd) fun m hm => ?_)
      exact hstep.isLive (hlive m (List.mem_cons_of_mem n hm))

theorem WellFormed.sameTree_fillPages {d : Document α} (hd : d.WellFormed)
    (options : LayoutOptions α) : d.SameTree (d.fillPages options).document := by
  rw [fillPages, Outcome.guarded]
  split
  · exact .refl d
  · dsimp only
    refine SameTree.withStage ?_ _
    split
    · exact hd.sameTree_spreadPages fun n hn => hd.isLive_of_mem_pages hn
    · exact .refl d

end Document

end ScoreLayout
