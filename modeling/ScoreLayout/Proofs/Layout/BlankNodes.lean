import ScoreLayout.Proofs.Layout.KeptSlots
import ScoreLayout.Proofs.Layout.SystemStaves
import ScoreLayout.Proofs.Layout.UnresolvedControls

/-!
# Nodes without boxes

Preparation clears the boxes of all nodes. Alignment gives a box to a symbol that has a footprint of
its own, and no other pass before placement gives one to a symbol or a control element. So before
placement control elements have no boxes, nor have beams, tuplets, and other symbols without
footprints.

## Main definitions

* `NodeKind.IsBlank` — what alignment gives no box.
* `Node.StaysBlank` — two states of one node; such a node without a box does not get one.
* `Document.Blank` — a document in which no such node has a box.

## Main results

* `AlignState.rect_enterElement` — a symbol without a footprint gets no box.
* `Document.WellFormed.staysBlank_run` — no pass between preparation and placement gives boxes away.
* `Document.WellFormed.blank_runAll` — the document before placement.
-/

namespace ScoreLayout

variable {α : Type}

/-- A symbol without a footprint of its own in any size; beams and tuplets never have one. -/
def Element.IsBlank (metrics : GlyphMetrics α) : Element → Prop
  | .beam | .tuplet _ _ => True
  | e => ∀ unit height, metrics.element e unit height = none

/-- A node that alignment gives no box: a control element, or a symbol without a footprint. -/
def NodeKind.IsBlank (metrics : GlyphMetrics α) : NodeKind α → Prop
  | .control _ => True
  | .element e => e.IsBlank metrics
  | _ => False

theorem NodeKind.isBlank_of_control {metrics : GlyphMetrics α} {k : NodeKind α}
    (h : k.tag = .control) : k.IsBlank metrics := by
  cases k with
  | control => trivial
  | _ => cases h

/-- Two states of one node. If it is one that alignment gives no box, it gets none. -/
def Node.StaysBlank (metrics : GlyphMetrics α) (n n' : Node α) : Prop :=
  n'.kind.IsBlank metrics →
    n.kind.IsBlank metrics ∧ (n.box.rect = none → n'.box.rect = none)

namespace Node.StaysBlank

variable {metrics : GlyphMetrics α} {a b c : Node α}

theorem refl (n : Node α) : n.StaysBlank metrics n := fun h => ⟨h, fun hrect => hrect⟩

theorem trans (h : a.StaysBlank metrics b) (h' : b.StaysBlank metrics c) :
    a.StaysBlank metrics c := fun hc => by
  obtain ⟨hb, hrect⟩ := h' hc
  obtain ⟨ha, hrect'⟩ := h hb
  exact ⟨ha, hrect ∘ hrect'⟩

/-- Only symbols and control elements count. -/
theorem of_not_isBlank (h : ¬ b.kind.IsBlank metrics) : a.StaysBlank metrics b :=
  fun hb => absurd hb h

theorem of_kind (hkind : b.kind = a.kind) (hbox : b.box = a.box) : a.StaysBlank metrics b := by
  rw [StaysBlank, hkind, hbox]
  exact refl a

/-- A change of nodes that are neither symbols nor control elements. -/
theorem mapKind {n : Node α} {f : NodeKind α → NodeKind α}
    (hf : ∀ k, f k = k ∨ ¬ (f k).IsBlank metrics) : n.StaysBlank metrics (n.mapKind f) := by
  rcases hf n.kind with h | h
  · exact of_kind h rfl
  · exact of_not_isBlank h

theorem mapSystem (n : Node α) (f : ScoreSystem α → ScoreSystem α) :
    n.StaysBlank metrics (n.mapKind (.mapSystem f)) :=
  mapKind fun k => by cases k <;> first | exact .inl rfl | exact .inr fun h => h

theorem mapPage (n : Node α) (f : Page α → Page α) :
    n.StaysBlank metrics (n.mapKind (.mapPage f)) :=
  mapKind fun k => by cases k <;> first | exact .inl rfl | exact .inr fun h => h

theorem mapMeasure (n : Node α) (f : Measure α → Measure α) :
    n.StaysBlank metrics (n.mapKind (.mapMeasure f)) :=
  mapKind fun k => by cases k <;> first | exact .inl rfl | exact .inr fun h => h

end Node.StaysBlank

theorem Node.Rearrangement.staysBlank (metrics : GlyphMetrics α) :
    Node.Rearrangement (Node.StaysBlank metrics) where
  refl := .refl
  trans := .trans
  mapSystem := .mapSystem
  mapPage := .mapPage
  place n _ := .mapMeasure n _

variable [Scalar α]

/-! ### Alignment -/

namespace AlignState

variable (c : AlignContext α) (s : AlignState α) (n : Node α)

omit [Scalar α] in
theorem box_advance (time : Fraction) : (s.advance n time).2.box = n.box := by
  rw [advance]
  split <;> rfl

theorem rect_enterTimed (e : Element) (d : Duration) : (s.enterTimed c n e d none).2.box.rect = none := by
  rw [enterTimed]
  dsimp only
  rw [box_advance, GlyphMetrics.graceRect, Option.map_none, ite_self]
  split <;> rfl

theorem rect_enterFullMeasure (e : Element) :
    (s.enterFullMeasure c n e none).2.box.rect = none := by
  rw [enterFullMeasure]
  dsimp only
  rw [box_advance]
  rfl

/-- A symbol that is recorded without a footprint has no box. -/
theorem rect_enterSymbol (e : Element) : (s.enterSymbol c n e none).2.box.rect = none := by
  unfold enterSymbol
  split
  · exact rect_enterTimed ..
  · exact rect_enterTimed ..
  · exact rect_enterTimed ..
  · exact rect_enterTimed ..
  · exact rect_enterFullMeasure ..
  · exact rect_enterFullMeasure ..
  all_goals rfl

/-- A beam or a tuplet has no box, whatever its footprint. -/
theorem rect_enterSymbol_of_group {e : Element} (he : e = .beam ∨ ∃ num base, e = .tuplet num base)
    (rect : Option (Rect α)) : (s.enterSymbol c n e rect).2.box.rect = none := by
  obtain rfl | ⟨num, base, rfl⟩ := he <;> rfl

/-- A symbol without a footprint gets no box. -/
theorem rect_enterElement (above : Option (Node α)) {e : Element} (he : e.IsBlank c.metrics) :
    (s.enterElement c above n e).2.box.rect = none := by
  by_cases hgroup : e = .beam ∨ ∃ num base, e = .tuplet num base
  · unfold enterElement
    dsimp only
    split
    · obtain h | ⟨_, _, h⟩ := hgroup <;> cases h
    · exact rect_enterSymbol_of_group c s n hgroup _
  · have hrect : c.metrics.element e c.unit (s.staffHeight c.unit) = none := by
      cases e with
      | beam => exact absurd (.inl rfl) hgroup
      | tuplet num base => exact absurd (.inr ⟨num, base, rfl⟩) hgroup
      | _ => exact he _ _
    unfold enterElement
    dsimp only
    split
    · rw [hrect]
      split
      · unfold enterChordNote
        dsimp only
        rw [GlyphMetrics.graceRect, Option.map_none, ite_self]
        split <;> rfl
      · exact rect_enterSymbol ..
    · rw [hrect]
      exact rect_enterSymbol ..

theorem staysBlank_enter (above : Option (Node α)) :
    n.StaysBlank c.metrics ((alignPass c).enter s above n).2.1 := by
  change n.StaysBlank c.metrics (enter c s above n).2.1
  rw [enter]
  split
  case h_7 m hm =>
    simp only [enterMeasure]
    split
    · exact .of_not_isBlank fun h => h
    · exact .refl n
  case h_8 => exact .of_kind rfl rfl
  case h_9 => exact .of_kind rfl rfl
  case h_10 e he =>
    split
    · obtain ⟨box, layout, heq, -⟩ := writes_enterElement c (s.reach e) n above e
      refine fun hblank => ?_
      have hkind : ((s.reach e).enterElement c above n e).2.kind = n.kind := by rw [heq]
      have hblank : n.kind.IsBlank c.metrics := hkind ▸ hblank
      refine ⟨hblank, fun _ => rect_enterElement c (s.reach e) n above ?_⟩
      rwa [he] at hblank
    · exact .refl n
  all_goals exact .refl n

omit n in
theorem staysBlank_placeControls (metrics : GlyphMetrics α) (beat last : Fraction) :
    (s : AlignState α) → (f : Forest (Node α)) →
      Forest.Forall₂ (Node.StaysBlank metrics) f (placeControls beat last s f).2
  | _, .nil => .nil
  | s, .cons n _ siblings => by
      refine .cons ?_ (.refl fun b _ => .refl b) (staysBlank_placeControls metrics beat last _ siblings)
      split
      · exact .refl n
      · exact .of_kind rfl rfl

theorem staysBlank_leave (below : Forest (Node α)) :
    n.StaysBlank c.metrics (s.leave c n below).2.1 ∧
      Forest.Forall₂ (Node.StaysBlank c.metrics) below (s.leave c n below).2.2.1 := by
  have hstay (f : Forest (Node α)) : Forest.Forall₂ (Node.StaysBlank c.metrics) f f :=
    .refl fun b _ => .refl b
  rw [leave]
  split
  case h_1 m hm =>
    have hbelow := staysBlank_placeControls c.metrics s.signatures.meter.beatDuration
      (s.grids.headD m.grid).maxTime s below
    simp only [leaveMeasure]
    split
    · exact ⟨.of_not_isBlank fun h => h, hbelow⟩
    · exact ⟨.refl n, hbelow⟩
  case h_2 => exact ⟨.refl n, hstay below⟩
  case h_3 e _ =>
    refine ⟨?_, hstay below⟩
    unfold leaveElement
    dsimp only
    -- closing a chord or a tuplet changes the state alone
    repeat' split
    all_goals exact .of_kind rfl rfl
  case h_4 => exact ⟨.refl n, hstay below⟩

end AlignState

namespace Document

variable {d : Document α}

/-- A document in which nothing has a box that alignment gives none. -/
def Blank (d : Document α) (metrics : GlyphMetrics α) : Prop :=
  ∀ n ∈ d.content.toList, n.kind.IsBlank metrics → n.box.rect = none

omit [Scalar α] in
theorem Blank.of_staysBlank {d' : Document α} {metrics : GlyphMetrics α} (h : d.Blank metrics)
    (hsame : d.Rearranged (Node.StaysBlank metrics) d') : d'.Blank metrics := by
  intro n' hn' hblank'
  obtain ⟨n, hn, hstays⟩ := exists_mem_of_forall₂ (Forest.Forall₂.toList hsame) hn'
  obtain ⟨hblank, hrect⟩ := hstays hblank'
  exact hrect (h n hn hblank)

theorem staysBlank_align (d : Document α) (metrics : GlyphMetrics α) (unit : α) :
    d.Rearranged (Node.StaysBlank metrics) (d.align metrics unit).document := by
  rw [align, Outcome.guarded]
  split
  · exact .refl (.staysBlank metrics) d
  have hrun := Forest.forall₂_run (p := alignPass ⟨metrics, unit, d⟩) Node.StaysBlank.refl
    (fun _ _ _ => Node.StaysBlank.trans) (fun s above n => AlignState.staysBlank_enter _ s n above)
    (fun s _ n below => AlignState.staysBlank_leave _ s n below) (.start d.definition) d.score
  have hscore := hrun.trans (Forest.Forall₂.map_right (R := Node.StaysBlank metrics)
    (AlignState.applyGraceSlots (d.score.run (alignPass ⟨metrics, unit, d⟩)
      (.start d.definition)).1.graceSlots) fun n _ => ?_) fun _ _ _ => Node.StaysBlank.trans
  · have hfilled := Rearranged.withScore hscore
    dsimp only
    split <;> exact hfilled
  · rw [AlignState.applyGraceSlots]
    split
    · exact .of_kind rfl rfl
    · exact .refl n

theorem staysBlank_space (d : Document α) (metrics : GlyphMetrics α) (options : LayoutOptions α) :
    d.Rearranged (Node.StaysBlank metrics) (d.space options).document := by
  rw [space, Outcome.guarded]
  split
  · exact .refl (.staysBlank metrics) d
  have hrun := Forest.forall₂_run (p := spacingPass (options.spacing d.longest))
    (R := Node.StaysBlank metrics) Node.StaysBlank.refl (fun _ _ _ => Node.StaysBlank.trans)
    (fun fault above n => ?_) (fun _ _ n below => ⟨.refl n, .refl fun m _ => .refl m⟩) none d.score
  · dsimp only
    split <;> exact Rearranged.withScore hrun
  · rw [spacingPass]
    dsimp only
    split
    · split
      · exact .of_not_isBlank fun h => h
      · exact .refl n
    · exact .refl n

theorem staysBlank_fillLines (d : Document α) (metrics : GlyphMetrics α)
    (options : LayoutOptions α) :
    d.Rearranged (Node.StaysBlank metrics) (d.fillLines options).document :=
  fillLines_induction (P := fun d' => d.Rearranged (Node.StaysBlank metrics) d')
    (.refl (.staysBlank metrics) d)
    (fun _ h _ hd => hd.trans (.staysBlank metrics) (.modify (.staysBlank metrics) _ h
      fun _ _ _ => .of_not_isBlank fun h => h))
    fun _ h _ hd => hd.trans (.staysBlank metrics) (.modify (.staysBlank metrics) _ h
      fun n _ _ => .mapSystem n _)

/-- No pass between preparation and placement gives a box to what alignment gives none. -/
theorem WellFormed.staysBlank_run (hd : d.WellFormed) (hs : d.Settled) (e : Engine α)
    {pass : LayoutPass} (hprepare : pass ≠ .prepare) (hplace : pass ≠ .place) :
    d.Rearranged (Node.StaysBlank e.metrics) (e.run d pass).document := by
  by_cases hpass : pass ∈ [.prepare, .align, .space, .fillLines]
  · simp only [List.mem_cons, List.not_mem_nil, or_false] at hpass
    obtain rfl | rfl | rfl | rfl := hpass
    · exact absurd rfl hprepare
    · exact d.staysBlank_align e.metrics e.options.scaledUnit
    · exact d.staysBlank_space e.metrics e.options
    · exact d.staysBlank_fillLines e.metrics e.options
  · exact hd.rearranged_run hs (.staysBlank e.metrics) e hpass fun heq => absurd heq hplace

theorem WellFormed.blank_prepare (hd : d.WellFormed) (metrics : GlyphMetrics α) :
    d.prepare.document.Blank metrics := by
  intro n hn _
  obtain ⟨m, -, hprepared⟩ := exists_mem_of_forall₂ hd.forall₂_prepare.toList hn
  obtain ⟨layout, rfl⟩ := hprepared.node
  rfl

/-- Before placement nothing has a box that alignment gives none. -/
theorem WellFormed.blank_runAll (hd : d.WellFormed) (hs : d.Settled) (e : Engine α) :
    (e.runAll d (LayoutPass.all.take 8)).document.Blank e.metrics := by
  have hkept := of_runAll_append (e := e) (d := d)
    (P := fun d' => (d'.WellFormed ∧ d'.Settled) ∧ d'.Blank e.metrics) [.prepare]
    ((LayoutPass.all.take 8).tail) ⟨hd.settled_runAll hs e _, ?_⟩ fun d' hd' pass hpass => by
      obtain ⟨⟨hd', hs'⟩, hblank⟩ := hd'
      have hother : pass ≠ .prepare ∧ pass ≠ .place := by
        constructor <;> exact fun heq => absurd (heq ▸ hpass) (by decide)
      exact ⟨⟨hd'.run e pass, hd'.settled_run hs' e pass⟩,
        hblank.of_staysBlank (hd'.staysBlank_run hs' e hother.1 hother.2)⟩
  · exact hkept.2
  · show d.prepare.document.Blank e.metrics
    exact hd.blank_prepare e.metrics

end Document

end ScoreLayout
