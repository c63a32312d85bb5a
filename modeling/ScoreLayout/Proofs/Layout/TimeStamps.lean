import ScoreLayout.Proofs.Grid.Requests
import ScoreLayout.Proofs.Layout.AlignmentFaults
import ScoreLayout.Proofs.Layout.MeasureEnds
import ScoreLayout.Proofs.Layout.MeasureSlots

/-!
# Time-stamped control elements

When alignment leaves a measure, all layers of the measure have been walked, so that its length is
known. Each control element of the measure with a time-stamp is then moved into the measure and gets a
slot there. The slot is one that the symbols have asked for, or a new one that draws nothing. Closing
the grid draws at the start of the measure if nothing else is drawn in it.

## Main definitions

* `LeadsOut` — whether a time-stamp leads out of its measure.
* `Node.StampedIn`, `Measure.Stamped` — a control element in its slot, and those of a measure.
* `Forest.Stamped` — the time-stamped control elements of all measures.
* `Forest.strayMarks` — what is reported of them.

## Main results

* `AlignState.stamped_leaveMeasure` — the end of a measure.
* `AlignState.stamped_score` — the trees of a score.
-/

namespace ScoreLayout

variable {α : Type}

/-- The marks on time-stamps among some marks. -/
def strays (marks : List Mark) : List Mark :=
  marks.filter fun k => k.kind = Mark.Kind.unresolvedTstamp.id

theorem strays_append (marks marks' : List Mark) :
    strays (marks ++ marks') = strays marks ++ strays marks' := List.filter_append ..

/-- No mark on a duration is one on a time-stamp. -/
theorem strays_eq_nil {marks : List Mark} (h : refusals marks = marks) : strays marks = [] := by
  refine List.filter_eq_nil_iff.2 fun k hk => ?_
  rw [decide_eq_true_eq, of_decide_eq_true (List.filter_eq_self.1 h k hk)]
  decide

/-- Whether some layer of a forest has a symbol that may have asked for a slot. -/
def Forest.AsksFor (f : Forest (Node α)) (key : SlotKey) : Prop :=
  ∃ layer below, HasTree layer below f ∧ layer.tag = .layer ∧
    ∃ x ∈ below.symbols .one none, x.AsksFor key

theorem Symbol.SameTiming.asksFor {x x' : Symbol α} (h : x.SameTiming x') {key : SlotKey}
    (hx : x.AsksFor key) : x'.AsksFor key where
  plain := h.element ▸ hx.plain
  principal hkey := by
    obtain ⟨⟨hchord, hduration, hplain⟩, onset, honset, hsame⟩ := hx.principal hkey
    have hrel := h.chord
    rw [hchord] at hrel
    refine ⟨⟨?_, h.element ▸ hduration, h.element ▸ hplain⟩, onset, ?_, hsame⟩
    · cases hchord' : x'.chord with
      | none => rfl
      | some chord =>
        rw [hchord'] at hrel
        cases hrel
    · rw [h.node.onset h.ne_control, honset]

theorem Forest.AsksFor.of_sameTiming {f f' : Forest (Node α)} {key : SlotKey} (hf : f.AsksFor key)
    (h : Forest.Forall₂ Node.SameTiming f f') : f'.AsksFor key := by
  obtain ⟨layer, below, hlayer, htag, x, hx, hask⟩ := hf
  obtain ⟨layer', below', hlayer', hsame, hbelow⟩ := h.hasTree hlayer
  obtain ⟨x', hx', hxx⟩ := exists_mem_of_forall₂ hbelow.symbols_of_layer.flip hx
  exact ⟨layer', below', hlayer', hsame.tag.trans htag, x', hx', Symbol.SameTiming.asksFor hxx hask⟩

namespace Forest.AsksFor

variable {n : Node α} {below siblings : Forest (Node α)} {key : SlotKey}

theorem first (h : (Forest.tree n below).AsksFor key) : (Forest.cons n below siblings).AsksFor key := by
  obtain ⟨layer, under, hlayer, hask⟩ := h
  cases hlayer with
  | here => exact ⟨n, below, .here siblings, hask⟩
  | deeper _ hlayer => exact ⟨layer, under, .deeper siblings hlayer, hask⟩
  | beside _ _ hlayer => cases hlayer

theorem deeper (h : below.AsksFor key) : (Forest.cons n below siblings).AsksFor key := by
  obtain ⟨layer, under, hlayer, hask⟩ := h
  exact ⟨layer, under, .deeper siblings hlayer, hask⟩

theorem beside (h : siblings.AsksFor key) : (Forest.cons n below siblings).AsksFor key := by
  obtain ⟨layer, under, hlayer, hask⟩ := h
  exact ⟨layer, under, .beside n below hlayer, hask⟩

end Forest.AsksFor

variable [Scalar α]

/-! ### One control element -/

/-- Whether a time-stamp leads out of a measure that ends at `last`. -/
def LeadsOut (tstamp : α) (beat last : Fraction) : Prop :=
  AlignState.timeOfBeat tstamp beat < 0 ∨ last < AlignState.timeOfBeat tstamp beat

instance (tstamp : α) (beat last : Fraction) : Decidable (LeadsOut tstamp beat last) :=
  inferInstanceAs (Decidable (_ ∨ _))

namespace Node

/-- The mark on a control element whose time-stamp leads out of its measure. -/
def strayMark? (beat last : Fraction) (n : Node α) : Option Mark :=
  (AlignState.tstamp? n).bind fun stamp =>
    if LeadsOut stamp.2 beat last then some (AlignState.tstampMark n.id stamp.2) else none

/-- A control element that stands where its time-stamp leads, if it has one to follow. -/
def StampedIn (beat last : Fraction) (has : SlotKey → Prop) (n : Node α) : Prop :=
  ∀ onset, AlignState.stamp? beat last n = some onset →
    n.layout.onset = some onset ∧ n.layout.slot = some (.ofKind onset .event) ∧
      has (.ofKind onset .event)

theorem StampedIn.mono {beat last : Fraction} {has has' : SlotKey → Prop} {n : Node α}
    (h : n.StampedIn beat last has) (hhas : ∀ key, has key → has' key) :
    n.StampedIn beat last has' := fun onset hstamp => by
  obtain ⟨honset, hslot, hkey⟩ := h onset hstamp
  exact ⟨honset, hslot, hhas _ hkey⟩

end Node

namespace AlignState

variable {c : AlignContext α} {s s₁ s₂ s' : AlignState α} {n n' : Node α}
  {below below' siblings siblings' : Forest (Node α)} {g : MeasureGrid α}
  {outer : List (MeasureGrid α)}

/-- A control element among the children of a measure. -/
theorem stamped_placeControl (beat last : Fraction) (hgrids : s.grids = g :: outer)
    (n : Node α) (hfault : (placeControl beat last s n).1.fault = none) :
    ∃ g', (placeControl beat last s n).1.grids = g' :: outer ∧ (∀ key, g'.Has key ↔ g.Has key) ∧
      (∀ key, g.HasSlot key → g'.HasSlot key) ∧
      (placeControl beat last s n).1.marks =
        s.marks ++ ((placeControl beat last s n).2.strayMark? beat last).toList ∧
      (placeControl beat last s n).2.StampedIn beat last g'.HasSlot := by
  rw [placeControl] at hfault ⊢
  cases hstamp : tstamp? n with
  | none =>
    have hnone : stamp? beat last n = none := by rw [stamp?, hstamp]; rfl
    refine ⟨g, hgrids, fun _ => Iff.rfl, fun _ => id, ?_, fun onset h => ?_⟩
    · simp [Node.strayMark?, hstamp]
    · cases hnone.symm.trans h
  | some stamp =>
    obtain ⟨control, tstamp⟩ := stamp
    rw [hstamp] at hfault
    dsimp only at hfault ⊢
    generalize hreported : (if timeOfBeat tstamp beat < 0 ∨ last < timeOfBeat tstamp beat then
      { s with marks := s.marks ++ [tstampMark n.id tstamp] } else s) = reported at hfault ⊢
    have hgrids' : reported.grids = g :: outer := by
      rw [← hreported]
      split_ifs <;> exact hgrids
    have hmarks : reported.marks = s.marks ++
        (if LeadsOut tstamp beat last then some (tstampMark n.id tstamp) else none).toList := by
      rw [← hreported]
      by_cases hout : LeadsOut tstamp beat last
      · rw [if_pos hout, if_pos (show _ ∨ _ from hout)]
        rfl
      · rw [if_neg hout, if_neg (show ¬ (_ ∨ _) from hout)]
        exact (List.append_nil _).symm
    rw [updateGrid, hgrids'] at hfault ⊢
    dsimp only at hfault ⊢
    cases hok : g.timestampSlot (moved last (timeOfBeat tstamp beat)) with
    | error f =>
      rw [moved] at hok
      rw [hok] at hfault
      cases hfault
    | ok g' =>
      have hok' := hok
      rw [moved] at hok
      rw [hok]
      refine ⟨g', rfl, fun key => MeasureGrid.has_timestampSlot_iff hok', fun key h =>
        (MeasureGrid.hasSlot_timestampSlot_iff hok').2 (.inl h), ?_, fun onset h => ?_⟩
      · have hstray : n.strayMark? beat last =
            if LeadsOut tstamp beat last then some (tstampMark n.id tstamp) else none := by
          rw [Node.strayMark?, hstamp]
          rfl
        exact hmarks.trans (congrArg (s.marks ++ Option.toList ·) hstray.symm)
      · have hsome : stamp? beat last n = some (moved last (timeOfBeat tstamp beat)) := by
          rw [stamp?, hstamp]
          rfl
        obtain rfl : moved last (timeOfBeat tstamp beat) = onset :=
          Option.some.inj (hsome.symm.trans h)
        exact ⟨rfl, rfl, (MeasureGrid.hasSlot_timestampSlot_iff hok').2
          (.inr (SlotKey.same_iff_place.2 rfl))⟩

/-- The control elements among the children of a measure. -/
theorem stamped_placeControls (beat last : Fraction) :
    (f : Forest (Node α)) → {s : AlignState α} → {g : MeasureGrid α} → s.grids = g :: outer →
      (placeControls beat last s f).1.fault = none →
        ∃ g', (placeControls beat last s f).1.grids = g' :: outer ∧ (∀ key, g'.Has key ↔ g.Has key) ∧
          (∀ key, g.HasSlot key → g'.HasSlot key) ∧
          (placeControls beat last s f).1.marks = s.marks ++
            (placeControls beat last s f).2.roots.filterMap (Node.strayMark? beat last) ∧
          ∀ n ∈ (placeControls beat last s f).2.roots, n.StampedIn beat last g'.HasSlot
  | .nil, s, g, hgrids, _ =>
      ⟨g, hgrids, fun _ => Iff.rfl, fun _ => id, (List.append_nil _).symm,
        fun _ h => absurd h List.not_mem_nil⟩
  | .cons n below siblings, s, g, hgrids, hfault => by
      rw [placeControls] at hfault ⊢
      dsimp only at hfault ⊢
      have hcollects := (collects_placeControls beat last siblings (placeControl beat last s n).1).1
      obtain ⟨g₁, hgrids₁, hhas₁, hslots₁, hmarks₁, hstamped₁⟩ :=
        stamped_placeControl beat last hgrids n (hcollects.fault hfault)
      obtain ⟨g₂, hgrids₂, hhas₂, hslots₂, hmarks₂, hstamped₂⟩ :=
        stamped_placeControls beat last siblings hgrids₁ hfault
      refine ⟨g₂, hgrids₂, fun key => (hhas₂ key).trans (hhas₁ key), fun key h =>
        hslots₂ key (hslots₁ key h), ?_, ?_⟩
      · rw [hmarks₂, hmarks₁, Forest.roots, List.filterMap_cons, List.append_assoc]
        cases (placeControl beat last s n).2.strayMark? beat last <;> rfl
      · rw [Forest.roots, List.forall_mem_cons]
        exact ⟨hstamped₁.mono hslots₂, hstamped₂⟩

/-! ### Staves and layers -/

/-- The staves of a measure, and the layers of a staff, ask for slots of their symbols only, and no
time-stamp is reported there. -/
theorem asks_staves {s : AlignState α} {above : Option (Node α)} {f : Forest (Node α)}
    {s' : AlignState α} {f' : Forest (Node α)}
    (h : Forest.Completes (alignPass c) above s f s' f') (hf : f.Nested)
    (hroots : ∀ n ∈ f.roots, n.tag = .staff ∨ n.tag = .layer ∨ n.tag = .control)
    (hids : (f.toList.map Node.id).Nodup) (hs : s.collecting) (hgrids : s.grids ≠ [])
    (hfault : s.fault = none) :
    s.Asks s' f'.AsksFor ∧ s'.grids ≠ [] ∧ ∃ new, s'.marks = s.marks ++ new ∧ strays new = [] := by
  induction h with
  | nil => exact ⟨asks_of_grids rfl, hgrids, [], (List.append_nil _).symm, rfl⟩
  | @skip above s s₁ s₂ b b₁ children siblings siblings' henter hbeside ih =>
    rw [Forest.roots, List.forall_mem_cons] at hroots
    obtain ⟨k, hb⟩ : ∃ k, b.kind = .control k := by
      refine Node.exists_control (hroots.1.elim (fun ht => ?_) (·.elim (fun ht => ?_) id))
      · obtain ⟨staff, hb⟩ := Node.exists_staff ht
        simp [alignPass, enter, hb] at henter
      · obtain ⟨k, hb⟩ := Node.exists_layer ht
        simp [alignPass, enter, hb] at henter
    obtain ⟨rfl, -, -⟩ := enter_of_control hb henter
    obtain ⟨hasks, hrest⟩ :=
      ih hf.2.2 hroots.2 (Forest.nodup_of_cons hids).2 hs hgrids hfault
    exact ⟨hasks.mono fun key => .beside, hrest⟩
  | @walk above s s₁ s₂ s₃ s₄ b b₁ b₂ children siblings children₁ children₂ siblings' whole v henter
      hbelow hleave hgo hbeside ihbelow ihbeside =>
    rw [Forest.roots, List.forall_mem_cons] at hroots
    obtain ⟨htakes, hchildren, hsiblings⟩ := hf
    obtain ⟨hidsChildren, hidsSiblings⟩ := Forest.nodup_of_cons hids
    -- a tree leaves those behind it to go on
    have hrest (hs : s₃.collecting) (hgrids : s₃.grids ≠ []) (hfault : s₃.fault = none)
        (hasks : s.Asks s₃ (Forest.tree b₂ children₂).AsksFor)
        (hmarks : ∃ new, s₃.marks = s.marks ++ new ∧ strays new = []) :
        s.Asks s₄ (Forest.cons b₂ children₂ siblings').AsksFor ∧ s₄.grids ≠ [] ∧
          ∃ new, s₄.marks = s.marks ++ new ∧ strays new = [] := by
      obtain ⟨hasks', hgrids', new', hmarks', hnew'⟩ :=
        ihbeside hsiblings hroots.2 hidsSiblings hs hgrids hfault
      obtain ⟨new, hmarks, hnew⟩ := hmarks
      refine ⟨(hasks.mono fun key => .first).trans (hasks'.mono fun key => .beside), hgrids',
        new ++ new', ?_, ?_⟩
      · rw [hmarks', hmarks, List.append_assoc]
      · rw [strays_append, hnew, hnew', List.append_nil]
    rcases hroots.1 with htag | htag | htag
    · obtain ⟨staff, hb⟩ := Node.exists_staff htag
      obtain ⟨hkind, -, hmarks, hgrids₁, hcollecting₁, hfault₁⟩ := enter_of_staff hb henter
      have htag₁ : b₁.tag = .staff := (congrArg NodeKind.tag hkind).trans htag
      obtain ⟨rfl, rfl, rfl⟩ := leave_of_tag (by rw [htag₁]; decide) (by rw [htag₁]; decide)
        (by rw [htag₁]; decide) hleave
      have hlayers : ∀ n ∈ children.roots, n.tag = .staff ∨ n.tag = .layer ∨ n.tag = .control := by
        intro n hn
        have := htakes n hn
        rw [hb] at this
        rw [Node.tag]
        cases hk : n.kind <;> simp [hk, NodeKind.accepts, NodeKind.tag] at this ⊢
      have hcollecting := hcollecting₁.trans hs
      obtain ⟨htimes, hcollecting'⟩ := times_staves hbelow hchildren hlayers hidsChildren hcollecting
        (hfault₁.trans hfault)
      obtain ⟨hasks, hgrids₂, new, hnew, hfree⟩ := ihbelow hchildren hlayers hidsChildren
        hcollecting (hgrids₁ ▸ hgrids) (hfault₁.trans hfault)
      exact hrest (hcollecting'.trans hcollecting) hgrids₂ htimes.fault
        ((asks_of_grids hgrids₁).trans (hasks.mono fun key => .deeper)) ⟨new, hmarks ▸ hnew, hfree⟩
    · obtain ⟨k, hb⟩ := Node.exists_layer htag
      obtain ⟨hkind, rfl⟩ := enter_of_layer hb henter
      obtain ⟨rfl, rfl, rfl, hend⟩ := leave_of_layer (hkind.trans hb) hleave hgo
      have hsymbols : children.Symbolic := hchildren.symbolic fun n hn =>
        NodeKind.tag_of_layer htag (htakes n hn)
      have hwalked := walked_symbols hbelow hsymbols hidsChildren hs hfault rfl
      obtain ⟨-, found, hfound, hreports⟩ := hwalked.reports Int.one_pos
      obtain ⟨-, hmarks, hcollecting', -⟩ := leaveLayer_spec (hwalked.collecting.trans hs) hend
      have hasks := asks_layer hs hgrids hfault hsymbols hidsChildren hbelow
      have hbooks := books_symbols hbelow hsymbols hidsChildren hs hgrids hfault rfl
      have hcollects := hbooks.toCollects.trans
        (collects_leaveLayer (hwalked.collecting.trans hs)).1
      refine hrest (hcollecting'.trans (hwalked.collecting.trans hs)) (hcollects.ne_nil_iff.2 hgrids)
        hend (hasks.mono fun key hkey => ⟨_, _, .here .nil, ?_, hkey⟩)
        ⟨found, hmarks.trans hfound, strays_eq_nil hreports.refusals_eq⟩
      exact (congrArg NodeKind.tag hkind).trans htag
    · obtain ⟨k, hb⟩ := Node.exists_control htag
      cases (enter_of_control hb henter).2.2

/-! ### Measures -/

/-- The end of a measure. Its time-stamped control elements are in their slots, and what is drawn in
its content is what has been asked for, or a single slot at its start. -/
theorem stamped_leaveMeasure {m : Measure α} (hgrids : s.grids = g :: outer)
    (hfault : (s.leaveMeasure c n m below).1.fault = none) :
    ∃ grid, (s.leaveMeasure c n m below).2.1 = { n with kind := .measure { m with grid } } ∧
      (∀ key, key.zone = .content →
        (grid.Has key ↔ g.Has key ∨ ¬ g.hasContent ∧ (SlotKey.ofKind 0 .event).Same key)) ∧
      (s.leaveMeasure c n m below).1.marks = s.marks ++
        (s.leaveMeasure c n m below).2.2.roots.filterMap
          (Node.strayMark? s.signatures.meter.beatDuration g.maxTime) ∧
      ∀ k ∈ (s.leaveMeasure c n m below).2.2.roots,
        k.StampedIn s.signatures.meter.beatDuration g.maxTime grid.HasSlot := by
  have hplaced := stamped_placeControls s.signatures.meter.beatDuration g.maxTime below hgrids
  rw [leaveMeasure] at hfault ⊢
  dsimp only at hfault ⊢
  rw [hgrids, List.headD_cons] at hfault ⊢
  generalize placeControls s.signatures.meter.beatDuration g.maxTime s below = placed
    at hplaced hfault ⊢
  obtain ⟨s₁, below₁⟩ := placed
  dsimp only at hplaced hfault ⊢
  cases hfinish : (s₁.grids.headD m.grid).finish with
  | error f =>
    rw [hfinish] at hfault
    cases hfault
  | ok closed =>
    rw [hfinish] at hfault
    obtain ⟨g₁, hgrids₁, hhas, -, hmarks, hstamped⟩ := hplaced hfault
    rw [hgrids₁, List.headD_cons] at hfinish
    have houtline := (staysPut_foldl_drawBarLines c m g.maxTime s₁.staves closed).outline
    have hcontent : g₁.hasContent ↔ g.hasContent := by
      rw [MeasureGrid.hasContent_iff, MeasureGrid.hasContent_iff]
      simp only [hhas]
    refine ⟨_, rfl, fun key hkey => ?_, hmarks, fun k hk => (hstamped k hk).mono fun key h => ?_⟩
    · rw [MeasureGrid.has_iff_outline, houtline, ← MeasureGrid.has_iff_outline,
        MeasureGrid.has_finish_iff hfinish hkey, hhas, hcontent]
    · rw [MeasureGrid.hasSlot_iff_outline, houtline, ← MeasureGrid.hasSlot_iff_outline]
      exact h.finish hfinish

end AlignState

/-! ### All measures -/

/-- The time-stamped control elements of a measure in their slots. What is drawn in its content is what
its symbols have asked for. Where they have asked for nothing there is one slot at its start. -/
structure Measure.Stamped (m : Measure α) (beat : Fraction) (below : Forest (Node α)) : Prop where
  controls : ∀ n ∈ below.roots, n.StampedIn beat m.grid.maxTime m.grid.HasSlot
  drawn : ∀ key, key.zone = .content → m.grid.Has key → below.AsksFor key ∨
    ∀ k, k.zone = .content → m.grid.Has k → (SlotKey.ofKind 0 .event).Same k
  silent : (∀ key, ¬ below.AsksFor key) → m.grid.Has (.ofKind 0 .event)

namespace Forest

/-- The time-stamped control elements of the measures of a forest that is reached under a meter are in
their slots. -/
def Stamped : MeterSig → Forest (Node α) → Prop
  | _, .nil => True
  | meter, .cons n below siblings =>
    (∀ m, n.kind = .measure m →
      m.Stamped (runningMeter (n.meterAfter meter) below.toList).beatDuration below) ∧
      below.Stamped (n.meterAfter meter) ∧
      siblings.Stamped (runningMeter (n.meterAfter meter) below.toList)

/-- What is reported of the time-stamped control elements of a forest that is reached under a
meter. -/
def strayMarks : MeterSig → Forest (Node α) → List Mark
  | _, .nil => []
  | meter, .cons n below siblings =>
    below.strayMarks (n.meterAfter meter) ++
      (match n.kind with
        | .measure m => below.roots.filterMap (Node.strayMark?
            (runningMeter (n.meterAfter meter) below.toList).beatDuration m.grid.maxTime)
        | _ => []) ++
      siblings.strayMarks (runningMeter (n.meterAfter meter) below.toList)

variable {f : Forest (Node α)}

/-- Without measures there is nothing to report. -/
theorem stamped_of_tag (hf : ∀ n ∈ f.toList, n.tag ≠ .measure) (meter : MeterSig) :
    f.Stamped meter ∧ f.strayMarks meter = [] := by
  induction f generalizing meter with
  | nil => exact ⟨trivial, rfl⟩
  | cons n below siblings hbelow hsiblings =>
    rw [toList, List.forall_mem_cons, List.forall_mem_append] at hf
    obtain ⟨hdeep, hdeepMarks⟩ := hbelow hf.2.1 (n.meterAfter meter)
    obtain ⟨hbeside, hbesideMarks⟩ :=
      hsiblings hf.2.2 (runningMeter (n.meterAfter meter) below.toList)
    refine ⟨⟨fun m hm => absurd (by rw [Node.tag, hm]; rfl) hf.1, hdeep, hbeside⟩, ?_⟩
    rw [strayMarks, hdeepMarks, hbesideMarks]
    split
    · exact absurd (by rw [Node.tag, ‹n.kind = _›]; rfl) hf.1
    · rfl

/-- Two nodes with the same times, the same node if it is a control element. -/
def Settles (n n' : Node α) : Prop := n.SameTiming n' ∧ (n.tag = .control → n' = n)

omit [Scalar α] in
theorem Settles.tstamp?_eq {n n' : Node α} (h : Settles n n') :
    AlignState.tstamp? n' = AlignState.tstamp? n := by
  by_cases hn : n.tag = .control
  · rw [h.2 hn]
  · have hnone {n : Node α} (hn : n.tag ≠ .control) : AlignState.tstamp? n = none :=
      Option.eq_none_iff_forall_ne_some.2 fun stamp hstamp =>
        hn (AlignState.tag_of_tstamp? hstamp)
    rw [hnone hn, hnone (h.1.tag ▸ hn)]

/-- Giving symbols other slots leaves the control elements where they are. -/
theorem Stamped.settle {f f' : Forest (Node α)} (h : Forall₂ Settles f f') {meter : MeterSig}
    (hf : f.Stamped meter) : f'.Stamped meter ∧ f'.strayMarks meter = f.strayMarks meter := by
  induction h generalizing meter with
  | nil => exact ⟨trivial, rfl⟩
  | @cons n n' below siblings below' siblings' hn hbelow hsiblings ihbelow ihsiblings =>
    obtain ⟨hm, hdeep, hbeside⟩ := hf
    have htiming := hbelow.mono fun _ _ h => h.1
    have hafter : n'.meterAfter meter = n.meterAfter meter := by
      rw [Node.meterAfter, Node.meterAfter, hn.1.kind]
    have hrunning := runningMeter_eq_of_sameTiming htiming.toList (n.meterAfter meter)
    have hstray (beat last : Fraction) : below'.roots.filterMap (Node.strayMark? beat last) =
        below.roots.filterMap (Node.strayMark? beat last) :=
      (filterMap_eq_of_forall₂ (fun b b' hb => by
        rw [Node.strayMark?, Node.strayMark?, hb.tstamp?_eq, hb.1.id]) hbelow.roots).symm
    obtain ⟨hdeep', hdeepMarks⟩ := ihbelow hdeep
    obtain ⟨hbeside', hbesideMarks⟩ := ihsiblings hbeside
    refine ⟨⟨fun m hm' => ?_, hafter ▸ hdeep', ?_⟩, ?_⟩
    · rw [hn.1.kind] at hm'
      obtain ⟨hcontrols, hdrawn, hsilent⟩ := hm m hm'
      rw [hafter, hrunning]
      refine ⟨fun b' hb' onset honset => ?_, fun key hzone hkey => ?_, fun h => ?_⟩
      · obtain ⟨b, hb, hbb⟩ := exists_mem_of_forall₂ hbelow.roots hb'
        rw [AlignState.stamp?, hbb.tstamp?_eq] at honset
        obtain ⟨stamp, hstamp, -⟩ := Option.map_eq_some_iff.1 honset
        rw [hbb.2 (AlignState.tag_of_tstamp? hstamp)]
        exact hcontrols b hb onset honset
      · exact (hdrawn key hzone hkey).imp_left fun h => h.of_sameTiming htiming
      · exact hsilent fun key hkey => h key (hkey.of_sameTiming htiming)
    · rw [hafter, hrunning]
      exact hbeside'
    · rw [strayMarks, strayMarks, hn.1.kind, hafter, hrunning, hdeepMarks, hbesideMarks]
      simp only [hstray]

/-! ### What is reported of one control element -/

theorem id_of_strayMark? {beat last : Fraction} {n : Node α} {k : Mark}
    (h : n.strayMark? beat last = some k) : k.node = some n.id := by
  obtain ⟨stamp, -, hstamp⟩ := Option.bind_eq_some_iff.1 h
  split_ifs at hstamp
  obtain rfl := Option.some.inj hstamp
  rfl

/-- Every mark on a time-stamp names a node. -/
theorem exists_of_mem_strayMarks {k : Mark} {meter : MeterSig} (hk : k ∈ f.strayMarks meter) :
    ∃ n ∈ f.toList, k.node = some n.id := by
  induction f generalizing meter with
  | nil => exact absurd hk List.not_mem_nil
  | cons n below siblings ihbelow ihsiblings =>
    rw [strayMarks, List.mem_append, List.mem_append] at hk
    simp only [toList, List.mem_cons, List.mem_append]
    obtain (hk | hk) | hk := hk
    · exact (ihbelow hk).imp fun m hm => ⟨.inr (.inl hm.1), hm.2⟩
    · cases hn : n.kind with
      | measure m =>
        rw [hn] at hk
        obtain ⟨b, hb, hbk⟩ := List.mem_filterMap.1 hk
        exact ⟨b, .inr (.inl (mem_toList_of_mem_roots hb)), id_of_strayMark? hbk⟩
      | _ =>
        rw [hn] at hk
        exact absurd hk List.not_mem_nil
    · exact (ihsiblings hk).imp fun m hm => ⟨.inr (.inr hm.1), hm.2⟩

/-- The marks on time-stamps that are on one node. -/
def strayMarksOf (f : Forest (Node α)) (meter : MeterSig) (id : String) : List Mark :=
  (f.strayMarks meter).filter fun k => k.node = some id

theorem strayMarksOf_eq_nil {id : String} (hid : id ∉ f.toList.map Node.id) (meter : MeterSig) :
    f.strayMarksOf meter id = [] := by
  refine List.filter_eq_nil_iff.2 fun k hk => ?_
  obtain ⟨n, hn, hnode⟩ := exists_of_mem_strayMarks hk
  rw [decide_eq_true_eq, hnode, Option.some.injEq]
  rintro rfl
  exact hid (List.mem_map_of_mem hn)

end Forest

namespace AlignState

variable {c : AlignContext α} {s s₁ s₂ s' : AlignState α} {n n' : Node α}
  {below below' siblings siblings' : Forest (Node α)}

/-- What walking some trees does with their time-stamped control elements, and what it reports of
them. -/
structure Lands (s s' : AlignState α) (f' : Forest (Node α)) : Prop where
  marks : ∃ new, s'.marks = s.marks ++ new ∧ strays new = f'.strayMarks s.signatures.meter
  stamped : f'.Stamped s.signatures.meter

/-- A tree, and those behind it. -/
theorem Lands.cons (hmeter : s₁.signatures.meter =
      runningMeter s.signatures.meter (Forest.tree n below).toList)
    (htree : s.Lands s₁ (.tree n below)) (hsiblings : s₁.Lands s' siblings) :
    s.Lands s' (.cons n below siblings) := by
  obtain ⟨new, hnew, hstrays⟩ := htree.marks
  obtain ⟨new', hnew', hstrays'⟩ := hsiblings.marks
  obtain ⟨hn, hbelow, -⟩ := htree.stamped
  rw [Forest.toList_tree, runningMeter_cons] at hmeter
  refine ⟨⟨new ++ new', ?_, ?_⟩, hn, hbelow, hmeter ▸ hsiblings.stamped⟩
  · rw [hnew', hnew, List.append_assoc]
  · rw [strays_append, hstrays, hstrays', hmeter, Forest.tree, Forest.strayMarks,
      show Forest.strayMarks _ .nil = ([] : List Mark) from rfl, List.append_nil, Forest.strayMarks]

/-- A node above measures. -/
theorem Lands.passed (hn : n.tag ≠ .measure)
    (hmeter : s₁.signatures.meter = n.meterAfter s.signatures.meter) (hmarks : s₁.marks = s.marks)
    (hbelow : s₁.Lands s' below) : s.Lands s' (.tree n below) := by
  obtain ⟨new, hnew, hstrays⟩ := hbelow.marks
  refine ⟨⟨new, hmarks ▸ hnew, ?_⟩, fun m hm => absurd (by rw [Node.tag, hm]; rfl) hn,
    hmeter ▸ hbelow.stamped, trivial⟩
  rw [hstrays, hmeter, Forest.tree, Forest.strayMarks]
  split
  · exact absurd (by rw [Node.tag, ‹n.kind = _›]; rfl) hn
  · simp [Forest.strayMarks]

/-- All marks on control elements are marks on time-stamps. -/
theorem strays_filterMap (beat last : Fraction) (nodes : List (Node α)) :
    strays (nodes.filterMap (Node.strayMark? beat last)) =
      nodes.filterMap (Node.strayMark? beat last) := by
  refine List.filter_eq_self.2 fun k hk => ?_
  obtain ⟨n, -, hn⟩ := List.mem_filterMap.1 hk
  obtain ⟨stamp, -, hstamp⟩ := Option.bind_eq_some_iff.1 hn
  split_ifs at hstamp
  obtain rfl := Option.some.inj hstamp
  exact decide_eq_true rfl

/-- A measure whose staves have been walked with a grid of its own. -/
theorem Lands.measure {m : Measure α} {grid : MeasureGrid α}
    (hs₁ : s₁.signatures = s.signatures ∧ s₁.marks = s.marks ∧ s₁.grids = grid :: s.grids)
    (hgrid : ∀ key, key.zone = .content → ¬ grid.Has key) (hopen : ∀ g ∈ s₂.grids, g.Open)
    (hmeter : s₂.signatures.meter = runningMeter s₁.signatures.meter below'.toList)
    (hasks : s₁.Asks s₂ below'.AsksFor) (hgrids : s₂.grids ≠ [])
    (hmarks : ∃ new, s₂.marks = s₁.marks ++ new ∧ strays new = [])
    (htags : ∀ b ∈ below'.toList, b.tag ≠ .measure)
    (hend : (s₂.leaveMeasure c n' m below').1.fault = none) :
    s.Lands (s₂.leaveMeasure c n' m below').1
      (.tree (s₂.leaveMeasure c n' m below').2.1 (s₂.leaveMeasure c n' m below').2.2) := by
  obtain ⟨hsignatures, hmarks₁, hgrids₁⟩ := hs₁
  obtain ⟨g, outer, hgrids₂⟩ := List.exists_cons_of_ne_nil hgrids
  obtain ⟨closed, -, hnode, hlast, hsame, -⟩ := leaveMeasure_spec hgrids₂ hopen hend
  obtain ⟨closed', hnode', hhas, hmarks', hstamped⟩ := stamped_leaveMeasure hgrids₂ hend
  generalize s₂.leaveMeasure c n' m below' = left at hnode hsame hnode' hmarks' hstamped hend ⊢
  have hkind : left.2.1.kind = .measure { m with grid := closed } := by rw [hnode]
  have hclosed : { m with grid := closed } = { m with grid := closed' } :=
    NodeKind.measure.inj (hkind.symm.trans (by rw [hnode']))
  obtain rfl : closed = closed' := congrArg Measure.grid hclosed
  have hafter : left.2.1.meterAfter s.signatures.meter = s.signatures.meter := by
    rw [Node.meterAfter, hkind]
  have hrunning : runningMeter (left.2.1.meterAfter s.signatures.meter) left.2.2.toList =
      s₂.signatures.meter := by
    rw [hafter, runningMeter_eq_of_sameTiming hsame.toList, hmeter, hsignatures]
  -- whatever is drawn in the content before the grid is closed, a symbol has asked for
  have hasked {key : SlotKey} (hzone : key.zone = .content) (hkey : g.Has key) :
      left.2.2.AsksFor key := by
    obtain ⟨_, hhead, hbegin⟩ | hbelow := hasks key ⟨g, by rw [hgrids₂]; rfl, hkey⟩
    · rw [hgrids₁] at hhead
      obtain rfl := Option.some.inj hhead
      exact absurd hbegin (hgrid key hzone)
    · exact hbelow.of_sameTiming hsame
  have hdeep := Forest.stamped_of_tag (f := left.2.2) (fun b hb => by
    obtain ⟨b', hb', hbb⟩ := exists_mem_of_forall₂ hsame.toList hb
    exact hbb.tag ▸ htags b' hb') (left.2.1.meterAfter s.signatures.meter)
  refine ⟨?_, fun m' hm' => ?_, hdeep.1, trivial⟩
  · obtain ⟨new, hnew, hfree⟩ := hmarks
    refine ⟨new ++ left.2.2.roots.filterMap
      (Node.strayMark? s₂.signatures.meter.beatDuration g.maxTime), ?_, ?_⟩
    · rw [hmarks', hnew, hmarks₁, List.append_assoc]
    · rw [strays_append, hfree, strays_filterMap, Forest.tree, Forest.strayMarks, hdeep.2, hkind,
        hrunning]
      dsimp only
      rw [hlast, Forest.strayMarks, List.append_nil]
  · obtain rfl := NodeKind.measure.inj (hkind.symm.trans hm')
    rw [hrunning]
    refine ⟨fun b hb => hlast ▸ hstamped b hb, fun key hzone hkey => ?_, fun hsilent => ?_⟩
    · obtain hkey | ⟨hcontent, -⟩ := (hhas key hzone).1 hkey
      · exact .inl (hasked hzone hkey)
      · refine .inr fun k hk hhask => ((hhas k hk).1 hhask).elim (fun h => ?_) And.right
        exact absurd (MeasureGrid.hasContent_iff.2 ⟨k, hk, h⟩) hcontent
    · refine (hhas _ rfl).2 (.inr ⟨fun hcontent => ?_, SlotKey.same_iff_place.2 rfl⟩)
      obtain ⟨key, hzone, hkey⟩ := MeasureGrid.hasContent_iff.1 hcontent
      exact hsilent key (hasked hzone hkey)

/-- A control element that is passed over. -/
theorem Lands.control {k : Control α} (hn : n.kind = .control k) : s.Lands s (.tree n .nil) := by
  refine ⟨⟨[], (List.append_nil _).symm, ?_⟩, fun m hm => ?_, trivial, trivial⟩
  · simp [Forest.tree, Forest.strayMarks, hn, strays]
  · rw [hn] at hm
    cases hm

/-- A measure begins with a grid that draws nothing in its content. -/
theorem blank_of_enter_measure {m : Measure α} (hn : n.kind = .measure m) {above : Option (Node α)}
    {v : Visit} (h : (alignPass c).enter s above n = (s₁, n', v)) :
    ∃ grid : MeasureGrid α, s₁.grids = grid :: s.grids ∧
      ∀ key, key.zone = .content → ¬ grid.Has key := by
  dsimp only [alignPass] at h
  rw [enter, hn] at h
  simp only [enterMeasure, MeasureGrid.begin_empty, Prod.mk.injEq] at h
  obtain ⟨rfl, rfl, -⟩ := h
  refine ⟨_, rfl, fun key hzone hkey => ?_⟩
  obtain ⟨slot, hslot, hsame, -⟩ := hkey
  have hcontent := (SlotKey.zone_of_compare_eq hsame).trans hzone
  simp only [List.mem_cons, List.not_mem_nil, or_false] at hslot
  obtain rfl | rfl := hslot
  all_goals simp [Slot.ofKey, SlotKey.ofKind, SlotKey.zone, SlotKind.zone] at hcontent

/-- The trees of a score. -/
theorem stamped_score {s : AlignState α} {above : Option (Node α)} {f : Forest (Node α)}
    {s' : AlignState α} {f' : Forest (Node α)}
    (h : Forest.Completes (alignPass c) above s f s' f') (hf : f.Nested)
    (hroots : ∀ n ∈ f.roots, IsOuter n) (hids : (f.toList.map Node.id).Nodup)
    (hopen : ∀ g ∈ s.grids, g.Open) (hfault : s.fault = none) : s.Lands s' f' := by
  induction h with
  | nil => exact ⟨⟨[], (List.append_nil _).symm, rfl⟩, trivial⟩
  | @skip above s s₁ s₂ b b₁ children siblings siblings' henter hbeside ih =>
    rw [Forest.roots, List.forall_mem_cons] at hroots
    obtain ⟨k, hb⟩ := exists_control_of_skip hroots.1 henter
    obtain rfl := eq_nil_of_control hb hf.1
    obtain ⟨rfl, rfl, -⟩ := enter_of_control hb henter
    refine .cons ?_ (.control hb) (ih hf.2.2 hroots.2 (Forest.nodup_of_cons hids).2 hopen hfault)
    exact (Times.control hb hfault).meter
  | @walk above s s₁ s₂ s₃ s₄ b b₁ b₂ children siblings children₁ children₂ siblings' whole v henter
      hbelow hleave hgo hbeside ihbelow ihbeside =>
    rw [Forest.roots, List.forall_mem_cons] at hroots
    obtain ⟨htakes, hchildren, hsiblings⟩ := hf
    obtain ⟨hidsChildren, hidsSiblings⟩ := Forest.nodup_of_cons hids
    have hwalk : Forest.Completes (alignPass c) above s (.tree b children) s₃
        (.tree b₂ children₂) := .walk henter hbelow hleave hgo (.nil above s₃)
    have htimes : s.Times s₃ (.tree b children) (.tree b₂ children₂) := by
      refine times_score hwalk ⟨htakes, hchildren, trivial⟩ ?_ ?_ hopen hfault
      · exact List.forall_mem_singleton.2 hroots.1
      · rw [Forest.toList, ← List.cons_append, List.map_append] at hids
        simpa [Forest.tree, Forest.toList] using (List.nodup_append.1 hids).1
    have hrest (htree : s.Lands s₃ (.tree b₂ children₂)) :
        s.Lands s₄ (.cons b₂ children₂ siblings') :=
      .cons htimes.meter htree
        (ihbeside hsiblings hroots.2 hidsSiblings (htimes.grids hopen).1 htimes.fault)
    by_cases hc : b.tag = .control
    · obtain ⟨k, hb⟩ := Node.exists_control hc
      cases (enter_of_control hb henter).2.2
    by_cases hm : b.tag = .measure
    · obtain ⟨m, hb⟩ := NodeKind.exists_of_measure hm
      obtain ⟨⟨m', hb₁⟩, hsignatures, hmarks, ⟨grid, hgrids, hgrid⟩, hcollecting, hfault₁, -⟩ :=
        enter_of_measure_kind hb henter
      obtain ⟨grid', hgrids', hblank⟩ := blank_of_enter_measure hb henter
      obtain rfl : grid' = grid := (List.cons.inj (hgrids'.symm.trans hgrids)).1
      obtain ⟨rfl, rfl, rfl, hend⟩ := leave_of_measure hb₁ hleave hgo
      have hstaves : ∀ n ∈ children.roots, n.tag = .staff ∨ n.tag = .layer ∨ n.tag = .control := by
        intro n hn
        have := htakes n hn
        rw [hb] at this
        rw [Node.tag]
        cases hk : n.kind <;> simp [hk, NodeKind.accepts, NodeKind.tag] at this ⊢
      obtain ⟨hwalked, -⟩ := times_staves hbelow hchildren hstaves hidsChildren hcollecting
        (hfault₁.trans hfault)
      obtain ⟨hasks, hgrids₂, hmarks₂⟩ := asks_staves hbelow hchildren hstaves hidsChildren
        hcollecting (by rw [hgrids]; exact List.cons_ne_nil _ _) (hfault₁.trans hfault)
      refine hrest (.measure ⟨hsignatures, hmarks, hgrids⟩ hblank (hwalked.grids ?_).1 hwalked.meter
        hasks hgrids₂ hmarks₂ (fun n' hn' => ?_) hend)
      · rw [hgrids]
        exact List.forall_mem_cons.2 ⟨hgrid.1, hopen⟩
      · obtain ⟨n, hn, hnn⟩ := exists_mem_of_forall₂ (keeps_completes hbelow).toList hn'
        rw [hnn.tag]
        exact hchildren.tag_ne_measure (fun b hb => (hstaves b hb).imp_right (·.imp_right .inl)) n hn
    · obtain ⟨-, rfl, hmeter, hmarks, hgrids, hfault₁⟩ := enter_of_outer hroots.1 hm hc henter
      obtain ⟨rfl, rfl, rfl⟩ := leave_of_tag hm hroots.1.2.1 hroots.1.2.2 hleave
      have houter := isOuter_of_accepts hroots.1 hm htakes
      exact hrest (.passed hm hmeter hmarks (ihbelow hchildren houter hidsChildren (hgrids ▸ hopen)
        (hfault₁.trans hfault)))

end AlignState

end ScoreLayout
