import ScoreLayout.Proofs.Breakdowns
import ScoreLayout.Proofs.Layout.KeptSlots
import ScoreLayout.Proofs.StaffLocations

/-!
# What can end alignment

Alignment asks its time grids only for what their state allows: the grid of a measure is open from
the start of the measure to its end. So a walk that ends early ends in a breakdown, and this takes a
performed time that is written over a negative number, or a location out of reach. A walk that comes
to its end has closed every grid.

## Main definitions

* `Node.OverNegative` — a symbol with a performed time over a negative number.
* `Node.BreaksDown` — a symbol at which the walk may break down.
* `AlignState.Sane` — a state of the walk in which nothing has gone wrong but perhaps a breakdown.

## Main results

* `Document.fault_fillGrids` — the one fault that alignment may meet.
* `Document.WellFormed.finished_align` — the grids behind alignment that meets none.
-/

namespace ScoreLayout

/-- A symbol whose performed time is written over a negative number. -/
def Node.OverNegative {α : Type} (n : Node α) : Prop :=
  ∃ e d, n.kind = .element e ∧ e.duration? = some d ∧ d.OverNegative

/-- A symbol at which the walk may break down. -/
def Node.BreaksDown {α : Type} (n : Node α) : Prop := n.OverNegative ∨ n.OutOfReach

theorem Node.BreaksDown.exists_element {α : Type} {n : Node α} (h : n.BreaksDown) :
    ∃ e, n.kind = .element e := by
  obtain ⟨e, -, he, -⟩ | ⟨e, -, -, he, -⟩ := h
  · exact ⟨e, he⟩
  · exact ⟨e, he⟩

variable {α : Type} [Scalar α]

namespace MeasureGrid

/-- A grid whose collection has ended, with the slots that close the measure. -/
structure Finished {α : Type} (g : MeasureGrid α) : Prop where
  state : g.state = .aligned
  closed : g.Closed

variable {g g' : MeasureGrid α}

omit [Scalar α] in
theorem StaysPut.finished (h : g.StaysPut g') (hg : g.Finished) : g'.Finished where
  state := h.state.trans hg.state
  closed := by
    rw [Closed, h.outline]
    exact hg.closed

omit [Scalar α] in
/-- At least the end of the measure is drawn. -/
theorem Finished.drawn (h : g.Finished) : g.drawnSlots ≠ [] := by
  obtain ⟨first, front, right, last, houtline, -⟩ := h.closed
  rw [← List.length_pos_iff, length_drawnSlots, houtline, List.filter_append, List.length_append]
  simp

theorem Open.finished_finish (hg : g.Open) (h : g.finish = .ok g') : g'.Finished := by
  obtain ⟨g₁, hg₁, hstate⟩ := exists_finish hg.state
  obtain rfl := Except.ok.inj (hg₁.symm.trans h)
  exact ⟨hstate, (hg.finish h).1⟩

theorem sameShape_addFootprint (g : MeasureGrid α) (key : SlotKey) (staff : UInt32)
    (rect : Rect α) : g.SameShape (g.addFootprint key staff rect) := by
  refine ⟨g.outline_addFootprint key staff rect, ?_, ?_, ?_, ?_⟩ <;>
  · rw [addFootprint]
    split_ifs <;> rfl

end MeasureGrid

namespace AlignState

/-- A state of the walk that has met no fault, or a breakdown for which there is a reason. The grids
are open, and the times are ones that can be computed with. -/
structure Sane {α : Type} (reason : Prop) (s : AlignState α) : Prop where
  grids : ∀ g ∈ s.grids, g.Open
  time : 0 < s.layer.time.den
  tuplets : ∀ r ∈ s.layer.tuplets, r.Nonneg
  fault : s.fault = none ∨ s.fault = some .breakdown ∧ reason

namespace Sane

variable {reason : Prop} {s s' : AlignState α}

omit [Scalar α] in
theorem of_eq (h : s.Sane reason) (hgrids : s'.grids = s.grids)
    (htime : s'.layer.time = s.layer.time) (htuplets : s'.layer.tuplets = s.layer.tuplets)
    (hfault : s'.fault = s.fault) : s'.Sane reason :=
  ⟨hgrids ▸ h.grids, htime ▸ h.time, htuplets ▸ h.tuplets, hfault ▸ h.fault⟩

omit [Scalar α] in
theorem draws (h : s.Sane reason) (hd : s.Draws s') : s'.Sane reason :=
  ⟨(hd.grids h.grids).1, hd.time ▸ h.time, hd.tuplets ▸ h.tuplets, hd.sane h.grids ▸ h.fault⟩

omit [Scalar α] in
/-- The ratio in force has no negative term. -/
theorem nonneg_tuplet (h : s.Sane reason) : s.layer.tuplet.Nonneg := by
  rw [LayerCursor.tuplet]
  cases hr : s.layer.tuplets with
  | nil => exact TupletRatio.nonneg_one
  | cons r rest => exact h.tuplets r (hr ▸ List.mem_cons_self)

/-! ### Entering and leaving symbols -/

omit [Scalar α] in
theorem reach (h : s.Sane reason) {n : Node α} {e : Element} (hn : n.kind = .element e)
    (hreason : n.OutOfReach → reason) : (s.reach e).Sane reason := by
  rw [s.reach_eq e]
  split_ifs with hreach
  · exact h
  · simp only [Option.all_eq_true, decide_eq_true_eq, not_forall] at hreach
    obtain ⟨loc, hloc, hout⟩ := hreach
    exact ⟨h.grids, h.time, h.tuplets, .inr ⟨rfl, hreason ⟨e, loc, s.lines, hn, hloc, hout⟩⟩⟩

omit [Scalar α] in
theorem refuse (h : s.Sane reason) (n : Node α) {e : DurationError}
    (he : e = .breakdown → reason) : (s.refuse n e).Sane reason := by
  cases e with
  | breakdown => exact ⟨h.grids, h.time, h.tuplets, .inr ⟨rfl, he rfl⟩⟩
  | missing | zeroRatio | negative | overflow => exact h.of_eq rfl rfl rfl rfl

omit [Scalar α] in
theorem advance (h : s.Sane reason) (n : Node α) {time : Fraction}
    (htime : 0 < time.den ∨ reason) : (s.advance n time).1.Sane reason := by
  rw [AlignState.advance]
  split
  · rename_i total htotal
    exact ⟨h.grids, Fraction.den_pos_of_add htotal, h.tuplets, h.fault⟩
  · rename_i e he
    refine h.refuse n fun hbreakdown => htime.resolve_left fun hpos => ?_
    cases e with
    | overflow => cases hbreakdown
    | breakdown => exact Fraction.add_ne_breakdown h.time hpos he

/-- A timed symbol is drawn, and the layer moves on. -/
theorem timed {c : AlignContext α} (h : s.Sane reason) (n : Node α) {e : Element}
    (onset : Fraction) {time : Fraction} (htime : 0 < time.den ∨ reason) (y : α)
    (rect : Option (Rect α)) {r : AlignState α × Node α × Option SlotKey}
    (hr : s.drawTimed c n e.isGrace onset time y rect = r) :
    ((r.1.openChord r.2.1 e onset r.2.2).advance r.2.1 time).1.Sane reason := by
  have hdraws := (s.draws_drawTimed c n e.isGrace onset time y rect).1
  rw [hr] at hdraws
  have hdrawn := h.draws hdraws
  refine advance ?_ r.2.1 htime
  unfold openChord
  split
  · exact hdrawn.of_eq rfl rfl rfl rfl
  · exact hdrawn

theorem enterTimed (c : AlignContext α) (h : s.Sane reason) (n : Node α) (e : Element)
    {d : Duration} (rect : Option (Rect α)) (hd : d.OverNegative → reason) :
    (s.enterTimed c n e d rect).1.Sane reason := by
  have hspec (hreason : ¬ reason) := mt hd hreason
  unfold AlignState.enterTimed
  cases hadvance : d.advance s.layer.tuplet with
  | ok time =>
    refine timed h n s.layer.time ?_ (s.symbolY c.unit e) rect rfl
    by_cases hreason : reason
    · exact .inr hreason
    · exact .inl (Duration.den_pos_of_advance (hspec hreason) hadvance)
  | error why =>
    refine timed (h.refuse n fun hwhy => ?_) n s.layer.time (.inl Int.one_pos)
      ((s.refuse n why).symbolY c.unit e) rect rfl
    by_contra hreason
    exact Duration.advance_ne_breakdown h.nonneg_tuplet (hspec hreason) (hwhy ▸ hadvance)

omit [Scalar α] in
theorem enterRatio (h : s.Sane reason) (n : Node α) (num base : UInt32) :
    (s.enterRatio n num base).1.Sane reason ∧ (s.enterRatio n num base).2.Nonneg := by
  rw [AlignState.enterRatio]
  split_ifs
  · exact ⟨h.of_eq rfl rfl rfl rfl, h.nonneg_tuplet⟩
  · cases hcombine : s.layer.tuplet.combine num.toNat base.toNat with
    | ok ratio =>
      exact ⟨h, h.nonneg_tuplet.combine (Int.natCast_nonneg _) (Int.natCast_nonneg _) hcombine⟩
    | error why =>
      exact ⟨h.refuse n fun hwhy => absurd (hwhy ▸ hcombine)
        (TupletRatio.combine_ne_breakdown _ _ _), h.nonneg_tuplet⟩

theorem enterUntimed (h : s.Sane reason) (n : Node α) {kind : SlotKind}
    (hkind : kind.zone = .content) (rect : Option (Rect α)) :
    (s.enterUntimed n kind rect).1.Sane reason :=
  h.draws ((draws_record ..).trans (draws_assignAt _ _ hkind))

theorem enterSymbol (c : AlignContext α) (h : s.Sane reason) (n : Node α) (e : Element)
    (rect : Option (Rect α)) (he : ∀ d, e.duration? = some d → d.OverNegative → reason) :
    (s.enterSymbol c n e rect).1.Sane reason := by
  unfold AlignState.enterSymbol
  cases e with
  | note | rest | chord | space => exact h.enterTimed c n _ rect (he _ rfl)
  | measureRest | multiRest =>
    exact advance (h.draws ((draws_record ..).trans (draws_assignAt _ _ rfl))) _
      (.inl (MeterSig.den_measureDuration_pos _))
  | clef | key | meter | barLine =>
    refine enterUntimed (h.of_eq ?_ ?_ ?_ ?_) n ?_ rect <;> rfl
  | tuplet num base =>
    obtain ⟨hratio, hnonneg⟩ := h.enterRatio n num base
    dsimp only
    generalize s.enterRatio n num base = r at hratio hnonneg ⊢
    have hinside : AlignState.Sane reason
        { r.1 with layer := { r.1.layer with tuplets := r.2 :: r.1.layer.tuplets } } :=
      ⟨hratio.grids, hratio.time, List.forall_mem_cons.2 ⟨hnonneg, hratio.tuplets⟩, hratio.fault⟩
    exact hinside.draws (draws_record ..)
  | beam => exact h.draws (draws_record ..)

theorem enterElement (c : AlignContext α) (h : s.Sane reason) (above : Option (Node α))
    (n : Node α) (e : Element) (he : ∀ d, e.duration? = some d → d.OverNegative → reason) :
    (s.enterElement c above n e).1.Sane reason := by
  unfold AlignState.enterElement
  dsimp only
  split
  · split_ifs
    · exact h.draws (draws_enterChordNote ..).1
    · exact h.enterSymbol c n _ _ he
  · exact h.enterSymbol c n _ _ he

omit [Scalar α] in
theorem leaveElement (h : s.Sane reason) (n : Node α) (e : Element) :
    (s.leaveElement n e).1.Sane reason := by
  unfold AlignState.leaveElement
  dsimp only
  split
  · split_ifs
    · exact h.of_eq rfl rfl rfl rfl
    · exact h
  · exact ⟨h.grids, h.time, fun r hr => h.tuplets r (List.mem_of_mem_tail hr), h.fault⟩
  · exact h

/-! ### Entering and leaving measures -/

omit [Scalar α] in
/-- What an open grid does not refuse meets no fault. -/
theorem updateGrid (h : s.Sane reason) {f : MeasureGrid α → Except GridFault (MeasureGrid α)}
    (hf : ∀ g, g.Open → ∃ g', f g = .ok g' ∧ g'.Open) : (s.updateGrid f).Sane reason := by
  rw [AlignState.updateGrid]
  split
  · rename_i g outer hgrids
    have hopen := h.grids
    rw [hgrids, List.forall_mem_cons] at hopen
    obtain ⟨g', hg', hopen'⟩ := hf g hopen.1
    rw [hg']
    exact ⟨List.forall_mem_cons.2 ⟨hopen', hopen.2⟩, h.time, h.tuplets, h.fault⟩
  · exact h

theorem leaveLayer (h : s.Sane reason) : s.leaveLayer.Sane reason := by
  rw [AlignState.leaveLayer]
  split_ifs
  · exact (h.draws (draws_flushGraces ..)).updateGrid fun g hg => ⟨_, rfl, hg.extend _⟩
  · exact h

theorem placeControl (beat last : Fraction) (h : s.Sane reason) (n : Node α) :
    (placeControl beat last s n).1.Sane reason := by
  rw [AlignState.placeControl]
  split
  · exact h
  · dsimp only
    refine updateGrid ?_ fun g hg => ?_
    swap
    · obtain ⟨g', hg'⟩ := MeasureGrid.exists_timestampSlot hg.state _
      exact ⟨g', hg', (hg.timestampSlot hg').1⟩
    split_ifs
    · exact h.of_eq rfl rfl rfl rfl
    · exact h

theorem placeControls (beat last : Fraction) : (f : Forest (Node α)) → {s : AlignState α} →
    s.Sane reason → (placeControls beat last s f).1.Sane reason
  | .nil, _, h => h
  | .cons n _ siblings, _, h => placeControls beat last siblings (h.placeControl beat last n)

theorem enterMeasure (h : s.Sane reason) (n : Node α) (m : Measure α) :
    (s.enterMeasure n m).1.Sane reason ∧
      ∃ m', (s.enterMeasure n m).2.kind = .measure m' ∧ m'.grid.Open := by
  rw [AlignState.enterMeasure]
  cases hbegin : (MeasureGrid.empty : MeasureGrid α).begin with
  | error f =>
    rw [MeasureGrid.begin_empty] at hbegin
    cases hbegin
  | ok grid =>
    obtain ⟨hopen, -⟩ := MeasureGrid.open_begin hbegin
    exact ⟨⟨List.forall_mem_cons.2 ⟨hopen, h.grids⟩, h.time, h.tuplets, h.fault⟩, _, rfl, hopen⟩

omit [Scalar α] in
/-- The grid of the measure that is left is open. -/
theorem open_headD (h : s.Sane reason) {g : MeasureGrid α} (hg : g.Open) :
    (s.grids.headD g).Open := by
  cases hgrids : s.grids with
  | nil => exact hg
  | cons g' outer => exact h.grids g' (hgrids ▸ List.mem_cons_self)

/-- The grid of a measure is open when the measure is left, so it can be closed. -/
theorem leaveMeasure (c : AlignContext α) (h : s.Sane reason) (n : Node α) {m : Measure α}
    (hm : m.grid.Open) (below : Forest (Node α)) : (s.leaveMeasure c n m below).1.Sane reason := by
  have hplaced := placeControls s.signatures.meter.beatDuration (s.grids.headD m.grid).maxTime
    below h
  rw [AlignState.leaveMeasure]
  dsimp only
  generalize AlignState.placeControls s.signatures.meter.beatDuration
    (s.grids.headD m.grid).maxTime s below = placed at hplaced ⊢
  obtain ⟨s₁, below₁⟩ := placed
  dsimp only at hplaced ⊢
  obtain ⟨grid, hgrid, -⟩ := MeasureGrid.exists_finish (hplaced.open_headD hm).state
  rw [hgrid]
  exact ⟨fun g hg => hplaced.grids g (List.mem_of_mem_tail hg), hplaced.time, hplaced.tuplets,
    hplaced.fault⟩

/-! ### The walk -/

theorem enter (c : AlignContext α) (h : s.Sane reason) (above : Option (Node α)) {n : Node α}
    (hn : n.BreaksDown → reason) : (s.enter c above n).1.Sane reason ∧
      ∀ m, (s.enter c above n).2.1.kind = .measure m → m.grid.Open := by
  rw [AlignState.enter]
  split
  case h_7 m hm =>
    obtain ⟨hs, m', hm', hopen⟩ := h.enterMeasure n m
    exact ⟨hs, fun m hm => NodeKind.measure.inj (hm'.symm.trans hm) ▸ hopen⟩
  case h_8 staff hstaff =>
    exact ⟨h.of_eq rfl rfl rfl rfl, fun m hm => by
      cases hstaff.symm.trans (show n.kind = .measure m from hm)⟩
  case h_9 k hk =>
    exact ⟨⟨h.grids, Int.one_pos, fun _ hr => absurd hr List.not_mem_nil, h.fault⟩, fun m hm => by
      cases hk.symm.trans (show n.kind = .measure m from hm)⟩
  case h_10 e he =>
    split_ifs
    · refine ⟨(h.reach he (hn ∘ .inr)).enterElement c above n e fun d hd hover =>
        hn (.inl ⟨e, d, he, hd, hover⟩), fun m hm => ?_⟩
      obtain ⟨box, layout, heq, -⟩ := writes_enterElement c (s.reach e) n above e
      cases he.symm.trans ((congrArg Node.kind heq).symm.trans hm)
    · exact ⟨h, fun m hm => by cases he.symm.trans hm⟩
  all_goals
    rename_i hk
    exact ⟨h.of_eq rfl rfl rfl rfl, fun m hm => by cases hk.symm.trans hm⟩

theorem leave (c : AlignContext α) (h : s.Sane reason) {n : Node α}
    (hn : ∀ m, n.kind = .measure m → m.grid.Open) (below : Forest (Node α)) :
    (s.leave c n below).1.Sane reason := by
  rw [AlignState.leave]
  split
  case h_1 m hm => exact h.leaveMeasure c n (hn m hm) below
  case h_2 => exact h.leaveLayer
  case h_3 e _ => exact h.leaveElement n e
  case h_4 => exact h

end Sane

theorem staysPut_drawBarLines (c : AlignContext α) (m : Measure α) (last : Fraction)
    (g : MeasureGrid α) (staff : UInt32) : g.StaysPut (drawBarLines c m last g staff) := by
  have hadd (g : MeasureGrid α) (key : SlotKey) (r : Rect α) :
      g.StaysPut (g.addFootprint key staff r) := (g.sameShape_addFootprint key staff r).staysPut
  unfold drawBarLines
  dsimp only
  cases m.leftBarLine.bind _ <;> cases c.metrics.barLine m.rightBarLine _ _
  · exact .refl g
  · exact hadd ..
  · exact hadd ..
  · exact (hadd ..).trans (hadd ..)

theorem staysPut_foldl_drawBarLines (c : AlignContext α) (m : Measure α) (last : Fraction) :
    (staves : List UInt32) → (g : MeasureGrid α) →
      g.StaysPut (staves.foldl (drawBarLines c m last) g)
  | [], g => .refl g
  | staff :: staves, g => (staysPut_drawBarLines c m last g staff).trans
      (staysPut_foldl_drawBarLines c m last staves _)

end AlignState

/-! ### Closed grids -/

/-- The time grids of all measures of a forest are closed. -/
def Forest.Finished {α : Type} (f : Forest (Node α)) : Prop :=
  ∀ n ∈ f.toList, ∀ m, n.kind = .measure m → m.grid.Finished

/-- No node stands higher in the order of the kinds than one that it stands below. -/
def Forest.Sinks {α : Type} (f : Forest (Node α)) : Prop :=
  ∀ n below, HasTree n below f → ∀ m ∈ below.toList, n.tag.depth ≤ m.tag.depth

namespace AlignState

omit [Scalar α] in
theorem sane_start (definition : ScoreDefinition) (reason : Prop) :
    (start definition : AlignState α).Sane reason :=
  ⟨fun _ hg => absurd hg List.not_mem_nil, Int.one_pos, fun _ hr => absurd hr List.not_mem_nil,
    .inl rfl⟩

variable {c : AlignContext α} {s s₁ : AlignState α} {n n' : Node α} {below below' : Forest (Node α)}

/-- The walk passes over control elements, and over symbols that no measure takes. -/
theorem of_enter_skip {above : Option (Node α)}
    (h : (alignPass c).enter s above n = (s₁, n', .skipChildren)) :
    n' = n ∧ 4 ≤ n.tag.depth := by
  have hgoes (s : AlignState α) : s.outcome .proceed ≠ .skipChildren := by
    rw [outcome]
    split_ifs <;> decide
  dsimp only [alignPass] at h
  rw [enter] at h
  split at h
  case h_10 e he =>
    split_ifs at h
    · cases hgoes _ (congrArg (fun r => r.2.2) h)
    · simp only [Prod.mk.injEq, and_true] at h
      exact ⟨h.2.symm, by rw [Node.tag, he, NodeKind.tag]; decide⟩
  case h_11 k hk =>
    simp only [Prod.mk.injEq, and_true] at h
    exact ⟨h.2.symm, by rw [Node.tag, hk, NodeKind.tag]; decide⟩
  case h_7 => cases hgoes _ (congrArg (fun r => r.2.2) h)
  all_goals cases congrArg (fun r => r.2.2) h

/-- A measure that is left has a closed grid, and no other grid changes. -/
theorem finished_leave {whole : Node α → Forest (Node α) → Forest (Node α)} {v : Visit}
    {reason : Prop} (h : (alignPass c).leave s whole n below = (s₁, n', below', v)) (hv : v ≠ .stop)
    (hs : s.Sane reason) (hn : ∀ m, n.kind = .measure m → m.grid.Open)
    (hbelow : below.Finished) :
    (∀ m, n'.kind = .measure m → m.grid.Finished) ∧ below'.Finished := by
  dsimp only [alignPass] at h
  rw [leave] at h
  split at h
  case h_1 m hm =>
    simp only [Prod.mk.injEq] at h
    obtain ⟨rfl, rfl, rfl, rfl⟩ := h
    have hfault : (s.leaveMeasure c n m below).1.fault = none := by
      rw [outcome] at hv
      split_ifs at hv with hsome
      · exact absurd rfl hv
      · simpa using hsome
    have hkinds := writes_placeControls s.signatures.meter.beatDuration
      (s.grids.headD m.grid).maxTime s below
    have hplaced := hs.placeControls s.signatures.meter.beatDuration
      (s.grids.headD m.grid).maxTime below
    rw [leaveMeasure] at hfault ⊢
    dsimp only at hfault ⊢
    generalize placeControls s.signatures.meter.beatDuration (s.grids.headD m.grid).maxTime s
      below = placed at hfault hkinds hplaced ⊢
    obtain ⟨s₂, below₂⟩ := placed
    dsimp only at hfault hkinds hplaced ⊢
    cases hfinish : (s₂.grids.headD m.grid).finish with
    | error f =>
      rw [hfinish] at hfault
      cases hfault
    | ok grid =>
      refine ⟨fun m' hm' => ?_, fun k hk m' hm' => ?_⟩
      · rw [← NodeKind.measure.inj hm']
        exact (staysPut_foldl_drawBarLines c m _ s₂.staves grid).finished
          ((hplaced.open_headD (hn m hm)).finished_finish hfinish)
      · obtain ⟨k₀, hk₀, hwrites⟩ := exists_mem_of_forall₂ hkinds.toList hk
        exact hbelow k₀ hk₀ m' (hwrites.kind.symm.trans hm')
  case h_2 k hk =>
    cases h
    exact ⟨fun m hm => absurd (hk.symm.trans hm) (by simp), hbelow⟩
  case h_3 e he =>
    cases h
    have hkind := (writes_leaveElement s n e).kind.trans he
    exact ⟨fun m hm => absurd (hkind.symm.trans hm) (by simp), hbelow⟩
  case h_4 hm _ _ =>
    cases h
    exact ⟨fun m hk => absurd hk (hm m), hbelow⟩

/-- A walk that comes to its end has closed the grids of all measures. -/
theorem finished_completes {above : Option (Node α)} {s' : AlignState α} {f f' : Forest (Node α)}
    (h : Forest.Completes (alignPass c) above s f s' f') (hf : f.Sinks) (hs : s.Sane True) :
    f'.Finished ∧ s'.Sane True := by
  induction h with
  | nil => exact ⟨fun _ hn => absurd hn List.not_mem_nil, hs⟩
  | @skip above s s₁ s₂ b b₁ children siblings siblings' henter _ ih =>
    have hs₁ := (hs.enter c above (n := b) fun _ => trivial).1
    dsimp only [alignPass] at henter
    rw [henter] at hs₁
    obtain ⟨rfl, hdepth⟩ := of_enter_skip henter
    have hlow {k : Node α} (hk : 4 ≤ k.tag.depth) (m : Measure α) (hm : k.kind = .measure m) :
        m.grid.Finished := by
      rw [Node.tag, hm, NodeKind.tag] at hk
      exact absurd hk (by decide)
    obtain ⟨hbeside, hs₂⟩ := ih (fun k below hk => hf k below (.beside _ _ hk)) hs₁
    refine ⟨?_, hs₂⟩
    rw [Forest.Finished, Forest.toList, List.forall_mem_cons, List.forall_mem_append]
    exact ⟨hlow hdepth, fun k hk => hlow (hdepth.trans (hf b₁ children (.here siblings) k hk)),
      hbeside⟩
  | @walk above s s₁ s₂ s₃ s₄ b b₁ b₂ children siblings children₁ children₂ siblings' whole v henter
      _ hleave hgoing _ ihbelow ihbeside =>
    obtain ⟨hs₁, hopen⟩ := hs.enter c above (n := b) fun _ => trivial
    dsimp only [alignPass] at henter
    rw [henter] at hs₁ hopen
    obtain ⟨hbelow, hs₂⟩ := ihbelow (fun k below hk => hf k below (.deeper siblings hk)) hs₁
    obtain ⟨hb, hbelow⟩ := finished_leave hleave hgoing hs₂ hopen hbelow
    have hs₃ := hs₂.leave c hopen children₁
    dsimp only [alignPass] at hleave
    rw [hleave] at hs₃
    obtain ⟨hbeside, hs₄⟩ := ihbeside (fun k below hk => hf k below (.beside _ _ hk)) hs₃
    refine ⟨?_, hs₄⟩
    rw [Forest.Finished, Forest.toList, List.forall_mem_cons, List.forall_mem_append]
    exact ⟨hb, hbelow, hbeside⟩

end AlignState

namespace Document

omit [Scalar α] in
theorem WellFormed.sinks {d : Document α} (hd : d.WellFormed) : d.score.Sinks := by
  intro n below htree
  have htree : Forest.HasTree n below d.trees := by
    obtain ⟨r, pages, detached, htrees, -⟩ := hd.root
    rw [score, htrees] at htree
    rw [htrees]
    exact htree.append_left detached
  refine Forest.forall_of_links (P := fun m : Node α => n.tag.depth ≤ m.tag.depth) (fun m hm => ?_)
    fun a b hl ha => ?_
  · exact NodeKind.depth_le_of_accepts
      (hd.accepts n m (htree.mem_links (Forest.link_of_mem_roots (some n) hm) none))
  · exact ha.trans (NodeKind.depth_le_of_accepts
      (hd.accepts a b (htree.mem_links (Forest.mem_links_of_mem_links_none hl (some n)) none)))

/-- Alignment meets no fault but a breakdown, and this takes a performed time that is written over a
negative number, or a location out of reach. -/
theorem fault_fillGrids (d : Document α) (metrics : GlyphMetrics α) (unit : α) :
    (d.fillGrids metrics unit).1.fault = none ∨
      (d.fillGrids metrics unit).1.fault = some .breakdown ∧
        ∃ n ∈ d.score.toList, n.BreaksDown := by
  have hstart := AlignState.sane_start (α := α) d.definition (∃ n ∈ d.score.toList, n.BreaksDown)
  have hend := Forest.invariant_runWithin (p := alignPass ⟨metrics, unit, d⟩)
    (I := AlignState.Sane (∃ n ∈ d.score.toList, n.BreaksDown))
    (P := fun n => n.BreaksDown → ∃ n ∈ d.score.toList, n.BreaksDown)
    (E := fun (n : Node α) => ∀ m : Measure α, n.kind = .measure m → m.grid.Open)
    (fun s above n hs hn => hs.enter _ above hn) (fun s _ n below hs hn => hs.leave _ hn below)
    d.score (fun n hn hbreaks => ⟨n, hn, hbreaks⟩) none id _ hstart
  exact hend.fault

/-- Alignment that meets no fault has closed the grids of all measures. -/
theorem WellFormed.finished_align {d : Document α} (hd : d.WellFormed) {metrics : GlyphMetrics α}
    {unit : α} (hok : (d.align metrics unit).fault = none) :
    (d.align metrics unit).document.score.Finished := by
  obtain ⟨s, score, hwalk, -, -, -, hscore⟩ := exists_align hok
  have hfinished := (AlignState.finished_completes hwalk hd.sinks (AlignState.sane_start _ _)).1
  rw [hscore]
  intro n' hn' m hm
  rw [Forest.toList_map] at hn'
  obtain ⟨n, hn, rfl⟩ := List.mem_map.1 hn'
  refine hfinished n hn m ?_
  rw [← hm, AlignState.applyGraceSlots]
  split <;> rfl

end Document

end ScoreLayout
