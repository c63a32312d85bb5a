import ScoreLayout.Proofs.Grid.Framed
import ScoreLayout.Proofs.Safety

/-!
# The time grids that alignment leaves

While a measure is walked, its symbols ask its time grid for slots of the content only; a control
element asks for a time within the measure once all its layers have been walked. So the grid of every
measure that alignment comes through keeps what stands around the content, and every later pass leaves
it so.

## Main definitions

* `AlignState.Opened` — all open grids keep what opens their measures.
* `Forest.GridsFramed` — the grids of all measures have what stands around their content.
* `Document.FromAlignment` — what alignment leaves, and what no later pass changes.

## Main results

* `AlignState.framed_completes` — a walk that comes to its end.
* `Document.FromAlignment.promise` — what alignment leaves holds from then on.
* `Document.Reachable.framed` — the grids of whatever a caller comes to.
-/

namespace ScoreLayout

variable {α : Type} [Scalar α]

namespace AlignState

omit [Scalar α] in
/-- All grids keep what opens their measures. -/
def Opened (s : AlignState α) : Prop := ∀ g ∈ s.grids, g.Opened

namespace Opened

variable {c : AlignContext α} {s s' : AlignState α} {key : SlotKey}

omit [Scalar α] in
theorem of_grids (h : s.Opened) (hgrids : s'.grids = s.grids) : s'.Opened := fun g hg =>
  h g (hgrids ▸ hg)

omit [Scalar α] in
theorem updateGrid (h : s.Opened) {f : MeasureGrid α → Except GridFault (MeasureGrid α)}
    (hf : ∀ g g', g.Opened → f g = .ok g' → g'.Opened) : (s.updateGrid f).Opened := by
  rw [AlignState.updateGrid]
  split
  · rename_i g outer hgrids
    rw [Opened, hgrids, List.forall_mem_cons] at h
    split
    · rename_i g' hg'
      exact List.forall_mem_cons.2 ⟨hf g g' h.1 hg', h.2⟩
    · rw [Opened, hgrids, List.forall_mem_cons]
      exact h
  · exact h

/-! ### Symbols -/

theorem request (h : s.Opened) (hkey : key.zone = .content) : (s.request key).Opened :=
  h.updateGrid fun _ _ hg hok => hg.slot hkey hok

theorem draw (h : s.Opened) (key : SlotKey) (rect : Option (Rect α)) : (s.draw key rect).Opened := by
  unfold AlignState.draw
  split
  · exact h.updateGrid fun g g' hg hok => Except.ok.inj hok ▸ hg.addFootprint ..
  · exact h

theorem placeGrace (h : s.Opened) (onset : Fraction) (rank : Nat) (g : PendingGrace α) :
    (s.placeGrace onset rank g).Opened := by
  have hfold (g : PendingGrace α) : ∀ s : AlignState α, s.Opened →
      (g.foldl (fun s d => { s.draw (.ofGrace onset rank) d.rect with
        graceSlots := (d.handle, .ofGrace onset rank) :: s.graceSlots }) s).Opened := by
    induction g with
    | nil => exact fun s hs => hs
    | cons d g ih => exact fun s hs => ih _ ((hs.draw (.ofGrace onset rank) d.rect).of_grids rfl)
  exact hfold g _ (h.request rfl)

theorem placeGraces (onset : Fraction) : (graces : List (PendingGrace α)) → {s : AlignState α} →
    s.Opened → (s.placeGraces onset graces).Opened
  | [], _, h => h
  | g :: rest, _, h => placeGraces onset rest (h.placeGrace onset (rest.length + 1) g)

theorem flushGraces (h : s.Opened) (onset : Fraction) : (s.flushGraces onset).Opened :=
  placeGraces onset s.layer.graces (h.of_grids rfl)

theorem record (h : s.Opened) (n : Node α) (onset time : Fraction) (y : α) (rect : Option (Rect α)) :
    (s.record n onset time y rect).1.Opened := h.of_grids rfl

theorem assign (h : s.Opened) (n : Node α) (key : SlotKey) : (s.assign n key).1.Opened :=
  (h.draw key (drawn n).rect).of_grids rfl

theorem assignAt (h : s.Opened) (n : Node α) (hkey : key.zone = .content) :
    (s.assignAt n key).1.Opened := (h.request hkey).assign n key

omit [Scalar α] in
theorem reach (h : s.Opened) (e : Element) : (s.reach e).Opened := by
  obtain ⟨fault, heq⟩ := s.exists_reach e
  rw [heq]
  exact h

omit [Scalar α] in
theorem refuse (h : s.Opened) (n : Node α) (reason : DurationError) : (s.refuse n reason).Opened := by
  obtain ⟨refused, fault, heq, -⟩ := s.refuse_eq n reason
  exact h.of_grids (by rw [heq])

omit [Scalar α] in
theorem advance (h : s.Opened) (n : Node α) (time : Fraction) : (s.advance n time).1.Opened := by
  rw [AlignState.advance]
  split
  · exact h.of_grids rfl
  · exact h.refuse n _

theorem timed (h : s.Opened) (n : Node α) {e : Element} {grace : Bool} (onset time : Fraction) (y : α)
    (rect : Option (Rect α)) {r : AlignState α × Node α × Option SlotKey}
    (hr : s.drawTimed c n grace onset time y rect = r) :
    ((r.1.openChord r.2.1 e onset r.2.2).advance r.2.1 time).1.Opened := by
  have hdrawn : r.1.Opened := by
    rw [← hr, drawTimed]
    dsimp only
    split
    · exact h.of_grids rfl
    · exact (((h.record _ _ _ _ _).request rfl).flushGraces onset).assign _ _
  refine advance ?_ r.2.1 time
  unfold openChord
  split
  · exact hdrawn.of_grids rfl
  · exact hdrawn

theorem enterTimed (c : AlignContext α) (h : s.Opened) (n : Node α) (e : Element) (d : Duration)
    (rect : Option (Rect α)) : (s.enterTimed c n e d rect).1.Opened := by
  unfold AlignState.enterTimed
  cases d.advance s.layer.tuplet with
  | ok time => exact timed h n s.layer.time time (s.symbolY c.unit e) rect rfl
  | error why =>
    exact timed (h.refuse n why) n s.layer.time 0 ((s.refuse n why).symbolY c.unit e) rect rfl

theorem enterUntimed (h : s.Opened) (n : Node α) {kind : SlotKind} (hkind : kind.zone = .content)
    (rect : Option (Rect α)) : (s.enterUntimed n kind rect).1.Opened :=
  (h.record _ _ _ _ _).assignAt _ hkind

theorem enterSymbol (c : AlignContext α) (h : s.Opened) (n : Node α) (e : Element)
    (rect : Option (Rect α)) : (s.enterSymbol c n e rect).1.Opened := by
  unfold AlignState.enterSymbol
  cases e with
  | note | rest | chord | space => exact h.enterTimed c n _ _ rect
  | measureRest | multiRest => exact advance ((h.record _ _ _ _ _).assignAt _ rfl) _ _
  | clef | key | meter | barLine =>
    refine enterUntimed (h.of_grids ?_) n ?_ rect <;> rfl
  | tuplet num base =>
    obtain ⟨refused, fault, heq, -⟩ := s.enterRatio_eq n num base
    dsimp only
    rw [heq]
    exact h.of_grids rfl
  | beam => exact h.of_grids rfl

theorem enterElement (c : AlignContext α) (h : s.Opened) (above : Option (Node α)) (n : Node α)
    (e : Element) : (s.enterElement c above n e).1.Opened := by
  unfold AlignState.enterElement
  dsimp only
  split
  · split_ifs
    · unfold enterChordNote
      dsimp only
      split
      · exact (h.record _ _ _ _ _).assign _ _
      · exact h.record _ _ _ _ _
    · exact h.enterSymbol c n _ _
  · exact h.enterSymbol c n _ _

omit [Scalar α] in
theorem leaveElement (h : s.Opened) (n : Node α) (e : Element) : (s.leaveElement n e).1.Opened := by
  unfold AlignState.leaveElement
  dsimp only
  split
  · split_ifs
    · exact h.of_grids rfl
    · exact h
  · exact h.of_grids rfl
  · exact h

theorem leaveLayer (h : s.Opened) : s.leaveLayer.Opened := by
  rw [AlignState.leaveLayer]
  split_ifs
  · exact (h.flushGraces _).updateGrid fun g g' hg hok => Except.ok.inj hok ▸ hg.extend _
  · exact h

/-! ### Measures -/

theorem enterMeasure (h : s.Opened) (n : Node α) (m : Measure α) :
    (s.enterMeasure n m).1.Opened ∧
      ∀ m', (s.enterMeasure n m).2.kind = .measure m' → m'.grid.Opened := by
  rw [AlignState.enterMeasure]
  cases hbegin : (MeasureGrid.empty : MeasureGrid α).begin with
  | error f =>
    rw [MeasureGrid.begin_empty] at hbegin
    cases hbegin
  | ok grid =>
    have hgrid := MeasureGrid.opened_begin hbegin
    exact ⟨List.forall_mem_cons.2 ⟨hgrid, h⟩, fun m' hm' => by
      rw [← NodeKind.measure.inj hm']
      exact hgrid⟩

omit [Scalar α] in
theorem headD (h : s.Opened) {g : MeasureGrid α} (hg : g.Opened) : (s.grids.headD g).Opened := by
  cases hgrids : s.grids with
  | nil => exact hg
  | cons g' outer => exact h g' (hgrids ▸ List.mem_cons_self)

/-- A time-stamped control element asks for a slot within the measure, which keeps its length. -/
theorem placeControl (h : s.Opened) {g : MeasureGrid α} (hg : g.Opened) (beat : Fraction)
    {last : Fraction} (hlast : (s.grids.headD g).maxTime = last) (n : Node α) :
    (placeControl beat last s n).1.Opened ∧
      ((AlignState.placeControl beat last s n).1.grids.headD g).maxTime = last := by
  have hlength := (h.headD hg).length
  rw [hlast] at hlength
  rw [AlignState.placeControl]
  split
  · exact ⟨h, hlast⟩
  · rename_i tstamp _
    dsimp only
    generalize timeOfBeat tstamp beat = time
    -- the time has been moved into the measure
    have honset : 0 ≤ (if time < 0 then 0 else if last < time then last else time).value ∧
        (if time < 0 then 0 else if last < time then last else time).value ≤ last.value := by
      split_ifs with hlow hhigh
      · exact ⟨Fraction.value_zero.ge, Fraction.value_zero.trans_le hlength⟩
      · exact ⟨hlength, le_rfl⟩
      · rw [Fraction.lt_iff_value, not_lt] at hlow hhigh
        exact ⟨Fraction.value_zero ▸ hlow, hhigh⟩
    generalize (if time < 0 then 0 else if last < time then last else time) = onset at honset ⊢
    have hstep (s : AlignState α) (hs : s.Opened) (hlast : (s.grids.headD g).maxTime = last) :
        (s.updateGrid fun g => g.timestampSlot onset).Opened ∧
          ((s.updateGrid fun g => g.timestampSlot onset).grids.headD g).maxTime = last := by
      rw [AlignState.updateGrid]
      split
      · rename_i g₀ outer hgrids
        rw [Opened, hgrids, List.forall_mem_cons] at hs
        rw [hgrids] at hlast
        obtain rfl : g₀.maxTime = last := hlast
        split
        · rename_i g₁ hg₁
          obtain ⟨hopened, hmax⟩ := hs.1.timestampSlot honset hg₁
          exact ⟨List.forall_mem_cons.2 ⟨hopened, hs.2⟩, hmax⟩
        · rw [Opened, hgrids, List.forall_mem_cons]
          exact ⟨hs, rfl⟩
      · exact ⟨hs, hlast⟩
    split_ifs
    · exact hstep _ (h.of_grids rfl) hlast
    · exact hstep s h hlast

theorem placeControls {g : MeasureGrid α} (hg : g.Opened) (beat last : Fraction) :
    (f : Forest (Node α)) → {s : AlignState α} → s.Opened → (s.grids.headD g).maxTime = last →
      (placeControls beat last s f).1.Opened ∧
        ((AlignState.placeControls beat last s f).1.grids.headD g).maxTime = last
  | .nil, _, h, hlast => ⟨h, hlast⟩
  | .cons n _ siblings, _, h, hlast => by
      obtain ⟨hopened, hlast'⟩ := h.placeControl hg beat hlast n
      exact placeControls hg beat last siblings hopened hlast'

/-! ### The walk -/

theorem enter (c : AlignContext α) (h : s.Opened) (above : Option (Node α)) (n : Node α) :
    (s.enter c above n).1.Opened ∧
      ∀ m, (s.enter c above n).2.1.kind = .measure m → m.grid.Opened := by
  rw [AlignState.enter]
  split
  case h_7 m hm => exact h.enterMeasure n m
  case h_10 e he =>
    split_ifs
    · refine ⟨(h.reach e).enterElement c above n e, fun m hm => ?_⟩
      obtain ⟨box, layout, heq, -⟩ := writes_enterElement c (s.reach e) n above e
      cases he.symm.trans ((congrArg Node.kind heq).symm.trans hm)
    · exact ⟨h, fun m hm => by cases he.symm.trans hm⟩
  all_goals
    rename_i hk
    exact ⟨h.of_grids rfl, fun m hm => by cases hk.symm.trans hm⟩

/-- A measure that is left has what stands around its content. -/
theorem leave {n n' : Node α} {below below' : Forest (Node α)}
    {whole : Node α → Forest (Node α) → Forest (Node α)} {v : Visit} (hs : s.Opened)
    (hn : ∀ m, n.kind = .measure m → m.grid.Opened) {s₁ : AlignState α}
    (h : (alignPass c).leave s whole n below = (s₁, n', below', v)) (hv : v ≠ .stop) :
    s₁.Opened ∧ (∀ m, n'.kind = .measure m → m.grid.Framed m.grid.maxTime) ∧
      Forest.Forall₂ Writes below below' := by
  have hstay : Forest.Forall₂ Writes below below := .refl fun n _ => ⟨n.box, n.layout, rfl, rfl⟩
  dsimp only [alignPass] at h
  rw [AlignState.leave] at h
  split at h
  case h_1 m hm =>
    simp only [Prod.mk.injEq] at h
    obtain ⟨rfl, rfl, rfl, rfl⟩ := h
    have hfault : (s.leaveMeasure c n m below).1.fault = none := by
      rw [outcome] at hv
      split_ifs at hv with hsome
      · exact absurd rfl hv
      · simpa using hsome
    have hkinds := writes_placeControls s.signatures.meter.beatDuration
      (s.grids.headD m.grid).maxTime s below
    obtain ⟨hplaced, -⟩ := placeControls (hn m hm) s.signatures.meter.beatDuration
      (s.grids.headD m.grid).maxTime below hs rfl
    rw [leaveMeasure] at hfault ⊢
    dsimp only at hfault ⊢
    generalize AlignState.placeControls s.signatures.meter.beatDuration
      (s.grids.headD m.grid).maxTime s below = placed at hfault hkinds hplaced ⊢
    obtain ⟨s₂, below₂⟩ := placed
    dsimp only at hfault hkinds hplaced ⊢
    cases hfinish : (s₂.grids.headD m.grid).finish with
    | error f =>
      rw [hfinish] at hfault
      cases hfault
    | ok grid =>
      refine ⟨fun g hg => hplaced g (List.mem_of_mem_tail hg), fun m' hm' => ?_, hkinds⟩
      have hstays := staysPut_foldl_drawBarLines c m (s.grids.headD m.grid).maxTime s₂.staves grid
      have hmax := maxTime_foldl_drawBarLines (c := c) m (s.grids.headD m.grid).maxTime s₂.staves grid
      rw [← NodeKind.measure.inj hm']
      exact hmax.symm ▸ ((hplaced.headD (hn m hm)).finish hfinish).1.of_outline hstays.outline
  case h_2 k hk =>
    cases h
    exact ⟨hs.leaveLayer, fun m hm => absurd (hk.symm.trans hm) (by simp), hstay⟩
  case h_3 e he =>
    cases h
    have hkind := (writes_leaveElement s n e).kind.trans he
    exact ⟨hs.leaveElement n e, fun m hm => absurd (hkind.symm.trans hm) (by simp), hstay⟩
  case h_4 hm _ _ =>
    cases h
    exact ⟨hs, fun m hk => absurd hk (hm m), hstay⟩

end Opened

end AlignState

/-! ### Framed grids -/

/-- The grids of all measures of a forest have what stands around their content. -/
def Forest.GridsFramed {α : Type} (f : Forest (Node α)) : Prop :=
  ∀ n ∈ f.toList, ∀ m, n.kind = .measure m → ∃ last, m.grid.Framed last

/-- The grids of all measures of a forest have what stands around their content, and their measures
end where the layers do. -/
def Forest.GridsFramedTight {α : Type} (f : Forest (Node α)) : Prop :=
  ∀ n ∈ f.toList, ∀ m, n.kind = .measure m → m.grid.Framed m.grid.maxTime

namespace AlignState

variable {c : AlignContext α}

/-- A walk that comes to its end leaves framed grids. -/
theorem framed_completes {above : Option (Node α)} {s s' : AlignState α} {f f' : Forest (Node α)}
    (h : Forest.Completes (alignPass c) above s f s' f') (hf : f.Sinks) (hs : s.Opened) :
    f'.GridsFramedTight ∧ s'.Opened := by
  induction h with
  | nil => exact ⟨fun _ hn => absurd hn List.not_mem_nil, hs⟩
  | @skip above s s₁ s₂ b b₁ children siblings siblings' henter _ ih =>
    have hs₁ := (hs.enter c above b).1
    dsimp only [alignPass] at henter
    rw [henter] at hs₁
    obtain ⟨rfl, hdepth⟩ := of_enter_skip henter
    have hlow {k : Node α} (hk : 4 ≤ k.tag.depth) (m : Measure α) (hm : k.kind = .measure m) :
        m.grid.Framed m.grid.maxTime := by
      rw [Node.tag, hm, NodeKind.tag] at hk
      exact absurd hk (by decide)
    obtain ⟨hbeside, hs₂⟩ := ih (fun k below hk => hf k below (.beside _ _ hk)) hs₁
    refine ⟨?_, hs₂⟩
    rw [Forest.GridsFramedTight, Forest.toList, List.forall_mem_cons, List.forall_mem_append]
    exact ⟨hlow hdepth, fun k hk => hlow (hdepth.trans (hf b₁ children (.here siblings) k hk)),
      hbeside⟩
  | @walk above s s₁ s₂ s₃ s₄ b b₁ b₂ children siblings children₁ children₂ siblings' whole v henter
      _ hleave hgoing _ ihbelow ihbeside =>
    obtain ⟨hs₁, hopen⟩ := hs.enter c above b
    dsimp only [alignPass] at henter
    rw [henter] at hs₁ hopen
    obtain ⟨hbelow, hs₂⟩ := ihbelow (fun k below hk => hf k below (.deeper siblings hk)) hs₁
    obtain ⟨hs₃, hb, hsame⟩ := hs₂.leave hopen hleave hgoing
    obtain ⟨hbeside, hs₄⟩ := ihbeside (fun k below hk => hf k below (.beside _ _ hk)) hs₃
    refine ⟨?_, hs₄⟩
    rw [Forest.GridsFramedTight, Forest.toList, List.forall_mem_cons, List.forall_mem_append]
    refine ⟨hb, fun k hk m hm => ?_, hbeside⟩
    obtain ⟨k₀, hk₀, hwrites⟩ := exists_mem_of_forall₂ hsame.toList hk
    exact hbelow k₀ hk₀ m (hwrites.kind.symm.trans hm)

end AlignState

namespace Document

variable {d : Document α}

/-- The grids that alignment leaves. -/
theorem WellFormed.framed_align (hd : d.WellFormed) {metrics : GlyphMetrics α} {unit : α}
    (hok : (d.align metrics unit).fault = none) :
    (d.align metrics unit).document.score.GridsFramedTight := by
  obtain ⟨s, score, hwalk, -, -, -, hscore⟩ := exists_align hok
  have hframed := (AlignState.framed_completes hwalk hd.sinks fun _ hg =>
    absurd hg List.not_mem_nil).1
  rw [hscore]
  intro n' hn' m hm
  rw [Forest.toList_map] at hn'
  obtain ⟨n, hn, rfl⟩ := List.mem_map.1 hn'
  refine hframed n hn m ?_
  rw [← hm, AlignState.applyGraceSlots]
  split <;> rfl

/-- What alignment leaves, and what no later pass changes. -/
structure FromAlignment (P : Forest (Node α) → Prop) : Prop where
  align : ∀ {d : Document α}, d.WellFormed → ∀ {metrics : GlyphMetrics α} {unit : α},
    (d.align metrics unit).fault = none → P (d.align metrics unit).document.content
  stays : ∀ {d d' : Document α}, d.StaysPut d' → P d.content → P d'.content

/-- What alignment leaves holds from then on. -/
theorem FromAlignment.promise {P : Forest (Node α) → Prop} (hP : FromAlignment P) :
    Promise (α := α) fun d => .aligned ≤ d.stage → P d.content where
  of_content hstage hcontent h hs := by
    rw [hcontent]
    exact h (hstage ▸ hs)
  built hbuilt hs := by
    rw [hbuilt] at hs
    exact absurd hs (by decide)
  run {d} hd hsettled h e pass hok hs := by
    by_cases hrequired : pass.required ≤ d.stage
    · by_cases hprepare : pass = .prepare
      · subst hprepare
        rw [show (e.run d .prepare).document.stage = .prepared from hd.fault_prepare.2] at hs
        exact absurd hs (by decide)
      · by_cases halign : pass = .align
        · subst halign
          by_cases hfault : (d.align e.metrics e.options.scaledUnit).fault = none
          · exact hP.align hd hfault
          · -- alignment that breaks down leaves the stage as it is
            have hprepared := (hok rfl).resolve_left hfault
            obtain ⟨hnone, -⟩ | ⟨-, hstage⟩ := stage_align d e.metrics e.options.scaledUnit
            · exact absurd hnone hfault
            · rw [show (e.run d .align).document.stage = d.stage from hstage, hprepared] at hs
              exact absurd hs (by decide)
        · have haligned : .aligned ≤ d.stage := by
            cases pass <;> first | contradiction | exact Nat.le_trans (by decide) hrequired
          exact hP.stays (hd.staysPut_run hsettled e hprepare halign) (h haligned)
    · obtain ⟨step, -, hrun⟩ := run_of_not_required e hrequired
      rw [hrun] at hs ⊢
      exact h hs

theorem fromAlignment_framed : FromAlignment (α := α) Forest.GridsFramed where
  align hd _ _ hok n hn m hm :=
    ⟨_, hd.framed_align hok n ((content_sublist_score _).subset hn) m hm⟩
  stays h hf n' hn' m' hm' := by
    obtain ⟨n, hn, hstays⟩ := exists_mem_of_forall₂ h.toList hn'
    obtain ⟨m, hm, hgrid⟩ := hstays.grid m' hm'
    obtain ⟨last, hframed⟩ := hf n hn m hm
    exact ⟨last, hframed.of_outline hgrid.outline⟩

/-- The grids of whatever a caller comes to. -/
theorem Reachable.framed (h : d.Reachable) (hs : .aligned ≤ d.stage) : d.content.GridsFramed :=
  fromAlignment_framed.promise.of_reachable h hs

end Document

end ScoreLayout
