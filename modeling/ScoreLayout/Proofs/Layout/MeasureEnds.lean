import ScoreLayout.Proofs.Layout.Voices

/-!
# The end of a measure

When a measure is left its time-stamped control elements get their slots and its time grid is closed.
All that counts is what has been asked for before, not in which order, and the same holds for the
control elements.

## Main definitions

* `AlignState.stamp?` — the onset of a time-stamped control element.
* `Node.TimedAlike` — two nodes with the same times.

## Main results

* `AlignState.placeControls_spec` — the control elements of a measure.
* `AlignState.alike_leaveMeasure` — two ends of one measure.
-/

namespace ScoreLayout

variable {α : Type}

/-- Two nodes with the same onsets, durations and slots. -/
structure Node.TimedAlike (n n' : Node α) : Prop where
  handle : n'.handle = n.handle
  kind : n'.kind = n.kind
  onset : Option.Rel Fraction.Same n.layout.onset n'.layout.onset
  duration : n'.layout.duration = n.layout.duration
  slot : Option.Rel SlotKey.Same n.layout.slot n'.layout.slot

theorem SlotKey.same_refl (k : SlotKey) : k.Same k := same_iff_place.2 rfl

theorem Node.Synced.timedAlike {n n' : Node α} (h : n.Synced n') : n.TimedAlike n' where
  handle := h.handle
  kind := h.kind
  onset := by
    rw [h.onset]
    cases n.layout.onset with
    | none => exact .none
    | some t => exact .some (.refl t)
  duration := h.duration
  slot := by
    rw [h.slot]
    cases n.layout.slot with
    | none => exact .none
    | some key => exact .some key.same_refl

variable [Scalar α]

namespace AlignState

omit [Scalar α] in
theorem tstamp?_congr {n n' : Node α} (hkind : n'.kind = n.kind)
    (hties : n'.layout.ties = n.layout.ties) : tstamp? n' = tstamp? n := by
  have hstart : n'.layout.startAnchor = n.layout.startAnchor := congrArg Prod.fst hties
  rw [tstamp?, tstamp?, hkind, LayoutState.omitted_eq_of_ties hties, hstart]

/-- A time moved into a measure that ends at `last`. -/
def moved (last time : Fraction) : Fraction :=
  if time < 0 then 0 else if last < time then last else time

omit [Scalar α] in
theorem same_moved {last last' : Fraction} (h : last.Same last') (time : Fraction) :
    (moved last time).Same (moved last' time) := by
  have hlt : last < time ↔ last' < time := by
    rw [Fraction.lt_iff_value, Fraction.lt_iff_value, Fraction.same_iff_value.1 h]
  rw [moved, moved]
  split_ifs with hneg hlast hlast' hlast'
  · exact .refl 0
  · exact h
  · exact absurd (hlt.1 hlast) hlast'
  · exact absurd (hlt.2 hlast') hlast
  · exact .refl time

/-- The onset of a time-stamped control element. -/
def stamp? (beat last : Fraction) (n : Node α) : Option Fraction :=
  (tstamp? n).map fun stamped => moved last (timeOfBeat stamped.2 beat)

/-- A node of a measure, with its slot if it is a time-stamped control element. -/
structure Stamped (beat last : Fraction) (n n' : Node α) : Prop where
  handle : n'.handle = n.handle
  kind : n'.kind = n.kind
  duration : n'.layout.duration = n.layout.duration
  none : stamp? beat last n = none → n' = n
  some : ∀ t, stamp? beat last n = some t →
    n'.layout.onset = some t ∧ n'.layout.slot = some (.ofKind t .event)

theorem Stamped.refl {beat last : Fraction} {n : Node α} (h : n.tag ≠ .control) :
    Stamped beat last n n := by
  refine ⟨rfl, rfl, rfl, fun _ => rfl, fun t ht => ?_⟩
  obtain ⟨stamped, hstamped, -⟩ := Option.map_eq_some_iff.1 ht
  exact absurd (tag_of_tstamp? hstamped) h

/-- Two nodes that have been walked alike, in measures of one length. -/
theorem Stamped.timedAlike {beat last last' : Fraction} (hlast : last.Same last') {n n' x x' : Node α}
    (hx : n.Synced x) (h : Stamped beat last n n') (h' : Stamped beat last' x x') :
    n'.TimedAlike x' := by
  have hstamp : tstamp? x = tstamp? n := tstamp?_congr hx.kind hx.ties
  cases hn : tstamp? n with
  | none =>
    rw [h.none (by rw [stamp?, hn]; rfl), h'.none (by rw [stamp?, hstamp, hn]; rfl)]
    exact hx.timedAlike
  | some stamped =>
    obtain ⟨honset, hslot⟩ := h.some _ (by rw [stamp?, hn]; rfl)
    obtain ⟨honset', hslot'⟩ := h'.some _ (by rw [stamp?, hstamp, hn]; rfl)
    have hsame := same_moved hlast (timeOfBeat stamped.2 beat)
    refine ⟨h'.handle.trans (hx.handle.trans h.handle.symm),
      h'.kind.trans (hx.kind.trans h.kind.symm), ?_,
      h'.duration.trans (hx.duration.trans h.duration.symm), ?_⟩
    · rw [honset, honset']
      exact .some hsame
    · rw [hslot, hslot']
      exact .some (MeasureGrid.same_ofKind hsame .event)

/-- What placing control elements at some times does to a measure. -/
structure Stamps (stamps : List Fraction) (s s' : AlignState α) : Prop where
  signatures : s'.signatures = s.signatures
  found : s'.graceSlots = s.graceSlots
  grid : ∀ g, s.grids = [g] → g.state = .collecting → s'.fault = s.fault ∧ ∃ g', s'.grids = [g'] ∧
    g'.state = .collecting ∧ g'.maxTime = g.maxTime ∧ g.Grows g' ∧
    (∀ key, g'.Has key ↔ g.Has key) ∧
    ∀ key, g'.HasSlot key ↔ g.HasSlot key ∨ ∃ t ∈ stamps, (SlotKey.ofKind t .event).Same key

omit [Scalar α] in
theorem Stamps.refl (s : AlignState α) : Stamps [] s s where
  signatures := rfl
  found := rfl
  grid g hg hstate := ⟨rfl, g, hg, hstate, rfl, .refl g, fun _ => .rfl, fun _ => by simp⟩

omit [Scalar α] in
theorem Stamps.trans {stamps stamps' : List Fraction} {s s₁ s' : AlignState α}
    (h : Stamps stamps s s₁) (h' : Stamps stamps' s₁ s') : Stamps (stamps ++ stamps') s s' where
  signatures := h'.signatures.trans h.signatures
  found := h'.found.trans h.found
  grid g hg hstate := by
    obtain ⟨hfault₁, g₁, hg₁, hstate₁, hmax₁, hgrows₁, hhas₁, hslot₁⟩ := h.grid g hg hstate
    obtain ⟨hfault', g', hg', hstate', hmax', hgrows', hhas', hslot'⟩ := h'.grid g₁ hg₁ hstate₁
    refine ⟨hfault'.trans hfault₁, g', hg', hstate', hmax'.trans hmax₁, hgrows₁.trans hgrows',
      fun key => (hhas' key).trans (hhas₁ key), fun key => ?_⟩
    rw [hslot', hslot₁]
    simp only [List.mem_append, or_and_right, exists_or, or_assoc]

theorem stamps_timestampSlot (s : AlignState α) (t : Fraction) :
    Stamps [t] s (s.updateGrid fun g => g.timestampSlot t) := by
  rw [updateGrid]
  split
  · rename_i g outer hgrids
    split
    · rename_i g' hg'
      refine ⟨rfl, rfl, fun g₀ hg₀ hstate => ?_⟩
      obtain ⟨rfl, rfl⟩ := List.cons.inj (hgrids.symm.trans hg₀)
      have hstate' : g'.state = g.state ∧ g'.maxTime = g.maxTime := by
        rw [MeasureGrid.timestampSlot] at hg'
        split_ifs at hg' <;> exact Except.ok.inj hg' ▸ ⟨rfl, rfl⟩
      refine ⟨rfl, g', rfl, hstate'.1.trans hstate, hstate'.2, MeasureGrid.grows_timestampSlot hg',
        fun key => MeasureGrid.has_timestampSlot_iff hg', fun key => ?_⟩
      rw [MeasureGrid.hasSlot_timestampSlot_iff hg']
      simp
    · rename_i f hf
      refine ⟨rfl, rfl, fun g₀ hg₀ hstate => ?_⟩
      obtain ⟨rfl, rfl⟩ := List.cons.inj (hgrids.symm.trans hg₀)
      obtain ⟨g', hg'⟩ := MeasureGrid.exists_timestampSlot hstate t
      rw [hg'] at hf
      cases hf
  · rename_i hgrids
    refine ⟨rfl, rfl, fun g hg => ?_⟩
    rw [hgrids] at hg
    cases hg

/-- A control element of a measure. -/
theorem placeControl_spec (beat last : Fraction) (s : AlignState α) (n : Node α) :
    Stamps (stamp? beat last n).toList s (placeControl beat last s n).1 ∧
      Stamped beat last n (placeControl beat last s n).2 := by
  rw [placeControl]
  cases hn : tstamp? n with
  | none =>
    have hnone : stamp? beat last n = none := by rw [stamp?, hn]; rfl
    refine ⟨hnone ▸ .refl s, rfl, rfl, rfl, fun _ => rfl, fun t ht => ?_⟩
    rw [hnone] at ht
    cases ht
  | some stamped =>
    have hsome : stamp? beat last n = some (moved last (timeOfBeat stamped.2 beat)) := by
      rw [stamp?, hn]
      rfl
    have hmarked (marks : List Mark) : Stamps [] s { s with marks } := ⟨rfl, rfl, (Stamps.refl s).grid⟩
    rw [hsome]
    refine ⟨?_, rfl, rfl, rfl, fun h => absurd (hsome.symm.trans h) (by simp), fun t ht => ?_⟩
    · dsimp only
      split
      · exact (hmarked _).trans (stamps_timestampSlot _ _)
      · exact stamps_timestampSlot s _
    · obtain rfl := Option.some.inj (hsome.symm.trans ht)
      exact ⟨rfl, rfl⟩

/-- The control elements of a measure. None stands below another node. -/
theorem placeControls_spec (beat last : Fraction) {f : Forest (Node α)} (s : AlignState α)
    (hf : ∀ n below, Forest.HasTree n below f → ∀ m ∈ below.toList, m.tag ≠ .control) :
    Stamps (f.toList.filterMap (stamp? beat last)) s (placeControls beat last s f).1 ∧
      List.Forall₂ (Stamped beat last) f.toList (placeControls beat last s f).2.toList := by
  induction f generalizing s with
  | nil => exact ⟨.refl s, .nil⟩
  | cons n below siblings _ ih =>
    have hbelow := hf n below (.here siblings)
    obtain ⟨hn, hstamped⟩ := placeControl_spec beat last s n
    obtain ⟨hsiblings, hall⟩ := ih (placeControl beat last s n).1
      fun m under h => hf m under (.beside n below h)
    have hnone : below.toList.filterMap (stamp? beat last) = [] := by
      refine List.filterMap_eq_nil_iff.2 fun m hm => ?_
      rw [stamp?, Option.map_eq_none_iff, Option.eq_none_iff_forall_ne_some]
      exact fun stamped hstamped => hbelow m hm (tag_of_tstamp? hstamped)
    refine ⟨?_, .cons hstamped (List.rel_append ?_ hall)⟩
    · have hboth := hn.trans hsiblings
      rw [Forest.toList, List.filterMap_cons, List.filterMap_append, hnone, List.nil_append]
      cases hstamp : stamp? beat last n <;> (rw [hstamp] at hboth; exact hboth)
    · exact List.forall₂_same.2 fun m hm => .refl (hbelow m hm)

/-- Barlines ask for no slots. -/
theorem outline_drawBarLines (c : AlignContext α) (m : Measure α) (last : Fraction)
    (staves : List UInt32) (g : MeasureGrid α) :
    (staves.foldl (drawBarLines c m last) g).outline = g.outline ∧
      (staves.foldl (drawBarLines c m last) g).state = g.state := by
  induction staves generalizing g with
  | nil => exact ⟨rfl, rfl⟩
  | cons staff staves ih =>
    obtain ⟨houtline, hstate⟩ := ih (drawBarLines c m last g staff)
    rw [List.foldl_cons, houtline, hstate, drawBarLines]
    dsimp only
    cases m.leftBarLine.bind _ <;> cases c.metrics.barLine m.rightBarLine _ _ <;>
      simp only [MeasureGrid.outline_addFootprint, MeasureGrid.state_addFootprint, and_self]

/-- The state behind a measure that is left without a fault. -/
structure Closes (s s' : AlignState α) : Prop where
  signatures : s'.signatures = s.signatures
  found : s'.graceSlots = s.graceSlots
  fault : s'.fault = s.fault
  grids : s'.grids = []

/-- The end of a measure: its control elements get their slots in the grid, which is then closed. -/
theorem leaveMeasure_of_finish (c : AlignContext α) {s : AlignState α} {g : MeasureGrid α}
    (hgrids : s.grids = [g]) (hg : g.state = .collecting) (n : Node α) (m : Measure α)
    {f : Forest (Node α)}
    (hf : ∀ n below, Forest.HasTree n below f → ∀ m ∈ below.toList, m.tag ≠ .control) :
    ∃ asked : MeasureGrid α, asked.state = .collecting ∧ asked.maxTime = g.maxTime ∧
      g.Grows asked ∧ (∀ key, asked.Has key ↔ g.Has key) ∧
      (∀ key, asked.HasSlot key ↔ g.HasSlot key ∨
        ∃ t ∈ f.toList.filterMap (stamp? s.signatures.meter.beatDuration g.maxTime),
          (SlotKey.ofKind t .event).Same key) ∧
      ∀ closed, asked.finish = .ok closed →
        Closes s (s.leaveMeasure c n m f).1 ∧
        List.Forall₂ (Stamped s.signatures.meter.beatDuration g.maxTime) f.toList
          (s.leaveMeasure c n m f).2.2.toList ∧
        ∃ grid, (s.leaveMeasure c n m f).2.1 = { n with kind := .measure { m with grid } } ∧
          grid.outline = closed.outline ∧ grid.state = closed.state ∧
          grid.maxTime = closed.maxTime := by
  obtain ⟨hstamps, hnodes⟩ :=
    placeControls_spec s.signatures.meter.beatDuration g.maxTime s hf
  obtain ⟨hfault, asked, hasked, hstate, hmax, hgrows, hhas, hslot⟩ := hstamps.grid g hgrids hg
  refine ⟨asked, hstate, hmax, hgrows, hhas, hslot, fun closed hfinish => ?_⟩
  have hsignatures := hstamps.signatures
  have hfound := hstamps.found
  dsimp only [leaveMeasure]
  simp only [hgrids, List.headD_cons]
  generalize placeControls s.signatures.meter.beatDuration g.maxTime s f = placed at *
  simp only [hasked, List.headD_cons, hfinish, List.tail_cons]
  obtain ⟨houtline, hclosed⟩ := outline_drawBarLines c m g.maxTime placed.1.staves closed
  exact ⟨⟨hsignatures, hfound, hfault, rfl⟩, hnodes, _, rfl, houtline, hclosed,
    maxTime_foldl_drawBarLines ..⟩

/-- The times of the control elements do not depend on how they are listed. -/
theorem exists_stamp {beat last last' : Fraction} (hlast : last.Same last') {l l' : List (Node α)}
    (h : ∀ n ∈ l, ∃ x ∈ l', tstamp? x = tstamp? n) {key : SlotKey}
    (hkey : ∃ t ∈ l.filterMap (stamp? beat last), (SlotKey.ofKind t .event).Same key) :
    ∃ t ∈ l'.filterMap (stamp? beat last'), (SlotKey.ofKind t .event).Same key := by
  obtain ⟨t, ht, hkey⟩ := hkey
  obtain ⟨n, hn, hstamp⟩ := List.mem_filterMap.1 ht
  obtain ⟨stamped, hstamped, rfl⟩ := Option.map_eq_some_iff.1 hstamp
  obtain ⟨x, hx, hsame⟩ := h n hn
  refine ⟨moved last' (timeOfBeat stamped.2 beat), List.mem_filterMap.2 ⟨x, hx, ?_⟩,
    (MeasureGrid.same_ofKind (same_moved hlast _) .event).symm.trans hkey⟩
  rw [stamp?, hsame, hstamped]
  rfl

/-- Two measures that end with the same layers and control elements. -/
theorem alike_leaveMeasure (c c' : AlignContext α) {s t : AlignState α} {g g' : MeasureGrid α}
    (hgrids : s.grids = [g]) (hgrids' : t.grids = [g']) (hg : g.state = .collecting)
    (hgg' : g.Matches g') (hmeter : t.signatures.meter = s.signatures.meter) (n n' : Node α)
    (m m' : Measure α) {f f' : Forest (Node α)}
    (hf : ∀ n below, Forest.HasTree n below f → ∀ m ∈ below.toList, m.tag ≠ .control)
    (hf' : ∀ n below, Forest.HasTree n below f' → ∀ m ∈ below.toList, m.tag ≠ .control)
    (hright : ∀ x ∈ f.toList, ∃ y ∈ f'.toList, x.Synced y)
    (hleft : ∀ y ∈ f'.toList, ∃ x ∈ f.toList, x.Synced y) :
    Closes s (s.leaveMeasure c n m f).1 ∧ Closes t (t.leaveMeasure c' n' m' f').1 ∧
      (∃ grid grid', (s.leaveMeasure c n m f).2.1 = { n with kind := .measure { m with grid } } ∧
        (t.leaveMeasure c' n' m' f').2.1 = { n' with kind := .measure { m' with grid := grid' } } ∧
        grid.Alike grid') ∧
      ∀ x ∈ (s.leaveMeasure c n m f).2.2.toList, ∃ y ∈ (t.leaveMeasure c' n' m' f').2.2.toList,
        x.TimedAlike y := by
  obtain ⟨asked, hstate, hmax, hgrows, hhas, hslot, hclose⟩ :=
    leaveMeasure_of_finish c hgrids hg n m hf
  obtain ⟨asked', hstate', hmax', hgrows', hhas', hslot', hclose'⟩ :=
    leaveMeasure_of_finish c' hgrids' (hgg'.state.trans hg) n' m' hf'
  rw [hmeter] at hslot' hclose'
  have hmatches : asked.Matches asked' := by
    refine ⟨hgrows.sorted hgg'.sorted, hgrows'.sorted hgg'.sorted', hstate'.trans hstate.symm, ?_,
      fun key => ?_, fun key => ?_⟩
    · rw [hmax, hmax']
      exact hgg'.maxTime
    · rw [hhas, hhas', hgg'.has]
    · rw [hslot, hslot', hgg'.hasSlot]
      refine or_congr_right ⟨exists_stamp hgg'.maxTime fun x hx => ?_,
        exists_stamp hgg'.maxTime.symm fun y hy => ?_⟩
      · obtain ⟨y, hy, hxy⟩ := hright x hx
        exact ⟨y, hy, tstamp?_congr hxy.kind hxy.ties⟩
      · obtain ⟨x, hx, hxy⟩ := hleft y hy
        exact ⟨x, hx, (tstamp?_congr hxy.kind hxy.ties).symm⟩
  obtain ⟨closed, hfinish, -⟩ := MeasureGrid.exists_finish hstate
  obtain ⟨closed', hfinish', hclosed⟩ := hmatches.finish hfinish
  obtain ⟨hcloses, hstamped, grid, hn, houtline, hgridState, hgridMax⟩ := hclose closed hfinish
  obtain ⟨hcloses', hstamped', grid', hn', houtline', hgridState', hgridMax'⟩ :=
    hclose' closed' hfinish'
  refine ⟨hcloses, hcloses', ⟨grid, grid', hn, hn', ?_⟩, fun x hx => ?_⟩
  · exact (hclosed.of_outline houtline houtline'
      (by rw [hgridState, hgridState', hclosed.state]) hgridMax hgridMax').alike
  · obtain ⟨x₀, hx₀, hx⟩ := exists_mem_of_forall₂ hstamped hx
    obtain ⟨y₀, hy₀, hxy⟩ := hright x₀ hx₀
    obtain ⟨y, hy, hy₀⟩ := exists_mem_of_forall₂ hstamped'.flip hy₀
    exact ⟨y, hy, hx.timedAlike hgg'.maxTime hxy hy₀⟩

end AlignState

end ScoreLayout
