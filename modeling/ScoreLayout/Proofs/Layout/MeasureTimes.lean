import ScoreLayout.Proofs.Layout.LayerTimes

/-!
# The times of measures

Above the symbols, alignment passes pages and systems, follows the signatures, and opens a time grid
for every measure, which grows with the layers of the measure.

## Main definitions

* `Forest.LayersTimed` — the symbols of all layers begin where the durations before them end.
* `Forest.layerEnds`, `Forest.MeasuresLast` — measures last as long as their longest layers.
* `AlignState.Times` — what walking some trees does to a state, and what it records on them.

## Main results

* `AlignState.times_staves` — the staves of a measure.
* `AlignState.times_score` — the trees of a score.
-/

namespace ScoreLayout

variable {α : Type}

/-! ### Layers and measures -/

/-- The symbols of all layers of a forest that is reached under a meter begin where the durations
before them end. -/
def Forest.LayersTimed (marks : List Mark) : MeterSig → Forest (Node α) → Prop
  | _, .nil => True
  | meter, .cons n below siblings =>
    (n.tag = .layer → TimedFrom marks (n.meterAfter meter) 0 (below.symbols .one none)) ∧
      below.LayersTimed marks (n.meterAfter meter) ∧
      siblings.LayersTimed marks (runningMeter (n.meterAfter meter) below.toList)

/-- The ends of the layers that stand in no measure of the forest. -/
def Forest.layerEnds : Forest (Node α) → List ℚ
  | .nil => []
  | .cons n below siblings =>
    (match n.tag with
      | .measure => []
      | .layer => [((below.symbols .one none).map Symbol.time).sum]
      | _ => below.layerEnds) ++ siblings.layerEnds

/-- The measures of a forest last as long as their longest layers. -/
def Forest.MeasuresLast : Forest (Node α) → Prop
  | .nil => True
  | .cons n below siblings =>
    (∀ m, n.kind = .measure m → m.grid.maxTime.value = below.layerEnds.foldl max 0) ∧
      below.MeasuresLast ∧ siblings.MeasuresLast

namespace Forest

variable {marks marks' : List Mark}

theorem LayersTimed.of_refused {f : Forest (Node α)}
    (h : ∀ n ∈ f.toList, Refused marks' n.id ↔ Refused marks n.id) {meter : MeterSig}
    (hf : f.LayersTimed marks meter) : f.LayersTimed marks' meter := by
  induction f generalizing meter with
  | nil => trivial
  | cons n below siblings hbelow hsiblings =>
    simp only [toList, List.mem_cons, List.mem_append, or_imp, forall_and, forall_eq] at h
    obtain ⟨htimed, hb, hs⟩ := hf
    exact ⟨fun ht => (htimed ht).of_refused fun x hx => h.2.1 _ (mem_of_mem_symbols hx),
      hbelow h.2.1 hb, hsiblings h.2.2 hs⟩

/-- Symbols stand in layers, but are none. -/
theorem Symbolic.layersTimed {f : Forest (Node α)} (hf : f.Symbolic) (meter : MeterSig) :
    f.LayersTimed marks meter := by
  induction f generalizing meter with
  | nil => trivial
  | cons n below siblings hbelow hsiblings =>
    obtain ⟨hn, -, hb, hs⟩ := hf
    exact ⟨fun ht => absurd (hn.symm.trans ht) (by decide), hbelow hb _, hsiblings hs _⟩

theorem Symbolic.measuresLast {f : Forest (Node α)} (hf : f.Symbolic) : f.MeasuresLast := by
  induction f with
  | nil => trivial
  | cons n below siblings hbelow hsiblings =>
    obtain ⟨hn, -, hb, hs⟩ := hf
    refine ⟨fun m hm => ?_, hbelow hb, hsiblings hs⟩
    rw [Node.tag, hm] at hn
    cases hn

end Forest

/-! ### States of nodes with the same times -/

theorem runningMeter_eq_of_sameTiming {l l' : List (Node α)}
    (h : List.Forall₂ Node.SameTiming l l') (meter : MeterSig) :
    runningMeter meter l' = runningMeter meter l := by
  induction h generalizing meter with
  | nil => rfl
  | cons hn _ ih => rw [runningMeter_cons, runningMeter_cons, hn.meterAfter, ih]

theorem longestOf_eq_of_sameTiming {l l' : List (Node α)}
    (h : List.Forall₂ Node.SameTiming l l') (t : ℚ) : longestOf t l' = longestOf t l := by
  induction h generalizing t with
  | nil => rfl
  | @cons n n' _ _ hn _ ih =>
    rw [longestOf_cons, ih, longestOf_cons (n := n)]
    refine congrArg (longestOf · _) ?_
    have htimed : n'.isTimed = n.isTimed := by rw [Node.isTimed, Node.isTimed, hn.kind]
    by_cases ht : n.isTimed
    · have htag : n.tag ≠ .control := fun h => Node.not_isTimed_of_tag (by rw [h]; decide) ht
      rw [longestOf_of_timed ht, longestOf_of_timed (htimed.trans ht), hn.duration htag]
    · rw [longestOf_of_untimed ht, longestOf_of_untimed (htimed ▸ ht)]

theorem TimedFrom.of_sameTiming {marks : List Mark} {l l' : List (Symbol α)}
    (h : List.Forall₂ Symbol.SameTiming l l') {meter : MeterSig} {t : ℚ}
    (hl : TimedFrom marks meter t l) : TimedFrom marks meter t l' := by
  induction h generalizing meter t with
  | nil => trivial
  | cons hx _ ih =>
    refine ⟨hx.timedAt hl.1, ?_⟩
    rw [hx.node.meterAfter, hx.time]
    exact ih hl.2

namespace Forest.Forall₂

variable {f f' : Forest (Node α)} (h : Forest.Forall₂ Node.SameTiming f f')

include h

theorem symbols_of_layer : List.Forall₂ Symbol.SameTiming (f.symbols .one none)
    (f'.symbols .one none) :=
  h.symbols .none fun _ hc => (by cases hc)

theorem layersTimed {marks : List Mark} {meter : MeterSig} (hf : f.LayersTimed marks meter) :
    f'.LayersTimed marks meter := by
  induction h generalizing meter with
  | nil => trivial
  | cons hn hb _ hbelow hsiblings =>
    obtain ⟨htimed, hc, hs⟩ := hf
    rw [Forest.LayersTimed, hn.tag, hn.meterAfter, runningMeter_eq_of_sameTiming hb.toList]
    exact ⟨fun ht => .of_sameTiming hb.symbols_of_layer (htimed ht), hbelow hc, hsiblings hs⟩

theorem layerEnds_eq : f'.layerEnds = f.layerEnds := by
  induction h with
  | nil => rfl
  | cons hn hb _ hbelow hsiblings =>
    rw [Forest.layerEnds, Forest.layerEnds, hn.tag, hbelow, hsiblings,
      map_eq_of_forall₂ (fun _ _ hx => hx.time.symm) hb.symbols_of_layer]

theorem reported {meter : MeterSig} {marks : List Mark} (hf : f.Reported meter marks) :
    f'.Reported meter marks := by
  induction h generalizing meter marks with
  | nil => exact hf
  | cons hn hb _ hbelow hsiblings =>
    have hmeter (meter : MeterSig) := runningMeter_eq_of_sameTiming hb.toList meter
    cases hf with
    | layer ht hdeep hbeside =>
      refine .layer (hn.tag.trans ht) (hn.meterAfter _ ▸ hdeep.of_sameTiming hb.symbols_of_layer) ?_
      rw [hn.meterAfter, hmeter]
      exact hsiblings hbeside
    | frame ht hdeep hbeside =>
      refine .frame (hn.tag ▸ ht) (hn.meterAfter _ ▸ hbelow hdeep) ?_
      rw [hn.meterAfter, hmeter]
      exact hsiblings hbeside

theorem measuresLast (hf : f.MeasuresLast) : f'.MeasuresLast := by
  induction h with
  | nil => trivial
  | cons hn hb _ hbelow hsiblings =>
    obtain ⟨hlast, hc, hs⟩ := hf
    refine ⟨fun m hm => ?_, hbelow hc, hsiblings hs⟩
    rw [hb.layerEnds_eq]
    exact hlast m (hn.kind.symm.trans hm)

end Forest.Forall₂

/-! ### Walking some trees -/

theorem Signatures.meter_applyChange (s : Signatures) (change : DefinitionChange) :
    (s.applyChange change).meter = change.meter.getD s.meter := by
  have hclefs (clefs : List (UInt32 × Clef)) (s : Signatures) : (s.setClefs clefs).meter = s.meter := by
    induction clefs generalizing s with
    | nil => rfl
    | cons entry clefs ih => exact (ih _).trans (s.meter_setClef entry.1 entry.2)
  exact hclefs _ _

/-- The length of each of the measures that are being visited, once some layers have ended. -/
def raise (ends : List ℚ) : List ℚ → List ℚ
  | [] => []
  | last :: outer => ends.foldl max last :: outer

theorem raise_nil (lasts : List ℚ) : raise [] lasts = lasts := by
  cases lasts <;> rfl

theorem raise_append (ends ends' lasts : List ℚ) :
    raise (ends ++ ends') lasts = raise ends' (raise ends lasts) := by
  cases lasts with
  | nil => rfl
  | cons last outer => rw [raise, List.foldl_append]; rfl

variable [Scalar α]

/-- The lengths of the measures that are being visited. -/
def AlignState.lasts (s : AlignState α) : List ℚ := s.grids.map fun g => g.maxTime.value

omit [Scalar α] in
theorem AlignState.lasts_eq {s s' : AlignState α}
    (h : s'.grids.map MeasureGrid.maxTime = s.grids.map MeasureGrid.maxTime) :
    s'.lasts = s.lasts := by
  have := congrArg (List.map Fraction.value) h
  rwa [List.map_map, List.map_map] at this

namespace AlignState

/-- What walking some trees does to a state, and what it records on them. -/
structure Times (s s' : AlignState α) (f f' : Forest (Node α)) : Prop where
  meter : s'.signatures.meter = runningMeter s.signatures.meter f'.toList
  fault : s'.fault = none
  longest : 0 ≤ s.longest.value → s'.longest.value = longestOf s.longest.value f'.toList
  timed : ∃ new, s'.marks = s.marks ++ new ∧
    (∀ id, Refused new id → id ∈ f.toList.map Node.id) ∧ f'.LayersTimed new s.signatures.meter
  reports : ∃ new, s'.marks = s.marks ++ new ∧ f'.Reported s.signatures.meter (refusals new)
  measures : f'.MeasuresLast
  grids : (∀ g ∈ s.grids, g.Open) →
    (∀ g ∈ s'.grids, g.Open) ∧ s'.lasts = raise f'.layerEnds s.lasts

variable {c : AlignContext α} {s s₁ s₂ s' : AlignState α} {n n' : Node α}
  {below below' siblings siblings' : Forest (Node α)}

omit [Scalar α] in
theorem Times.nil (hfault : s.fault = none) : s.Times s .nil .nil where
  meter := rfl
  fault := hfault
  longest _ := rfl
  timed := ⟨[], (List.append_nil _).symm, fun id h => absurd h (not_refused_nil id), trivial⟩
  reports := ⟨[], (List.append_nil _).symm, .nil _⟩
  measures := trivial
  grids h := ⟨h, (raise_nil _).symm⟩

/-- A tree, and those behind it. -/
theorem Times.cons (hids : ((Forest.cons n below siblings).toList.map Node.id).Nodup)
    (hsame : Forest.Forall₂ Keeps (.cons n below siblings) (.cons n' below' siblings'))
    (htree : s.Times s₁ (.tree n below) (.tree n' below'))
    (hsiblings : s₁.Times s' siblings siblings') :
    s.Times s' (.cons n below siblings) (.cons n' below' siblings') := by
  obtain ⟨new₁, hmarks₁, hnew₁, hkind, hbelow₁, -⟩ := htree.timed
  obtain ⟨new₂, hmarks₂, hnew₂, htimed₂⟩ := hsiblings.timed
  obtain ⟨deep, hdeep, hreported₁⟩ := htree.reports
  obtain ⟨beside, hbeside, hreported₂⟩ := hsiblings.reports
  have hmeter := htree.meter
  simp only [Forest.tree, Forest.toList, List.append_nil, runningMeter_cons] at hmeter hnew₁
  -- the marks on the tree say nothing of those behind it
  have hids' : ∀ id ∈ (n :: below.toList).map Node.id, id ∉ siblings.toList.map Node.id := by
    rw [Forest.toList, ← List.cons_append, List.map_append, List.nodup_append] at hids
    exact fun id hid hid' => hids.2.2 id hid id hid' rfl
  have hsame' {f f' : Forest (Node α)} (h : Forest.Forall₂ Keeps f f') :
      f'.toList.map Node.id = f.toList.map Node.id :=
    (map_eq_of_forall₂ (fun _ _ hk => hk.id.symm) h.toList).symm
  cases hsame with
  | cons hn hb hs =>
    have hfirst : ∀ m ∈ n' :: below'.toList, ¬ Refused new₂ m.id := fun m hm h =>
      hids' m.id (by
        rw [List.map_cons, ← hsame' hb, ← hn.id, ← List.map_cons]
        exact List.mem_map_of_mem hm) (hnew₂ _ h)
    refine ⟨?_, hsiblings.fault, fun hlongest => ?_, ⟨new₁ ++ new₂, ?_, fun id h => ?_, fun ht => ?_, ?_, ?_⟩,
      ⟨deep ++ beside, ?_, ?_⟩, ⟨htree.measures.1, htree.measures.2.1, hsiblings.measures⟩, fun hopen => ?_⟩
    · rw [hsiblings.meter, Forest.toList, runningMeter_cons, runningMeter_append, hmeter]
    · have htop := htree.longest hlongest
      rw [Forest.toList_tree] at htop
      rw [Forest.toList, ← List.cons_append, longestOf_append, ← htop]
      exact hsiblings.longest (htop ▸ longestOf_nonneg hlongest)
    · rw [hmarks₂, hmarks₁, List.append_assoc]
    · rw [Forest.toList, ← List.cons_append, List.map_append, List.mem_append]
      exact (refused_append.1 h).imp (hnew₁ id) (hnew₂ id)
    · exact (hkind ht).of_refused fun x hx => refused_append_left
        (hfirst _ (List.mem_cons_of_mem _ (Forest.mem_of_mem_symbols hx)))
    · exact hbelow₁.of_refused fun m hm => refused_append_left
        (hfirst m (List.mem_cons_of_mem _ hm))
    · rw [← hmeter]
      refine htimed₂.of_refused fun m hm => refused_append_right fun h => ?_
      exact hids' _ (hnew₁ _ h) (hsame' hs ▸ List.mem_map_of_mem hm)
    · rw [hbeside, hdeep, List.append_assoc]
    · rw [refusals_append]
      refine .cons hreported₁ ?_
      rwa [runningMeter_cons, ← hmeter]
    · obtain ⟨hopen₁, hlasts₁⟩ := htree.grids hopen
      obtain ⟨hopen₂, hlasts₂⟩ := hsiblings.grids hopen₁
      refine ⟨hopen₂, ?_⟩
      rw [hlasts₂, hlasts₁, Forest.layerEnds, raise_append, Forest.tree, Forest.layerEnds,
        show (Forest.nil : Forest (Node α)).layerEnds = [] from rfl, List.append_nil]

/-! ### Nodes that are passed -/

omit [Scalar α] in
/-- A node that the walk passes, following the signatures on its way. -/
theorem Times.passed (ht : n'.tag ≠ .layer) (ht' : n'.tag ≠ .measure) (he : n'.tag ≠ .element)
    (hlongest : s₁.longest = s.longest) (hmeter : s₁.signatures.meter = n'.meterAfter s.signatures.meter)
    (hmarks : s₁.marks = s.marks) (hgrids : s₁.grids = s.grids)
    (hbelow : s₁.Times s₂ below below') : s.Times s₂ (.tree n below) (.tree n' below') := by
  obtain ⟨new, hnew, hids, htimed⟩ := hbelow.timed
  obtain ⟨deep, hdeep, hreported⟩ := hbelow.reports
  refine ⟨?_, hbelow.fault, fun h => ?_, ⟨new, hmarks ▸ hnew, fun id h => ?_, fun h => absurd h ht,
    hmeter ▸ htimed, trivial⟩, ⟨deep, hmarks ▸ hdeep, ?_⟩, ⟨fun m hm => absurd (by rw [Node.tag, hm]; rfl) ht', hbelow.measures,
      trivial⟩, fun hopen => ?_⟩
  · rw [hbelow.meter, hmeter, Forest.toList_tree]
    rfl
  · rw [Forest.toList_tree, longestOf_cons, longestOf_of_untimed (Node.not_isTimed_of_tag he),
      ← hlongest]
    exact hbelow.longest (hlongest ▸ h)
  · rw [Forest.toList_tree]
    exact List.mem_cons_of_mem _ (hids id h)
  · have htree := Forest.Reported.frame ht (hmeter ▸ hreported) (.nil _)
    rwa [List.append_nil] at htree
  · obtain ⟨hopen', hlasts⟩ := hbelow.grids (hgrids ▸ hopen)
    refine ⟨hopen', ?_⟩
    rw [hlasts, lasts, hgrids, Forest.tree, Forest.layerEnds,
      show (Forest.nil : Forest (Node α)).layerEnds = [] from rfl, List.append_nil, lasts]
    generalize n'.tag = tag at ht ht'
    cases tag <;> first | rfl | exact absurd rfl ht | exact absurd rfl ht'

/-! ### Layers -/

/-- Only symbols move their layers on. -/
theorem longest_enter (hn : n.tag ≠ .element) {above : Option (Node α)} {v : Visit}
    (h : (alignPass c).enter s above n = (s₁, n', v)) : s₁.longest = s.longest := by
  dsimp only [alignPass] at h
  rw [enter] at h
  rw [Node.tag] at hn
  cases hk : n.kind with
  | element => exact absurd (by rw [hk]; rfl) hn
  | measure =>
    simp only [hk, enterMeasure, MeasureGrid.begin_empty, Prod.mk.injEq] at h
    exact h.1 ▸ rfl
  | document | page | system | systemBreak | pageBreak | change | staff | layer | control =>
    rw [hk] at h
    exact (Prod.mk.inj h).1 ▸ rfl

omit [Scalar α] in
theorem longest_updateGrid (s : AlignState α)
    (f : MeasureGrid α → Except GridFault (MeasureGrid α)) :
    (s.updateGrid f).longest = s.longest := by
  rw [updateGrid]
  split
  · split <;> rfl
  · rfl

theorem longest_leaveLayer (s : AlignState α) : s.leaveLayer.longest = s.longest := by
  rw [leaveLayer]
  split_ifs
  · exact (longest_updateGrid _ _).trans (s.draws_flushGraces _).longest
  · rfl

/-- The end of a layer: the measure lasts at least as long as the layer. -/
theorem leaveLayer_spec (hs : s.collecting) (hfault : s.leaveLayer.fault = none) :
    s.leaveLayer.signatures = s.signatures ∧ s.leaveLayer.marks = s.marks ∧
      s.leaveLayer.collecting = s.collecting ∧ s.fault = none ∧
      ((∀ g ∈ s.grids, g.Open) → (∀ g ∈ s.leaveLayer.grids, g.Open) ∧
        s.leaveLayer.lasts = raise [s.layer.time.value] s.lasts) := by
  have hdraws := s.draws_flushGraces s.layer.time
  rw [leaveLayer, if_pos hs] at hfault ⊢
  generalize s.flushGraces s.layer.time = flushed at hdraws hfault ⊢
  rw [updateGrid] at hfault ⊢
  cases hgrids : flushed.grids with
  | nil =>
    rw [hgrids] at hfault
    refine ⟨hdraws.signatures, hdraws.marks, hdraws.collecting, hdraws.fault hfault,
      fun hopen => ⟨(hdraws.grids hopen).1, ?_⟩⟩
    have hnil : flushed.lasts = [] := by rw [lasts, hgrids]; rfl
    have hsame := lasts_eq (hdraws.grids hopen).2
    rw [hnil] at hsame
    rw [← hsame]
    exact hnil
  | cons g outer =>
    rw [hgrids] at hfault
    refine ⟨hdraws.signatures, hdraws.marks, hdraws.collecting, hdraws.fault hfault,
      fun hopen => ?_⟩
    obtain ⟨hopen', hmax⟩ := hdraws.grids hopen
    rw [hgrids, List.forall_mem_cons] at hopen'
    refine ⟨List.forall_mem_cons.2 ⟨hopen'.1.extend _, hopen'.2⟩, ?_⟩
    rw [← lasts_eq hmax, lasts, lasts, hgrids, List.map_cons, List.map_cons, raise,
      MeasureGrid.extend, Fraction.value_max]
    rfl

theorem Times.layer {k : UInt32} (hn' : n'.kind = .layer k) (hs : s.collecting) (hfault : s.fault = none) (hbelow : below.Symbolic)
    (hids : (below.toList.map Node.id).Nodup) {above : Option (Node α)}
    (hwalk : Forest.Completes (alignPass c) above
      { s with layer := .ofClef (s.signatures.clef s.staff) } below s₂ below')
    (hend : s₂.leaveLayer.fault = none) :
    s.Times s₂.leaveLayer (.tree n below) (.tree n' below') ∧
      s₂.leaveLayer.collecting = s.collecting := by
  have hwalked := walked_symbols hwalk hbelow hids hs hfault rfl
  obtain ⟨hsignatures, hmarks, hcollecting, -, hgrids⟩ :=
    leaveLayer_spec (hwalked.collecting.trans hs) hend
  obtain ⟨new, hnew, hrefused, htimed⟩ := hwalked.timed
  obtain ⟨-, found, hfound, hreports⟩ := hwalked.reports Int.one_pos
  have hmeter (meter : MeterSig) : n'.meterAfter meter = meter := by rw [Node.meterAfter, hn']
  have htag : n'.tag = .layer := congrArg NodeKind.tag hn'
  have hzero : (LayerCursor.ofClef (s.signatures.clef s.staff) : LayerCursor α).time.value = 0 :=
    Fraction.value_zero
  have htime := hwalked.time
  have hsymbolic : below'.Symbolic := hbelow.of_kinds hwalked.nodes fun _ _ h => h.kind
  dsimp only at htimed htime hnew
  rw [hzero] at htimed htime
  rw [zero_add] at htime
  refine ⟨⟨?_, hend, fun h => ?_, ⟨new, hmarks.trans hnew, fun id h => ?_, fun _ => (hmeter _).symm ▸ htimed,
    hsymbolic.layersTimed _, trivial⟩, ⟨found, hmarks.trans hfound, ?_⟩,
    ⟨fun m hm => (by rw [hn'] at hm; cases hm),
      hsymbolic.measuresLast, trivial⟩, fun hopen => ?_⟩, hcollecting.trans hwalked.collecting⟩
  · rw [hsignatures, hwalked.meter, Forest.toList_tree,
      runningMeter_cons, hmeter]
  · rw [Forest.toList_tree, longestOf_cons, longest_leaveLayer,
      longestOf_of_untimed (Node.not_isTimed_of_tag (by rw [htag]; decide))]
    exact hwalked.longest h
  · rw [Forest.toList_tree]
    exact List.mem_cons_of_mem _ (hrefused id h)
  · rw [hreports.refusals_eq, ← List.append_nil found]
    refine .layer htag ?_ (.nil _)
    rw [hmeter]
    exact hreports
  · obtain ⟨hopen', hmax⟩ := hwalked.grids hopen
    obtain ⟨hopen'', hlasts⟩ := hgrids hopen'
    refine ⟨hopen'', ?_⟩
    rw [hlasts, lasts_eq hmax, htime, Forest.tree, Forest.layerEnds, htag]
    rfl

/-! ### Measures -/

omit [Scalar α] in
/-- A mark on a time-stamp says nothing of a duration. -/
theorem refusals_tstampMark [Scalar α] (name : String) (tstamp : α) :
    refusals [tstampMark name tstamp] = [] :=
  List.filter_eq_nil_iff.2 fun k hk => by
    rw [List.mem_singleton.1 hk]
    exact (by decide : ¬ decide (Mark.Kind.unresolvedTstamp.id = Mark.Kind.invalidDuration.id) = true)

omit [Scalar α] in
theorem not_refused_of_refusals {marks : List Mark} (h : refusals marks = []) (id : String) :
    ¬ Refused marks id := by
  rintro ⟨k, hk, -, hkind⟩
  exact List.filter_eq_nil_iff.1 h k hk (decide_eq_true hkind)

/-- What placing control elements in their slots does to a state. -/
structure Adds (s s' : AlignState α) : Prop where
  signatures : s'.signatures = s.signatures
  longest : s'.longest = s.longest
  marks : ∃ new, s'.marks = s.marks ++ new ∧ refusals new = []
  fault : s'.fault = none → s.fault = none
  grids : (∀ g ∈ s.grids, g.Open) →
    (∀ g ∈ s'.grids, g.Open) ∧ s'.grids.map MeasureGrid.maxTime = s.grids.map MeasureGrid.maxTime

omit [Scalar α] in
theorem Adds.refl (s : AlignState α) : s.Adds s :=
  ⟨rfl, rfl, ⟨[], (List.append_nil _).symm, rfl⟩, id, fun h => ⟨h, rfl⟩⟩

omit [Scalar α] in
theorem Adds.trans (h : s.Adds s₁) (h' : s₁.Adds s₂) : s.Adds s₂ := by
  obtain ⟨new, hnew, hfree⟩ := h.marks
  obtain ⟨new', hnew', hfree'⟩ := h'.marks
  refine ⟨h'.signatures.trans h.signatures, h'.longest.trans h.longest,
    ⟨new ++ new', ?_, ?_⟩, h.fault ∘ h'.fault, fun hopen => ?_⟩
  · rw [hnew', hnew, List.append_assoc]
  · rw [refusals_append, hfree, hfree', List.append_nil]
  · obtain ⟨hopen', hmax⟩ := h.grids hopen
    obtain ⟨hopen'', hmax'⟩ := h'.grids hopen'
    exact ⟨hopen'', hmax'.trans hmax⟩

theorem adds_timestampSlot (s : AlignState α) (onset : Fraction) :
    s.Adds (s.updateGrid fun g => g.timestampSlot onset) := by
  have hdraws : s.Draws (s.updateGrid fun g => g.timestampSlot onset) :=
    draws_updateGrid (fun _ hg => MeasureGrid.exists_timestampSlot hg.state onset)
      fun _ _ hg hok => hg.timestampSlot hok
  exact ⟨hdraws.signatures, hdraws.longest, ⟨[], by rw [hdraws.marks, List.append_nil], rfl⟩,
    hdraws.fault, hdraws.grids⟩

omit [Scalar α] in
/-- Only control elements have time-stamps. -/
theorem tag_of_tstamp? {n : Node α} {x : Control α × α} (h : tstamp? n = some x) :
    n.tag = .control := by
  rw [tstamp?] at h
  split_ifs at h
  simp only [Option.bind_eq_bind, Option.bind_eq_some_iff] at h
  obtain ⟨control, hcontrol, -⟩ := h
  rw [Node.tag]
  cases hk : n.kind <;> rw [hk] at hcontrol <;> first | rfl | cases hcontrol

theorem adds_placeControl (beat last : Fraction) (s : AlignState α) (n : Node α) :
    s.Adds (placeControl beat last s n).1 ∧ n.SameTiming (placeControl beat last s n).2 := by
  rw [placeControl]
  split
  · exact ⟨.refl s, .refl n⟩
  · rename_i control tstamp htstamp
    have htag := tag_of_tstamp? htstamp
    refine ⟨Adds.trans ?_ (adds_timestampSlot _ _), rfl, rfl, fun h => absurd htag h,
      fun h => absurd htag h⟩
    split_ifs
    · exact ⟨rfl, rfl, ⟨_, rfl, refusals_tstampMark n.id tstamp⟩, id, fun h => ⟨h, rfl⟩⟩
    · exact .refl s

theorem adds_placeControls (beat last : Fraction) :
    (f : Forest (Node α)) → (s : AlignState α) → s.Adds (placeControls beat last s f).1 ∧
      Forest.Forall₂ Node.SameTiming f (placeControls beat last s f).2
  | .nil, s => ⟨.refl s, .nil⟩
  | .cons n below siblings, s => by
      obtain ⟨hadds, hsame⟩ := adds_placeControl beat last s n
      obtain ⟨hadds', hsame'⟩ := adds_placeControls beat last siblings (placeControl beat last s n).1
      exact ⟨hadds.trans hadds', .cons hsame (.refl fun m _ => .refl m) hsame'⟩

theorem maxTime_drawBarLines (m : Measure α) (last : Fraction) (g : MeasureGrid α)
    (staff : UInt32) : (drawBarLines c m last g staff).maxTime = g.maxTime := by
  rw [drawBarLines]
  dsimp only
  split <;> split <;> simp only [MeasureGrid.maxTime_addFootprint]

theorem maxTime_foldl_drawBarLines (m : Measure α) (last : Fraction) :
    (staves : List UInt32) → (g : MeasureGrid α) →
      (staves.foldl (drawBarLines c m last) g).maxTime = g.maxTime
  | [], _ => rfl
  | staff :: staves, g => by
      rw [List.foldl_cons, maxTime_foldl_drawBarLines m last staves, maxTime_drawBarLines]

theorem longest_leaveMeasure (s : AlignState α) (n : Node α) (m : Measure α)
    (below : Forest (Node α)) : (s.leaveMeasure c n m below).1.longest = s.longest := by
  have hadds := (adds_placeControls s.signatures.meter.beatDuration
    (s.grids.headD m.grid).maxTime below s).1.longest
  rw [leaveMeasure]
  dsimp only
  split
  · exact hadds
  · exact hadds

/-- The end of a measure: its time grid is closed, and lasts as long as it did. -/
theorem leaveMeasure_spec {g : MeasureGrid α} {outer : List (MeasureGrid α)} {m : Measure α}
    (hgrids : s.grids = g :: outer) (hopen : ∀ g ∈ s.grids, g.Open)
    (hfault : (s.leaveMeasure c n m below).1.fault = none) :
    ∃ grid new, (s.leaveMeasure c n m below).2.1 = { n with kind := .measure { m with grid } } ∧
      grid.maxTime = g.maxTime ∧ Forest.Forall₂ Node.SameTiming below
        (s.leaveMeasure c n m below).2.2 ∧
      (s.leaveMeasure c n m below).1.signatures = s.signatures ∧
      (s.leaveMeasure c n m below).1.marks = s.marks ++ new ∧ refusals new = [] ∧
      (∀ g ∈ (s.leaveMeasure c n m below).1.grids, g.Open) ∧
      (s.leaveMeasure c n m below).1.grids.map MeasureGrid.maxTime =
        outer.map MeasureGrid.maxTime := by
  obtain ⟨hadds, hsame⟩ := adds_placeControls s.signatures.meter.beatDuration
    (s.grids.headD m.grid).maxTime below s
  rw [leaveMeasure] at hfault ⊢
  dsimp only at hfault ⊢
  generalize placeControls s.signatures.meter.beatDuration (s.grids.headD m.grid).maxTime s below =
    placed at hfault hadds hsame ⊢
  obtain ⟨s₁, below₁⟩ := placed
  dsimp only at hfault hadds hsame ⊢
  obtain ⟨hopen₁, hmax⟩ := hadds.grids hopen
  obtain ⟨new, hmarks, hfree⟩ := hadds.marks
  rw [hgrids] at hmax
  obtain ⟨g₁, outer₁, hgrids₁, hg₁, houter⟩ := List.map_eq_cons_iff.1 hmax
  rw [hgrids₁, List.forall_mem_cons] at hopen₁
  simp only [hgrids₁, List.headD_cons] at hfault ⊢
  cases hfinish : g₁.finish with
  | ok closed =>
    obtain ⟨-, hlast⟩ := hopen₁.1.finish hfinish
    refine ⟨_, new, rfl, ?_, hsame, hadds.signatures, hmarks, hfree, hopen₁.2, houter⟩
    rw [maxTime_foldl_drawBarLines, hlast, hg₁]
  | error f =>
    rw [hfinish] at hfault
    exact absurd hfault (by simp)

theorem Times.measure {m' : Measure α} {grid : MeasureGrid α}
    (hs₁ : s₁.signatures = s.signatures ∧ s₁.longest = s.longest ∧ s₁.marks = s.marks ∧
      s₁.grids = grid :: s.grids)
    (hgrid : grid.Open ∧ grid.maxTime = 0) (hopen : ∀ g ∈ s.grids, g.Open) (hbelow : s₁.Times s₂ below below')
    (hend : (s₂.leaveMeasure c n' m' below').1.fault = none) :
    s.Times (s₂.leaveMeasure c n' m' below').1 (.tree n below)
      (.tree (s₂.leaveMeasure c n' m' below').2.1 (s₂.leaveMeasure c n' m' below').2.2) := by
  obtain ⟨hsignatures, hlongest, hmarks, hgrids⟩ := hs₁
  have hlongest' := longest_leaveMeasure (c := c) s₂ n' m' below'
  obtain ⟨hopen₂, hlasts⟩ := hbelow.grids (by
    rw [hgrids]
    exact List.forall_mem_cons.2 ⟨hgrid.1, hopen⟩)
  rw [lasts, lasts, hgrids, List.map_cons, hgrid.2, Fraction.value_zero, raise] at hlasts
  obtain ⟨g, outer, hgrids₂, hlast, houter⟩ := List.map_eq_cons_iff.1 hlasts
  obtain ⟨grid', new', hnode, hmax, hsame, hsignatures', hmarks', hfree, hopen', hmax'⟩ :=
    leaveMeasure_spec hgrids₂ hopen₂ hend
  generalize s₂.leaveMeasure c n' m' below' = left at hnode hsame hlongest' hsignatures' hmarks' hopen' hmax' hend ⊢
  have hfree' := not_refused_of_refusals hfree
  obtain ⟨new, hnew, hids, htimed⟩ := hbelow.timed
  obtain ⟨found, hfound, hreported⟩ := hbelow.reports
  have hkind : left.2.1.kind = .measure { m' with grid := grid' } := by rw [hnode]
  have htag : left.2.1.tag = .measure := congrArg NodeKind.tag hkind
  have hmeter (meter : MeterSig) : left.2.1.meterAfter meter = meter := by
    rw [Node.meterAfter, hkind]
  refine ⟨?_, hend, fun h => ?_, ⟨new ++ new', ?_, fun id h => ?_, fun ht => ?_, ?_, trivial⟩,
    ⟨found ++ new', ?_, ?_⟩, ⟨fun m hm => ?_, hsame.measuresLast hbelow.measures, trivial⟩, fun _ => ⟨hopen', ?_⟩⟩
  · rw [hsignatures', hbelow.meter, hsignatures, Forest.toList_tree, runningMeter_cons, hmeter, runningMeter_eq_of_sameTiming hsame.toList]
  · rw [hlongest', Forest.toList_tree, longestOf_cons,
      longestOf_of_untimed (Node.not_isTimed_of_tag (by rw [htag]; decide)),
      longestOf_eq_of_sameTiming hsame.toList, ← hlongest]
    exact hbelow.longest (hlongest ▸ h)
  · rw [hmarks', hnew, hmarks, List.append_assoc]
  · rw [Forest.toList_tree]
    exact List.mem_cons_of_mem _ (hids id ((refused_append_left (hfree' id)).1 h))
  · rw [htag] at ht
    cases ht
  · rw [hmeter]
    rw [hsignatures] at htimed
    exact (hsame.layersTimed htimed).of_refused fun m _ => refused_append_left (hfree' m.id)
  · rw [hmarks', hfound, hmarks, List.append_assoc]
  · rw [refusals_append, hfree]
    rw [hsignatures] at hreported
    exact .frame (by rw [htag]; decide) ((hmeter _).symm ▸ hsame.reported hreported) (.nil _)
  · rw [hkind] at hm
    obtain rfl := NodeKind.measure.inj hm
    rw [hsame.layerEnds_eq, ← hlast, hmax]
  · have := congrArg (List.map Fraction.value) hmax'
    rw [List.map_map, List.map_map] at this
    rw [Forest.tree, Forest.layerEnds, htag]
    exact (this.trans houter).trans (raise_nil _).symm

/-! ### Staves and layers -/

theorem keeps_completes {above : Option (Node α)} {f f' : Forest (Node α)}
    (h : Forest.Completes (alignPass c) above s f s' f') : Forest.Forall₂ Keeps f f' :=
  h.forall₂ Keeps.refl (fun _ _ _ => Keeps.trans) (fun s above n => keeps_enter c s n above)
    fun s _ n below => keeps_leave c s n below

omit [Scalar α] in
/-- Control elements hold nothing. -/
theorem eq_nil_of_control {k : Control α} (hn : n.kind = .control k)
    (htakes : ∀ b ∈ below.roots, n.kind.accepts b.kind) : below = .nil := by
  cases below with
  | nil => rfl
  | cons b _ _ =>
    have := htakes b List.mem_cons_self
    rw [hn] at this
    cases b.kind <;> cases this

omit [Scalar α] in
/-- A control element is passed over. -/
theorem Times.control {k : Control α} (hn : n.kind = .control k) (hfault : s.fault = none) :
    s.Times s (.tree n .nil) (.tree n .nil) := by
  have htag : n.tag = .control := congrArg NodeKind.tag hn
  refine .passed (by rw [htag]; decide) (by rw [htag]; decide) (by rw [htag]; decide) rfl ?_ rfl rfl
    (.nil hfault)
  rw [Node.meterAfter, hn]

/-- What entering a control element comes to. -/
theorem enter_of_control {k : Control α} (hn : n.kind = .control k) {above : Option (Node α)}
    {v : Visit} (h : (alignPass c).enter s above n = (s₁, n', v)) :
    s₁ = s ∧ n' = n ∧ v = .skipChildren := by
  dsimp only [alignPass] at h
  rw [enter, hn] at h
  simpa [eq_comm] using h

/-- What entering a staff comes to. -/
theorem enter_of_staff {staff : Staff} (hn : n.kind = .staff staff) {above : Option (Node α)}
    {v : Visit} (h : (alignPass c).enter s above n = (s₁, n', v)) :
    n'.kind = n.kind ∧ s₁.signatures = s.signatures ∧ s₁.marks = s.marks ∧ s₁.grids = s.grids ∧
      s₁.collecting = s.collecting ∧ s₁.fault = s.fault := by
  dsimp only [alignPass] at h
  rw [enter, hn] at h
  simp only [enterStaff, Prod.mk.injEq] at h
  obtain ⟨rfl, rfl, -⟩ := h
  exact ⟨rfl, rfl, rfl, rfl, rfl, rfl⟩

/-- What entering a layer comes to. -/
theorem enter_of_layer {k : UInt32} (hn : n.kind = .layer k) {above : Option (Node α)} {v : Visit}
    (h : (alignPass c).enter s above n = (s₁, n', v)) :
    n'.kind = n.kind ∧ s₁ = { s with layer := .ofClef (s.signatures.clef s.staff) } := by
  dsimp only [alignPass] at h
  rw [enter, hn] at h
  simp only [enterLayer, Prod.mk.injEq] at h
  obtain ⟨rfl, rfl, -⟩ := h
  exact ⟨rfl, rfl⟩

/-- Most nodes are left as they are. -/
theorem leave_of_tag (hm : n.tag ≠ .measure) (hl : n.tag ≠ .layer) (he : n.tag ≠ .element)
    {whole : Node α → Forest (Node α) → Forest (Node α)} {v : Visit}
    (h : (alignPass c).leave s whole n below = (s₁, n', below', v)) :
    s₁ = s ∧ n' = n ∧ below' = below := by
  dsimp only [alignPass] at h
  rw [Node.tag] at hm hl he
  rw [leave] at h
  cases hk : n.kind <;> rw [hk] at h hm hl he <;>
    first | exact absurd rfl hm | exact absurd rfl hl | exact absurd rfl he | skip
  all_goals
    simp only [Prod.mk.injEq] at h
    exact ⟨h.1.symm, h.2.1.symm, h.2.2.1.symm⟩

/-- What leaving a layer comes to. -/
theorem leave_of_layer {k : UInt32} (hn : n.kind = .layer k)
    {whole : Node α → Forest (Node α) → Forest (Node α)} {v : Visit}
    (h : (alignPass c).leave s whole n below = (s₁, n', below', v)) (hv : v ≠ .stop) :
    s₁ = s.leaveLayer ∧ n' = n ∧ below' = below ∧ s.leaveLayer.fault = none := by
  dsimp only [alignPass] at h
  rw [leave, hn] at h
  simp only [Prod.mk.injEq] at h
  obtain ⟨rfl, rfl, rfl, hout⟩ := h
  exact ⟨rfl, rfl, rfl, (outcome_proceed hout hv).2⟩

/-- The staves of a measure, and the layers of a staff. -/
theorem times_staves {s : AlignState α} {above : Option (Node α)} {f : Forest (Node α)}
    {s' : AlignState α} {f' : Forest (Node α)}
    (h : Forest.Completes (alignPass c) above s f s' f') (hf : f.Nested)
    (hroots : ∀ n ∈ f.roots, n.tag = .staff ∨ n.tag = .layer ∨ n.tag = .control)
    (hids : (f.toList.map Node.id).Nodup) (hs : s.collecting) (hfault : s.fault = none) :
    s.Times s' f f' ∧ s'.collecting = s.collecting := by
  have hsame := keeps_completes h
  induction h with
  | nil => exact ⟨.nil hfault, rfl⟩
  | @skip above s s₁ s₂ b b₁ children siblings siblings' henter hbeside ih =>
    rw [Forest.roots, List.forall_mem_cons] at hroots
    obtain ⟨k, hb⟩ : ∃ k, b.kind = .control k := by
      refine Node.exists_control (hroots.1.elim (fun ht => ?_) (·.elim (fun ht => ?_) id))
      · obtain ⟨staff, hb⟩ := Node.exists_staff ht
        simp [alignPass, enter, hb] at henter
      · obtain ⟨k, hb⟩ := Node.exists_layer ht
        simp [alignPass, enter, hb] at henter
    obtain rfl := eq_nil_of_control hb hf.1
    obtain ⟨rfl, rfl, -⟩ := enter_of_control hb henter
    obtain ⟨hrest, hcollecting⟩ := ih hf.2.2 hroots.2 (Forest.nodup_of_cons hids).2 hs hfault
      (keeps_completes hbeside)
    exact ⟨.cons hids hsame (.control hb hfault) hrest, hcollecting⟩
  | @walk above s s₁ s₂ s₃ s₄ b b₁ b₂ children siblings children₁ children₂ siblings' whole v henter
      hbelow hleave hgo hbeside ihbelow ihbeside =>
    rw [Forest.roots, List.forall_mem_cons] at hroots
    obtain ⟨htakes, hchildren, hsiblings⟩ := hf
    obtain ⟨hidsChildren, hidsSiblings⟩ := Forest.nodup_of_cons hids
    have hrest := fun hs hfault =>
      ihbeside hsiblings hroots.2 hidsSiblings hs hfault (keeps_completes hbeside)
    rcases hroots.1 with htag | htag | htag
    · obtain ⟨staff, hb⟩ := Node.exists_staff htag
      obtain ⟨hkind, hsignatures, hmarks, hgrids, hcollecting₁, hfault₁⟩ := enter_of_staff hb henter
      have htag₁ : b₁.tag = .staff := (congrArg NodeKind.tag hkind).trans htag
      obtain ⟨rfl, rfl, rfl⟩ := leave_of_tag (by rw [htag₁]; decide) (by rw [htag₁]; decide)
        (by rw [htag₁]; decide) hleave
      have hlayers : ∀ n ∈ children.roots, n.tag = .staff ∨ n.tag = .layer ∨ n.tag = .control := by
        intro n hn
        have := htakes n hn
        rw [hb] at this
        rw [Node.tag]
        cases hk : n.kind <;> simp [hk, NodeKind.accepts, NodeKind.tag] at this ⊢
      obtain ⟨hwalked, hcollecting⟩ := ihbelow hchildren hlayers hidsChildren
        (hcollecting₁.trans hs) (hfault₁.trans hfault) (keeps_completes hbelow)
      obtain ⟨hrest, hcollecting'⟩ := hrest (hcollecting.trans (hcollecting₁.trans hs))
        hwalked.fault
      have hmeter : b₂.meterAfter s.signatures.meter = s.signatures.meter := by
        rw [Node.meterAfter, hkind, hb]
      exact ⟨.cons hids hsame (.passed (by rw [htag₁]; decide) (by rw [htag₁]; decide)
        (by rw [htag₁]; decide) (longest_enter (by rw [htag]; decide) henter) (hmeter.symm ▸ congrArg Signatures.meter hsignatures) hmarks hgrids hwalked) hrest,
        hcollecting'.trans (hcollecting.trans hcollecting₁)⟩
    · obtain ⟨k, hb⟩ := Node.exists_layer htag
      obtain ⟨hkind, rfl⟩ := enter_of_layer hb henter
      obtain ⟨rfl, rfl, rfl, hend⟩ := leave_of_layer (hkind.trans hb) hleave hgo
      have hsymbols : children.Symbolic := hchildren.symbolic fun n hn =>
        NodeKind.tag_of_layer htag (htakes n hn)
      obtain ⟨hwalked, hcollecting⟩ :=
        Times.layer (hkind.trans hb) hs hfault hsymbols hidsChildren hbelow hend
      obtain ⟨hrest, hcollecting'⟩ := hrest (hcollecting.trans hs) hwalked.fault
      exact ⟨.cons hids hsame hwalked hrest, hcollecting'.trans hcollecting⟩
    · obtain ⟨k, hb⟩ := Node.exists_control htag
      cases (enter_of_control hb henter).2.2

/-! ### The score -/

/-- Whether a node stands above staves, or beside measures. -/
def IsOuter (n : Node α) : Prop := n.tag ≠ .staff ∧ n.tag ≠ .layer ∧ n.tag ≠ .element

/-- What entering a node above measures, or beside them, comes to. -/
theorem enter_of_outer (hn : IsOuter n) (hm : n.tag ≠ .measure) (hc : n.tag ≠ .control)
    {above : Option (Node α)} {v : Visit}
    (h : (alignPass c).enter s above n = (s₁, n', v)) :
    v = .proceed ∧ n' = n ∧ s₁.signatures.meter = n.meterAfter s.signatures.meter ∧
      s₁.marks = s.marks ∧ s₁.grids = s.grids ∧ s₁.fault = s.fault := by
  obtain ⟨hs, hl, he⟩ := hn
  dsimp only [alignPass] at h
  rw [enter] at h
  rw [Node.tag] at hs hl he hm hc
  rw [Node.meterAfter]
  cases hk : n.kind with
  | change change =>
    rw [hk] at h
    simp only [Prod.mk.injEq] at h
    obtain ⟨rfl, rfl, rfl⟩ := h
    exact ⟨rfl, rfl, Signatures.meter_applyChange .., rfl, rfl, rfl⟩
  | document | page | system | systemBreak | pageBreak =>
    rw [hk] at h
    simp only [Prod.mk.injEq] at h
    obtain ⟨rfl, rfl, rfl⟩ := h
    exact ⟨rfl, rfl, rfl, rfl, rfl, rfl⟩
  | measure | staff | layer | element | control => simp [hk, NodeKind.tag] at hs hl he hm hc

/-- What entering a measure comes to. -/
theorem enter_of_measure_kind {m : Measure α} (hn : n.kind = .measure m) {above : Option (Node α)}
    {v : Visit} (h : (alignPass c).enter s above n = (s₁, n', v)) :
    (∃ m', n'.kind = .measure m') ∧ s₁.signatures = s.signatures ∧ s₁.marks = s.marks ∧
      (∃ grid : MeasureGrid α, s₁.grids = grid :: s.grids ∧ grid.Open ∧ grid.maxTime = 0) ∧
      s₁.collecting ∧ s₁.fault = s.fault ∧ v ≠ .skipChildren := by
  dsimp only [alignPass] at h
  rw [enter, hn] at h
  simp only [enterMeasure, MeasureGrid.begin_empty, Prod.mk.injEq] at h
  obtain ⟨rfl, rfl, rfl⟩ := h
  refine ⟨⟨_, rfl⟩, rfl, rfl, ⟨_, rfl, MeasureGrid.open_begin MeasureGrid.begin_empty⟩, rfl, rfl, ?_⟩
  rw [outcome]
  split <;> decide

/-- What leaving a measure comes to. -/
theorem leave_of_measure {m : Measure α} (hn : n.kind = .measure m)
    {whole : Node α → Forest (Node α) → Forest (Node α)} {v : Visit}
    (h : (alignPass c).leave s whole n below = (s₁, n', below', v)) (hv : v ≠ .stop) :
    s₁ = (s.leaveMeasure c n m below).1 ∧ n' = (s.leaveMeasure c n m below).2.1 ∧
      below' = (s.leaveMeasure c n m below).2.2 ∧
      (s.leaveMeasure c n m below).1.fault = none := by
  dsimp only [alignPass] at h
  rw [leave, hn] at h
  simp only [Prod.mk.injEq] at h
  obtain ⟨rfl, rfl, rfl, hout⟩ := h
  exact ⟨rfl, rfl, rfl, (outcome_proceed hout hv).2⟩

/-- What is passed over above measures, or beside them, is a control element. -/
theorem exists_control_of_skip (hn : IsOuter n) {above : Option (Node α)}
    (h : (alignPass c).enter s above n = (s₁, n', .skipChildren)) : ∃ k, n.kind = .control k := by
  by_contra hc
  have hc : n.tag ≠ .control := fun ht => hc (Node.exists_control ht)
  by_cases hm : n.tag = .measure
  · obtain ⟨m, hn⟩ := NodeKind.exists_of_measure hm
    exact absurd rfl (enter_of_measure_kind hn h).2.2.2.2.2.2
  · cases (enter_of_outer hn hm hc h).1

omit [Scalar α] in
/-- A measure takes staves and control elements. -/
theorem tag_of_accepts_measure (hm : n.tag = .measure) {b : Node α}
    (h : n.kind.accepts b.kind) : b.tag = .staff ∨ b.tag = .control := by
  rw [Node.tag] at hm ⊢
  cases hk : n.kind <;> cases hk' : b.kind <;>
    simp [hk, hk', NodeKind.accepts, NodeKind.tag] at h hm ⊢

omit [Scalar α] in
theorem isOuter_of_accepts (hn : IsOuter n) (hm : n.tag ≠ .measure) {below : Forest (Node α)}
    (h : ∀ b ∈ below.roots, n.kind.accepts b.kind) : ∀ b ∈ below.roots, IsOuter b := by
  intro b hb
  have htakes := h b hb
  obtain ⟨hs, hl, he⟩ := hn
  rw [Node.tag] at hs hl he hm
  simp only [IsOuter, Node.tag]
  cases hk : n.kind <;> cases hk' : b.kind <;>
    simp [hk, hk', NodeKind.accepts, NodeKind.tag] at htakes hs hl he hm ⊢

/-- The trees of a score. -/
theorem times_score {s : AlignState α} {above : Option (Node α)} {f : Forest (Node α)}
    {s' : AlignState α} {f' : Forest (Node α)}
    (h : Forest.Completes (alignPass c) above s f s' f') (hf : f.Nested)
    (hroots : ∀ n ∈ f.roots, IsOuter n) (hids : (f.toList.map Node.id).Nodup)
    (hopen : ∀ g ∈ s.grids, g.Open) (hfault : s.fault = none) : s.Times s' f f' := by
  have hsame := keeps_completes h
  induction h with
  | nil => exact .nil hfault
  | @skip above s s₁ s₂ b b₁ children siblings siblings' henter hbeside ih =>
    rw [Forest.roots, List.forall_mem_cons] at hroots
    obtain ⟨k, hb⟩ := exists_control_of_skip hroots.1 henter
    obtain rfl := eq_nil_of_control hb hf.1
    obtain ⟨rfl, rfl, -⟩ := enter_of_control hb henter
    exact .cons hids hsame (.control hb hfault) (ih hf.2.2 hroots.2 (Forest.nodup_of_cons hids).2
      hopen hfault (keeps_completes hbeside))
  | @walk above s s₁ s₂ s₃ s₄ b b₁ b₂ children siblings children₁ children₂ siblings' whole v henter
      hbelow hleave hgo hbeside ihbelow ihbeside =>
    rw [Forest.roots, List.forall_mem_cons] at hroots
    obtain ⟨htakes, hchildren, hsiblings⟩ := hf
    obtain ⟨hidsChildren, hidsSiblings⟩ := Forest.nodup_of_cons hids
    have hrest := fun hopen hfault =>
      ihbeside hsiblings hroots.2 hidsSiblings hopen hfault (keeps_completes hbeside)
    by_cases hc : b.tag = .control
    · obtain ⟨k, hb⟩ := Node.exists_control hc
      cases (enter_of_control hb henter).2.2
    by_cases hm : b.tag = .measure
    · obtain ⟨m, hb⟩ := NodeKind.exists_of_measure hm
      obtain ⟨⟨m', hb₁⟩, hsignatures, hmarks, ⟨grid, hgrids, hgrid⟩, hcollecting, hfault₁, -⟩ :=
        enter_of_measure_kind hb henter
      obtain ⟨rfl, rfl, rfl, hend⟩ := leave_of_measure hb₁ hleave hgo
      have hstaves : ∀ n ∈ children.roots, n.tag = .staff ∨ n.tag = .layer ∨ n.tag = .control := by
        intro n hn
        have := htakes n hn
        rw [hb] at this
        rw [Node.tag]
        cases hk : n.kind <;> simp [hk, NodeKind.accepts, NodeKind.tag] at this ⊢
      obtain ⟨hwalked, -⟩ := times_staves hbelow hchildren hstaves hidsChildren hcollecting
        (hfault₁.trans hfault)
      have hlongest := longest_enter (by rw [Node.tag, hb]; simp [NodeKind.tag]) henter
      have htree := Times.measure (n := b) ⟨hsignatures, hlongest, hmarks, hgrids⟩ hgrid hopen
        hwalked hend
      exact .cons hids hsame htree (hrest (htree.grids hopen).1 hend)
    · obtain ⟨-, rfl, hmeter, hmarks, hgrids, hfault₁⟩ := enter_of_outer hroots.1 hm hc henter
      obtain ⟨rfl, rfl, rfl⟩ := leave_of_tag hm hroots.1.2.1 hroots.1.2.2 hleave
      have houter := isOuter_of_accepts hroots.1 hm htakes
      have hwalked := ihbelow hchildren houter hidsChildren (hgrids ▸ hopen)
        (hfault₁.trans hfault) (keeps_completes hbelow)
      have htree : s.Times s₃ (.tree b₂ children) (.tree b₂ children₂) :=
        .passed hroots.1.2.1 hm hroots.1.2.2 (longest_enter hroots.1.2.2 henter) hmeter hmarks
          hgrids hwalked
      exact .cons hids hsame htree (hrest (htree.grids hopen).1 hwalked.fault)

end AlignState

end ScoreLayout
