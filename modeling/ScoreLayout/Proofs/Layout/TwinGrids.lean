import ScoreLayout.Proofs.Layout.TwinAlignment
import ScoreLayout.Proofs.Layout.TwinSystems
import ScoreLayout.Proofs.Onsets

/-!
# Aligning two documents side by side

Two prepared contents are aligned alike: at every node that they share the walks do the same, and
what they leave differs at most in the time grids, as far as alignment does not tell grids apart. A
further control element below a measure is passed over until its measure is left.

## Main definitions

* `Node.Gridded` — nodes that are the same, but for the time grids of measures.
* `AlignState.Unnoticed` — further control elements that change no state.

## Main results

* `AlignState.parallel` — two walks side by side.
* `Document.Readied.align` — aligning two prepared documents.
-/

namespace ScoreLayout

variable {α : Type} {T : Comparison α} {G S G₁ : MeasureGrid α → MeasureGrid α → Prop}
  {K : List Mark → List Mark → Prop}

namespace Node

/-- Two nodes that are the same, but for the time grids of measures, which are related by `G`. -/
inductive Gridded (T : Comparison α) (G : MeasureGrid α → MeasureGrid α → Prop) :
    Node α → Node α → Prop
  | same {n : Node α} (near : n.Near T n) (tag : n.tag ≠ .measure) : Gridded T G n n
  | measure {n n' : Node α} {m m' : Measure α} (near : n.Near T n) (kind : n.kind = .measure m)
      (node : n' = { n with kind := .measure m' }) (music : m' = { m with grid := m'.grid })
      (grid : G m.grid m'.grid) : Gridded T G n n'

/-- A node that is being visited, in both walks the same. -/
structure Visited (T : Comparison α) (G : MeasureGrid α → MeasureGrid α → Prop) (n n' : Node α) :
    Prop where
  eq : n' = n
  near : n.Near T n
  grid : ∀ m, n.kind = .measure m → G m.grid m.grid

theorem Akin.gridded {n n' : Node α} (h : n.Akin T n') (ht : n.tag ≠ .measure) :
    n.Gridded T G n' := by
  obtain rfl := h.eq ht
  exact .same h.near ht

variable [Scalar α]

/-- What alignment makes of a node is like itself if the node has been. -/
theorem Near.of_keeps {n n' : Node α} (h : n.Near T n) (hk : AlignState.Keeps n n') :
    n'.Near T n' := by
  have htag : n'.tag = n.tag := hk.tag
  refine near_self (fun hn => ?_) fun ht a ha => ?_
  · have hframe : ¬ n.IsFrame := by rwa [IsFrame, ← htag]
    rw [hk.handle]
    exact h.own hframe
  · rw [hk.anchors] at ha
    exact h.tied (htag ▸ ht) a ha

end Node

variable [Scalar α]

namespace AlignState

open Node (Near Akin Gridded Visited)

/-- Further control elements that leave two states alike, whether they are passed over or get a
slot. -/
structure Unnoticed (S : MeasureGrid α → MeasureGrid α → Prop) (K : List Mark → List Mark → Prop)
    (P : Node α → Prop) : Prop where
  tag : ∀ {n}, P n → n.tag = .control
  place : ∀ {s t n} beat {last : Fraction}, last.Elapsed → Beside S K s t → P n →
    Beside S K s (placeControl beat last t n).1 ∧ P (placeControl beat last t n).2

/-- Time-stamps count in beats, whose number of whole notes is reduced. -/
theorem lowest_timeOfBeat (tstamp : α) (beat : Fraction) : (timeOfBeat tstamp beat).Lowest := by
  have hbeats := Fraction.lowest_getD
    (o := Fraction.reduced? (saturate (Scalar.nearest ((tstamp - 1) * Scalar.ofInt tstampResolution)))
      tstampResolution) (fun c hc => Fraction.lowest_of_reduced? hc) Fraction.lowest_zero
  exact Fraction.lowest_getD (fun c hc => Fraction.lowest_of_mul? hc) hbeats

/-- The time of a time-stamp, moved into a measure that ends at `last`. -/
theorem elapsed_onset (tstamp : α) (beat : Fraction) {last : Fraction} (hlast : last.Elapsed) :
    (if timeOfBeat tstamp beat < 0 then 0
      else if last < timeOfBeat tstamp beat then last else timeOfBeat tstamp beat).Elapsed := by
  split_ifs with hneg
  · exact .zero
  · exact hlast
  · exact .of_lowest (lowest_timeOfBeat tstamp beat) hneg

/-- Control elements are placed in the time grid of the innermost measure. -/
theorem tail_grids_placeControl (beat last : Fraction) (s : AlignState α) (n : Node α) :
    (placeControl beat last s n).1.grids.tail = s.grids.tail := by
  have hupdate (s : AlignState α) (f : MeasureGrid α → Except GridFault (MeasureGrid α)) :
      (s.updateGrid f).grids.tail = s.grids.tail := by
    rw [updateGrid]
    cases hgrids : s.grids with
    | nil => exact congrArg List.tail hgrids
    | cons g outer =>
      dsimp only
      cases f g <;> simp
  rw [placeControl]
  split
  · rfl
  · dsimp only
    rw [hupdate]
    split_ifs <;> rfl

theorem tail_grids_placeControls (beat last : Fraction) :
    (s : AlignState α) → (f : Forest (Node α)) →
      (placeControls beat last s f).1.grids.tail = s.grids.tail
  | _, .nil => rfl
  | s, .cons n _ siblings =>
      (tail_grids_placeControls beat last (placeControl beat last s n).1 siblings).trans
        (tail_grids_placeControl beat last s n)

namespace Beside

variable {s t : AlignState α}

omit [Scalar α] in
theorem withMarks (h : Beside G K s t) (hK : ∀ ms ms' m, K ms ms' → K (ms ++ [m]) (ms' ++ [m]))
    (mark : Mark) :
    Beside G K { s with marks := s.marks ++ [mark] } { t with marks := t.marks ++ [mark] } := by
  obtain ⟨grids, marks, rfl, hg, hm⟩ := h
  exact ⟨_, _, rfl, hg, hK _ _ _ hm⟩

section TimeStamps

variable (hG : Tracks G S G₁) (hK : ∀ ms ms' m, K ms ms' → K (ms ++ [m]) (ms' ++ [m]))

include hG hK

theorem placeControl (h : Beside S K s t) (beat : Fraction) {last : Fraction}
    (hlast : last.Elapsed) (n : Node α) :
    Beside S K (placeControl beat last s n).1 (AlignState.placeControl beat last t n).1 ∧
      (AlignState.placeControl beat last t n).2 = (AlignState.placeControl beat last s n).2 := by
  rw [AlignState.placeControl, AlignState.placeControl]
  cases tstamp? n with
  | none => exact ⟨h, rfl⟩
  | some stamped =>
    obtain ⟨control, tstamp⟩ := stamped
    have honset := elapsed_onset tstamp beat hlast
    have hslot {s t : AlignState α} (h : Beside S K s t) {onset : Fraction}
        (honset : onset.Elapsed) : Beside S K (s.updateGrid fun g => g.timestampSlot onset)
          (t.updateGrid fun g => g.timestampSlot onset) :=
      h.updateGrid fun _ _ hg => hG.timestampSlot hg honset
    dsimp only
    generalize (if timeOfBeat tstamp beat < 0 then 0 else if last < timeOfBeat tstamp beat then last
      else timeOfBeat tstamp beat) = onset at honset ⊢
    split_ifs
    · exact ⟨hslot (h.withMarks hK _) honset, by rw [(hslot (h.withMarks hK _) honset).staves]⟩
    · exact ⟨hslot h honset, by rw [(hslot h honset).staves]⟩

/-- The children of a measure that is left. Only control elements change. -/
theorem placeControls (h : Beside S K s t) {P : Node α → Prop} (hP : Unnoticed S K P)
    (beat : Fraction) {last : Fraction} (hlast : last.Elapsed)
    {f f' : Forest (Node α)} (hf : Forest.Padded P (Gridded T G₁) f f') :
    Beside S K (placeControls beat last s f).1 (AlignState.placeControls beat last t f').1 ∧
      Forest.Padded P (Gridded T G₁) (AlignState.placeControls beat last s f).2
        (AlignState.placeControls beat last t f').2 := by
  induction hf generalizing s t with
  | nil => exact ⟨h, .nil⟩
  | leaf hc _ ih =>
    obtain ⟨hs, hc⟩ := hP.place beat hlast h hc
    obtain ⟨hs', hf'⟩ := ih hs
    exact ⟨hs', .leaf hc hf'⟩
  | @cons n n' below siblings below' siblings' hn hb hsib _ ih =>
    have hplaced : Beside S K (AlignState.placeControl beat last s n).1
        (AlignState.placeControl beat last t n').1 ∧
        Gridded T G₁ (AlignState.placeControl beat last s n).2
          (AlignState.placeControl beat last t n').2 := by
      cases hn with
      | same hnear ht =>
        obtain ⟨hs, heq⟩ := placeControl hG hK h beat hlast n
        have hkeeps := (writes_placeControl s n beat last).keeps
        rw [heq]
        refine ⟨hs, .same (hnear.of_keeps hkeeps) ?_⟩
        rw [hkeeps.tag]
        exact ht
      | measure hnear hm hn' hmusic hgrid =>
        have hnone {n : Node α} {m : Measure α} (hm : n.kind = .measure m) :
            tstamp? n = none := by
          rw [tstamp?, hm]
          split_ifs <;> rfl
        rw [AlignState.placeControl, AlignState.placeControl, hnone hm,
          hnone (n := n') (by rw [hn'])]
        exact ⟨h, .measure hnear hm hn' hmusic hgrid⟩
    obtain ⟨hs', hf'⟩ := ih hplaced.1
    exact ⟨hs', .cons hplaced.2 hb hf'⟩

end TimeStamps

variable (c : AlignContext α)
  (hG : Tracks G S G₁) (hK : ∀ ms ms' m, K ms ms' → K (ms ++ [m]) (ms' ++ [m]))
  (h : Beside G K s t)

include h

omit [Scalar α] in
/-- The time grid of the innermost measure. -/
theorem headD {g : MeasureGrid α} (hg : G g g) : G (s.grids.headD g) (t.grids.headD g) := by
  obtain ⟨grids, marks, rfl, hgrids, -⟩ := h
  dsimp only
  generalize s.grids = grids₀ at hgrids
  cases hgrids with
  | nil => exact hg
  | cons hg _ => exact hg

omit [Scalar α] in
/-- The innermost measure is left. The grids of outer measures, which have not changed since, are
still open. -/
theorem closed {s' t' : AlignState α} (h' : Beside S K s' t') (hs : s'.grids.tail = s.grids.tail)
    (ht : t'.grids.tail = t.grids.tail) :
    Beside G K { s' with grids := s'.grids.tail, collecting := false }
      { t' with grids := t'.grids.tail, collecting := false } := by
  obtain ⟨_, _, rfl, -, hm⟩ := h'
  refine ⟨_, _, rfl, ?_, hm⟩
  obtain ⟨_, _, rfl, hgrids, -⟩ := h
  rw [ht, hs]
  generalize s.grids = grids₀ at hgrids
  cases hgrids with
  | nil => exact .nil
  | cons _ houter => exact houter

include hG

/-- All control elements of the innermost measure stand behind its symbols. -/
theorem stamped : Beside S K s t := by
  obtain ⟨grids, marks, rfl, hgrids, hm⟩ := h
  exact ⟨grids, marks, rfl, hgrids.imp fun _ _ => hG.stamped, hm⟩

omit h in
theorem drawBarLines {g g' : MeasureGrid α} (hg : G₁ g g') (m : Measure α) (last : Fraction)
    (staves : List UInt32) : G₁ (staves.foldl (drawBarLines c m last) g)
      (staves.foldl (AlignState.drawBarLines c m last) g') := by
  induction staves generalizing g g' with
  | nil => exact hg
  | cons staff staves ih =>
    refine ih ?_
    unfold AlignState.drawBarLines
    dsimp only
    cases m.leftBarLine.bind _ <;> cases c.metrics.barLine m.rightBarLine _ _
    · exact hg
    · exact hG.closed hg _ staff _
    · exact hG.closed hg _ staff _
    · exact hG.closed (hG.closed hg _ staff _) _ staff _

include hK

theorem leaveMeasure {P : Node α → Prop} (hP : Unnoticed S K P) {n : Node α} {m : Measure α}
    (hn : n.kind = .measure m) (hnear : n.Near T n) (hm : G m.grid m.grid)
    {f f' : Forest (Node α)} (hf : Forest.Padded P (Gridded T G₁) f f') :
    Beside G K (s.leaveMeasure c n m f).1 (t.leaveMeasure c n m f').1 ∧
      Gridded T G₁ (s.leaveMeasure c n m f).2.1 (t.leaveMeasure c n m f').2.1 ∧
      Forest.Padded P (Gridded T G₁) (s.leaveMeasure c n m f).2.2 (t.leaveMeasure c n m f').2.2 := by
  obtain ⟨hs, hbelow⟩ := placeControls hG hK (h.stamped hG) hP s.signatures.meter.beatDuration
    (hG.elapsed (h.headD hm)) hf
  dsimp only [AlignState.leaveMeasure]
  rw [h.signatures, hG.maxTime (h.headD hm)]
  obtain ⟨g, g', hg, hg', hclosed⟩ := hG.finish (hs.headD (hG.stamped hm))
  have houter := h.closed hs (tail_grids_placeControls _ _ s f) (tail_grids_placeControls _ _ t f')
  rw [hg, hg']
  dsimp only
  rw [hs.staves] at houter ⊢
  have hbars := drawBarLines c hG hclosed m (s.grids.headD m.grid).maxTime
    (AlignState.placeControls s.signatures.meter.beatDuration (s.grids.headD m.grid).maxTime s
      f).1.staves
  refine ⟨houter, .measure (hnear.of_keeps ⟨⟨rfl, rfl, ?_⟩, rfl⟩) rfl rfl rfl hbars, hbelow⟩
  rw [hn]
  rfl

omit hK in
theorem leaveLayer : Beside G K s.leaveLayer t.leaveLayer := by
  have hflush := h.flushGraces hG s.layer.time
  rw [AlignState.leaveLayer, AlignState.leaveLayer, h.collecting, h.layer]
  split_ifs
  · exact hflush.updateGrid fun g g' hg => ⟨_, _, rfl, rfl, hG.extend hg s.layer.time⟩
  · exact h

/-- A node is entered the same in both walks. -/
theorem enter {parent parent' : Option (Node α)}
    (hparent : parent'.map Node.handle = parent.map Node.handle) (n : Node α) :
    Beside G K (s.enter c parent n).1 (t.enter c parent' n).1 ∧
      (t.enter c parent' n).2 = (s.enter c parent n).2 := by
  have hstate := h
  obtain ⟨grids, marks, rfl, hg, hm⟩ := h
  unfold AlignState.enter
  cases hk : n.kind with
  | document | page | system | systemBreak | pageBreak | change | staff | layer | control =>
    exact ⟨⟨_, _, rfl, hg, hm⟩, rfl⟩
  | measure m =>
    obtain ⟨grid, hgrid⟩ := MeasureGrid.exists_begin_empty (α := α)
    dsimp only [enterMeasure]
    rw [hgrid]
    exact ⟨⟨_, _, rfl, .cons (hG.begin hgrid) hg, hm⟩, rfl⟩
  | element e =>
    dsimp only
    split_ifs
    · obtain ⟨hs, hn⟩ := (hstate.reach e).enterElement hG hK c hparent n e
      refine ⟨hs, ?_⟩
      rw [hn, hs.outcome]
    · exact ⟨⟨_, _, rfl, hg, hm⟩, rfl⟩

theorem leave {P : Node α → Prop} (hP : Unnoticed S K P) {n n' : Node α}
    (hn : n.Visited T G n') {f f' : Forest (Node α)}
    (hf : Forest.Padded P (Gridded T G₁) f f') :
    Beside G K (s.leave c n f).1 (t.leave c n' f').1 ∧
      Gridded T G₁ (s.leave c n f).2.1 (t.leave c n' f').2.1 ∧
      Forest.Padded P (Gridded T G₁) (s.leave c n f).2.2.1 (t.leave c n' f').2.2.1 ∧
      (t.leave c n' f').2.2.2 = (s.leave c n f).2.2.2 := by
  obtain rfl := hn.eq
  have hsame (ht : n'.tag ≠ .measure) : Gridded T G₁ n' n' := .same hn.near ht
  unfold AlignState.leave
  cases hk : n'.kind with
  | measure m =>
    obtain ⟨hs, hn', hf'⟩ := h.leaveMeasure c hG hK hP hk hn.near (hn.grid m hk) hf
    exact ⟨hs, hn', hf', hs.outcome .proceed⟩
  | layer =>
    have hs := h.leaveLayer hG
    exact ⟨hs, hsame (by rw [Node.tag, hk]; exact NodeTag.noConfusion), hf, hs.outcome .proceed⟩
  | element e =>
    obtain ⟨hs, heq⟩ := h.leaveElement n' e
    have hkeeps := (writes_leaveElement s n' e).keeps
    refine ⟨hs, ?_, hf, rfl⟩
    dsimp only
    rw [heq]
    refine .same (hn.near.of_keeps hkeeps) ?_
    rw [hkeeps.tag, Node.tag, hk]
    exact NodeTag.noConfusion
  | _ => exact ⟨h, hsame (by rw [Node.tag, hk]; simp [NodeKind.tag]), hf, rfl⟩

end Beside

/-! ### The walks -/

variable (c : AlignContext α) (s : AlignState α)

/-- Only control elements and symbols are passed over with what is below them. -/
theorem tag_of_enter_skip {a : Option (Node α)} {n : Node α}
    (h : (s.enter c a n).2.2 = .skipChildren) : n.tag = .control ∨ n.tag = .element := by
  unfold enter at h
  rw [Node.tag]
  split at h
  case h_7 =>
    dsimp only at h
    rw [outcome] at h
    split_ifs at h
  case h_10 hk =>
    rw [hk]
    exact .inr rfl
  case h_11 hk =>
    rw [hk]
    exact .inl rfl
  all_goals cases h

/-- The grid of a measure that has been entered. -/
theorem grid_of_enter (hG : Tracks G S G₁) {a : Option (Node α)} {n : Node α} {m : Measure α}
    (h : (s.enter c a n).2.1.kind = .measure m) : G m.grid m.grid := by
  have htag : n.tag = .measure := by
    rw [← (keeps_enter c s n a).tag, Node.tag, h]
    rfl
  obtain ⟨m₀, hn⟩ := NodeKind.exists_of_measure htag
  obtain ⟨grid, hgrid⟩ := MeasureGrid.exists_begin_empty (α := α)
  rw [enter, hn] at h
  dsimp only [enterMeasure] at h
  rw [hgrid] at h
  cases h
  exact hG.begin hgrid

/-- Two walks over contents that have been prepared alike. -/
theorem parallel (hG : Tracks G S G₁) (hK : ∀ ms ms' m, K ms ms' → K (ms ++ [m]) (ms' ++ [m]))
    {P : Node α → Prop} (hP : Unnoticed S K P) {d : Document α}
    (hd : d.definition = c.document.definition) :
    Forest.Parallel P
      (fun n n' => n.Akin T n' ∧ (n.tag = .element →
        d.descendants n.handle = c.document.descendants n.handle))
      (Visited T G) (Gridded T G₁) (Beside G K)
      (fun s t => Beside G K s t ∧ s.fault.isSome)
      (fun a a' => a'.map Node.handle = a.map Node.handle)
      (fun n below => n.tag = .control ∨ n.tag = .element → ∀ m ∈ below.toList, m.tag ≠ .measure)
      (alignPass c) (alignPass { c with document := d }) where
  parent h := congrArg (some ∘ Node.handle) h.eq
  enter {s t a a' n n' f g} hs ha hn hbelow hf := by
    obtain ⟨parent', hparent, heq⟩ : ∃ parent', parent'.map Node.handle = a.map Node.handle ∧
        t.enter { c with document := d } a' n' = t.enter c parent' n := by
      cases hn.1 with
      | same => exact ⟨a', ha, t.enter_withDocument c hd a' hn.2⟩
      | measure _ hm hn' hmusic => exact ⟨a, rfl, t.enter_of_measure c hd a a' hm hn' hmusic⟩
    obtain ⟨hs', hrest⟩ := hs.enter c hG hK hparent n
    have hnear := hn.1.near.of_keeps (keeps_enter c s n a)
    refine ⟨(s.enter c a n).1, (t.enter c parent' n).1, (s.enter c a n).2.1, (s.enter c a n).2.1,
      (s.enter c a n).2.2, rfl, heq.trans (Prod.ext rfl hrest), ?_⟩
    cases hv : (s.enter c a n).2.2 with
    | stop => exact ⟨hs', s.isSome_fault_of_enter_stop c hv⟩
    | skipChildren =>
      have htag := s.tag_of_enter_skip c hv
      refine ⟨hs', .same hnear ?_, hf.mem.mono (fun _ h => h.1) fun m m' hm => ?_⟩
      · rw [(keeps_enter c s n a).tag]
        rcases htag with htag | htag <;> (rw [htag]; decide)
      · exact hm.1.1.gridded (hbelow htag m hm.2.1)
    | proceed => exact ⟨hs', rfl, hnear, fun m hm => s.grid_of_enter c hG hm⟩
  leaf {s t a n} hs hn := by
    obtain ⟨control, hk⟩ := NodeKind.exists_of_control (hP.tag hn)
    refine ⟨t, n, ?_, hn, hs⟩
    dsimp only [alignPass]
    rw [AlignState.enter, hk]
  leave {s t} _ _ {n n' f g} hs hn hf := by
    obtain ⟨hs', hn', hf', hv⟩ := hs.leave c hG hK hP hn hf
    refine ⟨(s.leave c n f).1, (t.leave c n' g).1, (s.leave c n f).2.1, (t.leave c n' g).2.1,
      (s.leave c n f).2.2.1, (t.leave c n' g).2.2.1, (s.leave c n f).2.2.2, rfl,
      (t.leave_withDocument c hd n' g).trans ?_, ?_⟩
    · rw [← hv]
    · cases hv : (s.leave c n f).2.2.2 with
      | stop => exact ⟨hs', s.isSome_fault_of_leave_stop c hv⟩
      | skipChildren | proceed => exact ⟨hs', hn', hf'⟩

/-- The slots of grace notes are written alike. -/
theorem gridded_applyGraceSlots (slots : List (Handle × SlotKey)) {n n' : Node α}
    (h : n.Gridded T G₁ n') :
    (applyGraceSlots slots n).Gridded T G₁ (applyGraceSlots slots n') := by
  have hkeeps := keeps_applyGraceSlots n slots
  cases h with
  | same hnear ht => exact .same (hnear.of_keeps hkeeps) (by rwa [hkeeps.tag])
  | measure hnear hm hn' hmusic hgrid =>
    subst hn'
    rw [applyGraceSlots, applyGraceSlots] at *
    dsimp only at *
    cases hslot : slots.lookup n.handle with
    | none =>
      rw [hslot] at hkeeps
      exact .measure hnear hm rfl hmusic hgrid
    | some key =>
      rw [hslot] at hkeeps
      exact .measure (hnear.of_keeps hkeeps) hm rfl hmusic hgrid

end AlignState

namespace Document

open AlignState (Unnoticed Beside)

/-! ### Documents -/

omit [Scalar α] in
/-- Nothing but symbols stands below symbols and control elements. -/
theorem WellFormed.tag_below {d : Document α} (hd : d.WellFormed) {n : Node α}
    {below : Forest (Node α)} (h : Forest.HasTree n below d.score)
    (hn : n.tag = .control ∨ n.tag = .element) : ∀ m ∈ below.toList, m.tag = .element := by
  obtain ⟨htakes, hnested⟩ := hd.nested_score.of_hasTree h
  refine (hnested.symbolic fun b hb => ?_).tag
  have htakes := htakes b hb
  rw [Node.tag] at hn ⊢
  rcases hn with hn | hn <;> cases hk : n.kind <;> cases hk' : b.kind <;>
    simp [hk, hk', NodeKind.accepts, NodeKind.tag] at htakes hn ⊢

omit [Scalar α] in
/-- The same stands below a symbol in two contents with further control elements. -/
theorem Shape.descendants_eq {d d' : Document α} {D D' : ScoreDefinition}
    {r r' page page' system system' : Node α} {content content' detached detached' : Forest (Node α)}
    (hd : d.Shape D r (.tree page (.tree system content)) detached)
    (hd' : d'.Shape D' r' (.tree page' (.tree system' content')) detached') {P : Node α → Prop}
    (hP : ∀ n, P n → n.tag = .control)
    (hcontent : Forest.Padded P (Node.Akin T) content content') {n : Node α}
    (hn : n ∈ content.toList) (htag : n.tag = .element) :
    d'.descendants n.handle = d.descendants n.handle := by
  obtain ⟨below, hbelow⟩ := Forest.exists_hasTree hn
  obtain ⟨n', below', hbelow', hnn, hpadded⟩ := hcontent.exists_hasTree_right hbelow
  have htree : Forest.HasTree n below (.tree page (.tree system content)) :=
    .deeper .nil (.deeper .nil hbelow)
  have htree' : Forest.HasTree n' below' (.tree page' (.tree system' content')) :=
    .deeper .nil (.deeper .nil hbelow')
  have hplain : ∀ m ∈ below.toList, m.tag = .element :=
    hd.wellFormed.tag_below (by rw [hd.score]; exact .deeper .nil htree) (.inr htag)
  have hplain' : ∀ m ∈ below'.toList, m.tag = .element :=
    hd'.wellFormed.tag_below (by rw [hd'.score]; exact .deeper .nil htree')
      (.inr (hnn.tag.trans htag))
  have heq : below' = below := by
    have hsame : Forest.Padded (fun _ => False) Eq below below' := by
      refine hpadded.mem.mono (fun m hm => ?_) fun m m' hm => ?_
      · exact absurd ((hP m hm.1).symm.trans (hplain' m hm.2)) (by decide)
      · exact (hm.1.eq (by rw [hplain m hm.2.1]; decide)).symm
    exact hsame.eq.symm
  rw [descendants, descendants, hd.below_eq htree, ← hnn.handle, hd'.below_eq htree', heq]

/-- What alignment leaves behind follows from its walk. -/
theorem align_of_run {d : Document α} (hs : Step.alignment.required ≤ d.stage)
    {metrics : GlyphMetrics α} {unit : α} {s : AlignState α} {r : Node α}
    {below : Forest (Node α)} {v : Visit}
    (hrun : d.score.run (alignPass ⟨metrics, unit, d⟩) (.start d.definition) =
      (s, .tree r below, v)) : (d.align metrics unit).fault = s.fault ∧
      (d.align metrics unit).marks = s.marks ∧
      (d.align metrics unit).document.score =
        (Forest.tree r below).map (AlignState.applyGraceSlots s.graceSlots) ∧
      (s.fault = none → (d.align metrics unit).document.stage = .aligned) := by
  rw [align, Outcome.guarded_of_le hs]
  dsimp only [fillGrids]
  rw [hrun]
  cases hfault : s.fault with
  | some f => exact ⟨rfl, rfl, rfl, fun hnone => by cases hnone⟩
  | none => exact ⟨rfl, rfl, rfl, fun _ => rfl⟩

/-- The walk of alignment over an unbroken score. -/
theorem Shape.run_alignPass {d : Document α} {D : ScoreDefinition} {r page system : Node α}
    {content detached : Forest (Node α)}
    (hd : d.Shape D r (.tree page (.tree system content)) detached) (c : AlignContext α)
    (above : Option (Node α)) {s₀ s : AlignState α} {content₁ : Forest (Node α)} {v : Visit}
    (hwalk : content.runWithin (alignPass c) above
      (fun f => .tree r (.tree page (.tree system f))) s₀ = (s, content₁, v)) :
    ∃ v', d.score.run (alignPass c) s₀ =
      (s, .tree r (.tree page (.tree system content₁)), v') := by
  have hpage : page.tag = .page := hd.tag_of_mem_pages List.mem_cons_self
  have hsystem : system.tag = .system := hd.tag_of_mem_systems List.mem_cons_self
  -- only symbols look at what they stand in, and there are none directly below systems
  have habove : content.runWithin (alignPass c) (some system)
      (fun f => .tree r (.tree page (.tree system f))) s₀ = (s, content₁, v) := by
    rw [← hwalk]
    refine Forest.runWithin_above_congr (fun n hn s => ?_) _ s₀
    refine s.enter_of_tag_ne c rfl above (some system) fun ht => ?_
    have htakes := (hd.wellFormed.nested_score.of_hasTree (show Forest.HasTree system content d.score by
      rw [hd.score]; exact .deeper .nil (.deeper .nil (.here .nil)))).1 n hn
    rw [Node.tag] at ht hsystem
    cases hk : n.kind <;> cases hk' : system.kind <;>
      simp [hk, hk', NodeKind.accepts, NodeKind.tag] at htakes ht hsystem
  have hpass {n : Node α} (hn : n.tag = .document ∨ n.IsFrame) :
      (∀ s a, (alignPass c).enter s a n = (s, n, .proceed)) ∧
        ∀ s w f, (alignPass c).leave s w n f = (s, n, f, .proceed) :=
    ⟨fun s a => s.enter_of_passed c hn a, fun s _ f => s.leave_of_passed c hn f⟩
  obtain ⟨henter, hleave⟩ := hpass (.inl hd.root_tag)
  obtain ⟨henter', hleave'⟩ := hpass (n := page) (.inr (.inl hpage))
  obtain ⟨henter'', hleave''⟩ := hpass (n := system) (.inr (.inr hsystem))
  rw [hd.score, Forest.run, Forest.runWithin_tree_of_passed henter hleave,
    Forest.runWithin_tree_of_passed henter' hleave',
    Forest.runWithin_tree_of_passed henter'' hleave'']
  simp only [id_eq]
  rw [habove]
  cases v <;> exact ⟨_, rfl⟩

section Aligned

variable {d d' : Document α} {r page page' system system' : Node α}
  {content content' detached detached' : Forest (Node α)} {P : Node α → Prop}
  (hd : d.Shape d.definition r (.tree page (.tree system content)) detached)
  (hd' : d'.Shape d'.definition r (.tree page' (.tree system' content')) detached')
  (hr : r.Near T r) (hcontent : Forest.Padded P (Node.Akin T) content content')
  (hdefinition : d'.definition = d.definition) (hstage : d'.stage = d.stage)
  (hG : Tracks G S G₁) (hK : ∀ ms ms' m, K ms ms' → K (ms ++ [m]) (ms' ++ [m])) (hstart : K [] [])
  (hP : Unnoticed S K P) (hslots : ∀ slots n, P n → P (AlignState.applyGraceSlots slots n))

include hd hd' hr hcontent hdefinition hstage hG hK hstart hP hslots

/-- Two prepared contents after alignment. -/
theorem Shape.align_padded (metrics : GlyphMetrics α) (unit : α)
    (hs : Step.alignment.required ≤ d.stage) :
    (d'.align metrics unit).fault = (d.align metrics unit).fault ∧
      K (d.align metrics unit).marks (d'.align metrics unit).marks ∧
      ((d.align metrics unit).fault = none →
        (d.align metrics unit).document.stage = .aligned ∧
        (d'.align metrics unit).document.stage = .aligned ∧
        ∃ r₁ page₁ page₁' system₁ system₁' content₁ content₁',
          (d.align metrics unit).document.score =
              .tree r₁ (.tree page₁ (.tree system₁ content₁)) ∧
            (d'.align metrics unit).document.score =
              .tree r₁ (.tree page₁' (.tree system₁' content₁')) ∧
            r₁.Near T r₁ ∧ Forest.Padded P (Node.Gridded T G₁) content₁ content₁') := by
  have hstartState : Beside G K (AlignState.start d.definition : AlignState α)
      (.start d'.definition) := by
    rw [hdefinition]
    exact ⟨[], [], rfl, .nil, hstart⟩
  have hparallel := AlignState.parallel (T := T) ⟨metrics, unit, d⟩ hG hK hP hdefinition
  obtain ⟨s, t, content₁, content₁', v, hwalk, hwalk', hv⟩ := hparallel.runWithin
    (hcontent.mem.mono (fun _ hn => hn.1) fun n n' hn =>
      ⟨hn.1, hd.descendants_eq hd' (fun _ => hP.tag) hcontent hn.2.1⟩)
    (fun n below htree hn m hm => by
      have hin : Forest.HasTree n below d.score := by
        rw [hd.score]
        exact .deeper .nil (.deeper .nil (.deeper .nil htree))
      rw [hd.wellFormed.tag_below hin hn m hm]
      decide)
    (a := some system) (o := some system) rfl (fun f => .tree r (.tree page (.tree system f)))
    (fun f => .tree r (.tree page' (.tree system' f))) hstartState
  obtain ⟨_, hrun⟩ := hd.run_alignPass _ _ hwalk
  obtain ⟨_, hrun'⟩ := hd'.run_alignPass _ _ hwalk'
  obtain ⟨hfault, hmarks, hscore, hend⟩ := align_of_run hs hrun
  obtain ⟨hfault', hmarks', hscore', hend'⟩ := align_of_run (hstage ▸ hs) hrun'
  have hbeside : Beside G K s t := by
    cases v with
    | stop | skipChildren | proceed => exact hv.1
  rw [hfault, hfault', hmarks, hmarks', hbeside.fault]
  refine ⟨rfl, ?_, fun hok => ⟨hend hok, hend' (hbeside.fault.trans hok), ?_⟩⟩
  · obtain ⟨_, _, rfl, -, hm⟩ := hbeside
    exact hm
  have hpadded : Forest.Padded P (Node.Gridded T G₁) content₁ content₁' := by
    cases v with
    | stop =>
      have hsome := hv.2
      rw [hok] at hsome
      exact absurd hsome (by decide)
    | skipChildren | proceed => exact hv.2
  rw [hscore, hscore', hbeside.graceSlots]
  exact ⟨_, _, _, _, _, _, _, rfl, rfl, hr.of_keeps (AlignState.keeps_applyGraceSlots r s.graceSlots),
    hpadded.map (fun n hn => hslots s.graceSlots n hn) fun n n' hn =>
      AlignState.gridded_applyGraceSlots s.graceSlots hn⟩

end Aligned

/-! ### Equal time grids -/

/-- Equal grids that collect symbols. -/
def SameOpenGrid (g g' : MeasureGrid α) : Prop :=
  g' = g ∧ g.state = .collecting ∧ g.maxTime.Elapsed

/-- Alignment does not tell equal grids apart. -/
theorem tracks_eq : Tracks (SameOpenGrid (α := α)) SameOpenGrid Eq where
  begin h := ⟨rfl, (MeasureGrid.open_begin h).1.state, .inl (MeasureGrid.open_begin h).2⟩
  slot := by
    rintro g _ ⟨rfl, hg, htime⟩ key
    exact ⟨_, _, if_pos hg, if_pos hg, rfl, hg, htime⟩
  addFootprint := by
    rintro g _ ⟨rfl, hg, htime⟩ key staff rect
    refine ⟨rfl, ?_⟩
    rw [MeasureGrid.addFootprint]
    split_ifs <;> exact ⟨hg, htime⟩
  extend := by
    rintro g _ ⟨rfl, hg, htime⟩ time
    exact ⟨rfl, hg, htime.max time⟩
  maxTime h := congrArg MeasureGrid.maxTime h.1
  elapsed h := h.2.2
  stamped := id
  timestampSlot := by
    rintro g _ ⟨rfl, hg, htime⟩ time -
    obtain ⟨a, ha⟩ := MeasureGrid.exists_timestampSlot hg time
    refine ⟨a, a, ha, ha, rfl, ?_⟩
    rw [MeasureGrid.timestampSlot] at ha
    split_ifs at ha
    · exact Except.ok.inj ha ▸ ⟨hg, htime⟩
    · exact Except.ok.inj ha ▸ ⟨hg, htime⟩
  finish := by
    rintro g _ ⟨rfl, hg, -⟩
    obtain ⟨a, ha, -⟩ := MeasureGrid.exists_finish hg
    exact ⟨a, a, ha, ha, rfl⟩
  closed := by
    rintro g _ rfl key staff rect
    rfl

theorem unnoticed_isSpare : Unnoticed (SameOpenGrid (α := α)) Eq (Node.IsSpare T) where
  tag h := h.tag
  place {s t n} beat last _ h hn := by
    have hnone : AlignState.tstamp? n = none := by
      rw [AlignState.tstamp?, if_pos (.inl hn.omitted)]
    rw [AlignState.placeControl, hnone]
    exact ⟨h, hn⟩

/-- Two documents that have been prepared alike, after alignment. -/
theorem Readied.align {d d' : Document α} (h : d.Readied T d') (metrics : GlyphMetrics α) (unit : α)
    (hs : Step.alignment.required ≤ d.stage) :
    (d'.align metrics unit).fault = (d.align metrics unit).fault ∧
      (d'.align metrics unit).marks = (d.align metrics unit).marks ∧
      ((d.align metrics unit).fault = none → (d.align metrics unit).document.Abreast T
        (Node.NearUnplaced T) (d'.align metrics unit).document) := by
  obtain ⟨r, page, page', system, system', content, content', hd, hd', hr, hcontent⟩ := h.shapes
  obtain ⟨hfault, hmarks, hok⟩ := hd.align_padded hd' hr hcontent h.definition h.stage tracks_eq
    (fun _ _ m h => congrArg (· ++ [m]) h) rfl unnoticed_isSpare (fun slots n hn => by
      rw [AlignState.applyGraceSlots]
      split
      · exact ⟨hn.tag, hn.omitted, hn.spare, hn.blank⟩
      · exact hn) metrics unit hs
  refine ⟨hfault, hmarks.symm, fun hnone => ?_⟩
  obtain ⟨hstage, hstage', r₁, page₁, page₁', system₁, system₁', content₁, content₁', hscore,
    hscore', hr₁, hpadded⟩ := hok hnone
  have htree := d.sameTree_align metrics unit
  have htree' := d'.sameTree_align metrics unit
  have hd₁ := hd.of_score htree hscore
  have hd₁' := hd'.of_score htree' hscore'
  refine ⟨hd₁.wellFormed, hd₁'.wellFormed, ?_, ?_, ?_, ?_, hstage'.trans hstage.symm, ?_, ?_,
    fun a ha => (h.symbols a ha).of_sameMusic htree.sameContent.content⟩
  · rw [hd₁.content_eq, hd₁'.content_eq, Forest.branches_tree, Forest.branches_tree,
      Forest.branches_tree, Forest.branches_tree]
    refine hpadded.mono (fun _ hn => hn) fun n n' hn => ?_
    cases hn with
    | same hnear => exact hnear.unplaced
    | @measure _ m m' hnear hm hn' hmusic hgrid =>
      have heq : n' = n := by
        obtain ⟨handle, id, kind, box, dirty, layout⟩ := n
        obtain rfl : kind = .measure m := hm
        rw [hn', hmusic, ← hgrid]
      rw [heq]
      exact hnear.unplaced
  · rw [hscore, hscore']
    exact .cons hr₁ .nil
  · rw [htree.sameContent.musicIds_eq, htree'.sameContent.musicIds_eq]
    exact h.ids
  · rw [hd₁.definition, hd₁'.definition]
    exact h.definition
  · rw [hd₁.rest]
    exact h.unreserved
  · rw [hd₁'.rest]
    exact h.unreserved'

end Document

end ScoreLayout
