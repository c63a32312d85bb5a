import ScoreLayout.Proofs.Layout.AlignmentSteps
import ScoreLayout.Proofs.Layout.TwinPreparation
import ScoreLayout.Proofs.LowestTerms

/-!
# Aligning two prepared documents

Alignment gives every measure the signatures that it has met on its way, so nothing of the old ones
is left. Of the document it looks at the staves and at the symbols below a grace note only, and
these are the same in two documents that have been prepared alike.

## Main results

* `AlignState.enter_withDocument`, `AlignState.leave_withDocument` — what alignment reads.
* `alignPass_runWithin` — two prepared contents are aligned alike.
-/

namespace ScoreLayout

variable {α : Type} [Scalar α]

/-! ### What alignment reads -/

theorem MeasureGrid.exists_begin_empty :
    ∃ grid, (MeasureGrid.empty : MeasureGrid α).begin = .ok grid := ⟨_, rfl⟩

namespace AlignState

variable (c : AlignContext α) {d : Document α}
  (hd : d.definition = c.document.definition) (s : AlignState α)

theorem pendingGrace_withDocument {n m : Node α} (hm : m.handle = n.handle)
    (h : d.descendants n.handle = c.document.descendants n.handle) :
    pendingGrace { c with document := d } m = pendingGrace c m := by
  rw [pendingGrace, pendingGrace, hm, h]

theorem enterTimed_withDocument {n : Node α}
    (h : d.descendants n.handle = c.document.descendants n.handle) (e : Element) (dur : Duration)
    (rect : Option (Rect α)) :
    s.enterTimed { c with document := d } n e dur rect = s.enterTimed c n e dur rect := by
  rw [enterTimed, enterTimed]
  dsimp only
  cases e.isGrace with
  | false => rfl
  | true =>
    dsimp only [if_true, record]
    rw [pendingGrace_withDocument c _ h]
    all_goals rfl

theorem enterSymbol_withDocument {n : Node α}
    (h : d.descendants n.handle = c.document.descendants n.handle) (e : Element)
    (rect : Option (Rect α)) :
    s.enterSymbol { c with document := d } n e rect = s.enterSymbol c n e rect := by
  cases e with
  | note | rest | chord | space =>
    dsimp only [enterSymbol]
    exact s.enterTimed_withDocument c h ..
  | _ => dsimp only [enterSymbol, enterFullMeasure]

theorem enterElement_withDocument (parent : Option (Node α)) {n : Node α}
    (h : d.descendants n.handle = c.document.descendants n.handle) (e : Element) :
    s.enterElement { c with document := d } parent n e = s.enterElement c parent n e := by
  have hsymbol := s.enterSymbol_withDocument c h e
    (c.metrics.element e c.unit (s.staffHeight c.unit))
  unfold enterElement
  dsimp only
  split
  · split
    · rfl
    · exact hsymbol
  · exact hsymbol

include hd

omit [Scalar α] in
theorem linesOf_withDocument (staff : UInt32) :
    AlignContext.linesOf { c with document := d } staff = c.linesOf staff := by
  rw [AlignContext.linesOf, AlignContext.linesOf, hd]

/-- What happens when a node is left does not depend on the document. -/
theorem leave_withDocument (n : Node α) (below : Forest (Node α)) :
    s.leave { c with document := d } n below = s.leave c n below := by
  have hlines : (AlignContext.linesOf { c with document := d }) = c.linesOf :=
    funext (linesOf_withDocument c hd)
  have hdraw : drawBarLines { c with document := d } = drawBarLines c := by
    funext m last g staff
    rw [drawBarLines, drawBarLines, hlines]
  rw [leave, leave]
  split
  · rw [leaveMeasure, leaveMeasure, hdraw]
  · rfl
  · rfl
  · rfl

omit [Scalar α] in
theorem enterStaff_withDocument (n : Node α) (staff : Staff) :
    s.enterStaff { c with document := d } n staff = s.enterStaff c n staff := by
  rw [enterStaff, enterStaff, linesOf_withDocument c hd]

/-- What happens when a node is entered depends on what stands below it only if it is a symbol. -/
theorem enter_withDocument (parent : Option (Node α)) {n : Node α}
    (h : n.tag = .element → d.descendants n.handle = c.document.descendants n.handle) :
    s.enter { c with document := d } parent n = s.enter c parent n := by
  rw [enter, enter]
  cases hk : n.kind with
  | staff staff =>
    dsimp only
    rw [s.enterStaff_withDocument c hd]
  | element e =>
    dsimp only
    rw [(s.reach e).enterElement_withDocument c parent (h (congrArg NodeKind.tag hk))]
  | _ => rfl

/-- Only symbols look at what they stand in. -/
theorem enter_of_tag_ne (parent parent' : Option (Node α)) {n : Node α} (hn : n.tag ≠ .element) :
    s.enter { c with document := d } parent' n = s.enter c parent n := by
  rw [s.enter_withDocument c hd parent' fun ht => absurd ht hn, enter, enter]
  cases hk : n.kind with
  | element e => exact absurd (congrArg NodeKind.tag hk) hn
  | _ => rfl

/-- Entering a measure overwrites its signatures. -/
theorem enter_of_measure (parent parent' : Option (Node α)) {n n' : Node α} {m m' : Measure α}
    (hn : n.kind = .measure m) (hn' : n' = { n with kind := .measure m' })
    (hm : m' = { m with signatures := m'.signatures }) :
    s.enter { c with document := d } parent' n' = s.enter c parent n := by
  have htag : n.tag = .measure := congrArg NodeKind.tag hn
  rw [← s.enter_of_tag_ne c hd parent parent' (by rw [htag]; decide), enter, enter, hn', hn]
  dsimp only
  obtain ⟨grid, hgrid⟩ := MeasureGrid.exists_begin_empty (α := α)
  rw [enterMeasure, enterMeasure, hgrid, hm]

omit hd in
/-- The root, pages and systems are passed. -/
theorem enter_of_passed {n : Node α} (hn : n.tag = .document ∨ n.IsFrame) (a : Option (Node α)) :
    s.enter c a n = (s, n, .proceed) := by
  rw [Node.IsFrame, Node.tag] at hn
  rw [enter]
  cases hk : n.kind with
  | document | page | system => rfl
  | _ => simp [hk, NodeKind.tag] at hn

omit hd in
theorem leave_of_passed {n : Node α} (hn : n.tag = .document ∨ n.IsFrame)
    (f : Forest (Node α)) : s.leave c n f = (s, n, f, .proceed) := by
  rw [Node.IsFrame, Node.tag] at hn
  rw [leave]
  cases hk : n.kind with
  | document | page | system => rfl
  | _ => simp [hk, NodeKind.tag] at hn

end AlignState

/-! ### States of two walks -/

/-- Time grids that alignment does not tell apart: `G` while symbols are collected, `S` while the
time-stamped control elements of the measure are, `G₁` once the grids are closed. -/
structure Tracks (G S G₁ : MeasureGrid α → MeasureGrid α → Prop) : Prop where
  begin : ∀ {g}, (MeasureGrid.empty : MeasureGrid α).begin = .ok g → G g g
  slot : ∀ {g g'}, G g g' → ∀ key, ∃ a a', g.slot key = .ok a ∧ g'.slot key = .ok a' ∧ G a a'
  addFootprint : ∀ {g g'}, G g g' → ∀ key staff rect,
    G (g.addFootprint key staff rect) (g'.addFootprint key staff rect)
  extend : ∀ {g g'}, G g g' → ∀ time, G (g.extend time) (g'.extend time)
  maxTime : ∀ {g g'}, G g g' → g'.maxTime = g.maxTime
  elapsed : ∀ {g g'}, G g g' → g.maxTime.Elapsed
  stamped : ∀ {g g'}, G g g' → S g g'
  timestampSlot : ∀ {g g'}, S g g' → ∀ {time : Fraction}, time.Elapsed →
    ∃ a a', g.timestampSlot time = .ok a ∧ g'.timestampSlot time = .ok a' ∧ S a a'
  finish : ∀ {g g'}, S g g' → ∃ a a', g.finish = .ok a ∧ g'.finish = .ok a' ∧ G₁ a a'
  closed : ∀ {g g'}, G₁ g g' → ∀ key staff rect,
    G₁ (g.addFootprint key staff rect) (g'.addFootprint key staff rect)

namespace AlignState

/-- Two states that differ in grids that alignment does not tell apart, and in marks. -/
def Beside (G : MeasureGrid α → MeasureGrid α → Prop) (K : List Mark → List Mark → Prop)
    (s t : AlignState α) : Prop :=
  ∃ grids marks, t = { s with grids, marks } ∧ List.Forall₂ G s.grids grids ∧ K s.marks marks

namespace Beside

variable {G S G₁ : MeasureGrid α → MeasureGrid α → Prop} {K : List Mark → List Mark → Prop}
  {s t : AlignState α}

section Marks

variable (hK : ∀ ms ms' m, K ms ms' → K (ms ++ [m]) (ms' ++ [m])) (h : Beside G K s t)

include hK h

omit [Scalar α] in
theorem markDuration (n : Node α) (reason : String) :
    Beside G K (s.markDuration n reason) (t.markDuration n reason) := by
  obtain ⟨grids, marks, rfl, hg, hm⟩ := h
  exact ⟨_, _, rfl, hg, hK _ _ _ hm⟩

omit [Scalar α] in
theorem refuse (n : Node α) (reason : DurationError) :
    Beside G K (s.refuse n reason) (t.refuse n reason) := by
  rw [AlignState.refuse, AlignState.refuse]
  split
  · exact h.markDuration hK n _
  · obtain ⟨grids, marks, rfl, hg, hm⟩ := h
    exact ⟨_, _, rfl, hg, hm⟩

omit [Scalar α] in
theorem advance (n : Node α) (time : Fraction) :
    Beside G K (s.advance n time).1 (t.advance n time).1 ∧
      (t.advance n time).2 = (s.advance n time).2 := by
  have hrefuse (reason : DurationError) := h.refuse hK n reason
  obtain ⟨grids, marks, rfl, hg, hm⟩ := h
  dsimp only [AlignState.advance]
  split
  · exact ⟨⟨_, _, rfl, hg, hm⟩, rfl⟩
  · exact ⟨hrefuse _, rfl⟩

omit [Scalar α] in
theorem enterRatio (n : Node α) (num base : UInt32) :
    Beside G K (s.enterRatio n num base).1 (t.enterRatio n num base).1 ∧
      (t.enterRatio n num base).2 = (s.enterRatio n num base).2 := by
  have hmark (reason : String) := h.markDuration hK n reason
  have hrefuse (reason : DurationError) := h.refuse hK n reason
  have hlayer : t.layer = s.layer := by
    obtain ⟨_, _, rfl, _⟩ := h
    rfl
  dsimp only [AlignState.enterRatio]
  rw [hlayer]
  split_ifs
  · exact ⟨hmark _, rfl⟩
  · split
    · exact ⟨h, rfl⟩
    · exact ⟨hrefuse _, rfl⟩

end Marks

omit [Scalar α] in
theorem reach (h : Beside G K s t) (e : Element) : Beside G K (s.reach e) (t.reach e) := by
  have hstate := h
  obtain ⟨grids, marks, rfl, hg, hm⟩ := h
  dsimp only [AlignState.reach, AlignState.location?]
  split
  · split_ifs
    · exact hstate
    · exact ⟨_, _, rfl, hg, hm⟩
  · exact hstate

section Grids

variable (hG : Tracks G S G₁) (h : Beside G K s t)

include h

omit [Scalar α] in
theorem updateGrid {f : MeasureGrid α → Except GridFault (MeasureGrid α)}
    (hf : ∀ g g', G g g' → ∃ a a', f g = .ok a ∧ f g' = .ok a' ∧ G a a') :
    Beside G K (s.updateGrid f) (t.updateGrid f) := by
  obtain ⟨grids, marks, rfl, hg, hm⟩ := h
  dsimp only [AlignState.updateGrid]
  cases hgrids : s.grids with
  | nil =>
    rw [hgrids, List.forall₂_nil_left_iff] at hg
    subst hg
    exact ⟨_, _, rfl, by rw [hgrids]; exact .nil, hm⟩
  | cons g outer =>
    rw [hgrids] at hg
    cases hg with
    | cons hfirst houter =>
      obtain ⟨a, a', ha, ha', hstep⟩ := hf _ _ hfirst
      dsimp only
      rw [ha, ha']
      exact ⟨_, _, rfl, .cons hstep houter, hm⟩

include hG

theorem request (key : SlotKey) : Beside G K (s.request key) (t.request key) :=
  h.updateGrid fun _ _ hg => hG.slot hg key

theorem draw (key : SlotKey) (rect : Option (Rect α)) :
    Beside G K (s.draw key rect) (t.draw key rect) := by
  cases rect with
  | none => exact h
  | some r =>
    have hstaff : t.staff = s.staff := by
      obtain ⟨_, _, rfl, _⟩ := h
      rfl
    show Beside G K (s.updateGrid fun g => .ok (g.addFootprint key s.staff r))
      (t.updateGrid fun g => .ok (g.addFootprint key t.staff r))
    rw [hstaff]
    exact h.updateGrid fun g g' hg => ⟨_, _, rfl, rfl, hG.addFootprint hg key s.staff r⟩

theorem placeGrace (onset : Fraction) (rank : Nat) (g : PendingGrace α) :
    Beside G K (s.placeGrace onset rank g) (t.placeGrace onset rank g) := by
  rw [AlignState.placeGrace, AlignState.placeGrace]
  have hs := h.request hG (.ofGrace onset rank)
  generalize s.request (.ofGrace onset rank) = s at hs
  generalize t.request (.ofGrace onset rank) = t at hs
  induction g generalizing s t with
  | nil => exact hs
  | cons d g ih =>
    have hgraces : t.graceSlots = s.graceSlots := by
      obtain ⟨_, _, rfl, _⟩ := hs
      rfl
    obtain ⟨grids, marks, heq, hg, hm⟩ := hs.draw hG (.ofGrace onset rank) d.rect
    rw [List.foldl_cons, List.foldl_cons]
    refine ih _ _ ?_
    dsimp only
    rw [heq, hgraces]
    exact ⟨_, _, rfl, hg, hm⟩

theorem placeGraces (onset : Fraction) (graces : List (PendingGrace α)) :
    Beside G K (s.placeGraces onset graces) (t.placeGraces onset graces) := by
  induction graces generalizing s t with
  | nil => exact h
  | cons g rest ih => exact ih (h.placeGrace hG onset _ g)

theorem flushGraces (onset : Fraction) :
    Beside G K (s.flushGraces onset) (t.flushGraces onset) := by
  obtain ⟨grids, marks, rfl, hg, hm⟩ := h
  exact placeGraces hG (s := { s with layer := { s.layer with graces := [] } })
    ⟨grids, marks, rfl, hg, hm⟩ onset s.layer.graces

theorem assign (n : Node α) (key : SlotKey) :
    Beside G K (s.assign n key).1 (t.assign n key).1 ∧
      (t.assign n key).2 = (s.assign n key).2 := by
  obtain ⟨grids, marks, heq, hg, hm⟩ := h.draw hG key (drawn n).rect
  dsimp only [AlignState.assign]
  rw [heq]
  exact ⟨⟨_, _, rfl, hg, hm⟩, rfl⟩

theorem assignAt (n : Node α) (key : SlotKey) :
    Beside G K (s.assignAt n key).1 (t.assignAt n key).1 ∧
      (t.assignAt n key).2 = (s.assignAt n key).2 :=
  (h.request hG key).assign hG n key

omit hG in
theorem record (n : Node α) (onset advance : Fraction) (y : α) (rect : Option (Rect α)) :
    Beside G K (s.record n onset advance y rect).1 (t.record n onset advance y rect).1 ∧
      (t.record n onset advance y rect).2 = (s.record n onset advance y rect).2 := by
  obtain ⟨grids, marks, rfl, hg, hm⟩ := h
  exact ⟨⟨_, _, rfl, hg, hm⟩, rfl⟩

end Grids

section Fields

variable (h : Beside G K s t)

include h

omit [Scalar α]

theorem layer : t.layer = s.layer := by
  obtain ⟨_, _, rfl, _⟩ := h
  rfl

theorem lines : t.lines = s.lines := by
  obtain ⟨_, _, rfl, _⟩ := h
  rfl

theorem staff : t.staff = s.staff := by
  obtain ⟨_, _, rfl, _⟩ := h
  rfl

theorem staves : t.staves = s.staves := by
  obtain ⟨_, _, rfl, _⟩ := h
  rfl

theorem signatures : t.signatures = s.signatures := by
  obtain ⟨_, _, rfl, _⟩ := h
  rfl

theorem collecting : t.collecting = s.collecting := by
  obtain ⟨_, _, rfl, _⟩ := h
  rfl

theorem fault : t.fault = s.fault := by
  obtain ⟨_, _, rfl, _⟩ := h
  rfl

theorem graceSlots : t.graceSlots = s.graceSlots := by
  obtain ⟨_, _, rfl, _⟩ := h
  rfl

theorem withLayer (layer : LayerCursor α) : Beside G K { s with layer } { t with layer } := by
  obtain ⟨grids, marks, rfl, hg, hm⟩ := h
  exact ⟨_, _, rfl, hg, hm⟩

theorem withSignatures (signatures : Signatures) :
    Beside G K { s with signatures } { t with signatures } := by
  obtain ⟨grids, marks, rfl, hg, hm⟩ := h
  exact ⟨_, _, rfl, hg, hm⟩

theorem outcome (v : Visit) : t.outcome v = s.outcome v := by
  rw [AlignState.outcome, AlignState.outcome, h.fault]

end Fields

section Symbols

variable (hG : Tracks G S G₁) (hK : ∀ ms ms' m, K ms ms' → K (ms ++ [m]) (ms' ++ [m]))
  (h : Beside G K s t) (c : AlignContext α)

include h

omit [Scalar α] in
theorem openChord (n : Node α) (e : Element) (onset : Fraction) (slot : Option SlotKey) :
    Beside G K (s.openChord n e onset slot) (t.openChord n e onset slot) := by
  obtain ⟨grids, marks, rfl, hg, hm⟩ := h
  unfold AlignState.openChord
  split
  · exact ⟨_, _, rfl, hg, hm⟩
  · exact ⟨_, _, rfl, hg, hm⟩

theorem symbolY (unit : α) (e : Element) : t.symbolY unit e = s.symbolY unit e := by
  obtain ⟨_, _, rfl, _⟩ := h
  rfl

include hG

theorem drawTimed (n : Node α) (grace : Bool) (onset time : Fraction) (y : α)
    (rect : Option (Rect α)) :
    Beside G K (s.drawTimed c n grace onset time y rect).1
        (t.drawTimed c n grace onset time y rect).1 ∧
      (t.drawTimed c n grace onset time y rect).2 =
        (s.drawTimed c n grace onset time y rect).2 := by
  obtain ⟨hs, hn⟩ := h.record n onset time y (if grace then c.metrics.graceRect rect else rect)
  unfold AlignState.drawTimed
  dsimp only
  rw [hn]
  cases grace with
  | true =>
    obtain ⟨grids, marks, heq, hg, hm⟩ := hs
    rw [if_pos rfl] at heq hg hm
    rw [if_pos rfl, if_pos rfl, if_pos rfl, heq]
    exact ⟨⟨_, _, rfl, hg, hm⟩, rfl⟩
  | false =>
    simp only [Bool.false_eq_true, if_false] at hs ⊢
    obtain ⟨hs₁, hn₁⟩ := ((hs.request hG (.ofKind onset .event)).flushGraces hG onset).assign hG
      (s.record n onset time y rect).2 (.ofKind onset .event)
    exact ⟨hs₁, by rw [hn₁]⟩

include hK

/-- A timed symbol whose duration has been looked at. -/
theorem timed (n : Node α) (e : Element) (onset time : Fraction) (y : α)
    (rect : Option (Rect α)) {r r' : AlignState α × Node α × Option SlotKey}
    (hr : s.drawTimed c n e.isGrace onset time y rect = r)
    (hr' : t.drawTimed c n e.isGrace onset time y rect = r') :
    Beside G K ((r.1.openChord r.2.1 e onset r.2.2).advance r.2.1 time).1
        ((r'.1.openChord r'.2.1 e onset r'.2.2).advance r'.2.1 time).1 ∧
      ((r'.1.openChord r'.2.1 e onset r'.2.2).advance r'.2.1 time).2 =
        ((r.1.openChord r.2.1 e onset r.2.2).advance r.2.1 time).2 := by
  obtain ⟨hs, hn⟩ := h.drawTimed hG c n e.isGrace onset time y rect
  rw [hr, hr'] at hs hn
  rw [hn]
  exact (hs.openChord r.2.1 e onset r.2.2).advance hK r.2.1 time

theorem enterTimed (n : Node α) (e : Element) (d : Duration) (rect : Option (Rect α)) :
    Beside G K (s.enterTimed c n e d rect).1 (t.enterTimed c n e d rect).1 ∧
      (t.enterTimed c n e d rect).2 = (s.enterTimed c n e d rect).2 := by
  unfold AlignState.enterTimed
  rw [h.layer]
  cases d.advance s.layer.tuplet with
  | ok time =>
    have hy := h.symbolY c.unit e
    dsimp only
    rw [hy]
    exact h.timed hG hK c n e s.layer.time time (s.symbolY c.unit e) rect rfl rfl
  | error reason =>
    have hs := h.refuse hK n reason
    have hy := hs.symbolY c.unit e
    dsimp only
    rw [hy]
    exact hs.timed hG hK c n e s.layer.time 0 ((s.refuse n reason).symbolY c.unit e) rect rfl rfl

theorem enterFullMeasure (n : Node α) (e : Element) (rect : Option (Rect α)) :
    Beside G K (s.enterFullMeasure c n e rect).1 (t.enterFullMeasure c n e rect).1 ∧
      (t.enterFullMeasure c n e rect).2 = (s.enterFullMeasure c n e rect).2 := by
  dsimp only [AlignState.enterFullMeasure]
  rw [h.layer, h.signatures, h.symbolY]
  obtain ⟨hs, hn⟩ := h.record n s.layer.time s.signatures.meter.measureDuration
    (s.symbolY c.unit e) rect
  rw [hn]
  obtain ⟨hs', hn'⟩ := hs.assignAt hG (s.record n s.layer.time s.signatures.meter.measureDuration
    (s.symbolY c.unit e) rect).2 (.ofKind s.layer.time .fullMeasure)
  rw [hn']
  exact hs'.advance hK _ _

omit hK in
theorem enterUntimed (n : Node α) (kind : SlotKind) (rect : Option (Rect α)) :
    Beside G K (s.enterUntimed n kind rect).1 (t.enterUntimed n kind rect).1 ∧
      (t.enterUntimed n kind rect).2 = (s.enterUntimed n kind rect).2 := by
  dsimp only [AlignState.enterUntimed]
  rw [h.layer]
  obtain ⟨hs, hn⟩ := h.record n s.layer.time 0 0 rect
  rw [hn]
  exact hs.assignAt hG _ (.ofKind s.layer.time kind)

theorem enterSymbol (n : Node α) (e : Element) (rect : Option (Rect α)) :
    Beside G K (s.enterSymbol c n e rect).1 (t.enterSymbol c n e rect).1 ∧
      (t.enterSymbol c n e rect).2 = (s.enterSymbol c n e rect).2 := by
  cases e with
  | note | rest | chord | space =>
    rw [AlignState.enterSymbol, AlignState.enterSymbol]
    exact h.enterTimed hG hK c n _ _ rect
  | measureRest | multiRest =>
    rw [AlignState.enterSymbol, AlignState.enterSymbol]
    exact h.enterFullMeasure hG hK c n _ rect
  | clef clef =>
    have hs := ((h.withLayer { s.layer with clef }).withSignatures
      (s.signatures.setClef s.staff clef)).enterUntimed hG n .clef rect
    dsimp only [AlignState.enterSymbol]
    rw [h.layer, h.signatures, h.staff]
    rw [h.staff] at hs
    exact hs
  | key sig =>
    have hs := (h.withSignatures (((Element.key sig).change?.map s.signatures.apply).getD
      s.signatures)).enterUntimed hG n .key rect
    dsimp only [AlignState.enterSymbol]
    rw [h.signatures]
    exact hs
  | meter sig =>
    have hs := (h.withSignatures (((Element.meter sig).change?.map s.signatures.apply).getD
      s.signatures)).enterUntimed hG n .meter rect
    dsimp only [AlignState.enterSymbol]
    rw [h.signatures]
    exact hs
  | barLine form =>
    rw [AlignState.enterSymbol, AlignState.enterSymbol]
    exact h.enterUntimed hG n .barLine rect
  | beam =>
    rw [AlignState.enterSymbol, AlignState.enterSymbol, h.layer]
    exact h.record n _ 0 0 none
  | tuplet num base =>
    obtain ⟨hs, hratio⟩ := h.enterRatio hK n num base
    have hr := (hs.withLayer { (s.enterRatio n num base).1.layer with
      tuplets := (s.enterRatio n num base).2 ::
        (s.enterRatio n num base).1.layer.tuplets }).record n
          (s.enterRatio n num base).1.layer.time 0 0 none
    dsimp only [AlignState.enterSymbol]
    rw [hratio, hs.layer]
    exact hr

omit hK in
theorem enterChordNote (chord : OpenChord) (n : Node α) (note : Note) (rect : Option (Rect α)) :
    Beside G K (s.enterChordNote c chord n note rect).1 (t.enterChordNote c chord n note rect).1 ∧
      (t.enterChordNote c chord n note rect).2 = (s.enterChordNote c chord n note rect).2 := by
  dsimp only [AlignState.enterChordNote, AlignState.yOf]
  rw [h.layer, h.lines]
  obtain ⟨hs, hn⟩ := h.record n chord.onset 0
    (locToY (note.location s.layer.clef) s.lines c.unit)
    (if chord.grace then c.metrics.graceRect rect else rect)
  rw [hn]
  cases chord.slot with
  | some key => exact hs.assign hG _ key
  | none => exact ⟨hs, rfl⟩

/-- A symbol looks at the handle of what it stands in. -/
theorem enterElement {parent parent' : Option (Node α)}
    (hparent : parent'.map Node.handle = parent.map Node.handle) (n : Node α) (e : Element) :
    Beside G K (s.enterElement c parent n e).1 (t.enterElement c parent' n e).1 ∧
      (t.enterElement c parent' n e).2 = (s.enterElement c parent n e).2 := by
  have hsymbol := h.enterSymbol hG hK c n e
    (c.metrics.element e c.unit (ScoreLayout.staffHeight s.lines c.unit))
  unfold AlignState.enterElement AlignState.staffHeight
  rw [h.layer, h.lines, hparent]
  dsimp only
  split
  · split
    · exact h.enterChordNote hG c _ n _ _
    · exact hsymbol
  · exact hsymbol

omit hG hK [Scalar α] in
theorem leaveElement (n : Node α) (e : Element) :
    Beside G K (s.leaveElement n e).1 (t.leaveElement n e).1 ∧
      (t.leaveElement n e).2 = (s.leaveElement n e).2 := by
  obtain ⟨grids, marks, rfl, hg, hm⟩ := h
  unfold AlignState.leaveElement
  cases e with
  | chord =>
    dsimp only
    split_ifs <;> exact ⟨⟨_, _, rfl, hg, hm⟩, rfl⟩
  | tuplet | _ => exact ⟨⟨_, _, rfl, hg, hm⟩, rfl⟩

end Symbols

end Beside

end AlignState

end ScoreLayout
