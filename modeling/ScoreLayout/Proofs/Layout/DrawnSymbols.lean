import ScoreLayout.Proofs.Layout.ContentSymbols
import ScoreLayout.Proofs.TimeGrids

/-!
# Symbols at slots that are drawn

Whatever slot a symbol gets, the time grid of its measure draws something there. Most symbols get
their slot while they are walked; a grace note and what stands below it get it from the books, which
name slots of the same grid.

## Main definitions

* `AlignState.Offers` — the innermost time grid draws something at a slot.
* `AlignState.Inside` — what holds of a state all through a layer.
* `AlignState.Fills` — what a step inside a measure does with a node.
* `Forest.SymbolsDrawn` — the symbols of all measures stand at slots that are drawn.

## Main results

* `AlignState.offers_staves` — walking the staves of a measure.
* `Document.WellFormed.symbolsDrawn_layout` — the symbols of a score after a layout.
-/

namespace ScoreLayout

variable {α : Type} [Scalar α]

namespace AlignState

variable {c : AlignContext α} {s s₁ s₂ : AlignState α} {n n₁ : Node α} {slot : Option SlotKey}

/-! ### Slots that a state offers -/

omit [Scalar α] in
/-- The innermost time grid draws something at a slot, unless the walk has broken down. -/
def Offers (s : AlignState α) (slot : Option SlotKey) : Prop :=
  ∀ key, slot = some key → s.fault = none → s.Has key

omit [Scalar α] in
theorem Offers.mono (h : s.Offers slot) (hs : s.Collects s₁) : s₁.Offers slot :=
  fun key hkey hfault => hs.has (h key hkey (hs.fault hfault))

omit [Scalar α] in
theorem offers_none (s : AlignState α) : s.Offers none := fun _ hkey => by cases hkey

omit [Scalar α] in
/-- A state inside a layer, whose measure has a time grid. The slot of an open chord is drawn. -/
structure Inside (s : AlignState α) : Prop where
  grids : s.grids ≠ []
  chord : ∀ o, s.layer.chord = some o → s.Offers o.slot

omit [Scalar α] in
/-- What a step inside a measure does with a node. -/
structure Fills (s : AlignState α) (n : Node α) (s₁ : AlignState α) (n₁ : Node α) : Prop extends
    Collects s s₁ where
  inside : s.Inside → s₁.Inside
  slot : s.Inside → s.Offers n.layout.slot → s₁.Offers n₁.layout.slot

namespace Fills

variable {n₂ : Node α}

omit [Scalar α] in
theorem trans (h : s.Fills n s₁ n₁) (h' : s₁.Fills n₁ s₂ n₂) : s.Fills n s₂ n₂ where
  toCollects := h.toCollects.trans h'.toCollects
  inside := h'.inside ∘ h.inside
  slot hs hn := h'.slot (h.inside hs) (h.slot hs hn)

omit [Scalar α] in
/-- A step that opens no chord and keeps the slot of its node. -/
theorem of_collects (h : s.Collects s₁) (hchord : s₁.layer.chord = s.layer.chord)
    (hslot : n₁.layout.slot = n.layout.slot) : s.Fills n s₁ n₁ where
  toCollects := h
  inside hs := ⟨h.ne_nil_iff.2 hs.grids, fun o ho => (hs.chord o (hchord ▸ ho)).mono h⟩
  slot _ hn := hslot ▸ hn.mono h

omit [Scalar α] in
/-- A step that opens no chord and gives its node a slot that is drawn. -/
theorem of_offers (h : s.Collects s₁) (hchord : s₁.layer.chord = s.layer.chord)
    (hslot : s.grids ≠ [] → s₁.Offers n₁.layout.slot) : s.Fills n s₁ n₁ where
  toCollects := h
  inside := (of_collects (n := n) h hchord rfl).inside
  slot hs _ := hslot hs.grids

end Fills

/-! ### Symbols -/

theorem fills_record (s : AlignState α) (n : Node α) (onset time : Fraction) (y : α)
    (rect : Option (Rect α)) :
    s.Fills n (s.record n onset time y rect).1 (s.record n onset time y rect).2 :=
  .of_collects (s.collects_record n onset time y rect).1 (s.draws_record n onset time y rect).chord
    rfl

theorem fills_assignAt (s : AlignState α) (n : Node α) {key : SlotKey}
    (hkey : key.zone = .content) : s.Fills n (s.assignAt n key).1 (s.assignAt n key).2 := by
  obtain ⟨hcollects, -, hhas⟩ := s.collects_assignAt n key
  refine .of_offers hcollects (s.draws_assignAt n hkey).chord fun hs key' hkey' hfault => ?_
  cases hkey'
  exact hhas hfault hs

omit [Scalar α] in
theorem fills_advance (s : AlignState α) (n : Node α) (time : Fraction) :
    s.Fills n (s.advance n time).1 (s.advance n time).2 := by
  obtain ⟨hcollects, -, hsame⟩ := s.collects_advance n time
  obtain ⟨reached, longest, refused, fault, n', heq, -⟩ := s.advance_eq n time
  exact .of_collects hcollects (by rw [heq]) hsame.slot

theorem fills_drawTimed (c : AlignContext α) (s : AlignState α) (n : Node α) (grace : Bool)
    (onset time : Fraction) (y : α) (rect : Option (Rect α))
    {r : AlignState α × Node α × Option SlotKey} (hr : s.drawTimed c n grace onset time y rect = r) :
    s.Fills n r.1 r.2.1 ∧ (s.grids ≠ [] → r.1.Offers r.2.2) := by
  obtain ⟨hcollects, -, -, hslot, -, hdrawn⟩ := collects_drawTimed c s n grace onset time y rect hr
  have hchord := (s.draws_drawTimed c n grace onset time y rect).1.chord
  rw [hr] at hchord
  cases grace with
  | true =>
    rw [hslot]
    exact ⟨.of_collects hcollects hchord (by rw [← hr]; rfl), fun _ => offers_none _⟩
  | false =>
    obtain ⟨hnode, hhas⟩ := hdrawn (by decide)
    have hoffers (hs : s.grids ≠ []) : r.1.Offers (some (.ofKind onset .event)) := by
      intro key hkey hfault
      cases hkey
      exact hhas hfault hs
    rw [hslot]
    exact ⟨.of_offers hcollects hchord fun hs => hnode ▸ hoffers hs, hoffers⟩

omit [Scalar α] in
theorem fills_openChord (n : Node α) (e : Element) (onset : Fraction)
    (hslot : s.grids ≠ [] → s.Offers slot) : s.Fills n (s.openChord n e onset slot) n := by
  obtain ⟨hcollects, -⟩ := s.collects_openChord n e onset slot
  refine ⟨hcollects, fun hs => ⟨hcollects.ne_nil_iff.2 hs.grids, fun o ho => ?_⟩,
    fun _ hn => hn.mono hcollects⟩
  cases e with
  | chord d =>
    cases ho
    exact (hslot hs.grids).mono hcollects
  | _ => exact (hs.chord o ho).mono hcollects

theorem fills_timed (c : AlignContext α) (s : AlignState α) (n : Node α) (e : Element)
    (onset time : Fraction) (y : α) (rect : Option (Rect α))
    {r : AlignState α × Node α × Option SlotKey}
    (hr : s.drawTimed c n e.isGrace onset time y rect = r) :
    s.Fills n ((r.1.openChord r.2.1 e onset r.2.2).advance r.2.1 time).1
      ((r.1.openChord r.2.1 e onset r.2.2).advance r.2.1 time).2 := by
  obtain ⟨hdraw, hoffers⟩ := fills_drawTimed c s n e.isGrace onset time y rect hr
  have hopen := fills_openChord r.2.1 e onset fun hs => hoffers (hdraw.ne_nil_iff.1 hs)
  exact hdraw.trans (hopen.trans (fills_advance ..))

theorem fills_enterTimed (c : AlignContext α) (s : AlignState α) (n : Node α) (e : Element)
    (d : Duration) (rect : Option (Rect α)) :
    s.Fills n (s.enterTimed c n e d rect).1 (s.enterTimed c n e d rect).2 := by
  unfold enterTimed
  cases d.advance s.layer.tuplet with
  | ok time => exact fills_timed c s n e s.layer.time time (s.symbolY c.unit e) rect rfl
  | error reason =>
    obtain ⟨refused, fault, heq, -, hfault⟩ := s.refuse_eq n reason
    have hrefuse : s.Fills n (s.refuse n reason) n :=
      .of_collects (heq ▸ collects_of_eq rfl rfl fun h => (hfault h).1) (by rw [heq]) rfl
    exact hrefuse.trans
      (fills_timed c _ n e s.layer.time 0 ((s.refuse n reason).symbolY c.unit e) rect rfl)

theorem fills_enterUntimed (s : AlignState α) (n : Node α) {kind : SlotKind}
    (hkind : ∀ time, (SlotKey.ofKind time kind).zone = .content) (rect : Option (Rect α)) :
    s.Fills n (s.enterUntimed n kind rect).1 (s.enterUntimed n kind rect).2 :=
  (s.fills_record n _ 0 0 rect).trans (fills_assignAt _ _ (hkind _))

theorem fills_enterFullMeasure (c : AlignContext α) (s : AlignState α) (n : Node α) (e : Element)
    (rect : Option (Rect α)) :
    s.Fills n (s.enterFullMeasure c n e rect).1 (s.enterFullMeasure c n e rect).2 :=
  (s.fills_record n _ _ _ rect).trans ((fills_assignAt _ _ rfl).trans (fills_advance ..))

/-- A symbol that is no note of an open chord. -/
theorem fills_enterSymbol (c : AlignContext α) (s : AlignState α) (n : Node α) (e : Element)
    (rect : Option (Rect α)) :
    s.Fills n (s.enterSymbol c n e rect).1 (s.enterSymbol c n e rect).2 := by
  have hstate {s' : AlignState α} (hgrids : s'.grids = s.grids)
      (hfound : s'.graceSlots = s.graceSlots) (hfault : s'.fault = none → s.fault = none)
      (hchord : s'.layer.chord = s.layer.chord) : s.Fills n s' n :=
    .of_collects (collects_of_eq hgrids hfound hfault) hchord rfl
  unfold enterSymbol
  cases e with
  | note | rest | chord | space =>
    dsimp only
    exact fills_enterTimed ..
  | measureRest | multiRest =>
    dsimp only
    exact fills_enterFullMeasure ..
  | clef | key | meter | barLine =>
    dsimp only
    refine .trans (hstate ?_ ?_ ?_ ?_) (fills_enterUntimed _ n (fun _ => rfl) rect)
    all_goals first | rfl | exact id
  | beam =>
    dsimp only
    exact fills_record ..
  | tuplet num base =>
    obtain ⟨refused, fault, heq, -, hfault⟩ := s.enterRatio_eq n num base
    dsimp only
    rw [heq]
    refine .trans (hstate ?_ ?_ ?_ ?_) (fills_record ..)
    all_goals first | rfl | exact hfault

/-- A note of an open chord takes the slot of the chord. -/
theorem fills_enterChordNote (c : AlignContext α) (s : AlignState α) {o : OpenChord}
    (ho : s.layer.chord = some o) (n : Node α) (note : Note) (rect : Option (Rect α)) :
    s.Fills n (s.enterChordNote c o n note rect).1 (s.enterChordNote c o n note rect).2 := by
  rw [enterChordNote]
  dsimp only
  generalize (if o.grace then c.metrics.graceRect rect else rect) = rect
  have hrecord := s.fills_record n o.onset 0 (s.yOf c.unit (note.location s.layer.clef)) rect
  have hchord := (s.draws_record n o.onset 0 (s.yOf c.unit (note.location s.layer.clef)) rect).chord
  generalize s.record n o.onset 0 (s.yOf c.unit (note.location s.layer.clef)) rect = r
    at hrecord hchord ⊢
  split
  · rename_i key hkey
    obtain ⟨hassign, -⟩ := r.1.collects_assign r.2 key
    have hopen := hchord.trans ho
    refine hrecord.trans ⟨hassign, fun hs => ?_, fun hs _ => ?_⟩
    · exact ⟨hassign.ne_nil_iff.2 hs.grids, fun o' ho' =>
        (hs.chord o' ((draws_assign r.1 r.2 key).chord ▸ ho')).mono hassign⟩
    · have hoffers := (hs.chord o hopen).mono hassign
      rw [hkey] at hoffers
      exact hoffers
  · exact hrecord

omit [Scalar α] in
theorem fills_reach (s : AlignState α) (n : Node α) (e : Element) : s.Fills n (s.reach e) n := by
  obtain ⟨fault, heq⟩ := s.exists_reach e
  refine .of_collects (collects_of_eq ?_ ?_ fun h => reach_of_fault h ▸ h) ?_ rfl
  all_goals rw [heq]

theorem fills_enterElement (c : AlignContext α) (s : AlignState α) (above : Option (Node α))
    (n : Node α) (e : Element) :
    s.Fills n (s.enterElement c above n e).1 (s.enterElement c above n e).2 := by
  unfold enterElement
  dsimp only
  split
  · rename_i o note hopen
    split_ifs
    · exact fills_enterChordNote c s hopen n note _
    · exact fills_enterSymbol ..
  · exact fills_enterSymbol ..

omit [Scalar α] in
theorem fills_leaveElement (s : AlignState α) (n : Node α) (e : Element) :
    s.Fills n (s.leaveElement n e).1 (s.leaveElement n e).2 := by
  have hslot := (s.sameSlot_leaveElement n e).slot
  have hclosed : (s.leaveElement n e).1.layer.chord = none ∨
      (s.leaveElement n e).1.layer.chord = s.layer.chord := by
    unfold leaveElement
    dsimp only
    split
    · split_ifs
      · exact .inl rfl
      · exact .inr rfl
    · exact .inr rfl
    · exact .inr rfl
  have hcollects : s.Collects (s.leaveElement n e).1 := by
    unfold leaveElement
    dsimp only
    split
    · split_ifs <;> exact collects_of_eq rfl rfl id
    · exact collects_of_eq rfl rfl id
    · exact .refl s
  refine ⟨hcollects, fun hs => ⟨hcollects.ne_nil_iff.2 hs.grids, fun o ho => ?_⟩,
    fun _ hn => hslot ▸ hn.mono hcollects⟩
  rcases hclosed with hnone | hsame
  · simp [hnone] at ho
  · exact (hs.chord o (hsame ▸ ho)).mono hcollects

/-! ### Walking inside a measure -/

/-- What entering a node inside a measure does. -/
theorem fills_enter (hn : n.tag ≠ .measure) {above : Option (Node α)} {v : Visit}
    (h : (alignPass c).enter s above n = (s₁, n₁, v)) : s.Fills n s₁ n₁ := by
  dsimp only [alignPass] at h
  rw [enter] at h
  rw [Node.tag] at hn
  have hsame {s' : AlignState α} {n' : Node α} (hgrids : s'.grids = s.grids)
      (hfound : s'.graceSlots = s.graceSlots) (hfault : s'.fault = s.fault)
      (hchord : s'.layer.chord = s.layer.chord) (hslot : n'.layout.slot = n.layout.slot) :
      s.Fills n s' n' :=
    .of_collects (collects_of_eq hgrids hfound fun hnone => hfault ▸ hnone) hchord hslot
  cases hk : n.kind with
  | measure => simp [hk, NodeKind.tag] at hn
  | element e =>
    rw [hk] at h
    dsimp only at h
    split_ifs at h
    · cases h
      exact (fills_reach s n e).trans (fills_enterElement c (s.reach e) above n e)
    · cases h
      exact hsame rfl rfl rfl rfl rfl
  | layer k =>
    rw [hk] at h
    cases h
    have hcollects : s.Collects (s.enterLayer n).1 := collects_of_eq rfl rfl id
    exact ⟨hcollects, fun hs => ⟨hs.grids, fun o ho => by cases ho⟩, fun _ hn => hn.mono hcollects⟩
  | document | page | system | staff | control | change | systemBreak | pageBreak =>
    rw [hk] at h
    cases h
    exact hsame rfl rfl rfl rfl rfl

/-- What leaving a node inside a measure does. -/
theorem fills_leave (hn : n.tag ≠ .measure)
    {whole : Node α → Forest (Node α) → Forest (Node α)} {below below₁ : Forest (Node α)} {v : Visit}
    (h : (alignPass c).leave s whole n below = (s₁, n₁, below₁, v)) :
    s.Fills n s₁ n₁ ∧ below₁ = below := by
  dsimp only [alignPass] at h
  rw [leave] at h
  rw [Node.tag] at hn
  cases hk : n.kind with
  | measure => simp [hk, NodeKind.tag] at hn
  | element e =>
    rw [hk] at h
    cases h
    exact ⟨fills_leaveElement .., rfl⟩
  | layer k =>
    rw [hk] at h
    cases h
    refine ⟨?_, rfl⟩
    by_cases hs : s.collecting
    · refine .of_collects (collects_leaveLayer hs).1 ?_ rfl
      rw [leaveLayer, if_pos hs]
      exact ((s.draws_flushGraces s.layer.time).chord.symm ▸ by
        rw [updateGrid]
        split
        · rfl
        · rfl)
    · rw [leaveLayer, if_neg hs]
      exact .of_collects (.refl s) rfl rfl
  | document | page | system | staff | control | change | systemBreak | pageBreak =>
    rw [hk] at h
    cases h
    exact ⟨.of_collects (.refl s) rfl rfl, rfl⟩

theorem tag_enter {above : Option (Node α)} {v : Visit}
    (h : (alignPass c).enter s above n = (s₁, n₁, v)) : n₁.tag = n.tag := by
  have hkeeps := (keeps_enter c s n above).tag
  rwa [show s.enter c above n = (s₁, n₁, v) from h] at hkeeps

/-- In a layer every node gets a slot that the time grid draws, if it gets one. -/
theorem offers_symbols {s : AlignState α} {above : Option (Node α)} {f : Forest (Node α)}
    {s' : AlignState α} {f' : Forest (Node α)}
    (h : Forest.Completes (alignPass c) above s f s' f')
    (hf : ∀ n ∈ f.toList, n.tag ≠ .measure ∧ n.layout.slot = none) (hs : s.Inside) :
    s.Collects s' ∧ s'.Inside ∧ ∀ n' ∈ f'.toList, s'.Offers n'.layout.slot := by
  induction h with
  | nil => exact ⟨.refl _, hs, fun n hn => absurd hn List.not_mem_nil⟩
  | @skip above s s₁ s₂ b b₁ children siblings siblings' henter _ ih =>
    rw [Forest.toList, List.forall_mem_cons, List.forall_mem_append] at hf
    obtain ⟨⟨htag, hslot⟩, hchildren, hsiblings⟩ := hf
    have hfills := fills_enter htag henter
    obtain ⟨hcollects, hinside, hrest⟩ := ih hsiblings (hfills.inside hs)
    refine ⟨hfills.toCollects.trans hcollects, hinside, ?_⟩
    rw [Forest.toList, List.forall_mem_cons, List.forall_mem_append]
    refine ⟨(hfills.slot hs (hslot ▸ s.offers_none)).mono hcollects, fun n hn => ?_, hrest⟩
    rw [(hchildren n hn).2]
    exact offers_none _
  | @walk above s s₁ s₂ s₃ s₄ b b₁ b₂ children siblings children₁ children₂ siblings' whole v henter
      _ hleave _ _ ihbelow ihbeside =>
    rw [Forest.toList, List.forall_mem_cons, List.forall_mem_append] at hf
    obtain ⟨⟨htag, hslot⟩, hchildren, hsiblings⟩ := hf
    have henters := fills_enter htag henter
    obtain ⟨hbelow, hinside₂, hdeep⟩ := ihbelow hchildren (henters.inside hs)
    obtain ⟨hleaves, rfl⟩ := fills_leave (tag_enter henter ▸ htag) hleave
    obtain ⟨hbeside, hinside₄, hrest⟩ := ihbeside hsiblings (hleaves.inside hinside₂)
    refine ⟨henters.toCollects.trans (hbelow.trans (hleaves.toCollects.trans hbeside)), hinside₄, ?_⟩
    rw [Forest.toList, List.forall_mem_cons, List.forall_mem_append]
    refine ⟨?_, fun n hn => (hdeep n hn).mono (hleaves.toCollects.trans hbeside), hrest⟩
    have hnode := (henters.slot hs (hslot ▸ s.offers_none)).mono hbelow
    exact (hleaves.slot hinside₂ hnode).mono hbeside

/-- The nodes above the symbols of a measure get no slot. -/
theorem slot_enter_of_ne (hm : n.tag ≠ .measure) (he : n.tag ≠ .element) {above : Option (Node α)}
    {v : Visit} (h : (alignPass c).enter s above n = (s₁, n₁, v)) :
    n₁.layout.slot = n.layout.slot := by
  dsimp only [alignPass] at h
  rw [enter] at h
  rw [Node.tag] at hm he
  cases hk : n.kind with
  | measure | element => simp [hk, NodeKind.tag] at hm he
  | document | page | system | staff | layer | control | change | systemBreak | pageBreak =>
    rw [hk] at h
    cases h
    rfl

/-- Those nodes are left as they are. -/
theorem eq_of_leave_of_ne (hm : n.tag ≠ .measure) (he : n.tag ≠ .element)
    {whole : Node α → Forest (Node α) → Forest (Node α)} {below below₁ : Forest (Node α)} {v : Visit}
    (h : (alignPass c).leave s whole n below = (s₁, n₁, below₁, v)) : n₁ = n := by
  dsimp only [alignPass] at h
  rw [leave] at h
  rw [Node.tag] at hm he
  cases hk : n.kind with
  | measure | element => simp [hk, NodeKind.tag] at hm he
  | document | page | system | staff | layer | control | change | systemBreak | pageBreak =>
    rw [hk] at h
    cases h
    rfl

/-- In a measure every node gets a slot that the time grid draws, if it gets one. -/
theorem offers_staves {s : AlignState α} {above : Option (Node α)} {f : Forest (Node α)}
    {s' : AlignState α} {f' : Forest (Node α)}
    (h : Forest.Completes (alignPass c) above s f s' f') (hf : f.Nested)
    (hroots : ∀ n ∈ f.roots, n.tag = .staff ∨ n.tag = .layer ∨ n.tag = .control)
    (hslots : ∀ n ∈ f.toList, n.layout.slot = none) (hs : s.grids ≠ []) :
    s.Collects s' ∧ ∀ n' ∈ f'.toList, s'.Offers n'.layout.slot := by
  have hplain {n : Node α} (hn : n.tag = .staff ∨ n.tag = .layer ∨ n.tag = .control) :
      n.tag ≠ .measure ∧ n.tag ≠ .element := by
    rcases hn with hn | hn | hn <;> simp [hn]
  induction h with
  | nil => exact ⟨.refl _, fun n hn => absurd hn List.not_mem_nil⟩
  | @skip above s s₁ s₂ b b₁ children siblings siblings' henter _ ih =>
    rw [Forest.roots, List.forall_mem_cons] at hroots
    rw [Forest.toList, List.forall_mem_cons, List.forall_mem_append] at hslots
    obtain ⟨hm, he⟩ := hplain hroots.1
    have hcollects := (fills_enter hm henter).toCollects
    obtain ⟨hbeside, hrest⟩ := ih hf.2.2 hroots.2 hslots.2.2 (hcollects.ne_nil_iff.2 hs)
    refine ⟨hcollects.trans hbeside, ?_⟩
    rw [Forest.toList, List.forall_mem_cons, List.forall_mem_append,
      slot_enter_of_ne hm he henter, hslots.1]
    refine ⟨offers_none _, fun n hn => ?_, hrest⟩
    rw [hslots.2.1 n hn]
    exact offers_none _
  | @walk above s s₁ s₂ s₃ s₄ b b₁ b₂ children siblings children₁ children₂ siblings' whole v henter
      hbelow hleave _ _ ihbelow ihbeside =>
    obtain ⟨htakes, hchildren, hsiblings⟩ := hf
    rw [Forest.roots, List.forall_mem_cons] at hroots
    rw [Forest.toList, List.forall_mem_cons, List.forall_mem_append] at hslots
    obtain ⟨hm, he⟩ := hplain hroots.1
    have henters := fills_enter hm henter
    have hslot₁ := slot_enter_of_ne hm he henter
    have htag₁ := tag_enter henter
    obtain ⟨hleaves, rfl⟩ := fills_leave (htag₁ ▸ hm) hleave
    -- symbols stand below layers only
    obtain ⟨hcollects, hdeep⟩ : s₁.Collects s₂ ∧ ∀ n ∈ children₂.toList, s₂.Offers n.layout.slot := by
      by_cases hlayer : b.tag = .layer
      · obtain ⟨k, hb⟩ := Node.exists_layer hlayer
        obtain ⟨-, rfl⟩ := enter_of_layer hb henter
        have hsymbols : children.Symbolic := hchildren.symbolic fun n hn =>
          NodeKind.tag_of_layer hlayer (htakes n hn)
        obtain ⟨hcollects, -, hdeep⟩ := offers_symbols hbelow
          (fun n hn => ⟨by rw [hsymbols.tag n hn]; decide, hslots.2.1 n hn⟩)
          ⟨henters.ne_nil_iff.2 hs, fun o ho => by cases ho⟩
        exact ⟨hcollects, hdeep⟩
      · refine ihbelow hchildren (fun n hn => ?_) hslots.2.1 (henters.ne_nil_iff.2 hs)
        have htakes := htakes n hn
        have hb := hroots.1
        rw [Node.tag] at hb hlayer ⊢
        cases hk : b.kind <;> cases hk' : n.kind <;>
          simp [hk, hk', NodeKind.accepts, NodeKind.tag] at htakes hb hlayer ⊢
    have hslot₂ : b₂.layout.slot = none := by
      rw [eq_of_leave_of_ne (htag₁ ▸ hm) (htag₁ ▸ he) hleave, hslot₁, hslots.1]
    have hthrough := hcollects.trans hleaves.toCollects
    obtain ⟨hbeside, hrest⟩ := ihbeside hsiblings hroots.2 hslots.2.2
      (hthrough.ne_nil_iff.2 (henters.ne_nil_iff.2 hs))
    refine ⟨henters.toCollects.trans (hthrough.trans hbeside), ?_⟩
    rw [Forest.toList, List.forall_mem_cons, List.forall_mem_append, hslot₂]
    exact ⟨offers_none _, fun n hn => (hdeep n hn).mono (hleaves.toCollects.trans hbeside), hrest⟩

end AlignState

/-! ### Measures -/

omit [Scalar α] in
/-- The symbols of all measures of a forest stand at slots that are drawn, some of them only in the
books. -/
def Forest.SymbolsDrawn (found : List (Handle × SlotKey)) (f : Forest (Node α)) : Prop :=
  ∀ n below m, HasTree n below f → n.kind = .measure m → ∀ e ∈ below.toList, e.tag = .element →
    ∀ key, (found.lookup e.handle).or e.layout.slot = some key → m.grid.Has key

namespace Forest.SymbolsDrawn

variable {found found' : List (Handle × SlotKey)} {f f' below siblings : Forest (Node α)}
  {n : Node α}

omit [Scalar α] in
theorem mono (h : f.SymbolsDrawn found)
    (hfound : ∀ m ∈ f.toList, found'.lookup m.handle = found.lookup m.handle) :
    f.SymbolsDrawn found' := by
  intro n below m htree hn e he htag key hkey
  rw [hfound e (htree.mem_of_mem he)] at hkey
  exact h n below m htree hn e he htag key hkey

omit [Scalar α] in
theorem cons (hn : n.tag ≠ .measure) (hbelow : below.SymbolsDrawn found)
    (hsiblings : siblings.SymbolsDrawn found) : (Forest.cons n below siblings).SymbolsDrawn found := by
  intro k under m htree hk
  cases htree with
  | here => exact absurd (by rw [Node.tag, hk]; rfl) hn
  | deeper _ h => exact hbelow k under m h hk
  | beside _ _ h => exact hsiblings k under m h hk

omit [Scalar α] in
/-- What stands below the roots. -/
theorem branches (h : f.SymbolsDrawn found) : f.branches.SymbolsDrawn found :=
  fun n below m htree => h n below m (Forest.HasTree.of_branches htree)

omit [Scalar α] in
/-- Once written, the books are not needed any more. -/
theorem settle (h : Forall₂ (Node.Settles found) f f') (hf : f.SymbolsDrawn found) :
    f'.SymbolsDrawn [] := by
  intro n' below' m' htree hn' e' he' htag key hkey
  obtain ⟨n, below, hn, hnn, hbelow⟩ := h.flip.hasTree htree
  obtain ⟨m, hm, houtline⟩ := hnn.grid m' hn'
  obtain ⟨e, he, hee⟩ := exists_mem_of_forall₂ hbelow.flip.toList he'
  have htag₀ : e.tag = .element := hee.tag ▸ htag
  have hhas := hf n below m hn hm e he htag₀ key ((hee.slot htag₀).symm.trans hkey)
  rwa [MeasureGrid.has_iff_outline, houtline, ← MeasureGrid.has_iff_outline]

end Forest.SymbolsDrawn

namespace AlignState

variable {c : AlignContext α} {s s₁ s₂ : AlignState α} {n n' : Node α}
  {below below' siblings siblings' : Forest (Node α)}

/-- The staves of a measure, with what the books say of their symbols. -/
theorem Slots.drawn {f f' : Forest (Node α)} (h : s.Slots s₁ f f')
    (hsame : Forest.Forall₂ Keeps f f') (hgrids : s.grids ≠ []) (hfault : s₁.fault = none)
    (hfree : ∀ h ∈ f.toList.map Node.handle, s.graceSlots.lookup h = none)
    (hoffers : ∀ n ∈ f'.toList, s₁.Offers n.layout.slot) :
    ∀ e ∈ f'.toList, ∀ key, (s₁.graceSlots.lookup e.handle).or e.layout.slot = some key →
      s₁.Has key := by
  intro e he key hkey
  cases hlookup : s₁.graceSlots.lookup e.handle with
  | none =>
    rw [hlookup, Option.none_or] at hkey
    exact hoffers e he key hkey hfault
  | some found =>
    rw [hlookup, Option.some_or, Option.some.injEq] at hkey
    subst hkey
    obtain ⟨l, l', hl, -⟩ := List.lookup_eq_some_iff.1 hlookup
    have hmem : (e.handle, found) ∈ s₁.graceSlots := by simp [hl]
    refine (h.found hfault hgrids _ hmem).resolve_left fun hin => ?_
    -- before this measure the books said nothing of its symbols
    obtain ⟨e₀, he₀, hee⟩ := exists_mem_of_forall₂ hsame.toList he
    have hnone := hfree e.handle (hee.handle ▸ List.mem_map_of_mem he₀)
    simpa using List.lookup_eq_none_iff.1 hnone _ hin

/-- A measure, whose staves are walked with a grid of its own. -/
theorem drawn_measure {m' : Measure α} {grid : MeasureGrid α} (hgrids : s₂.grids = grid :: s.grids)
    (hdrawn : ∀ e ∈ below'.toList, ∀ key,
      (s₂.graceSlots.lookup e.handle).or e.layout.slot = some key → s₂.Has key)
    (houter : ∀ b ∈ (s₂.leaveMeasure c n' m' below').2.2.toList, b.tag ≠ .measure)
    (hend : (s₂.leaveMeasure c n' m' below').1.fault = none) :
    (Forest.tree (s₂.leaveMeasure c n' m' below').2.1
      (s₂.leaveMeasure c n' m' below').2.2).SymbolsDrawn
        (s₂.leaveMeasure c n' m' below').1.graceSlots := by
  obtain ⟨grid', hnode, hgrows, hfound, hsame⟩ := grows_leaveMeasure hgrids hend
  intro b children k hb hk e he htag key hkey
  cases hb with
  | here =>
    rw [hnode] at hk
    obtain rfl := NodeKind.measure.inj hk
    obtain ⟨under, hunder⟩ := Forest.exists_hasTree he
    have hmem := (hsame e under hunder (by rw [htag]; decide)).mem
    obtain ⟨g, hg, hhas⟩ := hdrawn e hmem key (hfound ▸ hkey)
    rw [hgrids] at hg
    exact hgrows.has key (Option.some.inj hg ▸ hhas)
  | deeper _ h => exact absurd (by rw [Node.tag, hk]; rfl) (houter b h.mem)
  | beside _ _ h => cases h

/-- The trees of a score. -/
theorem drawn_score {s : AlignState α} {above : Option (Node α)} {f : Forest (Node α)}
    {s' : AlignState α} {f' : Forest (Node α)}
    (h : Forest.Completes (alignPass c) above s f s' f') (hf : f.Nested)
    (hroots : ∀ n ∈ f.roots, IsOuter n) (hids : (f.toList.map Node.id).Nodup)
    (hhandles : (f.toList.map Node.handle).Nodup) (hunder : f.HandlesBelow c.symbolsBelow)
    (hopen : ∀ g ∈ s.grids, g.Open) (hfault : s.fault = none)
    (hfree : ∀ h ∈ f.toList.map Node.handle, s.graceSlots.lookup h = none)
    (hslots : ∀ n ∈ f.toList, n.layout.slot = none) : f'.SymbolsDrawn s'.graceSlots := by
  have hsame := keeps_completes h
  induction h with
  | nil => exact fun _ _ _ h => by cases h
  | @skip above s s₁ s₂ b b₁ children siblings siblings' henter hbeside ih =>
    rw [Forest.roots, List.forall_mem_cons] at hroots
    rw [Forest.toList, List.forall_mem_cons, List.forall_mem_append] at hslots
    obtain ⟨k, hb⟩ := exists_control_of_skip hroots.1 henter
    obtain rfl := eq_nil_of_control hb hf.1
    obtain ⟨rfl, rfl, -⟩ := enter_of_control hb henter
    refine .cons (by rw [Node.tag, hb]; simp [NodeKind.tag]) (fun _ _ _ h => by cases h) ?_
    exact ih hf.2.2 hroots.2 (Forest.nodup_of_cons hids).2 (Forest.nodup_of_cons hhandles).2
      hunder.beside hopen hfault (fun h hh => hfree h (Forest.mem_map_cons (.inr hh))) hslots.2.2
      (keeps_completes hbeside)
  | @walk above s s₁ s₂ s₃ s₄ b b₁ b₂ children siblings children₁ children₂ siblings' whole v henter
      hbelow hleave hgo hbeside ihbelow ihbeside =>
    rw [Forest.roots, List.forall_mem_cons] at hroots
    rw [Forest.toList, List.forall_mem_cons, List.forall_mem_append] at hslots
    obtain ⟨htakes, hchildren, hsiblings⟩ := hf
    obtain ⟨hidsChildren, hidsSiblings⟩ := Forest.nodup_of_cons hids
    obtain ⟨hhandlesChildren, hhandlesSiblings⟩ := Forest.nodup_of_cons hhandles
    have hfreeChildren : ∀ h ∈ children.toList.map Node.handle, s.graceSlots.lookup h = none :=
      fun h hh => hfree h (Forest.mem_map_cons (.inl hh))
    have hkeeps : Forest.Forall₂ Keeps (.tree b children) (.tree b₂ children₂) := by
      cases hsame with
      | cons hn hc _ => exact .cons hn hc .nil
    have hwalk : Forest.Completes (alignPass c) above s (.tree b children) s₃
        (.tree b₂ children₂) := .walk henter hbelow hleave hgo (.nil above s₃)
    have hidsTree : ((Forest.tree b children).toList.map Node.id).Nodup := by
      rw [Forest.toList, ← List.cons_append, List.map_append] at hids
      simpa [Forest.tree, Forest.toList] using (List.nodup_append.1 hids).1
    have hhandlesTree : ((Forest.tree b children).toList.map Node.handle).Nodup := by
      rw [Forest.toList, ← List.cons_append, List.map_append] at hhandles
      simpa [Forest.tree, Forest.toList] using (List.nodup_append.1 hhandles).1
    have hunderTree : (Forest.tree b children).HandlesBelow c.symbolsBelow := by
      intro m under htree hm
      cases htree with
      | here => exact hunder _ _ (.here _) hm
      | deeper _ h => exact hunder m under (.deeper _ h) hm
      | beside _ _ h => cases h
    have htimes := times_score hwalk ⟨htakes, hchildren, trivial⟩
      (List.forall_mem_singleton.2 hroots.1) hidsTree hopen hfault
    have htree := slots_score hwalk ⟨htakes, hchildren, trivial⟩
      (List.forall_mem_singleton.2 hroots.1) hidsTree hhandlesTree hunderTree hopen hfault
      fun h hh => hfree h (by
        rw [Forest.toList_tree] at hh
        rw [Forest.toList, ← List.cons_append, List.map_append]
        exact List.mem_append_left _ hh)
    have hfreeSiblings : ∀ h ∈ siblings.toList.map Node.handle, s₃.graceSlots.lookup h = none := by
      intro h hh
      rw [htree.others h fun hin => not_mem_tree_of_mem hhandles hh hin]
      exact hfree h (Forest.mem_map_cons (.inr hh))
    have hothers := (slots_score hbeside hsiblings hroots.2 hidsSiblings hhandlesSiblings
      hunder.beside (htimes.grids hopen).1 htimes.fault hfreeSiblings).others
    have hrest := ihbeside hsiblings hroots.2 hidsSiblings hhandlesSiblings hunder.beside
      (htimes.grids hopen).1 htimes.fault hfreeSiblings hslots.2.2 (keeps_completes hbeside)
    -- what is drawn for a tree stays drawn behind it
    suffices hdrawn : (Forest.tree b₂ children₂).SymbolsDrawn s₃.graceSlots by
      have hlater := hdrawn.mono fun m hm => hothers _ (not_mem_siblings hhandles hkeeps hm)
      intro n below m hn hm
      cases hn with
      | here => exact hlater _ _ m (.here .nil) hm
      | deeper _ h => exact hlater _ _ m (.deeper .nil h) hm
      | beside _ _ h => exact hrest _ _ m h hm
    by_cases hc : b.tag = .control
    · obtain ⟨k, hb⟩ := Node.exists_control hc
      cases (enter_of_control hb henter).2.2
    by_cases hm : b.tag = .measure
    · obtain ⟨m, hb⟩ := NodeKind.exists_of_measure hm
      obtain ⟨⟨m', hb₁⟩, -, -, -, hcollecting, hfault₁, -⟩ := enter_of_measure_kind hb henter
      obtain ⟨grid, -, hgrids₁, hfound₁⟩ := grid_of_enter_measure hb henter
      obtain ⟨rfl, rfl, rfl, hend⟩ := leave_of_measure hb₁ hleave hgo
      have hstaves : ∀ n ∈ children.roots, n.tag = .staff ∨ n.tag = .layer ∨ n.tag = .control := by
        intro n hn
        have := htakes n hn
        rw [hb] at this
        rw [Node.tag]
        cases hk : n.kind <;> simp [hk, NodeKind.accepts, NodeKind.tag] at this ⊢
      have hne : s₁.grids ≠ [] := by rw [hgrids₁]; exact List.cons_ne_nil _ _
      have hwalked := slots_staves hbelow hchildren hstaves hidsChildren hhandlesChildren
        hunder.deeper hcollecting hne (hfault₁.trans hfault) (hfound₁ ▸ hfreeChildren)
      obtain ⟨-, hoffers⟩ := offers_staves hbelow hchildren hstaves hslots.2.1 hne
      have hgrow := hwalked.grids
      rw [hgrids₁] at hgrow
      obtain ⟨g, outer, hg, -, hgrids₂⟩ := List.forall₂_cons_left_iff.1 hgrow
      have hfault₂ := (times_staves hbelow hchildren hstaves hidsChildren hcollecting
        (hfault₁.trans hfault)).1.fault
      refine drawn_measure (s := { s with grids := outer }) hgrids₂
        (hwalked.drawn (keeps_completes hbelow) hne hfault₂ (hfound₁ ▸ hfreeChildren) hoffers)
        (fun n' hn' => ?_) hend
      cases hkeeps with
      | cons _ hc _ =>
        obtain ⟨n, hn, hnn⟩ := exists_mem_of_forall₂ hc.toList hn'
        rw [hnn.tag]
        exact hchildren.tag_ne_measure (fun b hb => (hstaves b hb).imp_right (·.imp_right .inl)) n hn
    · obtain ⟨-, rfl, -, -, hgrids₁, hfault₁⟩ := enter_of_outer hroots.1 hm hc henter
      obtain ⟨rfl, rfl, rfl⟩ := leave_of_tag hm hroots.1.2.1 hroots.1.2.2 hleave
      have houter := isOuter_of_accepts hroots.1 hm htakes
      have hfound₁ := graceSlots_enter_of_outer hroots.1 hm hc henter
      exact .cons hm (ihbelow hchildren houter hidsChildren hhandlesChildren hunder.deeper
        (hgrids₁ ▸ hopen) (hfault₁.trans hfault) (hfound₁ ▸ hfreeChildren) hslots.2.1
        (keeps_completes hbelow)) fun _ _ _ h => by cases h

end AlignState

namespace Document

variable {d : Document α}

/-- After preparation nothing has a slot. -/
theorem WellFormed.slot_prepare (hd : d.WellFormed) :
    ∀ n ∈ d.prepare.document.score.toList, n.layout.slot = none := by
  obtain ⟨r, pages, hshape⟩ := hd.exists_shape
  obtain ⟨page, system, d₁, hok, hd₁, -⟩ := hshape.unbreak?
  have hscore : d₁.reset.score = d₁.score.map Node.reset :=
    score_withScore (R := fun _ _ => True) (Forest.Forall₂.map_right _ fun _ _ => trivial)
  have hrun := Forest.forall₂_run (p := d₁.reset.anchorPass)
    (R := fun n n' : Node α => n'.layout.slot = n.layout.slot)
    (fun _ => rfl) (fun _ _ _ h h' => h'.trans h) (fun marks parent n => ?_)
    (fun _ _ _ _ => ⟨rfl, .refl fun _ _ => rfl⟩) [] d₁.reset.score
  · rw [prepare_eq hok]
    have hlater := score_withScore hrun ▸ hrun
    intro n' hn'
    obtain ⟨n, hn, hslot⟩ := exists_mem_of_forall₂ hlater.toList hn'
    rw [hscore, Forest.toList_map] at hn
    obtain ⟨n₀, -, rfl⟩ := List.mem_map.1 hn
    exact hslot
  · rw [anchorPass]
    dsimp only
    split
    · rename_i k _
      rw [anchorNode]
      dsimp only
      split <;> rfl
    all_goals rfl

/-- The symbols that alignment leaves, where it meets no fault. -/
theorem WellFormed.symbolsDrawn_align (hd : d.WellFormed) {metrics : GlyphMetrics α} {unit : α}
    (hslots : ∀ n ∈ d.score.toList, n.layout.slot = none)
    (hok : (d.align metrics unit).fault = none) :
    (d.align metrics unit).document.score.SymbolsDrawn [] := by
  obtain ⟨s, score, hwalk, -, -, -, hscore⟩ := exists_align hok
  have hdrawn := AlignState.drawn_score hwalk hd.nested_score hd.isOuter_root
    hd.nodup_score_ids (hd.nodup_handles.sublist ((score_sublist d).map _)) (hd.handlesBelow rfl)
    (fun g hg => absurd hg List.not_mem_nil) rfl (fun _ _ => rfl) hslots
  rw [hscore]
  exact hdrawn.settle (.map_right _ fun n _ => n.settles_applyGraceSlots _)

/-- What stands in the systems after a layout that meets no fault. -/
theorem WellFormed.symbolsDrawn_layout (hd : d.WellFormed) (hs : d.Settled) {e : Engine α}
    (hok : (e.layout d).fault = none) : (e.layout d).document.content.SymbolsDrawn [] := by
  obtain ⟨halign, hsettles⟩ := hd.settles_layout hs hok
  have hdrawn := (hd.run e .prepare).symbolsDrawn_align hd.slot_prepare halign
  exact hdrawn.branches.branches.branches.settle hsettles

end Document

end ScoreLayout
