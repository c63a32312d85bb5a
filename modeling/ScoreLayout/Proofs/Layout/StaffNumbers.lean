import ScoreLayout.Proofs.Layout.Frames
import ScoreLayout.Proofs.RunningSignatures
import ScoreLayout.Proofs.TimeGrids

/-!
# The staves that symbols are drawn on

Alignment notes on every symbol the number of the staff around it, which is the staff whose room the
symbol takes. The later passes leave the number alone.

## Main definitions

* `Forest.Staffed` — all symbols have the number of the staff around them.

## Main results

* `AlignState.staffed_score` — alignment notes the numbers.
* `Document.WellFormed.staffed_runAll` — they stand until the end of a layout.
-/

namespace ScoreLayout

variable {α : Type}

/-- All symbols have the number of the staff around them, where `staff` is around the whole. -/
def Forest.Staffed (staff : Option UInt32) (f : Forest (Node α)) : Prop :=
  ∀ x ∈ f.onStaves staff, x.2.tag = .element → x.2.layout.staff = x.1

variable [Scalar α]

/-- Two states of one node, where a symbol has the same staff number. -/
structure Node.KeepsStaff (n n' : Node α) : Prop where
  kind : n'.kind.bare = n.kind.bare
  staff : n.tag = .element → n'.layout.staff = n.layout.staff

namespace Node.KeepsStaff

variable {n n' : Node α}

theorem refl (n : Node α) : n.KeepsStaff n := ⟨rfl, fun _ => rfl⟩

theorem tag (h : n.KeepsStaff n') : n'.tag = n.tag := by
  rw [Node.tag, Node.tag, ← NodeKind.tag_bare, h.kind, NodeKind.tag_bare]

theorem staffBelow (h : n.KeepsStaff n') (staff : Option UInt32) :
    n'.staffBelow staff = n.staffBelow staff := by
  have hkind := h.kind
  rw [Node.staffBelow, Node.staffBelow]
  cases hk : n.kind <;> cases hk' : n'.kind <;> simp_all [NodeKind.bare]

end Node.KeepsStaff

namespace Forest.Staffed

variable {staff : Option UInt32} {n : Node α} {f f' below siblings : Forest (Node α)}

omit [Scalar α] in
theorem nil (staff : Option UInt32) : (Forest.nil : Forest (Node α)).Staffed staff :=
  fun _ h => absurd h List.not_mem_nil

omit [Scalar α] in
theorem cons_iff : (Forest.cons n below siblings).Staffed staff ↔
    (n.tag = .element → n.layout.staff = staff) ∧ below.Staffed (n.staffBelow staff) ∧
      siblings.Staffed staff := by
  rw [Staffed, onStaves, List.forall_mem_cons, List.forall_mem_append]
  rfl

omit [Scalar α] in
/-- What stands below a node has the number of the staff around it, or of the node itself. -/
theorem of_hasTree (hf : f.Staffed staff) (h : HasTree n below f) :
    ∃ around, below.Staffed (n.staffBelow around) := by
  induction h generalizing staff with
  | here => exact ⟨staff, (cons_iff.1 hf).2.1⟩
  | deeper _ _ ih => exact ih (cons_iff.1 hf).2.1
  | beside _ _ _ ih => exact ih (cons_iff.1 hf).2.2

theorem of_forall₂ (h : Forall₂ Node.KeepsStaff f f') (hf : f.Staffed staff) : f'.Staffed staff := by
  induction h generalizing staff with
  | nil => exact .nil staff
  | cons hb _ _ ihbelow ihbeside =>
    obtain ⟨hfirst, hbelow, hbeside⟩ := cons_iff.1 hf
    refine cons_iff.2 ⟨fun ht => ?_, hb.staffBelow staff ▸ ihbelow hbelow, ihbeside hbeside⟩
    have ht := hb.tag ▸ ht
    exact (hb.staff ht).trans (hfirst ht)

omit [Scalar α] in
theorem append_iff {g : Forest (Node α)} :
    (f ++ g).Staffed staff ↔ f.Staffed staff ∧ g.Staffed staff := by
  induction f with
  | nil => exact ⟨fun h => ⟨.nil staff, h⟩, And.right⟩
  | cons n below siblings _ ih => rw [cons_append, cons_iff, cons_iff, ih, and_assoc, and_assoc]

omit [Scalar α] in
/-- Nodes that are no symbols and no staves may be left out. -/
theorem branches_iff (hroots : ∀ n ∈ f.roots, n.tag ≠ .staff ∧ n.tag ≠ .element) :
    f.branches.Staffed none ↔ f.Staffed none := by
  induction f with
  | nil => rfl
  | cons n below siblings _ ih =>
    rw [roots, List.forall_mem_cons] at hroots
    obtain ⟨⟨hstaff, helement⟩, hroots⟩ := hroots
    rw [Forest.branches, append_iff, cons_iff, AlignState.staffBelow_of_tag hstaff, ih hroots]
    exact ⟨fun h => ⟨fun ht => absurd ht helement, h⟩, And.right⟩

omit [Scalar α] in
/-- Where no staff stands, all symbols have one number. -/
theorem staff_eq (hf : f.Staffed staff) (hno : ∀ n ∈ f.toList, n.tag ≠ .staff) :
    ∀ e ∈ f.toList, e.tag = .element → e.layout.staff = staff := by
  induction f with
  | nil => exact fun e he => absurd he List.not_mem_nil
  | cons n below siblings ihbelow ihsiblings =>
    rw [toList, List.forall_mem_cons, List.forall_mem_append] at hno ⊢
    obtain ⟨hfirst, hbelow, hsiblings⟩ := cons_iff.1 hf
    rw [AlignState.staffBelow_of_tag hno.1] at hbelow
    exact ⟨hfirst, ihbelow hbelow hno.2.1, ihsiblings hsiblings hno.2.2⟩

end Forest.Staffed

/-! ### The walk -/

namespace AlignState

section Steps

variable (s : AlignState α) (n : Node α)

omit [Scalar α] in
theorem staff_advance (time : Fraction) : (s.advance n time).2.layout.staff = n.layout.staff := by
  rw [advance]
  split <;> rfl

omit [Scalar α] in
theorem staff_refuse (reason : DurationError) : (s.refuse n reason).staff = s.staff :=
  congrArg Bearings.staff (s.bearings_refuse n reason)

theorem staff_drawTimed (c : AlignContext α) (grace : Bool) (onset time : Fraction) (y : α)
    (rect : Option (Rect α)) :
    (s.drawTimed c n grace onset time y rect).2.1.layout.staff = some s.staff := by
  cases grace <;> rfl

theorem staff_enterTimed (c : AlignContext α) (e : Element) (d : Duration)
    (rect : Option (Rect α)) : (s.enterTimed c n e d rect).2.layout.staff = some s.staff := by
  have hdrawn : ∀ (s₁ : AlignState α) (time : Fraction) (y : α), s₁.staff = s.staff →
      let r := s₁.drawTimed c n e.isGrace s.layer.time time y rect
      ((r.1.openChord r.2.1 e s.layer.time r.2.2).advance r.2.1 time).2.layout.staff =
        some s.staff := by
    intro s₁ time y hs₁ r
    rw [staff_advance, staff_drawTimed, hs₁]
  rw [enterTimed]
  cases d.advance s.layer.tuplet with
  | ok time => exact hdrawn s time _ rfl
  | error reason => exact hdrawn (s.refuse n reason) 0 _ (s.staff_refuse n reason)

theorem staff_enterSymbol (c : AlignContext α) (e : Element) (rect : Option (Rect α)) :
    (s.enterSymbol c n e rect).2.layout.staff = some s.staff := by
  cases e with
  | note | rest | chord | space =>
    rw [enterSymbol]
    exact staff_enterTimed ..
  | measureRest | multiRest =>
    rw [enterSymbol]
    exact staff_advance ..
  | clef | key | meter | barLine | beam => rfl
  | tuplet num base =>
    rw [enterSymbol]
    obtain ⟨refused, fault, heq, -⟩ := s.enterRatio_eq n num base
    rw [heq]
    rfl

/-- A symbol is noted on the staff that the walk has come to. -/
theorem staff_enterElement (c : AlignContext α) (above : Option (Node α)) (e : Element) :
    (s.enterElement c above n e).2.layout.staff = some s.staff := by
  unfold enterElement
  dsimp only
  split
  · split_ifs
    · rw [enterChordNote]
      dsimp only
      split <;> rfl
    · exact staff_enterSymbol ..
  · exact staff_enterSymbol ..

omit [Scalar α] in
theorem staff_leaveElement (e : Element) :
    (s.leaveElement n e).2.layout.staff = n.layout.staff := by
  unfold leaveElement
  dsimp only
  -- closing a chord or a tuplet changes the state alone
  repeat' split
  all_goals rfl

/-- Only control elements are placed at their time-stamps. -/
theorem keepsStaff_placeControl (beat last : Fraction) :
    n.KeepsStaff (placeControl beat last s n).2 := by
  rw [placeControl]
  split
  · exact .refl n
  · rename_i htstamp
    exact ⟨rfl, fun ht => absurd (ht.symm.trans (tag_of_tstamp? htstamp)) (by decide)⟩

theorem keepsStaff_placeControls (beat last : Fraction) : (f : Forest (Node α)) →
    (s : AlignState α) → Forest.Forall₂ Node.KeepsStaff f (placeControls beat last s f).2
  | .nil, _ => .nil
  | .cons n _ siblings, s =>
      .cons (s.keepsStaff_placeControl n beat last) (.refl fun b _ => .refl b)
        (keepsStaff_placeControls beat last siblings _)

end Steps

variable {c : AlignContext α} {s s₁ s' : AlignState α} {n : Node α} {f : Forest (Node α)}

omit [Scalar α] in
/-- Two states of the walk on one staff. -/
structure SameStaff (s s' : AlignState α) : Prop where
  staff : s'.staff = s.staff
  collecting : s'.collecting = s.collecting
  staves : s'.staves = s.staves

omit [Scalar α] in
theorem SameStaff.of_bearings (h : s'.bearings = s.bearings) : s.SameStaff s' :=
  ⟨congrArg Bearings.staff h, congrArg Bearings.collecting h, congrArg Bearings.staves h⟩

omit [Scalar α] in
theorem SameStaff.trans (h : s.SameStaff s') (h' : s'.SameStaff s₁) : s.SameStaff s₁ :=
  ⟨h'.staff.trans h.staff, h'.collecting.trans h.collecting, h'.staves.trans h.staves⟩

theorem sameStaff_enterElement (s : AlignState α) (n : Node α) (c : AlignContext α)
    (above : Option (Node α)) (e : Element) : s.SameStaff (s.enterElement c above n e).1 := by
  have henters := s.bearings_enterElement n c above e
  refine ⟨(congrArg Bearings.staff henters).trans (s.bearings.staff_after e),
    (congrArg Bearings.collecting henters).trans ?_, (congrArg Bearings.staves henters).trans ?_⟩
  all_goals cases e <;> rfl

/-- The symbols of a layer, or of a group in it. -/
theorem staffed_symbols {above : Option (Node α)} {f' : Forest (Node α)}
    (h : Forest.Completes (alignPass c) above s f s' f') (hf : f.Symbolic) (hs : s.collecting) :
    f'.Staffed (some s.staff) ∧ s.SameStaff s' := by
  induction h with
  | nil => exact ⟨.nil _, rfl, rfl, rfl⟩
  | skip henter _ _ =>
    obtain ⟨e, hn⟩ := Node.exists_element hf.1
    cases (exists_of_enter_element hn hs henter (by decide)).1
  | @walk above s s₁ s₂ s₃ s₄ n n₁ n₂ children siblings children₁ children₂ siblings' whole v henter
      _ hleave _ _ ihbelow ihbeside =>
    obtain ⟨htag, -, hchildren, hsiblings⟩ := hf
    obtain ⟨e, hn⟩ := Node.exists_element htag
    obtain ⟨-, rfl, rfl, -⟩ := exists_of_enter_element hn hs henter (by decide)
    have hkind := (writes_enterElement c s n above e).kind.trans hn
    rw [leave_of_element hkind, Prod.mk.injEq, Prod.mk.injEq, Prod.mk.injEq] at hleave
    obtain ⟨rfl, rfl, rfl, -⟩ := hleave
    have henters := s.sameStaff_enterElement n c above e
    obtain ⟨hbelow, hwalked⟩ := ihbelow hchildren (henters.collecting.trans hs)
    have hleft := (henters.trans hwalked).trans
      (.of_bearings (s₂.bearings_leaveElement (s.enterElement c above n e).2 e))
    obtain ⟨hbeside, hrest⟩ := ihbeside hsiblings (hleft.collecting.trans hs)
    have hkind₂ := (s₂.sameReading_leaveElement (s.enterElement c above n e).2 e).kind.trans hkind
    refine ⟨Forest.Staffed.cons_iff.2 ⟨fun _ => ?_, ?_, hleft.staff ▸ hbeside⟩, hleft.trans hrest⟩
    · rw [staff_leaveElement, staff_enterElement]
    · rw [staffBelow_of_tag (by rw [Node.tag, hkind₂]; simp [NodeKind.tag])]
      exact henters.staff ▸ hbelow

/-- Leaving a measure places its control elements alone. -/
theorem keepsStaff_leaveMeasure (s : AlignState α) (c : AlignContext α) (n : Node α) (m : Measure α)
    (below : Forest (Node α)) :
    Forest.Forall₂ Node.KeepsStaff below (s.leaveMeasure c n m below).2.2 := by
  have hbelow := keepsStaff_placeControls s.signatures.meter.beatDuration
    (s.grids.headD m.grid).maxTime below s
  rw [leaveMeasure]
  dsimp only
  split <;> exact hbelow

/-- The layers of a staff. -/
theorem staffed_layers {above : Option (Node α)} {f' : Forest (Node α)}
    (h : Forest.Completes (alignPass c) above s f s' f') (hf : f.Nested)
    (hroots : ∀ n ∈ f.roots, n.tag = .layer) (hs : s.collecting) :
    f'.Staffed (some s.staff) ∧ s.SameStaff s' := by
  induction h with
  | nil => exact ⟨.nil _, rfl, rfl, rfl⟩
  | skip henter _ _ =>
    obtain ⟨k, hn⟩ := Node.exists_layer (hroots _ List.mem_cons_self)
    simp [alignPass, enter, hn] at henter
  | @walk above s s₁ s₂ s₃ s₄ n n₁ n₂ children siblings children₁ children₂ siblings' whole v henter
      hbelow hleave hgo _ _ ihbeside =>
    rw [Forest.roots, List.forall_mem_cons] at hroots
    obtain ⟨htakes, hchildren, hsiblings⟩ := hf
    obtain ⟨k, hn⟩ := Node.exists_layer hroots.1
    obtain ⟨hkind, rfl⟩ := enter_of_layer hn henter
    obtain ⟨rfl, rfl, rfl, -⟩ := leave_of_layer (hkind.trans hn) hleave hgo
    have htag : n₂.tag = .layer := congrArg NodeKind.tag (hkind.trans hn)
    obtain ⟨hsymbols, hwalked⟩ := staffed_symbols hbelow (hchildren.symbolic fun b hb =>
      NodeKind.tag_of_layer hroots.1 (htakes b hb)) hs
    have hlayer : s.SameStaff s₂ := ⟨hwalked.staff, hwalked.collecting, hwalked.staves⟩
    have hleft := hlayer.trans (.of_bearings s₂.bearings_leaveLayer)
    obtain ⟨hbeside, hrest⟩ := ihbeside hsiblings hroots.2 (hleft.collecting.trans hs)
    refine ⟨Forest.Staffed.cons_iff.2 ⟨fun ht => ?_, ?_, hleft.staff ▸ hbeside⟩, hleft.trans hrest⟩
    · cases htag.symm.trans ht
    · rw [staffBelow_of_tag (by rw [htag]; decide)]
      exact hsymbols

/-- The staves of a measure, and the control elements among them. -/
theorem staffed_staves {above : Option (Node α)} {f' : Forest (Node α)}
    (h : Forest.Completes (alignPass c) above s f s' f') (hf : f.Nested)
    (hroots : ∀ n ∈ f.roots, n.tag = .staff ∨ n.tag = .control) (hs : s.collecting) :
    f'.Staffed none := by
  induction h with
  | nil => exact .nil _
  | skip henter _ ih =>
    rw [Forest.roots, List.forall_mem_cons] at hroots
    obtain htag | htag := hroots.1
    · obtain ⟨staff, hn⟩ := Node.exists_staff htag
      simp [alignPass, enter, hn] at henter
    · obtain ⟨k, hn⟩ := Node.exists_control htag
      obtain rfl := eq_nil_of_control hn hf.1
      obtain ⟨rfl, rfl, -⟩ := enter_of_control hn henter
      exact Forest.Staffed.cons_iff.2 ⟨fun ht => (by cases htag.symm.trans ht), .nil _,
        ih hf.2.2 hroots.2 hs⟩
  | @walk above s s₁ s₂ s₃ s₄ n n₁ n₂ children siblings children₁ children₂ siblings' whole v henter
      hbelow hleave hgo _ _ ihbeside =>
    rw [Forest.roots, List.forall_mem_cons] at hroots
    obtain ⟨htakes, hchildren, hsiblings⟩ := hf
    obtain htag | htag := hroots.1
    · obtain ⟨staff, hn⟩ := Node.exists_staff htag
      have hlayers : ∀ b ∈ children.roots, b.tag = .layer := fun b hb =>
        Placing.tag_of_accepts_staff hn (htakes b hb)
      dsimp only [alignPass] at henter
      rw [enter, hn] at henter
      simp only [enterStaff, Prod.mk.injEq] at henter
      obtain ⟨rfl, rfl, -⟩ := henter
      have htag₂ : (n.mapLayout fun l => { l with staff := some staff.n }).tag = .staff := htag
      obtain ⟨rfl, rfl, rfl⟩ := leave_of_tag (by rw [htag₂]; decide) (by rw [htag₂]; decide)
        (by rw [htag₂]; decide) hleave
      obtain ⟨hstaffed, hwalked⟩ := staffed_layers hbelow hchildren hlayers hs
      have hstaff : (n.mapLayout fun l => { l with staff := some staff.n }).staffBelow none =
          some staff.n := by
        rw [Node.staffBelow, Node.mapLayout, hn]
      exact Forest.Staffed.cons_iff.2 ⟨fun ht => (by cases htag₂.symm.trans ht), hstaff ▸ hstaffed,
        ihbeside hsiblings hroots.2 (hwalked.collecting.trans hs)⟩
    · obtain ⟨k, hn⟩ := Node.exists_control htag
      cases (enter_of_control hn henter).2.2

/-- The trees of a score. -/
theorem staffed_score {above : Option (Node α)} {f' : Forest (Node α)}
    (h : Forest.Completes (alignPass c) above s f s' f') (hf : f.Nested)
    (hroots : ∀ n ∈ f.roots, IsOuter n) : f'.Staffed none := by
  induction h with
  | nil => exact .nil _
  | @skip above s s₁ s₂ n n₁ children siblings siblings' henter _ ih =>
    rw [Forest.roots, List.forall_mem_cons] at hroots
    obtain ⟨k, hn⟩ := exists_control_of_skip hroots.1 henter
    obtain rfl := eq_nil_of_control hn hf.1
    obtain ⟨rfl, rfl, -⟩ := enter_of_control hn henter
    have htag : n₁.tag = .control := congrArg NodeKind.tag hn
    exact Forest.Staffed.cons_iff.2 ⟨fun ht => (by cases htag.symm.trans ht), .nil _,
      ih hf.2.2 hroots.2⟩
  | @walk above s s₁ s₂ s₃ s₄ n n₁ n₂ children siblings children₁ children₂ siblings' whole v henter
      hbelow hleave hgo _ ihbelow ihbeside =>
    rw [Forest.roots, List.forall_mem_cons] at hroots
    obtain ⟨htakes, hchildren, hsiblings⟩ := hf
    have hrest := ihbeside hsiblings hroots.2
    by_cases hm : n.tag = .measure
    · obtain ⟨m, hn⟩ := NodeKind.exists_of_measure hm
      obtain ⟨⟨m₁, hn₁, -⟩, -, hcollecting⟩ := signatures_of_measure hn henter
      obtain ⟨rfl, rfl, rfl, -⟩ := leave_of_measure hn₁ hleave hgo
      have hstaves := fun b hb => tag_of_accepts_measure hm (htakes b hb)
      have hwalked := (staffed_staves hbelow hchildren hstaves hcollecting).of_forall₂
        (s₂.keepsStaff_leaveMeasure c n₁ m₁ children₁)
      obtain ⟨-, ⟨m₂, hn₂, -⟩, -⟩ := s₂.signatures_leaveMeasure c children₁ hn₁
      have htag₂ : (s₂.leaveMeasure c n₁ m₁ children₁).2.1.tag = .measure :=
        congrArg NodeKind.tag hn₂
      rw [← staffBelow_of_tag (by rw [htag₂]; decide) none] at hwalked
      exact Forest.Staffed.cons_iff.2 ⟨fun ht => (by cases htag₂.symm.trans ht), hwalked, hrest⟩
    · by_cases hc : n.tag = .control
      · obtain ⟨k, hn⟩ := Node.exists_control hc
        cases (enter_of_control hn henter).2.2
      obtain ⟨-, rfl, -⟩ := enter_of_outer hroots.1 hm hc henter
      obtain ⟨rfl, rfl, rfl⟩ := leave_of_tag hm hroots.1.2.1 hroots.1.2.2 hleave
      have hwalked := ihbelow hchildren (isOuter_of_accepts hroots.1 hm htakes)
      rw [← staffBelow_of_tag hroots.1.1 none] at hwalked
      exact Forest.Staffed.cons_iff.2 ⟨fun ht => absurd ht hroots.1.2.2, hwalked, hrest⟩

end AlignState

/-! ### Documents -/

namespace Document

variable {d : Document α}

/-- Alignment that meets no fault notes the staves of all symbols. -/
theorem WellFormed.staffed_align (hd : d.WellFormed) {metrics : GlyphMetrics α} {unit : α}
    (hok : (d.align metrics unit).fault = none) :
    (d.align metrics unit).document.score.Staffed none := by
  obtain ⟨s, score, hwalk, -, -, -, hscore⟩ := exists_align hok
  have hstaffed := AlignState.staffed_score hwalk hd.nested_score hd.isOuter_root
  rw [hscore]
  refine hstaffed.of_forall₂ (.map_right _ fun n _ => ?_)
  rw [AlignState.applyGraceSlots]
  split
  · exact ⟨rfl, fun _ => rfl⟩
  · exact .refl n

omit [Scalar α] in
/-- Nothing above the systems is a staff. -/
theorem WellFormed.staffed_content_iff (hd : d.WellFormed) :
    d.content.Staffed none ↔ d.score.Staffed none := by
  obtain ⟨r, pages, hshape⟩ := hd.exists_shape
  rw [hshape.score, hshape.content_eq, Forest.tree, Forest.Staffed.branches_iff fun n hn => ?_,
    Forest.Staffed.branches_iff fun n hn => ?_, Forest.Staffed.cons_iff,
    AlignState.staffBelow_of_tag (by rw [hshape.root_tag]; decide), hshape.root_tag]
  · exact ⟨fun h => ⟨fun ht => (by cases ht), h, .nil _⟩, fun h => h.2.1⟩
  · rw [hshape.tag_of_mem_pages hn]
    decide
  · rw [hshape.tag_of_mem_systems hn]
    decide

/-- After alignment all symbols have the numbers of their staves. -/
theorem WellFormed.staffed_runAll (hd : d.WellFormed) (hs : d.Settled) {e : Engine α}
    (later : List LayoutPass) (hlater : ∀ pass ∈ later, pass ≠ .prepare ∧ pass ≠ .align)
    (hok : (e.runAll d (LayoutPass.all.take 2)).fault = none) :
    (e.runAll d (LayoutPass.all.take 2 ++ later)).document.score.Staffed none := by
  obtain ⟨-, halign, hdocument⟩ := Engine.of_runAll_take (k := 1) rfl hok
  have haligned := (hd.settled_runAll hs e (LayoutPass.all.take 1)).1.staffed_align halign
  have hstays := hd.staysPut_later hs e (LayoutPass.all.take 2) later hlater
  have hcontent := (hd.settled_runAll hs e (LayoutPass.all.take 2)).1.staffed_content_iff.2
    (hdocument ▸ haligned)
  exact (hd.settled_runAll hs e (LayoutPass.all.take 2 ++ later)).1.staffed_content_iff.1
    (hcontent.of_forall₂ (hstays.mono fun _ _ h => ⟨h.kind, fun ht => by rw [h.layout ht]⟩))

omit [Scalar α] in
/-- Symbols have the number of the staff above them. -/
theorem WellFormed.staff_of_symbol (hd : d.WellFormed) (hstaffed : d.score.Staffed none)
    {n : Node α} {below : Forest (Node α)} {staff : Staff} (h : Forest.HasTree n below d.score)
    (hn : n.kind = .staff staff) :
    ∀ k ∈ below.toList, k.tag = .element → k.layout.staff = some staff.n := by
  obtain ⟨around, hbelow⟩ := hstaffed.of_hasTree h
  rw [Node.staffBelow, hn] at hbelow
  have htag : n.tag = .staff := by rw [Node.tag, hn]; rfl
  exact hbelow.staff_eq (htag ▸ hd.nested_score.tag_ne_below h (by rw [htag]; decide))

end Document

end ScoreLayout
