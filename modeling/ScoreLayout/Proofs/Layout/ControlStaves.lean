import ScoreLayout.Proofs.ElementSlots
import ScoreLayout.Proofs.Layout.FramedGrids
import ScoreLayout.Proofs.Layout.MeasureEnds
import ScoreLayout.Proofs.Layout.StaffNumbers
import ScoreLayout.Proofs.Layout.SystemStaves

/-!
# The staves of time-stamped control elements

A control element with a time-stamp is placed against a staff of its measure: the one with its own
number, or else the first staff of the measure. Alignment collects the staves of a measure on its way,
and notes the number on the control element when it leaves the measure, together with a slot.

## Main definitions

* `Control.staffAmong` — the number of this staff.
* `Forest.NotesStaves` — all time-stamped control elements have it, and a slot.

## Main results

* `AlignState.exists_walk_of_measure` — what is walked below a measure.
* `AlignState.notesStaves_score` — alignment notes the numbers.
* `Document.fromAlignment_notesStaves` — they stand from alignment on.
-/

namespace ScoreLayout

variable {α : Type}

/-- The number of the first staff of some trees. -/
def Forest.firstStaff? (f : Forest (Node α)) : Option UInt32 := f.staves.head?.map Staff.n

theorem Forest.firstStaff?_cons (n : Node α) (below siblings : Forest (Node α)) :
    (Forest.cons n below siblings).firstStaff? =
      (n.staff?.map Staff.n).or (below.firstStaff?.or siblings.firstStaff?) := by
  rw [firstStaff?, staves_cons, List.head?_append, List.head?_append, Option.head?_toList,
    Option.map_or, Option.map_or]
  rfl

/-- The number of the staff that a time-stamped control element of a measure with some trees below it
is placed against. -/
def Control.staffAmong (control : Control α) (below : Forest (Node α)) : UInt32 :=
  (control.point.staff <|> below.firstStaff?).getD 1

/-- The time-stamped control elements of all measures have slots, and the numbers of their staves. -/
def Forest.NotesStaves (f : Forest (Node α)) : Prop :=
  ∀ n below, HasTree n below f → n.tag = .measure → ∀ x ∈ below.roots, ∀ stamp,
    AlignState.tstamp? x = some stamp →
      x.layout.staff = some (stamp.1.staffAmong below) ∧ x.layout.slot.isSome

variable [Scalar α]

theorem Forest.firstStaff?_of_sameMusic {f f' : Forest (Node α)}
    (h : Forest.Forall₂ Node.SameMusic f f') : f'.firstStaff? = f.firstStaff? := by
  rw [firstStaff?, firstStaff?, show f'.staves = f.staves from
    (filterMap_eq_of_forall₂ (fun _ _ h => h.staff?.symm) h.toList).symm]

namespace AlignState

theorem Keeps.tstamp?_eq {n n' : Node α} (h : Keeps n n') : tstamp? n' = tstamp? n := by
  have hcontrol : n'.kind.control? = n.kind.control? := by
    have hkind := h.kind
    cases hn : n.kind <;> cases hn' : n'.kind <;> simp_all [NodeKind.bare, NodeKind.control?]
  have hstart : n'.layout.startAnchor = n.layout.startAnchor := congrArg Prod.fst h.ties
  rw [tstamp?, tstamp?, hcontrol, LayoutState.omitted_eq_of_ties h.ties, hstart]

variable {c : AlignContext α} {s s₁ s' : AlignState α} {n : Node α} {f f' : Forest (Node α)}

/-! ### Walks below measures -/

/-- A walk of alignment below a measure, from its start to its end. -/
structure WalksMeasure (c : AlignContext α) (n : Node α) (before below : Forest (Node α)) : Prop where
  walk : ∃ s s' b m children, s.collecting ∧ s.staves = [] ∧
    Forest.Completes (alignPass c) (some b) s before s' children ∧
      n = (s'.leaveMeasure c b m children).2.1 ∧ below = (s'.leaveMeasure c b m children).2.2

/-- What stands below a measure has been walked, and the measure been left. -/
theorem exists_walk_of_measure {above : Option (Node α)}
    (h : Forest.Completes (alignPass c) above s f s' f') (hf : f.Nested) (hf' : f'.Nested)
    (hroots : ∀ n ∈ f.roots, IsOuter n) :
    ∀ n below, Forest.HasTree n below f' → n.tag = .measure →
      ∃ n₀ before, Forest.HasTree n₀ before f ∧ n₀.tag = .measure ∧
        WalksMeasure c n before below := by
  induction h with
  | nil => exact fun _ _ h => by cases h
  | @skip above s s₁ s₂ b b₁ children siblings siblings' henter _ ih =>
    rw [Forest.roots, List.forall_mem_cons] at hroots
    obtain ⟨k, hb⟩ := exists_control_of_skip hroots.1 henter
    obtain rfl := eq_nil_of_control hb hf.1
    obtain ⟨rfl, rfl, -⟩ := enter_of_control hb henter
    intro n below htree hn
    cases htree with
    | here => cases (congrArg NodeKind.tag hb : b₁.tag = .control).symm.trans hn
    | deeper _ h => cases h
    | beside _ _ h =>
      obtain ⟨n₀, before, hbefore, hwalk⟩ := ih hf.2.2 hf'.2.2 hroots.2 n below h hn
      exact ⟨n₀, before, .beside _ _ hbefore, hwalk⟩
  | @walk above s s₁ s₂ s₃ s₄ b b₁ b₂ children siblings children₁ children₂ siblings' whole v henter
      hbelow hleave hgo _ ihbelow ihbeside =>
    rw [Forest.roots, List.forall_mem_cons] at hroots
    obtain ⟨htakes, hchildren, hsiblings⟩ := hf
    have hrest := ihbeside hsiblings hf'.2.2 hroots.2
    intro n below htree hn
    by_cases hm : b.tag = .measure
    · obtain ⟨m, hb⟩ := NodeKind.exists_of_measure hm
      obtain ⟨⟨m₁, hb₁, -⟩, -, hcollecting⟩ := signatures_of_measure hb henter
      obtain ⟨rfl, rfl, rfl, -⟩ := leave_of_measure hb₁ hleave hgo
      cases htree with
      | here =>
        refine ⟨b, children, .here _, hm, s₁, s₂, b₁, m₁, children₁, hcollecting, ?_, hbelow, rfl, rfl⟩
        dsimp only [alignPass] at henter
        rw [enter, hb] at henter
        simp only [enterMeasure, MeasureGrid.begin_empty, Prod.mk.injEq] at henter
        obtain ⟨rfl, -⟩ := henter
        rfl
      | deeper _ h =>
        have htag : (s₂.leaveMeasure c b₁ m₁ children₁).2.1.tag = .measure := by
          obtain ⟨-, ⟨m₂, hk, -⟩, -⟩ := s₂.signatures_leaveMeasure c children₁ hb₁
          exact congrArg NodeKind.tag hk
        exact absurd hn (Forest.Nested.tag_ne_measure_below hf' (.here _) htag n h.mem)
      | beside _ _ h =>
        obtain ⟨n₀, before, hbefore, hwalk⟩ := hrest n below h hn
        exact ⟨n₀, before, .beside _ _ hbefore, hwalk⟩
    · by_cases hc : b.tag = .control
      · obtain ⟨k, hb⟩ := Node.exists_control hc
        cases (enter_of_control hb henter).2.2
      obtain ⟨-, rfl, -⟩ := enter_of_outer hroots.1 hm hc henter
      obtain ⟨rfl, rfl, rfl⟩ := leave_of_tag hm hroots.1.2.1 hroots.1.2.2 hleave
      cases htree with
      | here => exact absurd hn hm
      | deeper _ h =>
        obtain ⟨n₀, before, hbefore, hwalk⟩ :=
          ihbelow hchildren hf'.2.1 (isOuter_of_accepts hroots.1 hm htakes) n below h hn
        exact ⟨n₀, before, .deeper _ hbefore, hwalk⟩
      | beside _ _ h =>
        obtain ⟨n₀, before, hbefore, hwalk⟩ := hrest n below h hn
        exact ⟨n₀, before, .beside _ _ hbefore, hwalk⟩

/-! ### The staves of a measure -/

/-- The first staff that is met stays the first. -/
theorem head?_staves {above : Option (Node α)}
    (h : Forest.Completes (alignPass c) above s f s' f') (hf : f.Nested)
    (hroots : ∀ n ∈ f.roots, n.tag = .staff ∨ n.tag = .control) (hs : s.collecting) :
    s'.staves.head? = s.staves.head?.or f'.firstStaff? := by
  induction h with
  | nil => exact (Option.or_none).symm
  | @skip above s s₁ s₂ n n₁ children siblings siblings' henter _ ih =>
    rw [Forest.roots, List.forall_mem_cons] at hroots
    obtain htag | htag := hroots.1
    · obtain ⟨staff, hn⟩ := Node.exists_staff htag
      simp [alignPass, enter, hn] at henter
    · obtain ⟨k, hn⟩ := Node.exists_control htag
      obtain rfl := eq_nil_of_control hn hf.1
      obtain ⟨rfl, rfl, -⟩ := enter_of_control hn henter
      rw [ih hf.2.2 hroots.2 hs, Forest.firstStaff?_cons, Node.staff?_of_tag_ne (by rw [htag]; decide)]
      rfl
  | @walk above s s₁ s₂ s₃ s₄ n n₁ n₂ children siblings children₁ children₂ siblings' whole v henter
      hbelow hleave hgo _ _ ihbeside =>
    rw [Forest.roots, List.forall_mem_cons] at hroots
    obtain ⟨htakes, hchildren, hsiblings⟩ := hf
    obtain htag | htag := hroots.1
    · obtain ⟨staff, hn⟩ := Node.exists_staff htag
      have hlayers : ∀ b ∈ children.roots, b.tag = .layer := fun b hb =>
        Placing.tag_of_accepts_staff hn (htakes b hb)
      dsimp only [alignPass] at henter
      rw [enter, hn] at henter
      simp only [enterStaff, Prod.mk.injEq] at henter
      obtain ⟨rfl, rfl, -⟩ := henter
      have htag₂ : (n.mapLayout fun l => { l with staff := some staff.n }).tag = .staff := htag
      obtain ⟨rfl, rfl, rfl⟩ := leave_of_tag (by rw [htag₂]; decide) (by rw [htag₂]; decide)
        (by rw [htag₂]; decide) hleave
      obtain ⟨-, hwalked⟩ := staffed_layers hbelow hchildren hlayers hs
      have hstaff : (n.mapLayout fun l => { l with staff := some staff.n }).staff? = some staff :=
        Node.staff?_eq_some_iff.2 hn
      rw [ihbeside hsiblings hroots.2 (hwalked.collecting.trans hs), hwalked.staves,
        Forest.firstStaff?_cons, hstaff]
      dsimp only
      -- a staff that has been met before is not the first
      cases hstaves : s.staves with
      | nil => rfl
      | cons first rest => split_ifs <;> rfl
    · obtain ⟨k, hn⟩ := Node.exists_control htag
      cases (enter_of_control hn henter).2.2

/-! ### The end of a measure -/

/-- A control element with a time-stamp, among the children of a measure, gets a slot and its staff. -/
theorem staff_placeControls (beat last : Fraction) : (f : Forest (Node α)) → (s : AlignState α) →
    ∀ x ∈ (placeControls beat last s f).2.roots, ∀ stamp, tstamp? x = some stamp →
      x.layout.staff = some ((stamp.1.point.staff <|> s.staves.head?).getD 1) ∧ x.layout.slot.isSome
  | .nil, _ => fun _ hx => absurd hx List.not_mem_nil
  | .cons n below siblings, s => by
      have hbearings := s.bearings_placeControl n beat last
      have hrest := staff_placeControls beat last siblings (placeControl beat last s n).1
      rw [show (placeControl beat last s n).1.staves = s.staves from
        congrArg Bearings.staves hbearings.1] at hrest
      rw [placeControls]
      dsimp only
      rw [Forest.roots, List.forall_mem_cons]
      refine ⟨fun stamp hstamp => ?_, hrest⟩
      rw [placeControl] at hstamp ⊢
      cases htimed : tstamp? n with
      | none =>
        rw [htimed] at hstamp
        cases htimed.symm.trans hstamp
      | some stamp' =>
        rw [htimed] at hstamp
        have hsame : tstamp? n = some stamp := hstamp
        obtain rfl := Option.some.inj (htimed.symm.trans hsame)
        dsimp only [Node.mapLayout]
        rw [show (updateGrid _ _).staves = _ from congrArg Bearings.staves (bearings_updateGrid ..)]
        refine ⟨?_, rfl⟩
        split_ifs <;> rfl

/-- Alignment gives slots to the time-stamped control elements of a measure, and notes their staves. -/
theorem WalksMeasure.staff {n : Node α} {before below : Forest (Node α)}
    (h : WalksMeasure c n before below) (hbefore : before.Nested)
    (hroots : ∀ n ∈ before.roots, n.tag = .staff ∨ n.tag = .control) :
    ∀ x ∈ below.roots, ∀ stamp, tstamp? x = some stamp →
      x.layout.staff = some (stamp.1.staffAmong below) ∧ x.layout.slot.isSome := by
  obtain ⟨s, s', b, m, children, hs, hstaves, hwalk, -, rfl⟩ := h.walk
  have hfirst := head?_staves hwalk hbefore hroots hs
  rw [hstaves] at hfirst
  have hplaced : (s'.leaveMeasure c b m children).2.2 =
      (placeControls s'.signatures.meter.beatDuration (s'.grids.headD m.grid).maxTime s' children).2 := by
    rw [leaveMeasure]
    dsimp only
    split <;> rfl
  intro x hx stamp hstamp
  rw [hplaced] at hx ⊢
  obtain ⟨hstaff, hslot⟩ := staff_placeControls _ _ children s' x hx stamp hstamp
  refine ⟨?_, hslot⟩
  rw [hstaff, hfirst, Control.staffAmong,
    Forest.firstStaff?_of_sameMusic ((writes_placeControls _ _ s' children).mono
      fun _ _ h => h.keeps.toSameMusic)]
  rfl

/-- The same of the time-stamped control elements of all measures. -/
theorem notesStaves_score {above : Option (Node α)}
    (h : Forest.Completes (alignPass c) above s f s' f') (hf : f.Nested) (hf' : f'.Nested)
    (hroots : ∀ n ∈ f.roots, IsOuter n) : f'.NotesStaves := by
  intro n below hn hmeasure
  obtain ⟨n₀, before, hbefore, htag, hwalk⟩ := exists_walk_of_measure h hf hf' hroots n below hn hmeasure
  obtain ⟨htakes, hnested⟩ := hf.of_hasTree hbefore
  exact hwalk.staff hnested fun b hb => tag_of_accepts_measure htag (htakes b hb)

end AlignState

/-- Two states of one node. If it is tied to no node, it has the same staff in both, and does not lose
its slot. -/
structure Node.KeepsPlace (n n' : Node α) : Prop extends AlignState.Keeps n n' where
  staff : n.layout.startAnchor = none → n'.layout.staff = n.layout.staff
  slot : n.layout.startAnchor = none → n.layout.slot.isSome → n'.layout.slot.isSome

theorem Forest.NotesStaves.of_forall₂ {f f' : Forest (Node α)} (hf : f.NotesStaves)
    (h : Forest.Forall₂ Node.KeepsPlace f f') : f'.NotesStaves := by
  intro n' below' hn' hmeasure x' hx' stamp hstamp
  obtain ⟨n, below, hn, hnn, hbelow⟩ := h.flip.hasTree hn'
  obtain ⟨x, hx, hxx⟩ := exists_mem_of_forall₂ hbelow.flip.roots hx'
  rw [hxx.tstamp?_eq] at hstamp
  have huntied : x.layout.startAnchor = none := by
    rw [AlignState.tstamp?] at hstamp
    split_ifs at hstamp with hskip
    exact Option.not_isSome_iff_eq_none.1 (not_or.1 hskip).2
  obtain ⟨hstaff, hslot⟩ := hf n below hn (hnn.tag ▸ hmeasure) x hx stamp hstamp
  refine ⟨?_, hxx.slot huntied hslot⟩
  rw [hxx.staff huntied, hstaff, Control.staffAmong, Control.staffAmong,
    firstStaff?_of_sameMusic (hbelow.flip.mono fun _ _ h => h.toSameMusic)]

/-! ### Documents -/

namespace Document

variable {d : Document α}

/-- Alignment that meets no fault notes the staves of all time-stamped control elements. -/
theorem WellFormed.notesStaves_align (hd : d.WellFormed) {metrics : GlyphMetrics α} {unit : α}
    (hok : (d.align metrics unit).fault = none) :
    (d.align metrics unit).document.score.NotesStaves := by
  obtain ⟨s, score, hwalk, -, -, -, hscore⟩ := exists_align hok
  have hgraced : Forest.Forall₂ (fun n n' => n.KeepsPlace n' ∧ n'.kind = n.kind) score
      (d.align metrics unit).document.score := by
    rw [hscore]
    refine .map_right _ fun n _ => ⟨⟨AlignState.keeps_applyGraceSlots n _, fun _ => ?_,
      fun _ hslot => ?_⟩, ?_⟩
    all_goals
      rw [AlignState.applyGraceSlots]
      split
    all_goals first | rfl | exact hslot
  have hnested := ((d.sameTree_align metrics unit).wellFormed hd).nested_score
  exact (AlignState.notesStaves_score hwalk hd.nested_score
    (hnested.of_kind (hgraced.flip.mono fun _ _ h => h.2.symm)) hd.isOuter_root).of_forall₂
      (hgraced.mono fun _ _ h => h.1)

/-- The time-stamped control elements have slots and the numbers of their staves from alignment on. -/
theorem fromAlignment_notesStaves : FromAlignment (α := α) Forest.NotesStaves where
  align hd _ _ hok n below hn := hd.notesStaves_align hok n below hn.of_branches.of_branches.of_branches
  stays h hf := hf.of_forall₂ (h.mono fun _ _ hn => ⟨⟨hn.toSameMusic, hn.ties⟩,
    fun huntied => by rw [hn.untied huntied], fun huntied hslot => by rwa [hn.untied huntied]⟩)

end Document

end ScoreLayout
