import ScoreLayout.Proofs.Layout.BlankNodes
import ScoreLayout.Proofs.Layout.ControlStaves
import ScoreLayout.Proofs.Layout.VisibleStaves
import ScoreLayout.Proofs.Layout.WaitingControls
import ScoreLayout.Proofs.OmittedControls

/-!
# Hidden staves

A staff that is hidden in a system leaves nothing behind: the visible staves stand where they would
without it, its symbols have no bounds, and control elements that begin on it are not drawn. This holds
of every layout that meets no fault, in any arithmetic.

## Main definitions

* `Node.HidesStaff`, `Node.ShowsStaff` — a system that hides a staff, and one that shows it.
* `Forest.BeginsOn` — a control element that begins on a staff of a system.
* `Document.LeavesNoTrace` — a document whose layout shows nothing of hidden staves.

## Main results

* `Document.Reachable.blank_of_hidden` — the symbols of a hidden staff.
* `Document.Reachable.blank_of_beginsOn` — the control elements that begin there, or on no staff of
  their system.
* `Document.Reachable.leavesNoTrace` — every layout that meets no fault.
-/

namespace ScoreLayout

variable {α : Type}

/-- A system that hides the staff with a number. -/
def Node.HidesStaff (n : Node α) (k : UInt32) : Prop :=
  ∃ system slot, n.kind = .system system ∧ system.stack.get? k = some slot ∧ slot.hidden

/-- A system that shows the staff with a number. -/
def Node.ShowsStaff (n : Node α) (k : UInt32) : Prop :=
  ∃ system slot, n.kind = .system system ∧ system.stack.get? k = some slot ∧ ¬ slot.hidden

theorem Node.HidesStaff.not_shows {n : Node α} {k : UInt32} (h : n.HidesStaff k) :
    ¬ n.ShowsStaff k := by
  rintro ⟨system, slot, hn, hslot, hshown⟩
  obtain ⟨system', slot', hn', hslot', hhidden⟩ := h
  obtain rfl := NodeKind.system.inj (hn.symm.trans hn')
  obtain rfl := Option.some.inj (hslot.symm.trans hslot')
  exact hshown hhidden

/-- A node that stands on the staff with a number, in one of the measures of a forest. -/
def Forest.StandsOn (f : Forest (Node α)) (k : UInt32) (y : Node α) : Prop :=
  ∃ m under staff layers st, HasTree m under f ∧ m.tag = .measure ∧ HasTree staff layers under ∧
    staff.kind = .staff st ∧ st.n = k ∧ y ∈ layers.toList

/-- A control element that begins on the staff with a number, of the system with some trees below it:
the staff of the symbol that it starts at, or else the one in its measure that it is placed against. -/
def Forest.BeginsOn (below : Forest (Node α)) (k : UInt32) (x : Node α) : Prop :=
  ∃ c, x.kind = .control c ∧
    ((∃ y, c.point.startId = some y.id ∧ y.tag = .element ∧ below.StandsOn k y) ∨
      c.point.startId = none ∧ ∃ m under, HasTree m under below ∧ m.tag = .measure ∧
        x ∈ under.roots ∧ c.staffAmong under = k)

namespace Document

variable [Scalar α] {d : Document α} {e : Engine α}

/-- A document whose layout shows nothing of the staves that are hidden. -/
structure LeavesNoTrace (d : Document α) (e : Engine α) : Prop where
  /-- A system hides a staff that its definition hides, or that stands in the system and is hidden
  wherever it stands there. -/
  hidden : ∀ n below, Forest.HasTree n below (e.layout d).document.score → n.tag = .system → ∀ k,
    n.HidesStaff k ↔ d.definition.HidesStaff below.staves k
  /-- Stacking puts the visible staves where it puts them without the hidden ones. -/
  stacked : ∀ k, 5 ≤ k → k ≤ 7 →
    ∀ n ∈ (e.runAll d (LayoutPass.all.take k)).document.systems, ∀ s, n.kind = .system s →
      s.stack.withoutHidden.stack (e.options.spacingStaff * e.options.scaledUnit) =
        s.stack.withoutHidden
  /-- Filling pages puts them where it puts them without the hidden ones. -/
  filled : ((e.runAll d (LayoutPass.all.take 7)).document.withoutHidden.fillPages
      e.options).document.score.map Node.kind =
    (e.layout d).document.score.map fun n => n.withoutHidden.kind
  /-- A system has as many gaps between staves. -/
  gaps : ∀ passes, ∀ n ∈ (e.runAll d passes).document.systems, ∀ s, n.kind = .system s →
    s.stack.withoutHidden.gapCount = s.stack.gapCount
  /-- Symbols on a hidden staff are listed without bounds, and control elements that begin there are
  not listed. -/
  unseen : ∀ options, ∃ l, (e.layout d).document.displayList options = .ok l ∧
    ∀ n below, Forest.HasTree n below (e.layout d).document.score → ∀ k, n.HidesStaff k →
      (∀ y, below.StandsOn k y → ∀ x ∈ l.elements, x.id = y.id → x.bounds = none) ∧
        ∀ y ∈ (e.layout d).document.score.toList, below.BeginsOn k y →
          ∀ s ∈ l.systems, ∀ x ∈ s.controls, x.id ≠ y.id

/-! ### Staves -/

/-- The boxes of the staves of a layout that meets no fault. -/
theorem Reachable.stavesFramed (h : d.Reachable) (hok : (e.layout d).fault = none) :
    ∃ d₁ : Document α,
      (e.layout d).document.score.StavesFramed (d₁.placingContext e.options e.metrics) := by
  obtain ⟨hok₈, hplace, hdocument⟩ := Engine.of_runAll_take (k := 8) rfl hok
  have hseated := h.wellFormed.seated_runAll h.settled (e := e)
    [.breakPages, .fillLines, .fillPages] (by decide) (Engine.fault_of_runAll_append _ hok₈)
  have hframed := (h.wellFormed.settled_runAll h.settled e (LayoutPass.all.take 8)).1.stavesFramed_place
    hplace fun n below system htree hn _ hk _ hstaff => hseated.exists_slot htree hn hk hstaff
  rw [Engine.layout, show LayoutPass.all = LayoutPass.all.take (8 + 1) from rfl, hdocument]
  exact ⟨_, hframed⟩

/-- What is drawn on a hidden staff: nothing. -/
theorem Reachable.blank_of_hidden (h : d.Reachable) (hok : (e.layout d).fault = none) {n : Node α}
    {below : Forest (Node α)} (htree : Forest.HasTree n below (e.layout d).document.score)
    {k : UInt32} (hhides : n.HidesStaff k) {m staff : Node α} {under layers : Forest (Node α)}
    {st : Staff} (hunder : Forest.HasTree m under below) (hm : m.tag = .measure)
    (hlayers : Forest.HasTree staff layers under) (hstaff : staff.kind = .staff st) (hk : st.n = k) :
    staff.box.rect = none ∧ ∀ y ∈ layers.toList, y.tag = .element → y.box.rect = none := by
  obtain ⟨c, hframed⟩ := h.stavesFramed hok
  obtain ⟨system, slot, hn, hslot, hhidden⟩ := hhides
  obtain ⟨measure, hm⟩ := NodeKind.exists_of_measure hm
  obtain ⟨slot', hslot', hbox, hblank⟩ := hframed n below system htree hn m under measure hunder hm
    staff layers st hlayers hstaff
  obtain rfl := Option.some.inj (hslot.symm.trans (hk ▸ hslot'))
  refine ⟨?_, hblank hhidden⟩
  rw [hbox, SystemFrame.staffBox, if_pos hhidden]

/-! ### Control elements -/

/-- After a layout a control element is left out, or tied to the symbols that it names; one that names
none has a time-stamp and stands in a measure. -/
theorem WellFormed.tied_layout (hd : d.WellFormed) (hs : d.Settled) (e : Engine α) {x : Node α}
    (hx : x ∈ (e.layout d).document.content.toList) {c : Control α} (hc : x.kind = .control c) :
    x.layout.omitted ∨ ∃ first last,
      (e.layout d).document.TiedTo (inMeasure (d.parentNode? x.handle)) c first last ∧
        x.layout.startAnchor = first ∧ x.layout.endAnchor = last ∧ ¬ x.layout.omitted := by
  have hkept := hd.keeps_layout hs e
  have hcontent : Forest.Forall₂ Node.SameMusic d.content (e.layout d).document.content :=
    (hd.sameMusic_run hs e .prepare).trans hkept fun _ _ _ h h' => h.trans h'.toSameMusic
  obtain ⟨x₁, hx₁, hkeeps⟩ := exists_mem_of_forall₂ hkept.toList hx
  obtain ⟨x₀, -, hprepared⟩ := exists_mem_of_forall₂ hd.forall₂_prepare.toList hx₁
  have hsame : x₀.handle = x.handle ∧ x₀.kind = .control c := by
    obtain ⟨layout, rfl⟩ := hprepared.node
    refine ⟨hkeeps.handle.symm, ?_⟩
    have hbare := hkeeps.kind
    rw [hc] at hbare
    cases hk : x₀.kind <;> simp_all [Node.reset, NodeKind.reset, NodeKind.bare]
  rw [LayoutState.omitted_eq_of_ties hkeeps.ties]
  rcases hprepared.control c hsame.2 with ⟨first, last, htied, hlayout⟩ | ⟨-, hlayout⟩
  · refine .inr ⟨first, last, hsame.1 ▸ htied.mono fun id i hok =>
      hd.resolveAnchor_of_content (hd.settled_runAll hs e LayoutPass.all).1 (fun n hn _ =>
        exists_mem_of_forall₂ hcontent.flip.toList hn) hok, ?_, ?_, ?_⟩
    · rw [LayoutState.startAnchor_eq_of_ties hkeeps.ties, hlayout]
    · rw [show x.layout.endAnchor = x₁.layout.endAnchor from
        congrArg (fun ties => ties.2.1) hkeeps.ties, hlayout]
    · rw [hlayout]
      exact Bool.false_ne_true
  · rw [hlayout]
    exact .inl rfl

/-- The time-stamp of a control element that is not left out and names no symbol has been brought into
its measure. -/
theorem Reachable.stamped_of_beginsOn (h : d.Reachable) (hok : (e.layout d).fault = none)
    {m : Node α} {under : Forest (Node α)}
    (htree : Forest.HasTree m under (e.layout d).document.score) (hm : m.tag = .measure) {x : Node α}
    (hx : x ∈ under.roots) {c : Control α} (hc : x.kind = .control c)
    (hstart : c.point.startId = none) (hkept : ¬ x.layout.omitted) :
    x.layout.startAnchor = none ∧ x.layout.staff = some (c.staffAmong under) ∧
      x.layout.slot.isSome := by
  obtain ⟨-, hplace, hdocument⟩ := Engine.of_runAll_take (k := 8) rfl hok
  have hwell := (h.wellFormed.settled_runAll h.settled e LayoutPass.all).1
  obtain ⟨r, pages, hshape⟩ := hwell.exists_shape
  have htag : x.tag = .control := by rw [Node.tag, hc]; rfl
  have hcontent := hwell.mem_content (htree.mem_of_mem (Forest.mem_toList_of_mem_roots hx))
    (by rw [htag]; decide)
  obtain ⟨first, last, htied, hfirst, -⟩ :=
    (h.wellFormed.tied_layout h.settled e hcontent hc).resolve_left hkept
  obtain ⟨rfl, htimed, -⟩ := htied.timed hstart
  obtain ⟨stamp, hstamp⟩ := Option.isSome_iff_exists.1 htimed
  have hstage : Stage.aligned ≤ (e.layout d).document.stage := by
    rw [show (e.layout d).document = _ from hdocument]
    exact (stage_place hplace).symm ▸ by decide
  exact ⟨hfirst, fromAlignment_notesStaves.promise.of_reachable (h.layout e) hstage m under
    (hshape.hasTree_content htree hm) hm x hx (c, stamp) (by
      rw [AlignState.tstamp?, if_neg (by simp [hkept, hfirst]), hc]
      simp [NodeKind.control?, hstamp])⟩

/-- A control element that begins on a staff that its system does not show is left out, or has no
box. -/
theorem Reachable.blank_of_beginsOn (h : d.Reachable) (hok : (e.layout d).fault = none) {n : Node α}
    {below : Forest (Node α)} (htree : Forest.HasTree n below (e.layout d).document.score)
    (hsystem : n.tag = .system) {k : UInt32} (hunshown : ¬ n.ShowsStaff k) {x : Node α}
    (hx : x ∈ (e.layout d).document.score.toList) (hbegins : below.BeginsOn k x) :
    x.layout.omitted ∨ x.box.rect = none := by
  obtain ⟨hok₈, hplace, hdocument⟩ := Engine.of_runAll_take (k := 8) rfl hok
  have hwell := (h.wellFormed.settled_runAll h.settled e LayoutPass.all).1
  have hready := (h.wellFormed.settled_runAll h.settled e (LayoutPass.all.take 8)).1
  obtain ⟨system, hn⟩ := NodeKind.exists_of_system hsystem
  have hhidden : ∀ slot, system.stack.get? k = some slot → slot.hidden := fun slot hslot =>
    by_contra fun hshown => hunshown ⟨system, slot, hn, hslot, hshown⟩
  obtain ⟨c, hc, hstarts⟩ := hbegins
  have htag : x.tag = .control := by rw [Node.tag, hc]; rfl
  have hcontent := hwell.mem_content hx (by rw [htag]; decide)
  refine or_iff_not_imp_left.2 fun hkept => ?_
  obtain ⟨first, last, htied, hfirst, -⟩ :=
    (h.wellFormed.tied_layout h.settled e hcontent hc).resolve_left hkept
  -- nothing has given the control element a box
  have hblank : ∀ y ∈ (e.runAll d (LayoutPass.all.take 8)).document.score.toList,
      y.tag = .control → y.box.rect = none := fun y hy ht =>
    h.wellFormed.blank_runAll h.settled e y (hready.mem_content hy (by rw [ht]; decide))
      (NodeKind.isBlank_of_control ht)
  refine hblank x ?_ htag
  have heq : (e.layout d).document =
      ((e.runAll d (LayoutPass.all.take 8)).document.place e.options e.metrics).document := hdocument
  obtain ⟨y, hstart, hy, m, under, staff, layers, st, hunder, hm, hlayers, hstaff, hst, hyl⟩ |
    ⟨hstart, m, under, hunder, hm, hxm, hk⟩ := hstarts
  · obtain ⟨i, rfl, hi⟩ := htied.start y.id hstart
    have hyscore := htree.mem_of_mem (hunder.mem_of_mem (hlayers.mem_of_mem hyl))
    obtain rfl := Except.ok.inj (hi.symm.trans
      (hwell.resolveAnchor_eq_ok_iff.2 ⟨y, hyscore, rfl, hy, rfl⟩))
    obtain ⟨frame, hframed⟩ := h.stavesFramed hok
    obtain ⟨measure, hmk⟩ := NodeKind.exists_of_measure hm
    obtain ⟨slot, hslot, -⟩ := hframed n below system htree hn m under measure hunder hmk staff layers
      st hlayers hstaff
    have hbox := (h.blank_of_hidden hok htree ⟨system, slot, hn, hst ▸ hslot, hhidden slot (hst ▸ hslot)⟩
      hunder hm hlayers hstaff hst).1
    rw [heq] at hx htree
    exact hready.mem_of_hidden_start hplace hx htag (htree.trans (hunder.trans hlayers))
      (by rw [Node.tag, hstaff]; rfl) hbox hyl hfirst
  · obtain ⟨hfirst, hstaff, -⟩ :=
      h.stamped_of_beginsOn hok (htree.trans hunder) hm hxm hc hstart hkept
    rw [heq] at htree
    refine hready.mem_of_unshown_stamp hplace htree hn hunder hm hxm htag hfirst ?_
    rw [hstaff, Option.getD_some, hk]
    exact hhidden

/-- A symbol without a box is listed without bounds. -/
theorem WellFormed.bounds_eq_none (hd : d.WellFormed) {y : Node α} (hy : y ∈ d.score.toList)
    (hbox : y.tag = .element → y.box.rect = none) {options : LayoutOptions α} {l : DisplayList α}
    (hl : d.displayList options = .ok l) : ∀ x ∈ l.elements, x.id = y.id → x.bounds = none := by
  obtain ⟨r, pages, hshape⟩ := hd.exists_shape
  have hs : d.stage = .finalized := by
    rw [displayList] at hl
    generalize d.stage = s at hl
    cases s <;> first | rfl | cases hl
  obtain rfl := Except.ok.inj (hl.symm.trans (hshape.displayList_eq hs options))
  rw [DisplayList.elements_pagesIn (fun a b hl => hshape.accepts hl) hshape.root_tag]
  intro x hx hid
  obtain ⟨z, hz, hdrawn⟩ := List.mem_filterMap.1 hx
  obtain ⟨symbol, hsymbol, rfl⟩ := Option.map_eq_some_iff.1 hdrawn
  obtain rfl := hd.eq_of_id_eq (hshape.mem hz) ((score_sublist d).subset hy) hid
  have ht : z.tag = .element := by
    rw [Node.tag]
    cases hk : z.kind <;> simp_all [NodeKind.element?, NodeKind.tag]
  rw [DisplayList.ofElement, if_neg]
  rw [Box.HasContent, hbox ht]
  exact id

/-! ### Layouts -/

/-- Hidden staves leave nothing behind in a layout that meets no fault, as long as nothing detached has
an identifier kept for unbroken content. -/
theorem Reachable.leavesNoTrace (h : d.Reachable) (hfree : Unreserved d.trees.rest)
    (hok : (e.layout d).fault = none) : d.LeavesNoTrace e := by
  have hd := h.ready hfree
  obtain ⟨hok₈, hplace, hdocument⟩ := Engine.of_runAll_take (k := 8) rfl hok
  obtain ⟨hok₇, hfill, hdocument₈⟩ := Engine.of_runAll_take (k := 7) rfl hok₈
  have hok₅ : (e.runAll d (LayoutPass.all.take 5)).fault = none :=
    Engine.fault_of_runAll_append _ (show (e.runAll d (LayoutPass.all.take 5 ++
      [.breakPages, .fillLines])).fault = none from hok₇)
  obtain ⟨hsame, hready⟩ := hd.layout e
  have hstage : (e.layout d).document.stage = .finalized := by
    rw [show (e.layout d).document = _ from hdocument]
    exact stage_place hplace
  have hlisted (options : LayoutOptions α) :
      ∃ l, (e.layout d).document.displayList options = .ok l := by
    obtain ⟨r, pages, hshape⟩ := hready.wellFormed.exists_shape
    exact ⟨_, hshape.displayList_eq hstage options⟩
  refine ⟨fun n below htree ht k => ?_, fun k hle hlt n hn s hs => ?_, ?_,
    fun _ _ _ s _ => s.stack.gapCount_withoutHidden, fun options => ?_⟩
  · obtain ⟨system, hn⟩ := Node.exists_system ht
    have hseats := hd.wellFormed.seated_runAll hd.settled (e := e) (LayoutPass.all.drop 5)
      (fun _ h => h) hok₅ n below htree system hn
    rw [show (e.runAll d (LayoutPass.all.take 5 ++ LayoutPass.all.drop 5)).document.definition =
      d.definition from hsame.definition] at hseats
    rw [← hseats.hides_iff, Node.HidesStaff]
    simp only [hn, NodeKind.system.injEq, exists_and_left, exists_eq_left']
  · have hstacked : (e.runAll d (LayoutPass.all.take k)).document.Stacked
        (e.options.spacingStaff * e.options.scaledUnit) := by
      have hlater := fun later hlater =>
        hd.wellFormed.stacked_runAll hd.settled (e := e) later hlater hok₅
      obtain rfl | rfl | rfl : k = 5 ∨ k = 6 ∨ k = 7 := by omega
      · exact hlater [] (by decide)
      · exact hlater [.breakPages] (by decide)
      · exact hlater [.breakPages, .fillLines] (by decide)
    rw [← StaffStack.withoutHidden_stack, hstacked n hn s hs]
  · obtain ⟨score, stage, hboxed, hplaced⟩ := (hd.runAll e
      (LayoutPass.all.take 8)).2.wellFormed.exists_place e.options e.metrics
    have hscore : (e.layout d).document.score = score := by
      rw [show (e.layout d).document = _ from hdocument.trans hplaced]
      exact score_withScore hboxed
    rw [(hd.runAll e (LayoutPass.all.take 7)).2.wellFormed.score_fillPages_withoutHidden
      (Outcome.required_le_of_guarded hfill) e.options, hscore,
      show ((e.runAll d (LayoutPass.all.take 7)).document.fillPages e.options).document =
        (e.runAll d (LayoutPass.all.take 8)).document from hdocument₈.symm]
    have hmapped := (Forest.Forall₂.map_right (R := fun n n' : Node α => n' = n.withoutHidden)
      Node.withoutHidden (f := (e.runAll d (LayoutPass.all.take 8)).document.score)
      fun _ _ => rfl).flip
    refine (hmapped.trans hboxed (T := fun n n' => n.kind = n'.withoutHidden.kind)
      fun n n₁ n' hn hn' => ?_).map_eq fun _ _ hn => hn
    rw [hn, Node.withoutHidden, Node.withoutHidden, Node.mapKind, Node.mapKind, hn'.kind]
  · obtain ⟨l, hl⟩ := hlisted options
    refine ⟨l, hl, fun n below htree k hhides => ⟨fun y hy => ?_, fun y hy hbegins => ?_⟩⟩
    · obtain ⟨m, under, staff, layers, st, hunder, hm, hlayers, hstaff, hst, hyl⟩ := hy
      exact hready.wellFormed.bounds_eq_none
        (htree.mem_of_mem (hunder.mem_of_mem (hlayers.mem_of_mem hyl)))
        ((h.blank_of_hidden hok htree hhides hunder hm hlayers hstaff hst).2 y hyl) hl
    · have ht : y.tag = .control := by
        obtain ⟨c, hc, -⟩ := hbegins
        rw [Node.tag, hc]
        rfl
      refine hready.wellFormed.not_drawn (hready.wellFormed.mem_content hy (by rw [ht]; decide)) ?_ hl
      have hsystem : n.tag = .system := by
        obtain ⟨system, -, hn, -⟩ := hhides
        rw [Node.tag, hn]
        rfl
      refine (h.blank_of_beginsOn hok htree hsystem hhides.not_shows hy hbegins).imp_right
        fun hbox => ?_
      rw [Box.HasContent, hbox]
      exact id

/-- A note on a staff and one on a hidden staff below it, with a dynamic mark under each of them and one
on the first beat of the hidden staff. -/
theorem Reachable.leavesNoTrace_of_hidden_staff : ∃ d : Document ℚ, d.Reachable ∧
    (Engine.default.layout d).fault = none ∧
    ((Engine.default.layout d).document.displayList .default).toOption.map (fun l =>
      (l.elements.map fun x => x.bounds.isSome,
        (l.systems.flatMap DisplaySystem.controls).map DisplayControl.staff)) =
      some ([true, false], [some 1]) ∧
    d.LeavesNoTrace .default := by
  have hmeasure := (((Reachable.ofDefinition (α := ℚ) default).contentSystem.add 2
    (.measure (.ofNumber 1))).add 3 (.staff ⟨1, false⟩)).add 4 (.layer 1)
  have hlayers := (((hmeasure.addNamed (by decide) (show Document.addNamed _ 5 "a"
    (.element (.note ⟨.ofValue .quarter, ⟨.c, 4, none⟩, none, false⟩)) = _ from rfl)).add 3
    (.staff ⟨2, true⟩)).add 7 (.layer 1)).addNamed (by decide) (show Document.addNamed _ 8 "b"
    (.element (.note ⟨.ofValue .quarter, ⟨.d, 4, none⟩, none, false⟩)) = _ from rfl)
  have hd := ((hlayers.add 3 (.control (.dynamic (.atId "a") "f"))).add 3
    (.control (.dynamic (.atId "b") "f"))).add 3 (.control (.dynamic (.atBeat 1 2) "p"))
  exact ⟨_, hd, by decide +kernel, by decide +kernel,
    hd.leavesNoTrace (fun n hn => absurd hn List.not_mem_nil)
      (show (Engine.default.layout _).fault = none by decide +kernel)⟩

end Document

end ScoreLayout
