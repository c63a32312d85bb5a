import ScoreLayout.Proofs.Layout.PlacedControls
import ScoreLayout.Proofs.Layout.StaffFrames
import ScoreLayout.Proofs.Layout.StaffNumbers
import ScoreLayout.Proofs.Layout.TwinPlacement
import ScoreLayout.Proofs.ScoreTimes

/-!
# Control elements on hidden staves and on others

Placement walks what stands below the document node, and then puts the control elements in their
places that have waited, one after another. On the walk it leaves those alone that wait, and those
whose staff is not shown. Later it leaves those alone that begin on a hidden staff. Nothing else touches
them, so they are in the end what they were before. All others get a footprint.

## Main results

* `Document.Shape.exists_placed` — placement as a walk and what comes after it.
* `Placing.exists_enter_of_control` — the control elements of a measure.
* `Document.WellFormed.mem_of_hidden_start`, `Document.WellFormed.mem_of_unshown_stamp` — control
  elements on staves that are not shown.
* `Document.WellFormed.box_of_shown_stamp`, `Document.WellFormed.exists_placedBetween` — all others.
-/

namespace ScoreLayout

variable {α : Type} [Scalar α]

omit [Scalar α] in
theorem Node.Reanchored.symm {n n' : Node α} (h : n.Reanchored n') : n'.Reanchored n where
  toSameKind := ⟨h.handle.symm, h.id.symm, h.kind.symm, h.dirty.symm⟩
  same htag := (h.same (by rwa [Node.tag, ← h.kind])).symm
  ties := h.ties.symm
  untied hstart := (h.untied (LayoutState.startAnchor_eq_of_ties h.ties ▸ hstart)).symm

namespace Placing

variable {c : PlacingContext α} {s s₁ s' : Placing α} {n : Node α} {f f' : Forest (Node α)}

/-! ### The walk -/

/-- Entering a control element changes its box only, and not even this while it waits. -/
theorem enterControl_node (c : PlacingContext α) (s : Placing α) (above : Option (Node α)) (n : Node α)
    (control : Control α) : (∃ box, (s.enterControl c above n control).2 = { n with box }) ∧
      (n.layout.startAnchor.isSome → (s.enterControl c above n control).2 = n) := by
  unfold enterControl
  dsimp only
  by_cases homitted : n.layout.omitted
  · rw [if_pos homitted]
    exact ⟨⟨n.box, rfl⟩, fun _ => rfl⟩
  rw [if_neg homitted]
  by_cases hstart : n.layout.startAnchor.isSome
  · rw [if_pos hstart]
    exact ⟨⟨n.box, rfl⟩, fun _ => rfl⟩
  rw [if_neg hstart]
  refine ⟨?_, fun h => absurd h hstart⟩
  split
  · split_ifs
    · exact ⟨n.box, rfl⟩
    · exact ⟨_, rfl⟩
  · exact ⟨n.box, rfl⟩

/-- A control element against a staff that is not shown is left as it is. -/
theorem enterControl_of_unshown {frame : SystemFrame α} (hs : s.system = some frame)
    (hhidden : ∀ slot, frame.system.stack.get? (n.layout.staff.getD 1) = some slot → slot.hidden)
    (above : Option (Node α)) (control : Control α) : (s.enterControl c above n control).2 = n := by
  have hstaff : s.staff? (n.layout.staff.getD 1) =
      (frame.system.stack.get? (n.layout.staff.getD 1)).map fun slot => (slot, frame.y + slot.y) := by
    rw [staff?, hs, Option.bind_eq_bind, Option.bind_some]
    cases frame.system.stack.get? (n.layout.staff.getD 1) <;> rfl
  unfold enterControl
  dsimp only
  rw [hstaff]
  split_ifs
  · rfl
  · rfl
  · split
    · rename_i hfound
      obtain ⟨slot', hslot, heq⟩ := Option.map_eq_some_iff.1 hfound
      cases heq
      rw [if_pos (.inr (hhidden _ hslot))]
    · rfl

/-- A control element with a slot of its measure is placed there against a staff that is shown. -/
theorem enterControl_of_shown {frame : SystemFrame α} (hs : s.system = some frame)
    {slot : StaffSlot α} (hslot : frame.system.stack.get? (n.layout.staff.getD 1) = some slot)
    (hshown : ¬ slot.hidden) {mf : MeasureFrame α} (hmeasure : s.measure = some mf)
    {above : Node α} (habove : above.handle = mf.handle) (hkept : ¬ n.layout.omitted)
    (hstart : n.layout.startAnchor = none) (hkey : n.layout.slot.isSome) (control : Control α) :
    (s.enterControl c (some above) n control).2.box =
      ⟨mf.xOf n.layout.slot,
        control.y c.unit (frame.y + slot.y) (frame.y + slot.y + slot.height)
          (c.metrics.controlFootprint control 0 c.unit).height,
        some (c.metrics.controlFootprint control 0 c.unit)⟩ := by
  have hstaff : s.staff? (n.layout.staff.getD 1) = some (slot, frame.y + slot.y) := by
    rw [staff?, hs, Option.bind_eq_bind, Option.bind_some, hslot]
    rfl
  obtain ⟨key, hkey⟩ := Option.isSome_iff_exists.1 hkey
  have hplace : ¬ (Option.map Node.handle (some above) ≠ some mf.handle ∨ slot.hidden) := by
    simp [habove, hshown]
  unfold enterControl
  dsimp only
  rw [if_neg hkept, hstart, if_neg (by simp), hmeasure, hkey, hstaff]
  dsimp only
  rw [if_neg hplace]

/-- What waits is left as it is. -/
theorem keeps_waiting {above : Option (Node α)} (h : Forest.Completes (placingPass c) above s f s' f') :
    Forest.Forall₂ (fun n n' : Node α => n'.tag = .control → n'.layout.startAnchor.isSome → n' = n)
      f f' := by
  refine h.forall₂ (fun _ _ _ => rfl) (fun a b c hab hbc hc hstart => ?_) (fun s above n hn hstart => ?_)
    fun s whole n below => ⟨fun hn _ => ?_, ?_⟩
  · obtain rfl := hbc hc hstart
    exact hab hc hstart
  · obtain ⟨-, hkind⟩ := placed_enter (c := c) s above n
    obtain ⟨k, hk⟩ := Node.exists_control (n := n) (by rwa [Node.tag, hkind] at hn)
    dsimp only [placingPass] at hstart ⊢
    rw [hk] at hstart ⊢
    dsimp only at hstart ⊢
    obtain ⟨⟨box, hbox⟩, hwaits⟩ := enterControl_node c s above n k
    rw [hbox] at hstart
    exact hwaits hstart
  · dsimp only [placingPass] at hn ⊢
    cases hk : n.kind with
    | element e =>
      rw [hk] at hn
      dsimp only at hn
      rw [leaveElement] at hn
      split at hn <;> · rw [Node.tag, hk] at hn; cases hn
    | _ => rfl
  · dsimp only [placingPass]
    split <;> exact .refl fun _ _ _ _ => rfl

/-- Every control element right inside a measure has been entered with the system and the measure. -/
theorem exists_enter_of_control {above : Option (Node α)}
    (h : Forest.Completes (placingPass c) above s f s' f') (hf : f.Nested)
    (hroots : ∀ n ∈ f.roots, n.tag = .staff ∨ n.tag = .control) {frame : SystemFrame α}
    (hsystem : s.system = some frame) {mf : MeasureFrame α} (hmeasure : s.measure = some mf) :
    ∀ x' ∈ f'.roots, ∀ control, x'.kind = .control control → ∃ x ∈ f.roots, ∃ t : Placing α,
      t.system = some frame ∧ t.measure = some mf ∧ x' = (t.enterControl c above x control).2 := by
  induction h with
  | nil => exact fun _ h => absurd h List.not_mem_nil
  | @skip above s s₁ s₂ b b₁ children siblings siblings' henter _ ih =>
    rw [Forest.roots, List.forall_mem_cons] at hroots
    obtain ⟨hmeasure₁, hsystem₁, htag₁, -, hskip⟩ := enter_of_frame hmeasure
      (hroots.1.imp_right fun ht => .inr (.inl ht)) henter
    have hrest := ih hf.2.2 hroots.2 (hsystem₁.trans hsystem) hmeasure₁
    obtain ⟨k, hb⟩ := Node.exists_control (hskip rfl)
    rw [Forest.roots, List.forall_mem_cons]
    refine ⟨fun control hcontrol => ?_, fun x' hx' control hcontrol => ?_⟩
    · dsimp only [placingPass] at henter
      rw [hb] at henter
      simp only [Prod.mk.injEq] at henter
      obtain ⟨-, rfl, -⟩ := henter
      obtain ⟨⟨box, hbox⟩, -⟩ := enterControl_node c s above b k
      obtain rfl : k = control := by
        rw [hbox] at hcontrol
        exact NodeKind.control.inj (hb.symm.trans hcontrol)
      exact ⟨b, List.mem_cons_self, s, hsystem, hmeasure, rfl⟩
    · obtain ⟨x, hx, hentered⟩ := hrest x' hx' control hcontrol
      exact ⟨x, List.mem_cons_of_mem _ hx, hentered⟩
  | @walk above s s₁ s₂ s₃ s₄ b b₁ b₂ children siblings children₁ children₂ siblings' whole v henter
      hbelow hleave _ _ _ ihbeside =>
    rw [Forest.roots, List.forall_mem_cons] at hroots
    obtain ⟨htakes, hchildren, hsiblings⟩ := hf
    have hinside := hroots.1.imp_right fun ht => (.inr (.inl ht) : b.tag = .layer ∨ b.tag = .control ∨ b.tag = .element)
    obtain ⟨hmeasure₁, hsystem₁, htag₁, -⟩ := enter_of_frame hmeasure hinside henter
    obtain ht | ht := hroots.1
    · obtain ⟨staff, hb⟩ := Node.exists_staff ht
      obtain ⟨hsystem₂, hmeasure₂, -⟩ := placed_staves hbelow hchildren
        (fun k hk => .inr (.inl (tag_of_accepts_staff hb (htakes k hk)))) hmeasure₁
      obtain ⟨hmeasure₃, hsystem₃, htag₂, -⟩ := leave_of_frame hmeasure₂ (htag₁ ▸ hinside) hleave
      have hrest := ihbeside hsiblings hroots.2
        (hsystem₃.trans (hsystem₂.trans (hsystem₁.trans hsystem))) hmeasure₃
      rw [Forest.roots, List.forall_mem_cons]
      refine ⟨fun control hcontrol => ?_, fun x' hx' control hcontrol => ?_⟩
      · have htag := htag₂.trans (htag₁.trans ht)
        rw [Node.tag, hcontrol] at htag
        cases htag
      · obtain ⟨x, hx, hentered⟩ := hrest x' hx' control hcontrol
        exact ⟨x, List.mem_cons_of_mem _ hx, hentered⟩
    · obtain ⟨k, hb⟩ := Node.exists_control ht
      simp [placingPass, hb] at henter

end Placing

namespace Document

variable {d e : Document α} {options : LayoutOptions α} {metrics : GlyphMetrics α}
  {c : PlacingContext α}

/-! ### What comes after the walk -/

/-- The score after what has waited is in its place, node by node. -/
theorem map_latest_eq (hd : d.handles.Nodup) {s : Placing α} {waiting : List Handle}
    (hok : waiting.foldlM (placeAnchored c) d = .ok e) (hs : s.placed = waiting.filterMap e.node?) :
    d.score.map s.latest = e.score := by
  have hsame := forall₂_placeAllAnchored hd hok
  have he : e.handles.Nodup := by
    rw [handles, ← map_eq_of_forall₂ (fun _ _ h => h.handle.symm) hsame.toList]
    exact hd
  have hnode {d : Document α} (hd : d.handles.Nodup) {n : Node α} (hn : n ∈ d.score.toList) :
      d.node? n.handle = some n := by
    rw [node?, Forest.find?_eq_find?_toList]
    exact (find?_key_eq_some_iff hd).2 ⟨(score_sublist d).subset hn, rfl⟩
  refine (hsame.first.mem.map_eq fun n n' hn => ?_).trans (Forest.map_eq_self fun _ _ => rfl)
  obtain ⟨hreanchored, hmem, hmem'⟩ := hn
  have hn' : e.node? n.handle = some n' := hreanchored.handle ▸ hnode he hmem'
  rw [Placing.latest, hs, find?_filterMap_node?]
  split_ifs with hwaits
  · rw [hn']
    rfl
  · rw [node?_placeAll_of_notMem hok hwaits, hnode hd hmem] at hn'
    exact Option.some.inj hn'

/-- Placement that meets no fault walks what stands below the document node, and puts what has waited
in its place. -/
theorem Shape.exists_placed {D : ScoreDefinition} {r : Node α} {pages detached : Forest (Node α)}
    (hd : d.Shape D r pages detached) (hok : (d.place options metrics).fault = none) :
    ∃ s pages' e, Forest.Completes (placingPass (d.placingContext options metrics)) (some r) .start
          pages s pages' ∧
        Forest.Forall₂ Node.Boxed pages pages' ∧
        s.waiting.foldlM (placeAnchored (d.placingContext options metrics))
          (d.withScore (.tree r pages')) = .ok e ∧
        (d.place options metrics).document.score = e.score := by
  have hs := Outcome.required_le_of_guarded hok
  have hcompletes := Forest.completes_runWithin (placingPass (d.placingContext options metrics)) pages
    (some r) (fun f => .tree r f) .start
  have hstop := Placing.fault_of_stop (c := d.placingContext options metrics) pages (some r)
    (fun f => .tree r f) .start
  obtain ⟨hboxed, hwaits⟩ := Placing.run_below (d.placingContext options metrics) (W := fun _ => True)
    pages (fun n hn => ⟨hd.wellFormed.tag_ne_document_of_mem_below hd.trees hn, trivial⟩) (some r)
    (fun f => .tree r f) (s := .start) ⟨rfl, rfl, List.forall_mem_nil _⟩
  generalize hwalk : pages.runWithin (placingPass (d.placingContext options metrics)) (some r)
    (fun f => .tree r f) .start = ran at hcompletes hstop hboxed hwaits
  obtain ⟨s, pages', v⟩ := ran
  dsimp only at hcompletes hstop hboxed hwaits
  have hv : v ≠ .stop := by
    rintro rfl
    have hfault := hstop rfl
    rw [hwaits.fault] at hfault
    cases hfault
  have hwell := (hd.sameTree_walked hwalk).wellFormed hd.wellFormed
  have hscore : (d.withScore (.tree r pages')).score = .tree r pages' :=
    score_withScore (R := Node.Boxed) (hd.score ▸ .cons (.refl r) hboxed .nil)
  obtain ⟨_, hrun⟩ := Placing.run_tree _ (NodeKind.eq_document hd.root_tag) hv hwalk
  rw [← hd.score, placeWaiting_eq hwaits.placed] at hrun
  cases hfold : s.waiting.foldlM (placeAnchored (d.placingContext options metrics))
      (d.withScore (.tree r pages')) with
  | error f =>
    rw [show (d.placingContext options metrics).document = d from rfl, hfold] at hrun
    exact absurd (hok.symm.trans (place_of_run hs hrun).1) (by simp)
  | ok e =>
    rw [show (d.placingContext options metrics).document = d from rfl, hfold] at hrun
    obtain ⟨-, -, hplaced, -⟩ := place_of_run hs hrun
    refine ⟨s, pages', e, hcompletes hv, hboxed, hfold, ?_⟩
    rw [hplaced, ← hscore]
    exact map_latest_eq hwell.nodup_handles hfold rfl

theorem stage_place (hok : (d.place options metrics).fault = none) :
    (d.place options metrics).document.stage = .finalized := by
  rw [place, Outcome.guarded] at hok ⊢
  split at hok
  · exact absurd hok (by simp [Outcome.failed])
  · dsimp only at hok ⊢
    split at hok
    · exact absurd hok (by simp [Outcome.failed])
    · rfl

/-- A control element that begins on a hidden staff is left as it is. -/
theorem node?_placeAll_of_hidden : {waiting : List Handle} → {d e : Document α} → d.handles.Nodup →
    waiting.foldlM (placeAnchored c) d = .ok e → ∀ {i : Handle} {n staff : Node α} {start : Handle},
      d.node? i = some n → n.layout.startAnchor = some start →
        d.ancestorOfKind? start .staff = some staff → staff.box.rect = none → e.node? i = some n
  | [], _, _, _, hok, _, _, _, _, hn, _, _, _ => Except.ok.inj hok ▸ hn
  | h :: waiting, d, _, hd, hok, i, n, staff, start, hn, hstart, hstaff, hhidden => by
      obtain ⟨d₁, hok₁, hok⟩ := except_bind_eq_ok.1 hok
      have hn₁ : d₁.node? i = some n := by
        by_cases hi : i = h
        · subst hi
          obtain ⟨m, hm, ⟨control, start', first, span, hspans, -⟩ | ⟨rfl, -⟩⟩ :=
            placeAnchored_cases hok₁
          · obtain rfl := Option.some.inj (hn.symm.trans hm)
            obtain rfl := Option.some.inj (hstart.symm.trans hspans.tied)
            have hshown := hspans.shown
            rw [hstaff, Option.map_some, Option.getD_some, hhidden] at hshown
            cases hshown
          · exact hn
        · rw [node?_placeAnchored_of_ne hok₁ hi, hn]
      have habove := ancestorOfKind?_of_reanchored (forall₂_placeAnchored hd hok₁) start
        (show NodeTag.staff ≠ .control by decide)
      exact node?_placeAll_of_hidden (nodup_handles_placeAnchored hd hok₁) hok hn₁ hstart
        (habove.trans hstaff) hhidden

/-! ### Hidden staves -/

/-- A control element that begins on a hidden staff is what it was before placement. -/
theorem WellFormed.mem_of_hidden_start (hd : d.WellFormed)
    (hok : (d.place options metrics).fault = none) {x k y : Node α} {layers : Forest (Node α)}
    (hx : x ∈ (d.place options metrics).document.score.toList) (htag : x.tag = .control)
    (hk : Forest.HasTree k layers (d.place options metrics).document.score) (hstaff : k.tag = .staff)
    (hhidden : k.box.rect = none) (hy : y ∈ layers.toList)
    (hstart : x.layout.startAnchor = some y.handle) : x ∈ d.score.toList := by
  obtain ⟨r, pages, hshape⟩ := hd.exists_shape
  obtain ⟨s, pages', e, hwalk, hboxed, hfold, hscore⟩ := hshape.exists_placed hok
  have hsame : Forest.Forall₂ Node.Boxed d.score (.tree r pages') :=
    hshape.score ▸ .cons (.refl r) hboxed .nil
  have hwell := (d.sameTree_withScore (hsame.mono fun _ _ h => h.sameMusic)).wellFormed hd
  have hwalked : (d.withScore (.tree r pages')).score = .tree r pages' := score_withScore hsame
  generalize d.withScore (.tree r pages') = d₁ at hfold hwell hwalked
  have hlater := forall₂_placeAllAnchored hwell.nodup_handles hfold
  rw [hscore] at hx hk
  obtain ⟨x₁, hx₁, hxx⟩ := exists_mem_of_forall₂ hlater.first.toList hx
  obtain ⟨k₁, layers₁, hk₁, hkk, hlayers⟩ := hlater.first.flip.hasTree hk
  obtain ⟨y₁, hy₁, hyy⟩ := exists_mem_of_forall₂ hlayers.flip.toList hy
  obtain rfl : k = k₁ := hkk.same (by rw [Node.tag, ← hkk.kind, ← Node.tag, hstaff]; decide)
  have hnode : d₁.node? x₁.handle = some x₁ := hwell.node?_eq_some_iff.2 ⟨(score_sublist d₁).subset hx₁, rfl⟩
  have habove := hwell.ancestorOfKind?_eq hk₁ hy₁
    (hwell.nested_score.tag_ne_below hk₁ (by rw [hstaff]; decide))
  have hstart₁ : x₁.layout.startAnchor = some y₁.handle := by
    rw [← LayoutState.startAnchor_eq_of_ties hxx.ties, hstart, hyy.handle]
  have hnode' := node?_placeAll_of_hidden hwell.nodup_handles hfold hnode hstart₁ (hstaff ▸ habove)
    hhidden
  -- what has the same handle in the end is the same node
  have he : e.handles.Nodup := by
    rw [handles, ← map_eq_of_forall₂ (fun _ _ h => h.handle.symm) hlater.toList]
    exact hwell.nodup_handles
  rw [node?, Forest.find?_eq_find?_toList, ← hxx.handle] at hnode'
  obtain rfl : x = x₁ := Option.some.inj
    (((find?_key_eq_some_iff he).2 ⟨(score_sublist e).subset hx, rfl⟩).symm.trans hnode')
  change x ∈ d₁.score.toList at hx₁
  rw [hwalked, Forest.toList_tree, List.mem_cons] at hx₁
  obtain rfl | hx₁ := hx₁
  · exact absurd (htag.symm.trans hshape.root_tag) (by decide)
  obtain ⟨x₀, hx₀, hkept⟩ := exists_mem_of_forall₂ (Placing.keeps_waiting hwalk).toList hx₁
  rw [hkept htag (by rw [hstart]; rfl), hshape.score, Forest.toList_tree]
  exact List.mem_cons_of_mem _ hx₀

/-- A control element of a measure that is tied to no symbol has been entered with the frames of the
system and of the measure. -/
theorem WellFormed.exists_enterControl (hd : d.WellFormed)
    (hok : (d.place options metrics).fault = none) {n m x : Node α} {content under : Forest (Node α)}
    {system : ScoreSystem α} {control : Control α}
    (hn : Forest.HasTree n content (d.place options metrics).document.score)
    (hsystem : n.kind = .system system) (hm : Forest.HasTree m under content)
    (hmeasure : m.tag = .measure) (hx : x ∈ under.roots) (hcontrol : x.kind = .control control)
    (hstart : x.layout.startAnchor = none) :
    ∃ x₀ ∈ d.score.toList, ∃ (above : Node α) (t : Placing α) (mf : MeasureFrame α),
      t.system = some ((d.placingContext options metrics).frame system) ∧ t.measure = some mf ∧
        above.handle = mf.handle ∧
        x = (t.enterControl (d.placingContext options metrics) (some above) x₀ control).2 := by
  obtain ⟨score, hboxed, hwalks, hlater⟩ :=
    hd.exists_walks_place hok (c := d.placingContext options metrics) rfl
  have hnested := hd.nested_score.of_kind (hboxed.mono fun _ _ h => h.kind)
  obtain ⟨n₁, content₁, hn₁, hnn, hcontent⟩ := hlater.flip.hasTree hn
  obtain ⟨m₁, under₁, hm₁, hmm, hunder⟩ := hcontent.hasTree hm
  obtain ⟨x₁, hx₁, hxx⟩ := exists_mem_of_forall₂ hunder.flip.roots hx
  have hkind₁ : n₁.kind = .system system := hnn.kind.symm.trans hsystem
  obtain ⟨n₀, before, hbefore, hkind, -, s₁, s₂, hs₁, hplaced, hbelow⟩ := hwalks n₁ content₁ system hn₁ hkind₁
  obtain ⟨haccepts, hnested₀⟩ := hd.nested_score.of_hasTree hbefore
  obtain ⟨measure, hmk⟩ := NodeKind.exists_of_measure hmeasure
  obtain ⟨m₀, before', hbefore', hkind', -, t₁, t₂, ht₁, htm, -, hwalk⟩ :=
    Placing.exists_walk_of_measure hbelow hnested₀ (hnested.of_hasTree hn₁).2
      (fun k hk => Placing.isContent_of_accepts (hkind.trans hkind₁) (haccepts k hk)) hs₁ hplaced m₁
      under₁ measure hm₁ (hmm.kind.symm.trans hmk)
  obtain ⟨haccepts', hnested'⟩ := hnested₀.of_hasTree hbefore'
  have hmeasure₀ : m₀.tag = .measure := by
    rw [Node.tag, hkind', ← hmm.kind, ← Node.tag, hmeasure]
  obtain rfl : x = x₁ := hxx.untied (by rw [← LayoutState.startAnchor_eq_of_ties hxx.ties, hstart])
  obtain ⟨x₀, hx₀, t, ht, htm, hentered⟩ := Placing.exists_enter_of_control hwalk hnested'
    (fun b hb => AlignState.tag_of_accepts_measure hmeasure₀ (haccepts' b hb)) ht₁ htm x hx₁ control
    hcontrol
  exact ⟨x₀, hbefore.mem_of_mem (hbefore'.mem_of_mem (Forest.mem_toList_of_mem_roots hx₀)), m₁, t, _,
    ht, htm, rfl, hentered⟩

/-- It is what it was before placement if its staff is not shown in the system. -/
theorem WellFormed.mem_of_unshown_stamp (hd : d.WellFormed)
    (hok : (d.place options metrics).fault = none) {n m x : Node α} {content under : Forest (Node α)}
    {system : ScoreSystem α}
    (hn : Forest.HasTree n content (d.place options metrics).document.score)
    (hsystem : n.kind = .system system) (hm : Forest.HasTree m under content)
    (hmeasure : m.tag = .measure) (hx : x ∈ under.roots) (htag : x.tag = .control)
    (hstart : x.layout.startAnchor = none)
    (hhidden : ∀ slot, system.stack.get? (x.layout.staff.getD 1) = some slot → slot.hidden) :
    x ∈ d.score.toList := by
  obtain ⟨control, hcontrol⟩ := Node.exists_control htag
  obtain ⟨x₀, hx₀, above, t, mf, ht, -, -, hentered⟩ :=
    hd.exists_enterControl hok hn hsystem hm hmeasure hx hcontrol hstart
  obtain ⟨⟨box, hbox⟩, -⟩ := Placing.enterControl_node (d.placingContext options metrics) t
    (some above) x₀ control
  have hlayout : x.layout = x₀.layout := by rw [hentered, hbox]
  rw [hentered, Placing.enterControl_of_unshown ht (hlayout ▸ hhidden)]
  exact hx₀

/-- It is placed beside the lines of its staff if it has a slot and the staff is shown in the
system. -/
theorem WellFormed.box_of_shown_stamp (hd : d.WellFormed)
    (hok : (d.place options metrics).fault = none) {n m x : Node α} {content under : Forest (Node α)}
    {system : ScoreSystem α} {slot : StaffSlot α} {control : Control α}
    (hn : Forest.HasTree n content (d.place options metrics).document.score)
    (hsystem : n.kind = .system system) (hm : Forest.HasTree m under content)
    (hmeasure : m.tag = .measure) (hx : x ∈ under.roots) (hcontrol : x.kind = .control control)
    (hstart : x.layout.startAnchor = none) (hkept : ¬ x.layout.omitted)
    (hkey : x.layout.slot.isSome)
    (hslot : system.stack.get? (x.layout.staff.getD 1) = some slot) (hshown : ¬ slot.hidden) :
    ∃ left, x.box = ⟨left,
      control.y options.scaledUnit (options.marginTop + system.y + slot.y)
        (options.marginTop + system.y + slot.y + slot.height)
        (metrics.controlFootprint control 0 options.scaledUnit).height,
      some (metrics.controlFootprint control 0 options.scaledUnit)⟩ := by
  obtain ⟨x₀, -, above, t, mf, ht, htm, habove, hentered⟩ :=
    hd.exists_enterControl hok hn hsystem hm hmeasure hx hcontrol hstart
  obtain ⟨⟨box, hbox⟩, -⟩ := Placing.enterControl_node (d.placingContext options metrics) t
    (some above) x₀ control
  have hlayout : x.layout = x₀.layout := by rw [hentered, hbox]
  rw [hentered]
  exact ⟨_, Placing.enterControl_of_shown ht (hlayout ▸ hslot) hshown htm habove (hlayout ▸ hkept)
    (hlayout ▸ hstart) (hlayout ▸ hkey) control⟩

/-! ### Control elements between symbols -/

/-- What waits is a node of the score, tied to symbols of the score as the walk has left it. -/
theorem Shape.tiedIn_of_mem_waiting {D : ScoreDefinition} {r : Node α}
    {pages pages' detached : Forest (Node α)} (hd : d.Shape D r pages detached)
    (hanchored : d.Anchored) (hboxed : Forest.Forall₂ Node.Boxed pages pages') {s : Placing α}
    (hwalk : Forest.Completes (placingPass c) (some r) .start pages s pages') :
    s.waiting = (pages.toList.filter fun n => n.Waits).map Node.handle ∧
      ∀ h ∈ s.waiting, ∃ n, (d.withScore (.tree r pages')).node? h = some n ∧
        (d.withScore (.tree r pages')).TiedIn n := by
  have hsame : Forest.Forall₂ Node.Boxed d.score (.tree r pages') :=
    hd.score ▸ .cons (.refl r) hboxed .nil
  have hwell := (d.sameTree_withScore (hsame.mono fun _ _ h => h.sameMusic)).wellFormed hd.wellFormed
  have hwalked : (d.withScore (.tree r pages')).score = .tree r pages' := score_withScore hsame
  generalize d.withScore (.tree r pages') = d₁ at hwell hwalked
  have hlive {n : Node α} (hn : n ∈ d₁.score.toList) : d₁.node? n.handle = some n :=
    hwell.node?_eq_some_iff.2 ⟨(score_sublist d₁).subset hn, rfl⟩
  rw [← hwalked] at hsame
  have hnested : (Forest.tree r pages).Nested := hd.score ▸ hd.wellFormed.nested_score
  have hwaiting := Placing.waiting_eq hwalk hnested.2.1
    fun n hn => hd.wellFormed.tag_ne_document_of_mem_below hd.trees hn
  rw [show (Placing.start : Placing α).waiting = [] from rfl, List.nil_append] at hwaiting
  refine ⟨hwaiting, fun h hh => ?_⟩
  rw [hwaiting] at hh
  obtain ⟨y, hy, rfl⟩ := List.mem_map.1 hh
  obtain ⟨hy, hw⟩ := List.mem_filter.1 hy
  obtain ⟨y₁, hy₁, hyy⟩ := exists_mem_of_forall₂ hboxed.flip.toList hy
  have hmem₁ : y₁ ∈ d₁.score.toList := by
    rw [hwalked, Forest.toList_tree]
    exact List.mem_cons_of_mem _ hy₁
  refine ⟨y₁, hyy.handle ▸ hlive hmem₁, fun a ha => ?_⟩
  -- the symbols that something is tied to have been walked, too
  obtain ⟨m, hm, rfl, hsymbol⟩ := hanchored y
    (hd.wellFormed.mem_content (by rw [hd.score, Forest.toList_tree]; exact List.mem_cons_of_mem _ hy)
      (by rw [(of_decide_eq_true hw).1]; decide)) a (hyy.anchors ▸ ha)
  obtain ⟨m₁, hm₁, hmm⟩ :=
    exists_mem_of_forall₂ hsame.flip.toList (d.content_sublist_score.subset hm)
  exact ⟨m₁, hmm.handle ▸ hlive hm₁, by rw [Node.tag, hmm.kind, ← Node.tag, hsymbol]⟩

/-- What has waited is in its place between its symbols as they are after the walk. -/
theorem WellFormed.exists_placedBetween (hd : d.WellFormed) (hanchored : d.Anchored)
    (hok : (d.place options metrics).fault = none) :
    ∃ d₁ : Document α, d₁.WellFormed ∧ Forest.Forall₂ Node.Boxed d.score d₁.score ∧
      Forest.Forall₂ Node.Reanchored d₁.score (d.place options metrics).document.score ∧
      ∀ x ∈ (d.place options metrics).document.score.toList, x.Waits →
        d₁.PlacedBetween (d.placingContext options metrics) x := by
  obtain ⟨r, pages, hshape⟩ := hd.exists_shape
  obtain ⟨s, pages', e, hwalk, hboxed, hfold, hscore⟩ := hshape.exists_placed hok
  have hsame : Forest.Forall₂ Node.Boxed d.score (.tree r pages') :=
    hshape.score ▸ .cons (.refl r) hboxed .nil
  have hwell := (d.sameTree_withScore (hsame.mono fun _ _ h => h.sameMusic)).wellFormed hd
  have hwalked : (d.withScore (.tree r pages')).score = .tree r pages' := score_withScore hsame
  obtain ⟨hwaiting, hties⟩ := hshape.tiedIn_of_mem_waiting hanchored hboxed hwalk
  generalize d.withScore (.tree r pages') = d₁ at hfold hwell hwalked hties
  have hlater := forall₂_placeAllAnchored hwell.nodup_handles hfold
  rw [← hwalked] at hsame
  refine ⟨d₁, hwell, hsame, hscore ▸ hlater.first, fun x hx hwaits => ?_⟩
  rw [hscore] at hx
  obtain ⟨x₁, hx₁, hxx⟩ := exists_mem_of_forall₂ hlater.first.toList hx
  change x₁ ∈ d₁.score.toList at hx₁
  have htag : x₁.tag = .control := by rw [Node.tag, ← hxx.kind, ← Node.tag, hwaits.1]
  have hmem : x.handle ∈ s.waiting := by
    have hbelow : x₁ ∈ pages'.toList := by
      rw [hwalked, Forest.toList_tree, List.mem_cons] at hx₁
      exact hx₁.resolve_left fun heq => absurd (htag.symm.trans (heq ▸ hshape.root_tag)) (by decide)
    obtain ⟨x₀, hx₀, hboxed₀⟩ := exists_mem_of_forall₂ hboxed.toList hbelow
    have hties : x₀.layout.ties = x.layout.ties := (hxx.ties.trans hboxed₀.ties).symm
    have hwaits₀ : x₀.Waits := ⟨by rw [Node.tag, ← hboxed₀.kind, ← Node.tag, htag],
      LayoutState.omitted_eq_of_ties hties ▸ hwaits.2.1,
      LayoutState.startAnchor_eq_of_ties hties ▸ hwaits.2.2⟩
    rw [hwaiting]
    exact List.mem_map.2 ⟨x₀, List.mem_filter.2 ⟨hx₀, decide_eq_true hwaits₀⟩,
      (hxx.handle.trans hboxed₀.handle).symm⟩
  obtain ⟨n, hn, hplaced⟩ := placedBetween_of_mem hwell.nodup_handles hties hfold x.handle hmem
  have he : e.handles.Nodup := by
    rw [handles, ← map_eq_of_forall₂ (fun _ _ h => h.handle.symm) hlater.toList]
    exact hwell.nodup_handles
  rw [node?, Forest.find?_eq_find?_toList] at hn
  obtain rfl : x = n := Option.some.inj
    (((find?_key_eq_some_iff he).2 ⟨(score_sublist e).subset hx, rfl⟩).symm.trans hn)
  obtain ⟨x₁', hx₁', htied⟩ := hties x.handle hmem
  obtain rfl : x₁ = x₁' := Option.some.inj ((hxx.handle ▸ hwell.node?_eq_some_iff.2
    ⟨(score_sublist d₁).subset hx₁, rfl⟩ : d₁.node? x.handle = some x₁).symm.trans hx₁')
  exact hplaced.of_reanchored (htied.of_reanchored hlater hxx.ties)
    (hlater.flip.mono fun _ _ h => h.symm)

end Document

end ScoreLayout
