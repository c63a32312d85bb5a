import ScoreLayout.Proofs.Layout.TwinPreparation

/-!
# Control elements that cannot be placed

A control element names the symbols it is tied to by identifier, or gives a beat of the measure it
stands in. Preparation ties those that can be placed, and flags and reports the others. Which these
are can be told from the document alone.

## Main definitions

* `Document.Names` — an identifier of a symbol of the score.
* `Document.Unplaceable` — a control element that cannot be placed below a node.
* `Document.TiedTo` — what a control element that can be placed is tied to.
* `Document.PreparedAs` — a node before and after preparation.
* `Document.omittedControls` — the control elements that are left out.

## Main results

* `Document.WellFormed.unplaceable_iff` — what cannot be placed is not tied to anything.
* `Document.WellFormed.forall₂_prepare` — every node of the content after preparation.
* `Document.WellFormed.marks_prepare` — one mark for each control element that is left out.
-/

namespace ScoreLayout

variable {α : Type}

namespace Forest

variable {β γ : Type}

/-- A link leads to a root, or stands inside of the forest. -/
theorem links_cases {f : Forest β} {above : Option β} {l : Option β × β}
    (hl : l ∈ f.links above) :
    (l.1 = above ∧ l.2 ∈ f.roots) ∨ ∃ a, l.1 = some a ∧ l ∈ f.links none := by
  induction f generalizing above with
  | nil => exact absurd hl List.not_mem_nil
  | cons b children siblings ihc ihs =>
    simp only [links, List.mem_cons, List.mem_append] at hl ⊢
    rcases hl with rfl | hl | hl
    · exact .inl ⟨rfl, List.mem_cons_self⟩
    · have habove : ∃ a, l.1 = some a := (ihc hl).elim (fun h => ⟨b, h.1⟩) fun h =>
        h.imp fun _ ha => ha.1
      obtain ⟨a, ha⟩ := habove
      exact .inr ⟨a, ha, .inr (.inl hl)⟩
    · exact (ihs hl).imp (.imp_right (List.mem_cons_of_mem b))
        (.imp fun _ ha => ⟨ha.1, .inr (.inr ha.2)⟩)

theorem mapLinked_map {δ : Type} (h : β → γ) (u : Option γ → γ → δ) (f : Forest β)
    (above : Option β) : (f.map h).mapLinked u (above.map h) =
      f.mapLinked (fun a b => u (a.map h) (h b)) above := by
  induction f generalizing above with
  | nil => rfl
  | cons b children siblings ihc ihs => exact congrArg₂ (cons _) (ihc (some b)) (ihs above)

/-- A forest beside the one with every label changed in view of the label above it. -/
theorem forall₂_mapLinked {R : β → γ → Prop} {u : Option β → β → γ} {f : Forest β}
    {above : Option β} (h : ∀ l ∈ f.links above, R l.2 (u l.1 l.2)) :
    Forall₂ R f (f.mapLinked u above) := by
  induction f generalizing above with
  | nil => exact .nil
  | cons b children siblings ihc ihs =>
    simp only [links, List.mem_cons, List.mem_append, or_imp, forall_and, forall_eq] at h
    exact .cons h.1 (ihc h.2.1) (ihs h.2.2)

end Forest

namespace Document

variable {d : Document α}

/-- An identifier of a symbol of the score. -/
def Names (d : Document α) (id : String) : Prop :=
  ∃ n ∈ d.score.toList, n.id = id ∧ n.tag = .element

/-- A control element that cannot be placed below a node. -/
def Unplaceable (d : Document α) (above : Option (Node α)) (c : Control α) : Prop :=
  (∃ id, c.point.startId = some id ∧ ¬ d.Names id) ∨
    (c.point.startId = none ∧ c.point.tstamp = none) ∨
      (c.point.startId = none ∧ c.point.tstamp.isSome ∧
        ¬ ∃ p, above = some p ∧ p.tag = .measure) ∨
        ∃ id, c.span?.bind TimeSpan.endId = some id ∧ ¬ d.Names id

/-- What a control element that can be placed is tied to. -/
structure TiedTo (d : Document α) (inMeasure : Bool) (c : Control α)
    (first last : Option Handle) : Prop where
  start : ∀ id, c.point.startId = some id → ∃ h, first = some h ∧ d.resolveAnchor id = .ok h
  timed : c.point.startId = none → first = none ∧ c.point.tstamp.isSome ∧ inMeasure
  stop : ∀ id, c.span?.bind TimeSpan.endId = some id →
    ∃ h, last = some h ∧ d.resolveAnchor id = .ok h
  endless : c.span?.bind TimeSpan.endId = none → last = none

/-! ### Identifiers -/

/-- An identifier is resolved to the symbol of the score that carries it. -/
theorem WellFormed.resolveAnchor_eq_ok_iff (hd : d.WellFormed) {id : String} {h : Handle} :
    d.resolveAnchor id = .ok h ↔
      ∃ n ∈ d.score.toList, n.id = id ∧ n.tag = .element ∧ n.handle = h := by
  have hids : (d.score.toList.map Node.id).Nodup := hd.ids.sublist ((score_sublist d).map _)
  have hfind (n : Node α) : d.score.find? (hasId id) = some n ↔ n ∈ d.score.toList ∧ n.id = id := by
    rw [Forest.find?_eq_find?_toList]
    exact find?_key_eq_some_iff hids
  rw [hd.resolveAnchor_eq]
  constructor
  · intro hok
    split at hok
    · rename_i n hn
      obtain ⟨hmem, hid⟩ := (hfind n).1 hn
      split_ifs at hok with ht
      exact ⟨n, hmem, hid, ht, Except.ok.inj hok⟩
    · split_ifs at hok
  · rintro ⟨n, hmem, hid, ht, rfl⟩
    rw [(hfind n).2 ⟨hmem, hid⟩]
    exact if_pos ht

theorem WellFormed.names_iff (hd : d.WellFormed) {id : String} :
    d.Names id ↔ ∃ h, d.resolveAnchor id = .ok h := by
  simp only [hd.resolveAnchor_eq_ok_iff]
  constructor
  · rintro ⟨n, hn, hid, ht⟩
    exact ⟨n.handle, n, hn, hid, ht, rfl⟩
  · rintro ⟨-, n, hn, hid, ht, -⟩
    exact ⟨n, hn, hid, ht⟩

/-- An identifier means the same in a document with the same symbols. -/
theorem WellFormed.resolveAnchor_of_content [Scalar α] {d' : Document α} (hd : d.WellFormed)
    (hd' : d'.WellFormed)
    (hcontent : ∀ n ∈ d.content.toList, n.tag = .element → ∃ n' ∈ d'.content.toList, n.SameMusic n')
    {id : String} {h : Handle} (hok : d.resolveAnchor id = .ok h) : d'.resolveAnchor id = .ok h := by
  obtain ⟨n, hn, rfl, ht, rfl⟩ := hd.resolveAnchor_eq_ok_iff.1 hok
  obtain ⟨n', hn', hsame⟩ := hcontent n (hd.mem_content hn (by rw [ht]; decide)) ht
  exact hd'.resolveAnchor_eq_ok_iff.2
    ⟨n', d'.content_sublist_score.subset hn', hsame.id, hsame.tag.trans ht, hsame.handle⟩

/-! ### A single control element -/

/-- The start of a control element. -/
def start? (d : Document α) (inMeasure : Bool) (id : String) (c : Control α) :
    Except Mark (Option Handle) :=
  match c.point.startId, c.point.tstamp with
  | some target, _ =>
    match d.resolveAnchor target with
    | .ok h => .ok (some h)
    | .error e => .error (danglingMark c.name id "start" target e)
  | none, some _ =>
    if inMeasure then .ok none
    else
      .error (.warning id .unresolvedTstamp
        (c.name ++ " '" ++ id ++ "': time-stamp outside of a measure"))
  | none, none =>
    .error (.warning id .unanchoredControl
      (c.name ++ " '" ++ id ++ "': no anchor and no time-stamp"))

/-- The end of a control element. -/
def stop? (d : Document α) (id : String) (c : Control α) : Except Mark (Option Handle) :=
  match c.span?.bind TimeSpan.endId with
  | some target =>
    match d.resolveAnchor target with
    | .ok h => .ok (some h)
    | .error e => .error (danglingMark c.name id "end" target e)
  | none => .ok none

theorem anchor?_eq (d : Document α) (inMeasure : Bool) (id : String) (c : Control α) :
    d.anchor? inMeasure id c = (d.start? inMeasure id c).bind fun first =>
      (d.stop? id c).bind fun last => .ok (first, last) := by
  rw [anchor?, start?, stop?]
  generalize c.point.startId = target, c.point.tstamp = tstamp, c.span?.bind TimeSpan.endId = stop
  cases target with
  | some target =>
    dsimp only
    cases d.resolveAnchor target with
    | error e => rfl
    | ok h =>
      cases stop with
      | none => rfl
      | some stop =>
        dsimp only
        cases d.resolveAnchor stop <;> rfl
  | none =>
    cases tstamp with
    | none => rfl
    | some tstamp =>
      cases inMeasure with
      | false => rfl
      | true =>
        cases stop with
        | none => rfl
        | some stop =>
          dsimp only
          cases d.resolveAnchor stop <;> rfl

theorem start?_cases (d : Document α) (inMeasure : Bool) (id : String) (c : Control α) :
    (∃ first, d.start? inMeasure id c = .ok first ∧
        (∀ id, c.point.startId = some id → ∃ h, first = some h ∧ d.resolveAnchor id = .ok h) ∧
        (c.point.startId = none → first = none ∧ c.point.tstamp.isSome ∧ inMeasure)) ∨
      ∃ mark, d.start? inMeasure id c = .error mark ∧ mark.node = some id ∧
        ∀ first last, ¬ d.TiedTo inMeasure c first last := by
  rw [start?]
  cases hs : c.point.startId with
  | some target =>
    dsimp only
    cases hr : d.resolveAnchor target with
    | ok h => exact .inl ⟨some h, rfl, fun _ hid => ⟨h, rfl, Option.some.inj hid ▸ hr⟩, nofun⟩
    | error e =>
      refine .inr ⟨_, rfl, rfl, fun first last h => ?_⟩
      obtain ⟨i, -, hok⟩ := h.start target hs
      rw [hr] at hok
      cases hok
  | none =>
    cases ht : c.point.tstamp with
    | some tstamp =>
      dsimp only
      by_cases hin : inMeasure
      · rw [if_pos hin]
        exact .inl ⟨none, rfl, nofun, fun _ => ⟨rfl, rfl, hin⟩⟩
      · rw [if_neg hin]
        exact .inr ⟨_, rfl, rfl, fun first last h => hin (h.timed hs).2.2⟩
    | none =>
      refine .inr ⟨_, rfl, rfl, fun first last h => ?_⟩
      have htimed := (h.timed hs).2.1
      rw [ht] at htimed
      cases htimed

theorem stop?_cases (d : Document α) (inMeasure : Bool) (id : String) (c : Control α) :
    (∃ last, d.stop? id c = .ok last ∧
        (∀ id, c.span?.bind TimeSpan.endId = some id →
          ∃ h, last = some h ∧ d.resolveAnchor id = .ok h) ∧
        (c.span?.bind TimeSpan.endId = none → last = none)) ∨
      ∃ mark, d.stop? id c = .error mark ∧ mark.node = some id ∧
        ∀ first last, ¬ d.TiedTo inMeasure c first last := by
  rw [stop?]
  cases hs : c.span?.bind TimeSpan.endId with
  | some target =>
    dsimp only
    cases hr : d.resolveAnchor target with
    | ok h => exact .inl ⟨some h, rfl, fun _ hid => ⟨h, rfl, Option.some.inj hid ▸ hr⟩, nofun⟩
    | error e =>
      refine .inr ⟨_, rfl, rfl, fun first last h => ?_⟩
      obtain ⟨i, -, hok⟩ := h.stop target hs
      rw [hr] at hok
      cases hok
  | none => exact .inl ⟨none, rfl, nofun, fun _ => rfl⟩

/-- A control element is tied to symbols, or there is a mark on it. -/
theorem anchor?_cases (d : Document α) (inMeasure : Bool) (id : String) (c : Control α) :
    (∃ first last, d.anchor? inMeasure id c = .ok (first, last) ∧
        d.TiedTo inMeasure c first last) ∨
      ∃ mark, d.anchor? inMeasure id c = .error mark ∧ mark.node = some id ∧
        ∀ first last, ¬ d.TiedTo inMeasure c first last := by
  rw [anchor?_eq]
  obtain ⟨first, hfirst, hstart, htimed⟩ | ⟨mark, hmark, hnode, hno⟩ :=
    d.start?_cases inMeasure id c
  · obtain ⟨last, hlast, hstop, hendless⟩ | ⟨mark, hmark, hnode, hno⟩ :=
      d.stop?_cases inMeasure id c
    · rw [hfirst, hlast]
      exact .inl ⟨first, last, rfl, hstart, htimed, hstop, hendless⟩
    · rw [hfirst, hmark]
      exact .inr ⟨mark, rfl, hnode, hno⟩
  · rw [hmark]
    exact .inr ⟨mark, rfl, hnode, hno⟩

/-- What a control element is tied to where every identifier means what it meant. -/
theorem TiedTo.mono {d' : Document α} {inMeasure : Bool} {c : Control α}
    {first last : Option Handle}
    (hresolve : ∀ id h, d.resolveAnchor id = .ok h → d'.resolveAnchor id = .ok h)
    (h : d.TiedTo inMeasure c first last) : d'.TiedTo inMeasure c first last where
  start id hid := (h.start id hid).imp fun i hi => ⟨hi.1, hresolve id i hi.2⟩
  timed := h.timed
  stop id hid := (h.stop id hid).imp fun i hi => ⟨hi.1, hresolve id i hi.2⟩
  endless := h.endless

/-- A control element is tied in one way only. -/
theorem TiedTo.unique {inMeasure : Bool} {c : Control α} {first last first' last' : Option Handle}
    (h : d.TiedTo inMeasure c first last) (h' : d.TiedTo inMeasure c first' last') :
    first' = first ∧ last' = last := by
  constructor
  · cases hs : c.point.startId with
    | some id =>
      obtain ⟨i, rfl, hi⟩ := h.start id hs
      obtain ⟨j, rfl, hj⟩ := h'.start id hs
      rw [Except.ok.inj (hi.symm.trans hj)]
    | none => rw [(h.timed hs).1, (h'.timed hs).1]
  · cases hs : c.span?.bind TimeSpan.endId with
    | some id =>
      obtain ⟨i, rfl, hi⟩ := h.stop id hs
      obtain ⟨j, rfl, hj⟩ := h'.stop id hs
      rw [Except.ok.inj (hi.symm.trans hj)]
    | none => rw [h.endless hs, h'.endless hs]

theorem anchor?_eq_ok_iff (d : Document α) {inMeasure : Bool} (id : String) {c : Control α}
    {first last : Option Handle} :
    d.anchor? inMeasure id c = .ok (first, last) ↔ d.TiedTo inMeasure c first last := by
  obtain ⟨first', last', hok, htied⟩ | ⟨mark, hmark, -, hno⟩ := d.anchor?_cases inMeasure id c
  · rw [hok, Except.ok.injEq, Prod.mk.injEq]
    constructor
    · rintro ⟨rfl, rfl⟩
      exact htied
    · intro h
      exact ⟨(htied.unique h).1.symm, (htied.unique h).2.symm⟩
  · rw [hmark]
    exact iff_of_false nofun (hno first last)

/-- A control element can be placed exactly when it can be tied. -/
theorem WellFormed.unplaceable_iff (hd : d.WellFormed) {above : Option (Node α)} {c : Control α} :
    d.Unplaceable above c ↔ ∀ first last, ¬ d.TiedTo (inMeasure above) c first last := by
  have hin : inMeasure above ↔ ∃ p, above = some p ∧ p.tag = .measure := by
    cases above <;> simp [inMeasure]
  rw [Unplaceable, ← hin]
  simp only [hd.names_iff]
  constructor
  · rintro (⟨id, hid, hno⟩ | ⟨hs, ht⟩ | ⟨hs, -, hno⟩ | ⟨id, hid, hno⟩) first last h
    · obtain ⟨i, -, hi⟩ := h.start id hid
      exact hno ⟨i, hi⟩
    · have htimed := (h.timed hs).2.1
      rw [ht] at htimed
      cases htimed
    · exact hno (h.timed hs).2.2
    · obtain ⟨i, -, hi⟩ := h.stop id hid
      exact hno ⟨i, hi⟩
  · intro hno
    by_contra hplace
    simp only [not_or, not_exists, not_and, not_forall, not_not] at hplace
    obtain ⟨hstart, huntimed, houtside, hstop⟩ := hplace
    obtain ⟨last, hlast, hendless⟩ : ∃ last : Option Handle,
        (∀ id, c.span?.bind TimeSpan.endId = some id →
          ∃ h, last = some h ∧ d.resolveAnchor id = .ok h) ∧
        (c.span?.bind TimeSpan.endId = none → last = none) := by
      cases hs : c.span?.bind TimeSpan.endId with
      | none => exact ⟨none, by simp, fun _ => rfl⟩
      | some id =>
        obtain ⟨i, hi⟩ := hstop id hs
        exact ⟨some i, fun _ hid => ⟨i, rfl, Option.some.inj hid ▸ hi⟩, by simp⟩
    cases hs : c.point.startId with
    | some id =>
      obtain ⟨i, hi⟩ := hstart id hs
      refine hno (some i) last ⟨fun id' hid => ⟨i, rfl, ?_⟩, fun hnone => ?_, hlast, hendless⟩
      · rw [hs] at hid
        exact Option.some.inj hid ▸ hi
      · rw [hs] at hnone
        cases hnone
    | none =>
      have htimed := Option.isSome_iff_ne_none.2 (huntimed hs)
      refine hno none last ⟨fun id hid => ?_, fun _ => ⟨rfl, htimed, houtside hs htimed⟩, hlast,
        hendless⟩
      rw [hs] at hid
      cases hid

/-! ### Preparation -/

section Preparation

variable [Scalar α]

/-- A control element before and after preparation: it is tied to symbols, or left out. -/
def AnchoredAs (d : Document α) (inMeasure : Bool) (c : Control α) (l : LayoutState α) : Prop :=
  (∃ first last, d.TiedTo inMeasure c first last ∧
      l = { LayoutState.empty with startAnchor := first, endAnchor := last }) ∨
    (∀ first last, ¬ d.TiedTo inMeasure c first last) ∧
      l = { LayoutState.empty with omitted := true }

/-- A node before and after preparation. -/
structure PreparedAs (d : Document α) (n n' : Node α) : Prop where
  node : ∃ layout, n' = { n.reset with layout }
  plain : n.tag ≠ .control → n'.layout = .empty
  control : ∀ c, n.kind = .control c →
    d.AnchoredAs (inMeasure (d.parentNode? n.handle)) c n'.layout

/-- The control elements of the score that are left out of the layout. -/
def omittedControls (d : Document α) : List (Node α) :=
  (d.nodesOfKind .control).filter fun n => n.layout.omitted

/-- A control element that has been cleared is tied to symbols, or left out with a mark on it. -/
theorem anchored_reset (d : Document α) (above : Option (Node α)) {n : Node α} {c : Control α}
    (hn : n.kind = .control c) :
    d.AnchoredAs (inMeasure above) c (d.anchored above n.reset).layout ∧
      (d.anchorMarks above n.reset).map Mark.node =
        if (d.anchored above n.reset).layout.omitted then [some n.id] else [] := by
  have hcontrol : n.reset.kind.control? = some c := by rw [Node.reset, hn]; rfl
  have hanchored : d.anchored above n.reset = (d.anchorNode [] above n.reset c).2 := by
    rw [anchored, hcontrol]
  have hmarks : d.anchorMarks above n.reset = (d.anchorNode [] above n.reset c).1 := by
    rw [anchorMarks, hcontrol]
  obtain ⟨first, last, hok, htied⟩ | ⟨mark, hmark, hnode, hno⟩ :=
    d.anchor?_cases (inMeasure above) n.id c
  · have hnode : d.anchorNode [] above n.reset c =
        ([], n.reset.mapLayout fun l => { l with startAnchor := first, endAnchor := last }) := by
      rw [inMeasure] at hok
      rw [anchorNode, show n.reset.id = n.id from rfl, hok]
      cases first <;> cases last <;> rfl
    rw [hanchored, hmarks, hnode]
    exact ⟨.inl ⟨first, last, htied, rfl⟩, rfl⟩
  · have hleft : d.anchorNode [] above n.reset c =
        ([mark], n.reset.mapLayout fun l =>
          { l with startAnchor := none, endAnchor := none, omitted := true }) := by
      rw [inMeasure] at hmark
      rw [anchorNode, show n.reset.id = n.id from rfl, hmark]
      rfl
    rw [hanchored, hmarks, hleft]
    exact ⟨.inr ⟨hno, rfl⟩, congrArg (fun x => [x]) hnode⟩

omit [Scalar α] in
/-- Whether what is directly below the content of a document, or in it, stands in a measure. -/
theorem Shape.inMeasure_link {D : ScoreDefinition} {r system : Node α}
    {pages detached : Forest (Node α)} (hd : d.Shape D r pages detached)
    (hsystem : system.tag = .system) {l : Option (Node α) × Node α}
    (hl : l ∈ d.content.links (some system)) :
    inMeasure l.1 = inMeasure (d.parentNode? l.2.handle) := by
  have hlive {a b : Node α} (h : (some a, b) ∈ pages.links (some r)) :
      d.parentNode? b.handle = some a := by
    refine hd.wellFormed.parentNode?_eq_some_iff.2 ⟨b, ?_, rfl⟩
    rw [hd.trees, Forest.links]
    exact List.mem_cons_of_mem _ (List.mem_append_left _ h)
  have hin {l : Option (Node α) × Node α} {a : Node α} (h : (some a, l.2) ∈ pages.links (some r)) :
      inMeasure (d.parentNode? l.2.handle) = decide (a.tag = .measure) := by
    rw [hlive h]
    rfl
  rw [hd.content_eq] at hl
  obtain ⟨habove, hroot⟩ | ⟨a, ha, hl⟩ := Forest.links_cases hl
  · obtain ⟨s, hs, hlink⟩ := Forest.exists_link_branches none hroot
    rw [hin (Forest.mem_links_of_branches _ hlink), habove, hd.tag_of_mem_systems hs, inMeasure,
      Option.map_some, hsystem]
    rfl
  · obtain ⟨above, n⟩ := l
    obtain rfl : above = some a := ha
    rw [hin (Forest.mem_links_of_branches _ (Forest.mem_links_of_branches none hl))]
    rfl

/-- An identifier means the same once the content is unbroken and cleared. -/
theorem Shape.resolveAnchor_reset {d₁ : Document α} {D : ScoreDefinition} {r page system : Node α}
    {detached : Forest (Node α)}
    (hd₁ : d₁.Shape D r (.tree page (.tree system d.content)) detached) (hd : d.WellFormed)
    {id : String} {h : Handle} : d₁.reset.resolveAnchor id = .ok h ↔ d.resolveAnchor id = .ok h := by
  have hsame : Forest.Forall₂ Node.SameMusic d.content d₁.reset.content := by
    have h := d₁.sameTree_reset.sameContent.content
    rwa [hd₁.content_eq, Forest.branches_tree, Forest.branches_tree] at h
  constructor
  · refine hd₁.reset.wellFormed.resolveAnchor_of_content hd fun n hn _ => ?_
    obtain ⟨m, hm, hmn⟩ := exists_mem_of_forall₂ hsame.toList hn
    exact ⟨m, hm, hmn.symm⟩
  · exact hd.resolveAnchor_of_content hd₁.reset.wellFormed fun n hn _ =>
      exists_mem_of_forall₂ hsame.flip.toList hn

/-- The content of a document after preparation. -/
theorem Shape.prepared_content {D : ScoreDefinition} {r : Node α} {pages detached : Forest (Node α)}
    (hd : d.Shape D r pages detached) :
    ∃ (d₁ : Document α) (system : Node α), system.tag = .system ∧
      (∀ id h, d₁.resolveAnchor id = .ok h ↔ d.resolveAnchor id = .ok h) ∧
      d.prepare.document.content =
        d.content.mapLinked (fun a n => d₁.anchored (a.map Node.reset) n.reset) (some system) ∧
      d.prepare.marks = (d.content.links (some system)).flatMap fun l =>
        d₁.anchorMarks (l.1.map Node.reset) l.2.reset := by
  obtain ⟨page, system, d₁, hok, hd₁, -, hsystem, -⟩ := hd.unbreak?
  refine ⟨d₁.reset, system, hsystem, fun id h => hd₁.resolveAnchor_reset hd.wellFormed, ?_, ?_⟩
  · rw [prepare_eq hok]
    have hp := hd₁.prepared .prepared
    show ({ d₁.reset.anchorControls.2 with stage := .prepared } : Document α).content = _
    rw [hp.content_eq, Forest.branches_tree, Forest.branches_tree]
    exact Forest.mapLinked_map Node.reset _ _ (some system)
  · have hreset : d₁.reset.Shape D r.reset (.tree page.reset (.tree system.reset
        (d.content.map Node.reset))) detached := hd₁.reset
    rw [prepare_eq hok]
    show d₁.reset.anchorControls.1 = _
    rw [hreset.anchorControls_marks, show some system.reset = (some system).map Node.reset from rfl,
      Forest.links_map, List.flatMap_map]

/-- A cleared node of the content, tied in view of the node above it. -/
theorem preparedAs_anchored {d₁ : Document α}
    (hresolve : ∀ id h, d₁.resolveAnchor id = .ok h ↔ d.resolveAnchor id = .ok h)
    {above : Option (Node α)} {n : Node α}
    (habove : inMeasure above = inMeasure (d.parentNode? n.handle)) :
    d.PreparedAs n (d₁.anchored above n.reset) where
  node := by
    rw [anchored]
    split
    · exact d₁.anchorNode_eq ..
    · exact ⟨_, rfl⟩
  plain ht := by
    rw [d₁.anchored_of_tag_ne (by rwa [Node.tag_reset])]
    rfl
  control c hc := by
    have htied {inMeasure : Bool} {first last : Option Handle} :
        d₁.TiedTo inMeasure c first last ↔ d.TiedTo inMeasure c first last :=
      ⟨.mono fun id h => (hresolve id h).1, .mono fun id h => (hresolve id h).2⟩
    have h := (d₁.anchored_reset above hc).1
    simp only [AnchoredAs, htied, habove] at h
    exact h

/-- Every node of the content after preparation. -/
theorem WellFormed.forall₂_prepare (hd : d.WellFormed) :
    Forest.Forall₂ d.PreparedAs d.content d.prepare.document.content := by
  obtain ⟨r, pages, hshape⟩ := hd.exists_shape
  obtain ⟨d₁, system, hsystem, hresolve, hcontent, -⟩ := hshape.prepared_content
  rw [hcontent]
  exact Forest.forall₂_mapLinked fun l hl => preparedAs_anchored hresolve
    ((inMeasure_map Node.tag_reset l.1).trans (hshape.inMeasure_link hsystem hl))

/-- The mark on a cleared node, if it is left out. -/
theorem anchorMarks_reset (d : Document α) (above : Option (Node α)) (n : Node α) :
    (d.anchorMarks above n.reset).map Mark.node =
      ([d.anchored above n.reset].filter fun m => m.tag = .control ∧ m.layout.omitted).map
        fun m => some m.id := by
  by_cases ht : n.tag = .control
  · obtain ⟨c, hc⟩ := NodeKind.exists_of_control ht
    have hid : (d.anchored above n.reset).id = n.id ∧ (d.anchored above n.reset).tag = .control := by
      rw [anchored]
      split
      · obtain ⟨layout, heq⟩ := d.anchorNode_eq [] above n.reset ‹_›
        rw [heq]
        exact ⟨rfl, (n.tag_reset).trans ht⟩
      · exact ⟨rfl, (n.tag_reset).trans ht⟩
    rw [(d.anchored_reset above hc).2]
    split_ifs with homitted
    · rw [List.filter_cons_of_pos (by simpa using ⟨hid.2, homitted⟩), List.filter_nil, List.map_cons,
        List.map_nil, hid.1]
    · rw [List.filter_cons_of_neg (by simpa using fun _ => homitted), List.filter_nil, List.map_nil]
  · have hreset : n.reset.tag ≠ .control := by rwa [Node.tag_reset]
    rw [d.anchorMarks_of_tag_ne hreset, d.anchored_of_tag_ne hreset,
      List.filter_cons_of_neg (by simp [ht])]
    rfl

/-- There is one mark for each control element that is left out, in document order. -/
theorem WellFormed.marks_prepare (hd : d.WellFormed) :
    d.prepare.marks.map Mark.node = d.prepare.document.omittedControls.map fun n => some n.id := by
  obtain ⟨r, pages, hshape⟩ := hd.exists_shape
  obtain ⟨d₁, system, -, -, hcontent, hmarks⟩ := hshape.prepared_content
  have hprepared : d.prepare.document.omittedControls =
      d.prepare.document.content.toList.filter fun n => n.tag = .control ∧ n.layout.omitted := by
    have hprepare : d.prepare.document.WellFormed :=
      hd.run (⟨.default, .default⟩ : Engine α) .prepare
    rw [omittedControls, hprepare.nodesOfKind_eq_filter (by decide), List.filter_filter]
    simp only [Bool.decide_and, Bool.decide_eq_true, Bool.and_comm]
  rw [hprepared, hcontent, hmarks, Forest.toList_mapLinked]
  generalize d.content.links (some system) = links
  induction links with
  | nil => rfl
  | cons l links ih =>
    rw [List.flatMap_cons, List.map_append, ih, List.map_cons, anchorMarks_reset, ← List.map_append,
      ← List.filter_append, List.singleton_append]

end Preparation

end Document

end ScoreLayout
