import ScoreLayout.Proofs.DisplayLists
import ScoreLayout.Proofs.Layout.RemovedControls
import ScoreLayout.Proofs.Relayout

/-!
# Control elements that are left out

Preparation flags the control elements that cannot be placed and reports them, each with one mark.
No later pass clears the flag, so they are neither found nor drawn. In a score with a measure they do
not count at all: without them the layout draws the same and reports the same, but for those marks.

## Main definitions

* `Document.OmitsUnplaceable` — what becomes of the control elements that cannot be placed.

## Main results

* `Document.WellFormed.keeps_layout` — no pass behind preparation changes what is left out.
* `Document.WithoutControls.readied` — preparing a document with and without what is left out.
* `Document.Reachable.omits_unplaceable` — the control elements of whatever a caller comes to.
-/

namespace ScoreLayout

variable {α : Type} [Scalar α]

namespace Document

variable {d d' : Document α} {e : Engine α}

/-! ### Later passes -/

/-- A layout is a preparation and all later passes. -/
theorem WellFormed.layout_eq (hd : d.WellFormed) (e : Engine α) :
    e.layout d = { e.runAll d.prepare.document LayoutPass.all.tail with
      marks := d.prepare.marks ++ (e.runAll d.prepare.document LayoutPass.all.tail).marks } := by
  have hok : (e.run d .prepare).fault = none := hd.fault_prepare.1
  rw [Engine.layout, show LayoutPass.all = .prepare :: LayoutPass.all.tail from rfl,
    Engine.runAll_cons, Outcome.andThen, hok]
  rfl

/-- What preparation leaves out is left out for good. -/
theorem WellFormed.keeps_layout (hd : d.WellFormed) (hs : d.Settled) (e : Engine α) :
    Forest.Forall₂ AlignState.Keeps d.prepare.document.content (e.layout d).document.content := by
  have hkept := of_runAll_append (e := e) (d := d.prepare.document)
    (P := fun d' => (d'.WellFormed ∧ d'.Settled) ∧
      Forest.Forall₂ AlignState.Keeps d.prepare.document.content d'.content) [] LayoutPass.all.tail
    ⟨⟨hd.run e .prepare, hd.settled_run hs e .prepare⟩, .refl fun n _ => .refl n⟩
    fun d' hd' pass hpass => by
      obtain ⟨⟨hd', hs'⟩, hkeeps⟩ := hd'
      have hprepare : pass ≠ .prepare := fun heq => absurd (heq ▸ hpass) (by decide)
      exact ⟨⟨hd'.run e pass, hd'.settled_run hs' e pass⟩,
        hkeeps.trans (hd'.keeps_run hs' e hprepare) fun _ _ _ => AlignState.Keeps.trans⟩
  rw [hd.layout_eq e]
  exact hkept.2

/-! ### Finding and drawing -/

/-- A node of the content that is left out is found nowhere. -/
theorem WellFormed.position?_of_omitted (hd : d.WellFormed) {n : Node α}
    (hn : n ∈ d.content.toList) (homitted : n.layout.omitted) : d.position? n.id = none := by
  have hlive : d.liveNode? n.id = some n := by
    rw [hd.liveNode?_eq, Forest.find?_eq_find?_toList]
    exact (find?_key_eq_some_iff hd.nodup_score_ids).2 ⟨d.content_sublist_score.subset hn, rfl⟩
  have hhidden : ¬ decide (¬ n.layout.omitted) = true := by simpa using homitted
  rw [position?, hlive, Option.filter_some, if_neg hhidden]
  exact ite_self _

/-- A node of the content that is left out, or has no box, is drawn nowhere. -/
theorem WellFormed.not_drawn (hd : d.WellFormed) {n : Node α} (hn : n ∈ d.content.toList)
    (hgone : n.layout.omitted ∨ ¬ n.box.HasContent) {options : LayoutOptions α}
    {l : DisplayList α} (hl : d.displayList options = .ok l) :
    ∀ s ∈ l.systems, ∀ x ∈ s.controls, x.id ≠ n.id := by
  obtain ⟨r, pages, hshape⟩ := hd.exists_shape
  have hs : d.stage = .finalized := by
    rw [displayList] at hl
    generalize d.stage = s at hl
    cases s <;> first | rfl | cases hl
  have heq := Except.ok.inj (hl.symm.trans (hshape.displayList_eq hs options))
  intro s hmem x hx hid
  rw [heq, DisplayList.systems, DisplayList.flatMap_pagesIn, DisplayList.systemsIn] at hmem
  obtain ⟨k, hk, rfl⟩ := List.mem_mapIdx.1 hmem
  have htree := (Forest.hasTree_of_mem_trees (List.getElem_mem hk)).of_branches
  obtain ⟨m, hm, hdrawn⟩ := List.mem_filterMap.1 hx
  rw [DisplayList.drawnControl?] at hdrawn
  split_ifs at hdrawn with hhidden
  obtain ⟨c, -, rfl⟩ := Option.map_eq_some_iff.1 hdrawn
  have hm : m ∈ d.trees.toList := hshape.mem (htree.mem_of_mem hm)
  obtain rfl := hd.eq_of_id_eq hm (d.content_sublist.subset hn) hid
  exact hhidden hgone

/-! ### Removing what is left out -/

omit [Scalar α] in
/-- Measures stand in systems. -/
theorem WellFormed.mem_roots_of_measure (hd : d.WellFormed) {n : Node α}
    (hn : n ∈ d.content.toList) (ht : n.tag = .measure) : n ∈ d.content.roots := by
  obtain ⟨r, pages, hshape⟩ := hd.exists_shape
  rw [Forest.mem_toList_iff] at hn
  refine hn.resolve_right fun hdeep => ?_
  rw [hshape.content_eq] at hdeep
  have hdepth := hshape.depth_of_mem_branches hdeep
  rw [ht] at hdepth
  exact absurd hdepth (by decide)

/-- Nothing is taken out but what cannot be tied to anything. -/
def Untied (gone : Handle → Prop) (d : Document α) : Prop :=
  ∀ n ∈ d.score.toList, ∀ c, n.kind = .control c →
    (gone n.handle ↔ ∀ first last, ¬ d.TiedTo (inMeasure (d.parentNode? n.handle)) c first last)

namespace WithoutControls

variable {gone : Handle → Prop} (h : WithoutControls gone d d')

include h

/-- What remains is tied to what it was tied to. -/
theorem exists_tied (hd : d.WellFormed) (hgone : d.Untied gone) {n : Node α}
    (hn : n ∈ d'.content.toList) {c : Control α} (hc : n.kind = .control c) :
    ∃ first last, d.TiedTo (inMeasure (d'.parentNode? n.handle)) c first last := by
  obtain ⟨r, pages, hshape⟩ := hd.exists_shape
  obtain ⟨r', pages', hshape'⟩ := h.wellFormed.exists_shape
  let system : Node α := .new 0 "" (.system .empty)
  obtain ⟨a, hl⟩ := Forest.exists_link (some system) hn
  obtain ⟨l, hl', habove, hsame, hkept⟩ := h.content.exists_link_right
    (A := fun a a' => inMeasure a' = inMeasure a)
    (fun b c hbc => by rw [inMeasure, inMeasure, Option.map_some, Option.map_some, hbc.1.tag]) rfl
    (a, n) hl
  have hkind : l.2.kind = .control c := by
    have hbare := hsame.kind
    rw [show (a, n).2.kind = .control c from hc] at hbare
    cases hk : l.2.kind <;> rw [hk] at hbare <;> first | exact hbare | cases hbare
  have hlive : l.2 ∈ d.score.toList :=
    d.content_sublist_score.subset (Forest.mem_toList_of_mem_links hl')
  have htied := mt (hgone l.2 hlive c hkind).2 (hsame.handle ▸ hkept)
  simp only [not_forall, not_not] at htied
  have hsystem : system.tag = .system := rfl
  rwa [← hshape'.inMeasure_link hsystem hl, ← habove, hshape.inMeasure_link hsystem hl']

/-- What remains is prepared without marks. -/
theorem marks_prepare (hd : d.WellFormed) (hgone : d.Untied gone) : d'.prepare.marks = [] := by
  have hnone : d'.prepare.document.omittedControls = [] := by
    have hprepare : d'.prepare.document.WellFormed :=
      h.wellFormed.run (⟨.default, .default⟩ : Engine α) .prepare
    rw [omittedControls, hprepare.nodesOfKind_eq_filter (by decide), List.filter_filter,
      List.filter_eq_nil_iff]
    intro n' hn' hleft
    simp only [Bool.and_eq_true, decide_eq_true_iff] at hleft
    obtain ⟨n, hn, hprepared⟩ := exists_mem_of_forall₂ h.wellFormed.forall₂_prepare.toList hn'
    obtain ⟨layout, hnode⟩ := hprepared.node
    have ht : n.tag = .control := by
      rw [← n.tag_reset, ← hleft.2, hnode]
      rfl
    obtain ⟨c, hc⟩ := NodeKind.exists_of_control ht
    obtain ⟨first, last, htied⟩ := h.exists_tied hd hgone hn hc
    rcases hprepared.control c hc with ⟨_, _, -, hlayout⟩ | ⟨hno, -⟩
    · rw [hlayout] at hleft
      exact absurd hleft.1 Bool.false_ne_true
    · exact hno first last (htied.mono fun id i => (h.resolveAnchor_iff hd).2)
  have hmarks := h.wellFormed.marks_prepare
  rwa [hnone, List.map_nil, List.map_eq_nil_iff] at hmarks

/-- A document is prepared like what remains of it, but for what is left out. -/
theorem readied (hd : d.WellFormed) (hgone : d.Untied gone) (hfree : Unreserved d.trees.rest) :
    Readied (.strict gone d'.HasSymbol) d'.prepare.document d.prepare.document := by
  obtain ⟨r, pages, hshape⟩ := hd.exists_shape
  obtain ⟨r', pages', hshape'⟩ := h.wellFormed.exists_shape
  rw [h.definition] at hshape'
  obtain ⟨page, system, d₁, hok, hd₁, -, hsystem, -⟩ := hshape.unbreak?
  obtain ⟨page', system', d₁', hok', hd₁', -, hsystem', -⟩ := hshape'.unbreak?
  have hroot := h.root hshape hshape'
  have hlast {d d₁ : Document α} {D : ScoreDefinition} {r page system : Node α}
      {detached : Forest (Node α)}
      (hd₁ : d₁.Shape D r (.tree page (.tree system d.content)) detached)
      (hrest : d.trees.rest = detached) : d₁.musicIds = d.musicIds := by
    rw [musicIds, musicIds, hd₁.content_eq, Forest.branches_tree, Forest.branches_tree, hd₁.rest,
      hrest]
  rw [prepare_eq hok, prepare_eq hok']
  refine hd₁'.readied hd₁ h.content (fun a => ?_) (fun l hl c hc => ?_) hroot.1 hroot.2
    (fun l hl c hc hspare => ?_) ?_ (h.unreserved hfree) hfree .prepared
  · show d'.HasSymbol a ↔ d₁'.HasSymbol a
    rw [HasSymbol, HasSymbol, hd₁'.content_eq, Forest.branches_tree, Forest.branches_tree]
  · obtain ⟨first, last, htied⟩ :=
      h.exists_tied hd hgone (Forest.mem_toList_of_mem_links hl) hc
    rw [← hshape'.inMeasure_link hsystem' hl] at htied
    rw [(anchor?_eq_ok_iff ..).2 (htied.mono fun id i => (hd₁.resolveAnchor_reset hd).2),
      (anchor?_eq_ok_iff ..).2 (htied.mono fun id i hok =>
        (hd₁'.resolveAnchor_reset h.wellFormed).2 ((h.resolveAnchor_iff hd).2 hok))]
  · have hlive : l.2 ∈ d.score.toList :=
      d.content_sublist_score.subset (Forest.mem_toList_of_mem_links hl)
    have hno := (hgone l.2 hlive c hc).1 hspare
    rw [← hshape.inMeasure_link hsystem hl] at hno
    obtain ⟨first, last, hok, -⟩ | ⟨mark, hmark, -⟩ :=
      d₁.reset.anchor?_cases (inMeasure l.1) l.2.id c
    · exact absurd (((anchor?_eq_ok_iff ..).1 hok).mono fun id i =>
        (hd₁.resolveAnchor_reset hd).1) (hno first last)
    · exact isSpare_anchored hc hmark hspare
  · rw [hlast hd₁ rfl, hlast hd₁' rfl]
    exact (h.musicIds_perm hd).symm

end WithoutControls

/-- Passes behind alignment that follow each other run to their end. -/
theorem Underway.fault_runAll : (passes : List LayoutPass) → {d : Document α} → {s : Stage} →
    d.Underway s → LayoutPass.Follow s passes → (∀ pass ∈ passes, pass ≠ .align) →
      (e.runAll d passes).fault = none
  | [], _, _, _, _, _ => rfl
  | pass :: passes, d, s, h, hfollow, hpasses => by
      rw [List.forall_mem_cons] at hpasses
      have hok := h.fault_run (e := e) hfollow.1 hpasses.1
      rw [Engine.runAll_cons, Outcome.andThen, hok]
      exact fault_runAll passes (h.run_of_fault hfollow.1 hok) hfollow.2 hpasses.2

/-- A layout that breaks down does so while it aligns. -/
theorem Underway.stage_of_fault (h : d.Underway .prepared)
    (hfault : (e.runAll d LayoutPass.all.tail).fault ≠ none) :
    (e.runAll d LayoutPass.all.tail).document.stage = .prepared := by
  have hs : LayoutPass.align.required ≤ Stage.prepared := by decide
  rw [show LayoutPass.all.tail = .align :: LayoutPass.all.drop 2 from rfl, Engine.runAll_cons,
    Outcome.andThen] at hfault ⊢
  cases halign : (e.run d .align).fault with
  | some f =>
    obtain ⟨hok, -⟩ | ⟨-, hstage⟩ := d.stage_align e.metrics e.options.scaledUnit
    · exact absurd (halign.symm.trans hok) (by simp)
    · exact hstage.trans h.stage
  | none =>
    rw [halign] at hfault
    exact absurd (fault_runAll (LayoutPass.all.drop 2) (h.run_of_fault hs halign)
      (LayoutPass.follow_all .prepared).2.2 (by decide)) hfault

/-- A document with a measure is laid out like what remains of it, but for the marks on what is left
out. -/
theorem WithoutControls.layout {gone : Handle → Prop} (h : WithoutControls gone d d') (hd : d.Ready)
    (hgone : d.Untied gone) {n : Node α} (hn : n ∈ d.content.toList) (ht : n.tag = .measure)
    (e : Engine α) :
    (e.layout d').fault = (e.layout d).fault ∧
      (e.layout d).marks = d.prepare.marks ++ (e.layout d').marks ∧
      ∀ options, (e.layout d').document.displayList options =
        (e.layout d).document.displayList options := by
  have hd' : d'.Ready := ⟨h.wellFormed, h.unreserved hd.unreserved, h.settled hd.settled⟩
  have hmeasured : d'.prepare.document.Measured (.strict gone d'.HasSymbol) := by
    obtain hcontrol | ⟨m, hm, hsame, -⟩ := h.content.exists_left n hn
    · exact absurd (hcontrol.1.symm.trans ht) (by decide)
    · obtain ⟨m', hm', hprepared⟩ := exists_mem_of_forall₂
        (hd'.run (⟨.default, .default⟩ : Engine α) .prepare).1.content.flip.toList hm
      have ht' : m'.tag = .measure := hprepared.tag.trans (hsame.tag.symm.trans ht)
      exact .inr ⟨m', (h.wellFormed.run (⟨.default, .default⟩ : Engine α)
        .prepare).mem_roots_of_measure hm' ht', ht'⟩
  have hbeside := (h.readied hd.wellFormed hgone hd.unreserved).runAll_tail e
    (Comparison.strict_strict _ _) (.prepare hd') (.prepare hd) hmeasured
  rw [hd.wellFormed.layout_eq e, h.wellFormed.layout_eq e, h.marks_prepare hd.wellFormed hgone]
  refine ⟨hbeside.fault.symm, congrArg (d.prepare.marks ++ ·) hbeside.marks, fun options => ?_⟩
  cases hfault : (e.runAll d'.prepare.document LayoutPass.all.tail).fault with
  | none =>
    exact ((hbeside.document hfault).related.displayList_eq (Comparison.strict_strict _ _)
      options).symm
  | some f =>
    have hstage := (Underway.prepare hd').stage_of_fault (e := e) (by rw [hfault]; simp)
    have hstage' := (Underway.prepare hd).stage_of_fault (e := e)
      (by rw [hbeside.fault, hfault]; simp)
    dsimp only
    rw [displayList, displayList, hstage, hstage']
    rfl

/-! ### Control elements that cannot be placed -/

/-- What becomes of the control elements that cannot be placed. -/
structure OmitsUnplaceable (d : Document α) (e : Engine α) : Prop where
  /-- Preparation leaves out exactly the control elements that cannot be placed. -/
  flagged : ∀ n ∈ d.score.toList, ∀ c, n.kind = .control c →
    ∃ n', d.prepare.document.node? n.handle = some n' ∧
      (n'.layout.omitted ↔ d.Unplaceable (d.parentNode? n.handle) c)
  /-- There is one mark for each of them, and no other one. -/
  marked : d.prepare.fault = none ∧
    d.prepare.marks.map Mark.node = d.prepare.document.omittedControls.map fun n => some n.id
  /-- None of them is found or drawn after a layout. -/
  hidden : ∀ n ∈ d.prepare.document.omittedControls,
    (e.layout d).document.position? n.id = none ∧
      ∀ options l, (e.layout d).document.displayList options = .ok l →
        ∀ s ∈ l.systems, ∀ x ∈ s.controls, x.id ≠ n.id
  /-- A score with a measure is drawn and reported as if they had been removed, one after another
  in any order, but for their marks. -/
  removed : d.measures ≠ [] → ∀ handles : List Handle,
    handles.Perm (d.prepare.document.omittedControls.map Node.handle) →
      ∃ d', handles.foldlM Document.detach d = .ok d' ∧
        (e.layout d').fault = (e.layout d).fault ∧
        (e.layout d).marks = d.prepare.marks ++ (e.layout d').marks ∧
        ∀ options, (e.layout d').document.displayList options =
          (e.layout d).document.displayList options

/-- The control elements of a document and those that preparation leaves out. -/
theorem WellFormed.mem_omittedControls_iff (hd : d.WellFormed) {n : Node α}
    (hn : n ∈ d.score.toList) {c : Control α} (hc : n.kind = .control c) :
    ∃ n', d.prepare.document.node? n.handle = some n' ∧
      (n'.layout.omitted ↔
        ∀ first last, ¬ d.TiedTo (inMeasure (d.parentNode? n.handle)) c first last) ∧
      (n.handle ∈ d.prepare.document.omittedControls.map Node.handle ↔ n'.layout.omitted) := by
  have ht : n.tag = .control := by rw [Node.tag, hc]; rfl
  have hcontent : n ∈ d.content.toList := hd.mem_content hn (by rw [ht]; decide)
  have hprepare : d.prepare.document.WellFormed :=
    hd.run (⟨.default, .default⟩ : Engine α) .prepare
  obtain ⟨n', hn', hprepared⟩ := exists_mem_of_forall₂ hd.forall₂_prepare.flip.toList hcontent
  have hmem : n' ∈ d.prepare.document.trees.toList := (content_sublist _).subset hn'
  have hsame : n'.handle = n.handle ∧ n'.tag = .control := by
    obtain ⟨layout, rfl⟩ := hprepared.node
    exact ⟨rfl, (n.tag_reset).trans ht⟩
  refine ⟨n', hsame.1 ▸ hprepare.node?_handle hmem, ?_, ?_⟩
  · rcases hprepared.control c hc with ⟨first, last, htied, hlayout⟩ | ⟨hno, hlayout⟩
    · rw [hlayout]
      exact iff_of_false Bool.false_ne_true fun hno => hno first last htied
    · rw [hlayout]
      exact iff_of_true rfl hno
  · rw [omittedControls, hprepare.nodesOfKind_eq_filter (by decide), List.mem_map]
    constructor
    · rintro ⟨m, hm, hhandle⟩
      obtain ⟨hm, homitted⟩ := List.mem_filter.1 hm
      have hm := (content_sublist _).subset (List.mem_filter.1 hm).1
      obtain rfl := hprepare.eq_of_handle_eq hm hmem (hhandle.trans hsame.1.symm)
      exact homitted
    · intro homitted
      exact ⟨n', List.mem_filter.2 ⟨List.mem_filter.2 ⟨hn', by simpa using hsame.2⟩, homitted⟩,
        hsame.1⟩

/-- The control elements of whatever a caller comes to, as long as nothing detached has an identifier
kept for unbroken content. -/
theorem Reachable.omits_unplaceable (h : d.Reachable) (hfree : Unreserved d.trees.rest)
    (e : Engine α) : d.OmitsUnplaceable e := by
  have hd := h.wellFormed
  have hprepare : d.prepare.document.WellFormed :=
    hd.run (⟨.default, .default⟩ : Engine α) .prepare
  refine ⟨fun n hn c hc => ?_, ⟨hd.fault_prepare.1, hd.marks_prepare⟩, fun n hn => ?_,
    fun hmeasures handles hperm => ?_⟩
  · obtain ⟨n', hn', homitted, -⟩ := hd.mem_omittedControls_iff hn hc
    exact ⟨n', hn', homitted.trans hd.unplaceable_iff.symm⟩
  · obtain ⟨hn, homitted⟩ := List.mem_filter.1 hn
    rw [hprepare.nodesOfKind_eq_filter (by decide)] at hn
    obtain ⟨m, hm, hkept⟩ := exists_mem_of_forall₂
      (hd.keeps_layout h.settled e).flip.toList (List.mem_filter.1 hn).1
    have hlayout : (e.layout d).document.WellFormed :=
      (hd.settled_runAll h.settled e LayoutPass.all).1
    have hleft : m.layout.omitted := LayoutState.omitted_eq_of_ties hkept.ties ▸ homitted
    rw [← hkept.id]
    exact ⟨hlayout.position?_of_omitted hm hleft, fun options l hl =>
      hlayout.not_drawn hm (.inl hleft) hl⟩
  · have hcontrols : ∀ i ∈ handles, ∃ n ∈ d.score.toList, n.handle = i ∧ n.tag = .control := by
      intro i hi
      obtain ⟨n', hn', rfl⟩ := List.mem_map.1 (hperm.mem_iff.1 hi)
      obtain ⟨hn', -⟩ := List.mem_filter.1 hn'
      rw [hprepare.nodesOfKind_eq_filter (by decide)] at hn'
      obtain ⟨hn', ht⟩ := List.mem_filter.1 hn'
      obtain ⟨n, hn, hprepared⟩ := exists_mem_of_forall₂ hd.forall₂_prepare.toList hn'
      obtain ⟨layout, rfl⟩ := hprepared.node
      exact ⟨n, d.content_sublist_score.subset hn, rfl,
        (n.tag_reset).symm.trans (of_decide_eq_true ht)⟩
    have hnodup : handles.Nodup := by
      refine hperm.nodup_iff.2 (hprepare.nodup_handles.sublist (List.Sublist.map _ ?_))
      rw [omittedControls, hprepare.nodesOfKind_eq_filter (by decide)]
      exact (List.filter_sublist.trans List.filter_sublist).trans (content_sublist _)
    obtain ⟨d', hall, hwithout⟩ := hd.exists_detachAll hnodup hcontrols
    have hgone : d.Untied (· ∈ handles) := fun n hn c hc => by
      obtain ⟨n', -, homitted, hmem⟩ := hd.mem_omittedControls_iff hn hc
      exact hperm.mem_iff.trans (hmem.trans homitted)
    obtain ⟨n, hn⟩ := List.exists_mem_of_ne_nil _ hmeasures
    rw [measures, hd.nodesOfKind_eq_filter (by decide)] at hn
    obtain ⟨hn, ht⟩ := List.mem_filter.1 hn
    exact ⟨d', hall, hwithout.layout (h.ready hfree) hgone hn (of_decide_eq_true ht) e⟩

/-- A slur over two notes, one that ends nowhere, and a dynamic mark on a beat but in no measure: the
last two are left out. -/
theorem Reachable.omits_unplaceable_of_slur : ∃ d : Document ℚ, d.Reachable ∧ d.measures ≠ [] ∧
    d.prepare.document.omittedControls.map Node.handle = [9, 10] ∧
      (Engine.default.layout d).fault = none ∧ d.OmitsUnplaceable .default := by
  have hlayer := (((Reachable.ofDefinition (α := ℚ) default).contentSystem.add 2
    (.measure (.ofNumber 1))).add 3 (.staff ⟨1, false⟩)).add 4 (.layer 1)
  have hnotes := (hlayer.addNamed (by decide) (show Document.addNamed _ 5 "a"
    (.element (.note ⟨.ofValue .quarter, ⟨.c, 4, none⟩, none, false⟩)) = _ from rfl)).addNamed
    (by decide) (show Document.addNamed _ 5 "b"
    (.element (.note ⟨.ofValue .quarter, ⟨.d, 4, none⟩, none, false⟩)) = _ from rfl)
  have hd := ((hnotes.add 3 (.control (.slur (.between "a" "b") none))).add 3
    (.control (.slur (.between "a" "c") none))).add 2 (.control (.dynamic (.atBeat 1 1) "f"))
  exact ⟨_, hd, by decide +kernel, by decide +kernel, by decide +kernel,
    hd.omits_unplaceable (fun n hn => absurd hn List.not_mem_nil) .default⟩

end Document

end ScoreLayout
