import ScoreLayout.Proofs.Layout.Content

/-!
# Symbols of the content

Control elements refer to symbols by their identifiers, and once they are tied to them by their
handles. What they are tied to belongs to the content of the score.

## Main definitions

* `Node.IsFrame` — pages and systems, which the layout makes.
* `Document.InContent`, `Document.HasSymbol` — the handles of the content, and those of its symbols.

## Main results

* `Document.WellFormed.hasSymbol_anchorNode` — control elements are tied to symbols of the content.
-/

namespace ScoreLayout

variable {α : Type}

/-! ### Pages and systems -/

/-- Whether a node is made by the layout. -/
def Node.IsFrame (n : Node α) : Prop := n.tag = .page ∨ n.tag = .system

theorem Node.depth_of_measure {n : Node α} {m : Measure α} (h : n.kind = .measure m) :
    3 ≤ n.tag.depth := by
  rw [Node.tag, h]
  exact Nat.le_refl 3

theorem Node.not_isFrame {n : Node α} (hn : 3 ≤ n.tag.depth) : ¬ n.IsFrame := by
  rintro (h | h) <;> (rw [h] at hn; exact absurd hn (by decide))

/-! ### The content -/

namespace Document

/-- Whether a handle is that of a node of the content. -/
def InContent (d : Document α) (h : Handle) : Prop := ∃ n ∈ d.content.toList, n.handle = h

/-- Whether a handle is that of a symbol of the content. -/
def HasSymbol (d : Document α) (h : Handle) : Prop :=
  ∃ n ∈ d.content.toList, n.handle = h ∧ n.tag = .element

theorem HasSymbol.inContent {d : Document α} {h : Handle} (hh : d.HasSymbol h) : d.InContent h :=
  let ⟨n, hn, hhandle, _⟩ := hh
  ⟨n, hn, hhandle⟩

theorem InContent.of_sameMusic [Scalar α] {d d' : Document α}
    (h : Forest.Forall₂ Node.SameMusic d.content d'.content) {i : Handle} (hi : d.InContent i) :
    d'.InContent i := by
  obtain ⟨n, hn, rfl⟩ := hi
  obtain ⟨n', hn', hsame⟩ := exists_mem_of_forall₂ h.flip.toList hn
  exact ⟨n', hn', hsame.handle⟩

theorem HasSymbol.of_sameMusic [Scalar α] {d d' : Document α}
    (h : Forest.Forall₂ Node.SameMusic d.content d'.content) {i : Handle} (hi : d.HasSymbol i) :
    d'.HasSymbol i := by
  obtain ⟨n, hn, rfl, ht⟩ := hi
  obtain ⟨n', hn', hsame⟩ := exists_mem_of_forall₂ h.flip.toList hn
  exact ⟨n', hn', hsame.handle, hsame.tag.trans ht⟩

theorem first_append_rest {β : Type} (f : Forest β) : f.first ++ f.rest = f := by
  cases f <;> rfl

/-- Only what belongs to the score has an identifier of the score. -/
theorem WellFormed.isLive_iff_of_find? {d : Document α} (hd : d.WellFormed) {id : String}
    {n : Node α} (hn : d.trees.find? (hasId id) = some n) :
    d.isLive n.handle ↔ id ∈ d.score.toList.map Node.id := by
  obtain ⟨hmem, rfl⟩ := hd.findNode?_eq_some_iff.1 hn
  rw [isLive_iff, List.mem_map]
  constructor
  · rintro ⟨m, hm, hh⟩
    exact ⟨m, hm, congrArg Node.id (hd.eq_of_handle_eq ((score_sublist d).subset hm) hmem hh)⟩
  · rintro ⟨m, hm, hid⟩
    exact ⟨m, hm, congrArg Node.handle (hd.eq_of_id_eq ((score_sublist d).subset hm) hmem hid)⟩

theorem WellFormed.not_isFrame {d : Document α} (hd : d.WellFormed) {n : Node α}
    (hn : n ∈ d.content.toList) : ¬ n.IsFrame := by
  obtain ⟨r, pages, hshape⟩ := hd.exists_shape
  exact Node.not_isFrame (hshape.depth_of_mem_content (hshape.content_eq ▸ hn))

theorem content_sublist_score (d : Document α) : d.content.toList.Sublist d.score.toList :=
  ((Forest.sublist_branches _).trans (Forest.sublist_branches _)).trans
    (Forest.sublist_branches _)

theorem content_sublist (d : Document α) : d.content.toList.Sublist d.trees.toList :=
  d.content_sublist_score.trans (score_sublist d)

/-- Nodes of the score are the root, pages and systems, or belong to the content. -/
theorem WellFormed.mem_content {d : Document α} (hd : d.WellFormed) {n : Node α}
    (hn : n ∈ d.score.toList) (hdepth : 3 ≤ n.tag.depth) : n ∈ d.content.toList := by
  obtain ⟨r, pages, hshape⟩ := hd.exists_shape
  rw [hshape.score, Forest.toList_tree, List.mem_cons,
    Forest.mem_toList_iff, Forest.mem_toList_iff (f := pages.branches)] at hn
  rcases hn with rfl | hn | hn | hn
  · rw [hshape.root_tag] at hdepth
    exact absurd hdepth (by decide)
  · rw [hshape.tag_of_mem_pages hn] at hdepth
    exact absurd hdepth (by decide)
  · rw [hshape.tag_of_mem_systems hn] at hdepth
    exact absurd hdepth (by decide)
  · rwa [hshape.content_eq]

/-- Nodes of a kind that stands in systems are found in the content. -/
theorem WellFormed.nodesOfKind_eq_filter {d : Document α} (hd : d.WellFormed) {tag : NodeTag}
    (hdepth : 3 ≤ tag.depth) : d.nodesOfKind tag = d.content.toList.filter fun n => n.tag = tag := by
  obtain ⟨r, pages, hshape⟩ := hd.exists_shape
  have hpages : ∀ n ∈ pages.roots, ¬ decide (n.tag = tag) = true := fun n hn heq => by
    rw [← of_decide_eq_true heq, hshape.tag_of_mem_pages hn] at hdepth
    exact absurd hdepth (by decide)
  have hsystems : ∀ n ∈ pages.branches.roots, ¬ decide (n.tag = tag) = true := fun n hn heq => by
    rw [← of_decide_eq_true heq, hshape.tag_of_mem_systems hn] at hdepth
    exact absurd hdepth (by decide)
  rw [hshape.nodesOfKind_eq, hshape.content_eq, Forest.filter_toList_branches hsystems,
    Forest.filter_toList_branches hpages]

theorem WellFormed.inContent {d : Document α} (hd : d.WellFormed) {n : Node α}
    (hn : n ∈ d.score.toList) (ht : n.tag = .control) : d.InContent n.handle :=
  ⟨n, hd.mem_content hn (by rw [ht]; decide), rfl⟩

/-- What is detached does not belong to the content. -/
theorem WellFormed.not_inContent {d : Document α} (hd : d.WellFormed) {n : Node α}
    (hn : n ∈ d.trees.rest.toList) : ¬ d.InContent n.handle := by
  rintro ⟨m, hm, hh⟩
  exact hd.not_isLive_of_mem_rest hn
    ((isLive_iff d n.handle).2 ⟨m, d.content_sublist_score.subset hm, hh⟩)

/-! ### What control elements are tied to -/

/-- A control element is tied to the content only. -/
theorem WellFormed.hasSymbol_of_resolveAnchor {d : Document α} (hd : d.WellFormed) {id : String}
    {i : Handle} (hok : d.resolveAnchor id = .ok i) : d.HasSymbol i := by
  rw [resolveAnchor] at hok
  split at hok
  · cases hok
  · rename_i n hn
    split_ifs at hok with hlive htag
    obtain rfl := Except.ok.inj hok
    have hmem := (hd.findNode?_eq_some_iff.1 hn).1
    rw [Decidable.not_not] at htag
    obtain ⟨m, hm, hh⟩ := (isLive_iff d n.handle).1 (by simpa using hlive)
    obtain rfl := hd.eq_of_handle_eq ((score_sublist d).subset hm) hmem hh
    exact ⟨m, hd.mem_content hm (by rw [htag]; decide), rfl, htag⟩

theorem WellFormed.hasSymbol_of_anchor? {d : Document α} (hd : d.WellFormed) {inMeasure : Bool}
    {id : String} {c : Control α} {start stop : Option Handle}
    (hok : d.anchor? inMeasure id c = .ok (start, stop)) :
    ∀ a ∈ start.toList ++ stop.toList, d.HasSymbol a := by
  have hnone : ∀ a ∈ (none : Option Handle).toList, d.HasSymbol a := by simp
  have hsome {target : String} {i : Handle} (hi : d.resolveAnchor target = .ok i) :
      ∀ a ∈ (some i).toList, d.HasSymbol a := by
    simpa using hd.hasSymbol_of_resolveAnchor hi
  rw [anchor?] at hok
  dsimp only [bind, Except.bind, pure, Except.pure] at hok
  split at hok
  · split at hok
    · rename_i hstart
      split at hok
      · split at hok
        · rename_i hstop
          obtain ⟨rfl, rfl⟩ := Prod.mk.inj (Except.ok.inj hok)
          exact List.forall_mem_append.2 ⟨hsome hstart, hsome hstop⟩
        · cases hok
      · obtain ⟨rfl, rfl⟩ := Prod.mk.inj (Except.ok.inj hok)
        exact List.forall_mem_append.2 ⟨hsome hstart, hnone⟩
    · cases hok
  · split_ifs at hok
    split at hok
    · split at hok
      · rename_i hstop
        obtain ⟨rfl, rfl⟩ := Prod.mk.inj (Except.ok.inj hok)
        exact List.forall_mem_append.2 ⟨hnone, hsome hstop⟩
      · cases hok
    · obtain ⟨rfl, rfl⟩ := Prod.mk.inj (Except.ok.inj hok)
      exact List.forall_mem_append.2 ⟨hnone, hnone⟩
  · cases hok

/-- What a control element is newly tied to is a symbol of the content. -/
theorem WellFormed.hasSymbol_anchorNode {d : Document α} (hd : d.WellFormed) (marks : List Mark)
    (parent : Option (Node α)) (n : Node α) (c : Control α) :
    ∀ a ∈ Stacking.anchors (d.anchorNode marks parent n c).2.layout,
      d.HasSymbol a ∨ a ∈ Stacking.anchors n.layout := by
  rw [anchorNode]
  split
  · rename_i start stop hok
    have hnew := hd.hasSymbol_of_anchor? hok
    have hor {i : Handle} {new old : Option Handle} (hi : i ∈ (new <|> old).toList) :
        i ∈ new.toList ∨ i ∈ old.toList := by
      cases new with
      | none => exact .inr (by simpa using hi)
      | some => exact .inl hi
    intro a ha
    rcases List.mem_append.1 ha with ha | ha
    · exact (hor ha).imp (fun ha => hnew a (List.mem_append_left _ ha)) (List.mem_append_left _)
    · exact (hor ha).imp (fun ha => hnew a (List.mem_append_right _ ha)) (List.mem_append_right _)
  · exact fun a ha => absurd ha List.not_mem_nil

theorem prepare_eq [Scalar α] {d d₁ : Document α} (hok : d.unbreak? = .ok d₁) :
    d.prepare = .done { d₁.reset.anchorControls.2 with stage := .prepared }
      d₁.reset.anchorControls.1 := by
  rw [Document.prepare, hok]

end Document

end ScoreLayout
