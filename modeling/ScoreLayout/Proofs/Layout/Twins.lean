import ScoreLayout.Proofs.Forest.Padded
import ScoreLayout.Proofs.Layout.ContentSymbols

/-!
# Documents side by side

Two layouts of one content make the same pages and systems, but they may give them different handles,
since these depend on what has been given back before. They may start from nodes on which another
layout has left something that is overwritten only later. And one of the two documents may have
further control elements that are left out of the layout. Two such documents are twins: no pass
tells them apart.

## Main definitions

* `Comparison` — what two documents may differ in.
* `Node.Near` — two nodes that no pass between alignment and placement tells apart.
* `Document.Abreast`, `Document.Twin` — two documents with such contents, and with such scores.

## Main results

* `Document.Abreast.node?` — looking up the symbols that control elements are tied to.
* `Document.Twin.timeOf?_eq` — twins give the same times.
-/

namespace ScoreLayout

variable {α : Type}

/-! ### Nodes -/

/-- What the layout has found out about a node. -/
def Node.state (n : Node α) : Box α × LayoutState α := (n.box, n.layout)

/-- What two documents may differ in. -/
structure Comparison (α : Type) where
  /-- The handles of the control elements that only the second has. -/
  spare : Handle → Prop
  /-- The handles of the symbols that control elements are tied to. -/
  symbol : Handle → Prop
  /-- How what has been found out about two nodes agrees. -/
  agree : Node α → Node α → Prop
  agree_of_eq : ∀ {n n' : Node α}, n'.state = n.state → agree n n'
  agree_kind : ∀ {n n' : Node α} (k k' : NodeKind α), k.tag = n.tag → agree n n' →
    agree { n with kind := k } { n' with kind := k' }

namespace Node

variable (T : Comparison α)

/-- A control element that is left out of the layout of the second document. -/
structure IsSpare (n : Node α) : Prop where
  tag : n.tag = .control
  omitted : n.layout.omitted
  spare : T.spare n.handle
  blank : n.box.rect = none

/-- Two nodes that no pass between alignment and placement tells apart. Pages and systems may have
different handles. -/
structure Near (n n' : Node α) : Prop where
  id : n'.id = n.id
  kind : n'.kind = n.kind
  handle : ¬ n.IsFrame → n'.handle = n.handle
  own : ¬ n.IsFrame → ¬ T.spare n'.handle
  layout : n'.layout = { n.layout with staff := n'.layout.staff }
  /-- Placement overwrites the staff of a control element with a start. -/
  staff : n.tag ≠ .control ∨ n.layout.startAnchor = none → n'.layout.staff = n.layout.staff
  rect : n.tag = .element → n'.box.rect = n.box.rect
  tied : n.tag = .control → ∀ a ∈ Stacking.anchors n.layout, T.symbol a
  agree : T.agree n n'

variable {T} {n n' : Node α}

namespace Near

variable (h : n.Near T n')

include h

theorem tag : n'.tag = n.tag := congrArg NodeKind.tag h.kind

theorem omitted : n'.layout.omitted = n.layout.omitted := by rw [h.layout]

theorem onset : n'.layout.onset = n.layout.onset := by rw [h.layout]

theorem layout_eq (hn : n.tag ≠ .control ∨ n.layout.startAnchor = none) :
    n'.layout = n.layout := by
  rw [h.layout, h.staff hn]

theorem anchors : Stacking.anchors n'.layout = Stacking.anchors n.layout := by
  rw [h.layout]
  rfl

theorem extent? [Scalar α] (hn : n.tag = .element) : n'.extent? = n.extent? := by
  rw [Node.extent?, Node.extent?, h.rect hn, h.layout_eq (.inl (by rw [hn]; decide))]

theorem not_isSpare : ¬ n'.IsSpare T := fun hs =>
  h.own (Node.not_isFrame (by rw [← h.tag, hs.tag]; decide)) hs.spare

/-- Two nodes that change their kinds alike. -/
theorem withKind {k : NodeKind α} (hk : k.tag = n.tag) :
    Near T { n with kind := k } { n' with kind := k } where
  id := h.id
  kind := rfl
  handle hn := h.handle fun hf => hn (by rw [IsFrame, Node.tag, hk]; exact hf)
  own hn := h.own fun hf => hn (by rw [IsFrame, Node.tag, hk]; exact hf)
  layout := h.layout
  staff hn := h.staff (hn.imp_left fun hn => by rwa [Node.tag, hk] at hn)
  rect hn := h.rect (by rwa [Node.tag, hk] at hn)
  tied hn := h.tied (by rwa [Node.tag, hk] at hn)
  agree := T.agree_kind k k hk h.agree

theorem mapKind {f : NodeKind α → NodeKind α} (hf : ∀ k, (f k).tag = k.tag) :
    (n.mapKind f).Near T (n'.mapKind f) := by
  rw [Node.mapKind, Node.mapKind, h.kind]
  exact h.withKind (hf n.kind)

end Near

/-- New pages and new systems of one content. -/
theorem near_new [Scalar α] (h h' : Handle) (id : String) {k : NodeKind α}
    (hk : k.tag = .page ∨ k.tag = .system) : (new h id k).Near T (new h' id k) where
  id := rfl
  kind := rfl
  handle hn := absurd hk hn
  own hn := absurd hk hn
  layout := rfl
  staff _ := rfl
  rect _ := rfl
  tied hn := by
    rw [Node.tag, new] at hn
    rcases hk with hk | hk <;> (rw [hn] at hk; cases hk)
  agree := T.agree_of_eq rfl

end Node

/-! ### Documents -/

namespace Document

/-- The identifiers outside of pages and systems. -/
def musicIds (d : Document α) : List String :=
  d.content.toList.map Node.id ++ d.trees.rest.toList.map Node.id

/-- The identifiers of a document, those of its root, pages and systems first. -/
theorem Shape.ids_perm {d : Document α} {D : ScoreDefinition} {r : Node α}
    {pages detached : Forest (Node α)} (hd : d.Shape D r pages detached) : d.ids.Perm
      (((r :: pages.roots) ++ pages.branches.roots).map Node.id ++ d.musicIds) := by
  have hpages : pages.toList.Perm (pages.roots ++ (pages.branches.roots ++ d.content.toList)) := by
    rw [hd.content_eq]
    exact pages.toList_perm.trans (pages.branches.toList_perm.append_left _)
  have hall := ((hpages.append_right detached.toList).map Node.id).cons r.id
  rw [ids, hd.trees, Forest.toList, List.map_cons, musicIds, hd.rest]
  simpa only [List.map_append, List.append_assoc, List.map_cons, List.cons_append] using hall

/-- Two documents with related contents. Their pages and systems do not matter. -/
structure Abreast (T : Comparison α) (R : Node α → Node α → Prop) (d d' : Document α) : Prop where
  left : d.WellFormed
  right : d'.WellFormed
  content : Forest.Padded (Node.IsSpare T) R d.content d'.content
  root : List.Forall₂ (Node.Near T) d.score.roots d'.score.roots
  ids : d'.musicIds.Perm d.musicIds
  definition : d'.definition = d.definition
  stage : d'.stage = d.stage
  unreserved : Unreserved d.trees.rest
  unreserved' : Unreserved d'.trees.rest
  symbols : ∀ a, T.symbol a → d.HasSymbol a

/-- Two documents with related systems, all of them on the page for unbroken content. That page is
given up when pages are made, so what the layout has found out about it does not matter. -/
structure TwinSystems (T : Comparison α) (d d' : Document α) (systems systems' : Forest (Node α)) :
    Prop where
  left : ∃ D r page detached, d.Shape D r (.tree page systems) detached ∧ page.id = contentPageId
  right : ∃ D r page detached, d'.Shape D r (.tree page systems') detached ∧
    page.id = contentPageId
  systems : Forest.Padded (Node.IsSpare T) (Node.Near T) systems systems'
  root : List.Forall₂ (Node.Near T) d.score.roots d'.score.roots
  ids : d'.musicIds.Perm d.musicIds
  definition : d'.definition = d.definition
  stage : d'.stage = d.stage
  symbols : ∀ a, T.symbol a → d.HasSymbol a

/-- Two documents that no pass between alignment and placement tells apart. -/
structure Twin (T : Comparison α) (d d' : Document α) : Prop where
  left : d.WellFormed
  right : d'.WellFormed
  score : Forest.Padded (Node.IsSpare T) (Node.Near T) d.score d'.score
  ids : d'.musicIds.Perm d.musicIds
  definition : d'.definition = d.definition
  stage : d'.stage = d.stage
  symbols : ∀ a, T.symbol a → d.HasSymbol a

variable {T : Comparison α} {R : Node α → Node α → Prop} {d d' : Document α}

section SameTree

variable [Scalar α] {d₁ d₁' : Document α}

theorem SameContent.musicIds_eq (h : d.SameContent d₁) : d₁.musicIds = d.musicIds := by
  rw [musicIds, musicIds, h.rest,
    map_eq_of_forall₂ (fun _ _ hn => hn.id.symm) h.content.toList]

/-- Two documents of which a pass has changed the nodes only. -/
theorem Abreast.of_sameTree {S : Node α → Node α → Prop} (h : d.Abreast T R d') (hd : d.SameTree d₁)
    (hd' : d'.SameTree d₁') (hcontent : Forest.Padded (Node.IsSpare T) S d₁.content d₁'.content)
    (hroot : List.Forall₂ (Node.Near T) d₁.score.roots d₁'.score.roots)
    (hstage : d₁'.stage = d₁.stage) : d₁.Abreast T S d₁' where
  left := hd.wellFormed h.left
  right := hd'.wellFormed h.right
  content := hcontent
  root := hroot
  ids := by
    rw [hd.sameContent.musicIds_eq, hd'.sameContent.musicIds_eq]
    exact h.ids
  definition := hd'.definition.trans (h.definition.trans hd.definition.symm)
  stage := hstage
  unreserved := hd.rest ▸ h.unreserved
  unreserved' := hd'.rest ▸ h.unreserved'
  symbols a ha := (h.symbols a ha).of_sameMusic hd.sameContent.content

theorem Twin.of_sameTree (h : d.Twin T d') (hd : d.SameTree d₁) (hd' : d'.SameTree d₁')
    (hscore : Forest.Padded (Node.IsSpare T) (Node.Near T) d₁.score d₁'.score)
    (hstage : d₁'.stage = d₁.stage) : d₁.Twin T d₁' where
  left := hd.wellFormed h.left
  right := hd'.wellFormed h.right
  score := hscore
  ids := by
    rw [hd.sameContent.musicIds_eq, hd'.sameContent.musicIds_eq]
    exact h.ids
  definition := hd'.definition.trans (h.definition.trans hd.definition.symm)
  stage := hstage
  symbols a ha := (h.symbols a ha).of_sameMusic hd.sameContent.content

end SameTree

/-- The node that a handle of the content means. -/
theorem WellFormed.node?_content {d : Document α} (hd : d.WellFormed) {n : Node α}
    (hn : n ∈ d.content.toList) : d.node? n.handle = some n :=
  hd.node?_handle ((content_sublist d).subset hn)

/-- Two symbols that control elements are tied to. -/
theorem near_node? (hd : d.WellFormed) (hd' : d'.WellFormed)
    (hcontent : Forest.Padded (Node.IsSpare T) R d.content d'.content)
    (hhandle : ∀ n n', R n n' → n.tag = .element → n'.handle = n.handle) {a : Handle}
    (ha : d.HasSymbol a) : ∃ n n', d.node? a = some n ∧ d'.node? a = some n' ∧ R n n' ∧
      n.tag = .element ∧ n ∈ d.content.toList ∧ n' ∈ d'.content.toList := by
  obtain ⟨n, hn, rfl, ht⟩ := ha
  obtain ⟨n', hn', hR⟩ := hcontent.exists_right n hn
  exact ⟨n, n', hd.node?_content hn, hhandle n n' hR ht ▸ hd'.node?_content hn', hR, ht, hn, hn'⟩

namespace Twin

variable (h : d.Twin T d')

include h

theorem content : Forest.Padded (Node.IsSpare T) (Node.Near T) d.content d'.content :=
  h.score.branches.branches.branches

/-- The symbols that control elements are tied to. -/
theorem node? {a : Handle} (ha : T.symbol a) : ∃ n n', d.node? a = some n ∧ d'.node? a = some n' ∧
    n.Near T n' ∧ n.tag = .element ∧ n ∈ d.content.toList ∧ n' ∈ d'.content.toList :=
  near_node? h.left h.right h.content
    (fun _ _ hn ht => hn.handle (Node.not_isFrame (by rw [ht]; decide))) (h.symbols a ha)

end Twin

end Document

end ScoreLayout
