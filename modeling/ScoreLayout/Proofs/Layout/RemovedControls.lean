import ScoreLayout.Proofs.Layout.UnresolvedControls

/-!
# Scores without some of their control elements

Nothing stands below a control element. To take one out of a score is to take out a leaf, and leaves
everything else in its place. So a score without some of its control elements is the score without
some leaves, in whatever order they have been taken out. Likewise a control element that is added is
a further leaf, and nothing else.

## Main definitions

* `Document.LacksControls` — a document, and one whose score lacks some of its control elements.
* `Document.WithoutControls` — a document, and what remains of it without some control elements.
* `Document.GainsControl` — a document, and the same with a further control element.

## Main results

* `Forest.Padded.trans` — leaves taken out in two goes.
* `Document.WellFormed.exists_detach` — a control element taken out.
* `Document.WellFormed.exists_detachAll` — control elements taken out one after another.
* `Document.WellFormed.gainsControl` — a control element added.
-/

namespace ScoreLayout

namespace Forest

variable {β γ δ : Type}

/-- What stands in a forest can be taken out. -/
theorem HasTree.exists_without {b : β} {below f : Forest β} (h : HasTree b below f) :
    ∃ g, Without b below f g := by
  induction h with
  | here siblings => exact ⟨siblings, .here siblings⟩
  | deeper siblings _ ih =>
    obtain ⟨g, hg⟩ := ih
    exact ⟨_, .deeper siblings hg⟩
  | beside c children _ ih =>
    obtain ⟨g, hg⟩ := ih
    exact ⟨_, .beside c children hg⟩

/-- The labels of a forest without a leaf. -/
theorem Without.perm {b : β} {f g : Forest β} (h : Without b .nil f g) :
    f.toList.Perm (b :: g.toList) := by
  induction h with
  | here siblings => exact .refl _
  | @deeper c _ _ siblings _ ih =>
    exact ((ih.append_right siblings.toList).cons c).trans (.swap b c _)
  | @beside c children _ _ _ ih =>
    exact (((ih.append_left children.toList).trans List.perm_middle).cons c).trans (.swap b c _)

/-- A forest without a leaf. -/
theorem Without.padded {b : β} {f g : Forest β} (h : Without b .nil f g) :
    Padded (· = b) Eq g f := by
  have hself (f : Forest β) : Padded (· = b) Eq f f := .of_forall₂ (.refl fun _ _ => rfl)
  induction h with
  | here siblings => exact .leaf rfl (hself siblings)
  | deeper siblings _ ih => exact .cons rfl ih (hself siblings)
  | beside c children _ ih => exact .cons rfl (hself children) ih

/-- A forest with a leaf added. -/
theorem padded_graft (p : β → Bool) (b : β) (f : Forest β) :
    Padded (· = b) Eq f (f.graft p (.tree b .nil)) := by
  induction f with
  | nil => exact .nil
  | cons c children siblings ihc ihs =>
    rw [graft]
    refine .cons rfl ?_ ihs
    split_ifs
    · have h := ihc.append (Padded.leaf (P := (· = b)) (R := Eq) rfl .nil)
      rwa [append_nil] at h
    · exact ihc

/-- Leaves taken out in two goes, where nothing stands below what is taken out first. -/
theorem Padded.trans {P : γ → Prop} {R : β → γ → Prop} {Q U : δ → Prop} {S : γ → δ → Prop}
    {T : β → δ → Prop} {f : Forest β} {g : Forest γ} {k : Forest δ} (h : Padded P R f g)
    (h' : Padded Q S g k)
    (hleaf : ∀ c d below, P c → S c d → HasTree d below k → below = .nil ∧ U d)
    (hQ : ∀ d, Q d → U d) (hT : ∀ b c d, R b c → S c d → T b d) : Padded U T f k := by
  induction h' generalizing f with
  | nil =>
    cases h
    exact Padded.nil
  | @cons c d _ _ children siblings hlabel hbelow hbeside ihc ihs =>
    have hdeeper : ∀ c e below, P c → S c e → HasTree e below children → below = .nil ∧ U e :=
      fun c e below hc hce he => hleaf c e below hc hce (.deeper siblings he)
    have hlater : ∀ c e below, P c → S c e → HasTree e below siblings → below = .nil ∧ U e :=
      fun c e below hc hce he => hleaf c e below hc hce (.beside d children he)
    cases h with
    | cons label below beside =>
      exact .cons (hT _ _ _ label hlabel) (ihc below hdeeper) (ihs beside hlater)
    | leaf further beside =>
      obtain ⟨rfl, hd⟩ := hleaf c d children further hlabel (.here siblings)
      exact .leaf hd (ihs beside hlater)
  | @leaf d _ siblings hd hbeside ihs =>
    exact .leaf (hQ d hd) (ihs h fun c e below hc hce he =>
      hleaf c e below hc hce (.beside d .nil he))

end Forest

variable {α : Type}

namespace Document

variable {d d' : Document α}

/-- Nothing stands below a control element. -/
theorem WellFormed.eq_nil_of_control (hd : d.WellFormed) {n : Node α} {below : Forest (Node α)}
    (h : Forest.HasTree n below d.score) (ht : n.tag = .control) : below = .nil := by
  obtain ⟨c, hc⟩ := NodeKind.exists_of_control ht
  refine Forest.roots_eq_nil.1 (List.eq_nil_iff_forall_not_mem.2 fun b hb => ?_)
  have hlink : (some n, b) ∈ d.trees.links none := by
    rw [← first_append_rest d.trees, Forest.links_append]
    exact List.mem_append_left _ (h.mem_links (Forest.link_of_mem_roots _ hb) none)
  have haccepts := hd.accepts n b hlink
  rw [hc] at haccepts
  cases hk : b.kind <;> rw [hk] at haccepts <;> cases haccepts

variable [Scalar α]

/-- A document, and one whose score lacks some of its control elements. -/
structure LacksControls (gone : Handle → Prop) (d d' : Document α) : Prop where
  wellFormed : d'.WellFormed
  definition : d'.definition = d.definition
  score : Forest.Padded (fun n => n.tag = .control ∧ gone n.handle)
    (fun n n' => n.SameMusic n' ∧ ¬ gone n.handle) d'.score d.score

namespace LacksControls

variable {gone : Handle → Prop} (h : LacksControls gone d d')

include h

theorem content : Forest.Padded (fun n => n.tag = .control ∧ gone n.handle)
    (fun n n' => n.SameMusic n' ∧ ¬ gone n.handle) d'.content d.content :=
  h.score.branches.branches.branches

theorem root {D D' : ScoreDefinition} {r r' : Node α} {pages pages' detached detached' : Forest (Node α)}
    (hd : d.Shape D r pages detached) (hd' : d'.Shape D' r' pages' detached') :
    r'.SameMusic r ∧ ¬ gone r'.handle := by
  have hscore := h.score
  rw [hd.score, hd'.score] at hscore
  cases hscore with
  | cons hr => exact hr
  | leaf hr => exact absurd (hr.1.symm.trans hd.root_tag) (by decide)

/-- Identifiers mean the same. -/
theorem resolveAnchor_iff (hd : d.WellFormed) {id : String} {i : Handle} :
    d'.resolveAnchor id = .ok i ↔ d.resolveAnchor id = .ok i := by
  constructor
  · refine h.wellFormed.resolveAnchor_of_content hd fun n hn _ => ?_
    obtain ⟨n', hn', hsame, -⟩ := h.content.exists_right n hn
    exact ⟨n', hn', hsame⟩
  · refine hd.resolveAnchor_of_content h.wellFormed fun n hn ht => ?_
    obtain hgone | ⟨n', hn', hsame, -⟩ := h.content.exists_left n hn
    · exact absurd (hgone.1.symm.trans ht) (by decide)
    · exact ⟨n', hn', hsame.symm⟩

end LacksControls

/-- A document, and what remains of it when some control elements are taken out of its score. -/
structure WithoutControls (gone : Handle → Prop) (d d' : Document α) : Prop
    extends LacksControls gone d d' where
  ids : d'.ids.Perm d.ids
  settled : d.Settled → d'.Settled
  unreserved : Unreserved d.trees.rest → Unreserved d'.trees.rest

namespace WithoutControls

variable {gone gone' : Handle → Prop} {d₁ : Document α}

theorem refl (hd : d.WellFormed) : WithoutControls (fun _ => False) d d :=
  ⟨⟨hd, rfl, .of_forall₂ (.refl fun n _ => ⟨.refl n, not_false⟩)⟩, .refl _, id, id⟩

/-- Control elements taken out in two goes. -/
theorem trans (h : WithoutControls gone d d₁) (h' : WithoutControls gone' d₁ d')
    (hd : d.WellFormed) : WithoutControls (fun i => gone i ∨ gone' i) d d' where
  wellFormed := h'.wellFormed
  definition := h'.definition.trans h.definition
  score := by
    refine h'.score.trans h.score (fun n n' below hn hsame htree => ?_)
      (fun n hn => hn.imp_right .inl) fun a b c hab hbc => ⟨hab.1.trans hbc.1, ?_⟩
    · have ht : n'.tag = .control := hsame.1.tag.trans hn.1
      exact ⟨hd.eq_nil_of_control htree ht, ht, .inr (hsame.1.handle ▸ hn.2)⟩
    · rw [not_or]
      exact ⟨hab.1.handle ▸ hbc.2, hab.2⟩
  ids := h'.ids.trans h.ids
  settled := h'.settled ∘ h.settled
  unreserved := h'.unreserved ∘ h.unreserved

/-- Outside of pages and systems the document has the same identifiers. -/
theorem musicIds_perm (h : WithoutControls gone d d') (hd : d.WellFormed) :
    d'.musicIds.Perm d.musicIds := by
  obtain ⟨r, pages, hshape⟩ := hd.exists_shape
  obtain ⟨r', pages', hshape'⟩ := h.wellFormed.exists_shape
  have hscore := h.score
  rw [hshape.score, hshape'.score] at hscore
  have hroot := hscore.roots fun n hn hgone => by
    obtain rfl : n = r := List.mem_singleton.1 hn
    exact absurd (hgone.1.symm.trans hshape.root_tag) (by decide)
  have hpages := hscore.branches
  rw [Forest.branches_tree, Forest.branches_tree] at hpages
  have hpageroots := hpages.roots fun n hn hgone =>
    absurd (hgone.1.symm.trans (hshape.tag_of_mem_pages hn)) (by decide)
  have hsystemroots := hpages.branches.roots fun n hn hgone =>
    absurd (hgone.1.symm.trans (hshape.tag_of_mem_systems hn)) (by decide)
  have hid (n n' : Node α) (hn : n.SameMusic n' ∧ ¬ gone n.handle) : n.id = n'.id := hn.1.id.symm
  have hframe : ((r' :: pages'.roots) ++ pages'.branches.roots).map Node.id =
      ((r :: pages.roots) ++ pages.branches.roots).map Node.id := by
    simp only [List.map_append, List.map_cons]
    rw [map_eq_of_forall₂ hid hpageroots, map_eq_of_forall₂ hid hsystemroots]
    cases hroot with
    | cons hr _ => rw [hid _ _ hr]
  have hids := hshape'.ids_perm.symm.trans (h.ids.trans hshape.ids_perm)
  rw [hframe] at hids
  exact (List.perm_append_left_iff _).1 hids

/-- A node of the score that is not taken out remains. -/
theorem exists_left (h : WithoutControls gone d d') {n : Node α} (hn : n ∈ d.score.toList)
    (hkept : ¬ gone n.handle) : ∃ n' ∈ d'.score.toList, n'.SameMusic n := by
  obtain hgone | ⟨n', hn', hsame, -⟩ := h.score.exists_left n hn
  · exact absurd hgone.2 hkept
  · exact ⟨n', hn', hsame⟩

end WithoutControls

/-- A control element of the score can be taken out. -/
theorem WellFormed.exists_detach (hd : d.WellFormed) {n : Node α} (hn : n ∈ d.score.toList)
    (ht : n.tag = .control) :
    ∃ d', d.detach n.handle = .ok d' ∧ WithoutControls (· = n.handle) d d' := by
  obtain ⟨r, pages, hshape⟩ := hd.exists_shape
  have hpages : n ∈ pages.toList := by
    rw [hshape.score, Forest.toList_tree, List.mem_cons] at hn
    refine hn.resolve_left fun heq => ?_
    rw [heq, hshape.root_tag] at ht
    cases ht
  have hmem : n ∈ d.trees.toList := hshape.mem hpages
  obtain ⟨below, htree⟩ := Forest.exists_hasTree hpages
  obtain rfl : below = .nil := hd.eq_nil_of_control (by rw [hshape.score]; exact .deeper _ htree) ht
  obtain ⟨pages', hwithout⟩ := htree.exists_without
  have hprune : d.trees.prune? (hasHandle n.handle) =
      some ((n, .nil), .cons r pages' d.trees.rest) := by
    have htrees : (Forest.cons r pages d.trees.rest) = d.trees := hshape.trees.symm
    have hdeeper := Forest.Without.deeper (c := r) d.trees.rest hwithout
    have h := hdeeper.prune?_eq Node.handle hshape.nodup
    rwa [htrees] at h
  obtain ⟨p, hp⟩ := Forest.exists_link_some r hpages
  have hlink : (some p, n) ∈ d.trees.links none := by
    rw [hshape.trees, Forest.links]
    exact List.mem_cons_of_mem _ (List.mem_append_left _ hp)
  have hpmem : p ∈ d.trees.toList := (Forest.mem_of_mem_links hlink).resolve_left (by simp)
  have hparent : d.parent? n.handle = some p.handle :=
    hd.parent?_eq_some_iff.2 ⟨p, n, hlink, rfl, rfl⟩
  have hchild : n.handle ∈ d.children p.handle :=
    List.mem_map_of_mem (hd.mem_childNodes_iff.2 ⟨p, hlink, rfl⟩)
  have hdetach : d.detach n.handle =
      .ok { (d.cut n.handle).markDirty p.handle with stage := .built } := by
    rw [Document.detach, if_neg (hshape.ne_root hpages), hd.node?_handle hmem, hparent]
    dsimp only
    rw [Document.remove, hd.node?_handle hmem, hd.node?_handle hpmem, if_neg (by simp),
      if_neg (by simp), if_neg (not_not.2 hchild)]
    rfl
  have hcut : (d.cut n.handle).trees = .cons r pages' (d.trees.rest ++ .tree n .nil) := by
    rw [Document.cut, hprune]
    rfl
  let mark : Node α → Node α := fun m => if hasHandle p.handle m then { m with dirty := true } else m
  have hmark (m : Node α) : (mark m).SameMusic m := by
    dsimp only [mark]
    split_ifs
    · exact ⟨rfl, rfl, rfl⟩
    · exact .refl m
  have htrees : ((d.cut n.handle).markDirty p.handle).trees =
      .cons (mark r) (pages'.map mark) ((d.trees.rest ++ .tree n .nil).map mark) := by
    rw [Document.markDirty, Document.modify, hcut]
    rfl
  have hkept : ∀ m ∈ pages'.toList, m.handle ≠ n.handle := by
    have hperm : (pages.toList.map Node.handle).Perm (n.handle :: pages'.toList.map Node.handle) :=
      hwithout.perm.map Node.handle
    have hnodup : (pages.toList.map Node.handle).Nodup := by
      refine hshape.nodup.sublist (List.Sublist.map _ ?_)
      rw [Forest.toList]
      exact (List.sublist_append_left ..).cons r
    exact fun m hm heq => (List.nodup_cons.1 (hperm.nodup_iff.1 hnodup)).1
      (heq ▸ List.mem_map_of_mem hm)
  refine ⟨_, hdetach, ⟨hd.detach hdetach, ?_, ?_⟩, ?_, fun _ => .inl rfl, fun hfree => ?_⟩
  · show (d.cut n.handle).definition = d.definition
    rw [Document.cut, hprune]
  · have hpadded : Forest.Padded (fun m => m.tag = .control ∧ m.handle = n.handle)
        (fun m m' => m.SameMusic m' ∧ m.handle ≠ n.handle) (pages'.map mark) pages := by
      have hmarked : Forest.Padded (fun _ : Node α => False) (fun m m' => m.SameMusic m' ∧
          m ∈ (pages'.map mark).toList ∧ m' ∈ pages'.toList) (pages'.map mark) pages' :=
        (Forest.Padded.of_forall₂ ((Forest.Forall₂.map_right _ fun m _ => (hmark m).symm).flip.mono
          fun _ _ h => h.symm)).mem.mono (fun _ h => h.1) fun _ _ h => h
      refine hmarked.trans hwithout.padded (fun _ _ _ h _ _ => h.elim) ?_ ?_
      · rintro m rfl
        exact ⟨ht, rfl⟩
      · rintro m m' _ ⟨hsame, -, hm'⟩ rfl
        exact ⟨hsame, hsame.handle ▸ hkept m' hm'⟩
    show Forest.Padded _ _ (((d.cut n.handle).markDirty p.handle).trees.first) d.score
    rw [htrees, hshape.score]
    refine .cons ⟨hmark r, fun heq => hshape.ne_root hpages ?_⟩ hpadded .nil
    rw [← heq, ← (hmark r).handle, hshape.root_handle]
  · show (((d.cut n.handle).markDirty p.handle).trees.toList.map Node.id).Perm d.ids
    refine List.Perm.trans (.of_eq ?_) ((toList_cut_perm n.handle).map Node.id)
    have hlist : ((d.cut n.handle).markDirty p.handle).trees.toList =
        (d.cut n.handle).trees.toList.map mark := by
      rw [htrees, hcut, ← Forest.toList_map]
      rfl
    rw [hlist, List.map_map]
    exact List.map_congr_left fun m _ => (hmark m).id.symm
  · show Unreserved ((d.cut n.handle).markDirty p.handle).trees.rest
    rw [htrees]
    intro m hm
    rw [Forest.rest, Forest.toList_map, List.mem_map] at hm
    obtain ⟨m, hm, rfl⟩ := hm
    rw [← (hmark m).id]
    rw [Forest.toList_append, List.mem_append, Forest.toList_tree, Forest.toList,
      List.mem_singleton] at hm
    rcases hm with hm | rfl
    · exact hfree m hm
    · obtain ⟨hpage, hsystem⟩ := hd.reserved m hmem
      rw [ht] at hpage hsystem
      exact ⟨fun h => (by cases hpage h), fun h => (by cases hsystem h)⟩

/-- Control elements of the score can be taken out one after another. -/
theorem WellFormed.exists_detachAll : {handles : List Handle} → {d : Document α} → d.WellFormed →
    handles.Nodup → (∀ i ∈ handles, ∃ n ∈ d.score.toList, n.handle = i ∧ n.tag = .control) →
      ∃ d', handles.foldlM Document.detach d = .ok d' ∧ WithoutControls (· ∈ handles) d d'
  | [], d, hd, _, _ => by
      refine ⟨d, rfl, ?_⟩
      simpa only [List.not_mem_nil] using WithoutControls.refl hd
  | i :: handles, d, hd, hnodup, hcontrols => by
      rw [List.nodup_cons] at hnodup
      rw [List.forall_mem_cons] at hcontrols
      obtain ⟨⟨n, hn, rfl, ht⟩, hlater⟩ := hcontrols
      obtain ⟨d₁, hdetach, hd₁⟩ := hd.exists_detach hn ht
      obtain ⟨d', hall, hd'⟩ := exists_detachAll hd₁.wellFormed hnodup.2 fun i hi => by
        obtain ⟨m, hm, rfl, hmt⟩ := hlater i hi
        obtain ⟨m', hm', hsame⟩ := hd₁.exists_left hm fun heq => hnodup.1 (heq ▸ hi)
        exact ⟨m', hm', hsame.handle.symm, hsame.tag.symm.trans hmt⟩
      refine ⟨d', ?_, ?_⟩
      · rw [List.foldlM_cons, hdetach]
        exact hall
      · simpa only [List.mem_cons] using hd₁.trans hd' hd

/-! ### Adding -/

/-- A document, and the same with a further control element in one of its trees. -/
structure GainsControl (h : Handle) (d d' : Document α) : Prop where
  definition : d'.definition = d.definition
  trees : Forest.Padded (fun n => n.tag = .control ∧ n.handle = h)
    (fun n n' => n' = { n with dirty := n'.dirty } ∧ n.handle ≠ h) d.trees d'.trees

/-- Adding a control element changes nothing else. -/
theorem WellFormed.gainsControl (hd : d.WellFormed) {parent h : Handle} {id : String}
    {c : Control α} (hok : d.addNamed parent id (.control c) = .ok (h, d')) : d.GainsControl h d' := by
  rw [Document.addNamed] at hok
  split at hok
  · cases hok
  split_ifs at hok
  obtain ⟨rfl, rfl⟩ := Prod.mk.inj (Except.ok.inj hok)
  refine ⟨d.allocate_definition, ?_⟩
  have hpadded := (Forest.padded_graft (hasHandle parent)
    (Node.new d.allocate.1 id (.control c)) d.trees).mem
  show Forest.Padded _ _ d.trees ((d.allocate.2.trees.graft (hasHandle parent)
    (.tree (.new d.allocate.1 id (.control c)) .nil)).modify (hasHandle parent) _)
  rw [allocate_trees, Forest.modify]
  refine hpadded.relabel (.refl fun _ _ => rfl) (Forest.Forall₂.map_right _ fun _ _ => rfl) ?_ ?_
  · rintro _ _ ⟨rfl, -⟩ rfl
    split_ifs <;> exact ⟨rfl, rfl⟩
  · rintro n _ _ _ ⟨rfl, hn, -⟩ rfl rfl
    refine ⟨by split_ifs <;> rfl, fun heq => hd.allocate_not_mem ?_⟩
    exact heq ▸ List.mem_map_of_mem hn

/-- What is added stands below its parent. -/
theorem WellFormed.exists_link_addNamed (hd : d.WellFormed) {parent child : Handle} {id : String}
    {kind : NodeKind α} (hok : d.addNamed parent id kind = .ok (child, d')) :
    ∃ p n, (some p, n) ∈ d'.trees.links none ∧ n.handle = child ∧
      (d.node? parent).map Node.tag = some p.tag := by
  rw [Document.addNamed] at hok
  split at hok
  · cases hok
  rename_i p hp
  split_ifs at hok
  obtain ⟨rfl, rfl⟩ := Prod.mk.inj (Except.ok.inj hok)
  obtain ⟨hmem, rfl⟩ := hd.node?_eq_some_iff.1 hp
  have hlink := (links_insertAs hd.nodup_handles hmem id kind).mem_iff.2 List.mem_cons_self
  let mark : Node α → Node α := fun n =>
    if hasHandle p.handle n then { n with dirty := true } else n
  refine ⟨mark p, mark (.new d.allocate.1 id kind), ?_, ?_, ?_⟩
  · show _ ∈ ((d.insertAs p.handle id kind).2.trees.map mark).links none
    rw [show (none : Option (Node α)) = none.map mark from rfl, Forest.links_map]
    exact List.mem_map_of_mem hlink
  · dsimp only [mark]
    split_ifs <;> rfl
  · rw [hp, Option.map_some]
    dsimp only [mark]
    split_ifs <;> rfl

namespace GainsControl

variable {i : Handle} (h : d.GainsControl i d') (hd : d.WellFormed) (hd' : d'.WellFormed)

include h hd hd'

omit [Scalar α] in
/-- Scores gain control elements in scores, and detached trees in detached trees. -/
theorem parts : Forest.Padded (fun n => n.tag = .control ∧ n.handle = i)
      (fun n n' => n' = { n with dirty := n'.dirty } ∧ n.handle ≠ i) d.score d'.score ∧
    Forest.Padded (fun n => n.tag = .control ∧ n.handle = i)
      (fun n n' => n' = { n with dirty := n'.dirty } ∧ n.handle ≠ i) d.trees.rest d'.trees.rest := by
  obtain ⟨r, below, detached, htrees, -⟩ := hd.root
  obtain ⟨r', below', detached', htrees', -, hr'⟩ := hd'.root
  have hpadded := h.trees
  rw [htrees, htrees'] at hpadded
  rw [score, score, htrees, htrees']
  cases hpadded with
  | cons hr hbelow hrest => exact ⟨.cons hr hbelow .nil, hrest⟩
  | leaf hr => exact absurd (hr'.symm.trans hr.1) (by decide)

/-- Without the control element that has been added, a document is what it has been. -/
theorem lacksControls : LacksControls (· = i) d' d where
  wellFormed := hd
  definition := h.definition.symm
  score := (h.parts hd hd').1.mono (fun _ hn => hn) fun n n' hn => by
    obtain ⟨heq, hne⟩ := hn
    exact ⟨⟨by rw [heq], by rw [heq], by rw [heq]⟩, hne⟩

omit [Scalar α] in
/-- A control element that is added has no identifier that is kept for the unbroken content. -/
theorem unreserved (hfree : Unreserved d.trees.rest) : Unreserved d'.trees.rest := by
  intro n' hn'
  obtain hgained | ⟨n, hn, heq, -⟩ := (h.parts hd hd').2.exists_left n' hn'
  · have hmem : n' ∈ d'.trees.toList := by
      rw [← first_append_rest d'.trees, Forest.toList_append]
      exact List.mem_append_right _ hn'
    obtain ⟨hpage, hsystem⟩ := hd'.reserved n' hmem
    rw [hgained.1] at hpage hsystem
    exact ⟨fun h => (by cases hpage h), fun h => (by cases hsystem h)⟩
  · rw [heq]
    exact hfree n hn

end GainsControl

end Document

end ScoreLayout
