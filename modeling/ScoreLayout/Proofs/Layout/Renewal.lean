import ScoreLayout.Proofs.EditedStages
import ScoreLayout.Proofs.Layout.SystemStaves
import ScoreLayout.Proofs.UnbrokenContent

/-!
# What the passes mark as edited

A node that the layout makes is marked as edited, like one that a caller adds, and so is a node whose
children a caller changes. Nothing but the preparation of a layout takes the mark away. Behind it the
passes leave the mark on all nodes as it is, take some pages and systems out, and make other ones.

This holds whatever identifiers a caller has chosen.

## Main definitions

* `Node.KeepsMark` — two states of one node with one mark.
* `Document.Renews` — a document that has been taken over, but for some nodes, and got new pages and
  systems.

## Main results

* `Document.Addressed.renews_breakSystems` — no page or system of the document before stays, but for
  the page of the unbroken content.
* `Document.Addressed.new_or_kept_of_breakPages` — which then goes too.
* `Document.Addressed.renews_run` — every pass that comes behind the preparation.
-/

namespace ScoreLayout

variable {α : Type}

/-- Two states of one node, which is marked as edited in both or in neither. -/
structure Node.KeepsMark (n n' : Node α) : Prop where
  handle : n'.handle = n.handle
  id : n'.id = n.id
  tag : n'.tag = n.tag
  dirty : n'.dirty = n.dirty

namespace Node.KeepsMark

variable {a b c : Node α}

theorem refl (n : Node α) : n.KeepsMark n := ⟨rfl, rfl, rfl, rfl⟩

theorem trans (h : a.KeepsMark b) (h' : b.KeepsMark c) : a.KeepsMark c :=
  ⟨h'.handle.trans h.handle, h'.id.trans h.id, h'.tag.trans h.tag, h'.dirty.trans h.dirty⟩

theorem mapKind {n : Node α} {f : NodeKind α → NodeKind α} (h : (f n.kind).tag = n.kind.tag) :
    n.KeepsMark (n.mapKind f) := ⟨rfl, rfl, h, rfl⟩

theorem of_sameMusic [Scalar α] (h : a.SameMusic b) (hdirty : b.dirty = a.dirty) : a.KeepsMark b :=
  ⟨h.handle, h.id, h.tag, hdirty⟩

end Node.KeepsMark

/-- A page or a system that is marked as edited. -/
def Node.IsNewFrame (n : Node α) : Prop := n.dirty ∧ (n.tag = .page ∨ n.tag = .system)

theorem Node.IsNewFrame.of_keepsMark {n n' : Node α} (h : n.IsNewFrame) (hn : n.KeepsMark n') :
    n'.IsNewFrame := by
  rw [IsNewFrame, hn.dirty, hn.tag]
  exact h

theorem NodeKind.tag_mapMeasure (k : NodeKind α) (f : Measure α → Measure α) :
    (NodeKind.mapMeasure f k).tag = k.tag := by cases k <;> rfl

section Alignment

variable [Scalar α]

/-! ### Alignment -/

namespace AlignState

variable (c : AlignContext α) (s : AlignState α) (n : Node α)

theorem dirty_enter (parent : Option (Node α)) : (s.enter c parent n).2.1.dirty = n.dirty := by
  rw [enter]
  split
  case h_7 m hm =>
    simp only [enterMeasure]
    split <;> rfl
  case h_10 e _ =>
    split
    · obtain ⟨box, layout, heq, -⟩ := writes_enterElement c (s.reach e) n parent e
      exact show ((s.reach e).enterElement c parent n e).2.dirty = n.dirty by rw [heq]
    · rfl
  all_goals rfl

theorem keepsMark_leave (below : Forest (Node α)) : n.KeepsMark (s.leave c n below).2.1 ∧
    Forest.Forall₂ Node.KeepsMark below (s.leave c n below).2.2.1 := by
  have hwrites {m m' : Node α} (h : Writes m m') : m.KeepsMark m' := by
    obtain ⟨box, layout, rfl, -⟩ := h
    exact ⟨rfl, rfl, rfl, rfl⟩
  have hstay (f : Forest (Node α)) : Forest.Forall₂ Node.KeepsMark f f := .refl fun m _ => .refl m
  rw [leave]
  split
  case h_1 m hm =>
    have hbelow := (writes_placeControls s.signatures.meter.beatDuration
      (s.grids.headD m.grid).maxTime s below).mono fun _ _ => hwrites
    simp only [leaveMeasure]
    split
    · exact ⟨⟨rfl, rfl, by rw [Node.tag, Node.tag, hm]; rfl, rfl⟩, hbelow⟩
    · exact ⟨.refl n, hbelow⟩
  case h_2 => exact ⟨.refl n, hstay below⟩
  case h_3 e _ => exact ⟨hwrites (writes_leaveElement s n e), hstay below⟩
  case h_4 => exact ⟨.refl n, hstay below⟩

end AlignState

end Alignment

namespace Document

/-- A document that has the nodes of another one, but for some handles, and new pages and systems. -/
def Renews (gone : List Handle) (d d' : Document α) : Prop :=
  ∀ n' ∈ d'.trees.toList, n'.IsNewFrame ∨ ∃ n ∈ d.trees.toList, n.handle ∉ gone ∧ n.KeepsMark n'

namespace Renews

variable {d d₁ d₂ : Document α} {gone gone' : List Handle}

theorem of_subset (h : d₁.trees.toList ⊆ d.trees.toList) : Renews [] d d₁ := fun n hn =>
  .inr ⟨n, h hn, List.not_mem_nil, .refl n⟩

theorem refl (d : Document α) : Renews [] d d := of_subset (List.Subset.refl _)

theorem trans (h : Renews gone d d₁) (h' : Renews gone' d₁ d₂) : Renews (gone ++ gone') d d₂ := by
  intro n₂ hn₂
  obtain hnew | ⟨n₁, hn₁, hgone', hkeeps'⟩ := h' n₂ hn₂
  · exact .inl hnew
  · obtain hnew | ⟨n, hn, hgone, hkeeps⟩ := h n₁ hn₁
    · exact .inl (hnew.of_keepsMark hkeeps')
    · refine .inr ⟨n, hn, ?_, hkeeps.trans hkeeps'⟩
      rw [hkeeps.handle] at hgone'
      rw [List.mem_append]
      exact not_or.2 ⟨hgone, hgone'⟩

theorem mono (h : Renews gone d d₁) (hsub : gone' ⊆ gone) : Renews gone' d d₁ := fun n hn =>
  (h n hn).imp_right fun ⟨m, hm, hgone, hkeeps⟩ => ⟨m, hm, fun hmem => hgone (hsub hmem), hkeeps⟩

theorem of_forall₂ (h : Forest.Forall₂ Node.KeepsMark d.trees d₁.trees) : Renews [] d d₁ := by
  intro n' hn'
  obtain ⟨n, hn, hkeeps⟩ := exists_mem_of_forall₂ h.toList hn'
  exact .inr ⟨n, hn, List.not_mem_nil, hkeeps⟩

theorem withScore {score : Forest (Node α)} (h : Forest.Forall₂ Node.KeepsMark d.score score) :
    Renews [] d (d.withScore score) := by
  refine of_forall₂ ?_
  have htrees := h.append (.refl (f := d.trees.rest) fun n _ => Node.KeepsMark.refl n)
  rwa [Document.score, first_append_rest] at htrees

theorem modify {h : Handle} {f : Node α → Node α}
    (hf : ∀ n ∈ d.trees.toList, n.handle = h → n.KeepsMark (f n)) : Renews [] d (d.modify h f) :=
  of_forall₂ (forall₂_modify Node.KeepsMark.refl d h hf)

theorem mapKind (d : Document α) (h : Handle) {f : NodeKind α → NodeKind α}
    (hf : ∀ k, (f k).tag = k.tag) : Renews [] d (d.modify h fun n => n.mapKind f) :=
  modify fun n _ _ => .mapKind (hf n.kind)

end Renews

variable [Scalar α]

namespace Addressed

variable {kept : List (Node α)} {d d' : Document α} (hd : d.Addressed kept)

include hd

/-! ### Edits -/

theorem renews_insert (parent : Handle) (base : String) {kind : NodeKind α}
    (hkind : kind.tag = .page ∨ kind.tag = .system) : Renews [] d (d.insert parent base kind).2 := by
  have hsub : (d.trees.graft (hasHandle parent)
      (.tree (.new d.allocate.1 (d.suffixedId base) kind) .nil)).toList.Subperm
        (.new d.allocate.1 (d.suffixedId base) kind :: d.trees.toList) :=
    toList_graft_subperm hd.nodup_handles _
  intro n hn
  rw [insert_eq, Document.insertAs, attach, allocate_trees] at hn
  obtain rfl | hn := List.mem_cons.1 (hsub.subset hn)
  · exact .inl ⟨rfl, hkind⟩
  · exact .inr ⟨n, hn, List.not_mem_nil, .refl n⟩

theorem renews_contentSystem : Renews [] d d.contentSystem.2 := by
  rw [contentSystem_eq]
  split
  · exact .refl d
  · have hpage : Renews [] d d.contentPage.2 := by
      rw [Document.contentPage]
      split
      · exact .refl d
      · exact hd.renews_insert _ _ (.inl rfl)
    exact hpage.trans (hd.contentPage.renews_insert _ _ (.inr rfl))

omit [Scalar α] in
theorem renews_destroy (h : Handle) : Renews [h] d (d.destroy h) := by
  rw [Document.destroy]
  split
  · rename_i n below g hp
    obtain ⟨rfl, hperm, -⟩ := toList_prune?_perm hp
    have hnodup := (hperm.map Node.handle).nodup_iff.1 hd.nodup_handles
    rw [List.map_cons, List.nodup_cons] at hnodup
    intro m hm
    rw [release, Forest.toList_append, List.mem_append] at hm
    have hmem : m ∈ below.toList ++ g.toList := List.mem_append.2 hm.symm
    refine .inr ⟨m, hperm.mem_iff.2 (List.mem_cons_of_mem n hmem), ?_, .refl m⟩
    rw [List.mem_singleton]
    intro hh
    exact hnodup.1 (hh ▸ List.mem_map_of_mem hmem)
  · rename_i hp
    intro m hm
    refine .inr ⟨m, hm, fun hh => ?_, .refl m⟩
    obtain ⟨c, below, g, hprune⟩ := Forest.exists_prune? hm
      (show hasHandle h m by simpa [hasHandle] using hh)
    rw [hp] at hprune
    cases hprune

omit [Scalar α] hd in
theorem renews_destroyAll : {nodes : List Handle} → (∀ h ∈ nodes, Loose kept h) →
    {d : Document α} → d.Addressed kept → Renews nodes d (nodes.foldl Document.destroy d)
  | [], _, d, _ => .refl d
  | h :: _, hh, _, hd =>
      (hd.renews_destroy h).trans (renews_destroyAll
        (fun h' hmem => hh h' (List.mem_cons_of_mem h hmem)) (hd.destroy (hh h List.mem_cons_self)))

omit [Scalar α] in
theorem renews_reparent? {h parent : Handle} (hok : d.reparent? h parent = .ok d') :
    Renews [] d d' := by
  obtain ⟨n, p, moved, below, g, -, -, -, hprune, rfl⟩ := WellFormed.exists_of_reparent? hok
  obtain ⟨rfl, hperm, -⟩ := toList_prune?_perm hprune
  have hg : (g.toList.map Node.handle).Nodup := by
    have hnodup := (hperm.map Node.handle).nodup_iff.1 hd.nodup_handles
    rw [List.map_cons, List.nodup_cons, List.map_append, List.nodup_append] at hnodup
    exact hnodup.2.2.1
  refine .of_subset fun m hm => hperm.mem_iff.2 ?_
  have hsubperm : (g.graft (hasHandle parent) (.tree moved below)).toList.Subperm _ :=
    toList_graft_subperm hg (.tree moved below)
  have hmem := hsubperm.subset hm
  rwa [Forest.toList_tree, List.cons_append] at hmem

omit [Scalar α] hd in
theorem renews_reparentAll? {parent : Handle} : {nodes : List Handle} → {d : Document α} →
    d.Addressed kept → (∀ h ∈ nodes, Loose kept h) → d.reparentAll? nodes parent = .ok d' →
      Renews [] d d'
  | [], d, _, _, hok => Except.ok.inj hok ▸ .refl d
  | h :: nodes, d, hd, hnodes, hok => by
      rw [List.forall_mem_cons] at hnodes
      rw [Document.reparentAll?, List.foldlM_cons, except_bind_eq_ok] at hok
      obtain ⟨d₁, h₁, hok⟩ := hok
      exact (hd.renews_reparent? h₁).trans
        (renews_reparentAll? (hd.reparent? hnodes.1 h₁) hnodes.2 hok)

/-! ### Systems -/

/-- Unbreaking takes all pages and systems out, unless the content is unbroken already. -/
theorem renews_unbreak? (hok : d.unbreak? = .ok d') :
    Renews (if d.isUnbroken then [] else d.systems.map Node.handle ++ d.pages.map Node.handle)
      d d' := by
  rw [Document.unbreak?] at hok
  split_ifs at hok ⊢
  · exact Except.ok.inj hok ▸ .refl d
  · have hpages : ∀ h ∈ d.pages.map Node.handle, Loose kept h :=
      fun h hmem => hd.loose_of_mem_children hd.apart hmem
    have hsystems : ∀ h ∈ d.systems.map Node.handle, Loose kept h := by
      intro h hmem
      obtain ⟨n, hn, rfl⟩ := List.mem_map.1 hmem
      obtain ⟨p, hp, hn⟩ := List.mem_flatMap.1 hn
      exact hd.loose_of_mem_children (hpages _ (List.mem_map_of_mem hp)).not_kept
        (List.mem_map_of_mem hn)
    have hd₁ := destroyAll hsystems hd
    have hd₂ := destroyAll hpages hd₁
    have hmoved := renews_reparentAll? hd₂.contentSystem (fun h hmem => ?_) hok
    · exact ((((renews_destroyAll hsystems hd).trans (renews_destroyAll hpages hd₁)).trans
        hd₂.renews_contentSystem).trans hmoved).mono (by simp)
    · obtain ⟨s, hs, hmem⟩ := List.mem_flatMap.1 hmem
      exact hd.loose_of_mem_children (hsystems _ hs).not_kept hmem

omit [Scalar α] hd in
theorem renews_placeMeasures [Scalar α] : (x : α) → (nodes : List Handle) → (d : Document α) →
    Renews [] d (d.placeMeasures x nodes)
  | _, [], d => .refl d
  | x, h :: nodes, d => by
      rw [placeMeasures]
      split
      · exact (Renews.mapKind d h fun k => k.tag_mapMeasure _).trans (renews_placeMeasures _ nodes _)
      · exact renews_placeMeasures x nodes d

theorem renews_emitSystem {page : Handle} {k : Nat} {overflow : Bool} {p : SystemPlan α}
    (hnodes : ∀ h ∈ p.nodes, Loose kept h)
    (hok : d.emitSystem page k overflow p = .ok d') : Renews [] d d' := by
  rw [Document.emitSystem] at hok
  dsimp only at hok
  obtain ⟨d₁, h₁, hok⟩ := except_bind_eq_ok.1 hok
  have hmoved := renews_reparentAll? (hd.insert _ _ (by simp [NodeKind.tag])) hnodes h₁
  rw [← Except.ok.inj hok]
  exact ((hd.renews_insert _ _ (.inr rfl)).trans hmoved).trans (renews_placeMeasures 0 p.nodes d₁)

omit hd in
theorem renews_emitSystems {r : BreakRules α} {page : Handle} : {plans : List (SystemPlan α)} →
    {k : Nat} → {marks marks' : List Mark} → {d d' : Document α} → d.Addressed kept →
    (∀ h ∈ plans.flatMap SystemPlan.nodes, Loose kept h) →
      Document.emitSystems r page k marks d plans = .ok (marks', d') → Renews [] d d'
  | [], _, _, _, d, _, _, _, hok => by
      rw [Document.emitSystems, Except.ok.injEq, Prod.mk.injEq] at hok
      exact hok.2 ▸ .refl d
  | p :: plans, k, marks, _, d, _, hd, hnodes, hok => by
      rw [List.flatMap_cons, List.forall_mem_append] at hnodes
      rw [Document.emitSystems] at hok
      split at hok
      · exact renews_emitSystems hd hnodes.2 hok
      · obtain ⟨d₁, h₁, hok⟩ := except_bind_eq_ok.1 hok
        exact (hd.renews_emitSystem hnodes.1 h₁).trans
          (renews_emitSystems (hd.emitSystem hnodes.1 h₁) hnodes.2 hok)

omit [Scalar α] in
/-- The system of content that is unbroken. -/
theorem systems_of_isUnbroken (h : d.isUnbroken) : ∃ page system, d.pages = [page] ∧
    d.systems = [system] ∧ page.id = contentPageId ∧ system.id = contentSystemId ∧
      system ∈ d.score.toList := by
  rw [isUnbroken] at h
  split at h
  · rename_i page system hpages hsystems
    obtain ⟨hpage, hsystem⟩ := of_decide_eq_true h
    refine ⟨page, system, hpages, hsystems, hpage, hsystem, ?_⟩
    obtain ⟨p, hp, hmem⟩ := List.mem_flatMap.1 (hsystems ▸ List.mem_singleton_self system :
      system ∈ d.systems)
    obtain ⟨r, hr, hroot⟩ := hd.exists_root_score
    have hlive := isLive_of_mem_childNodes
      (isLive_of_mem_childNodes ((isLive_iff d Document.root).2 ⟨r, hr, hroot⟩) hp) hmem
    obtain ⟨s, hs, hsh⟩ := (isLive_iff d system.handle).1 hlive
    rw [childNodes_eq_of_nodup hd.nodup_handles] at hmem
    obtain ⟨l, hl, rfl⟩ := List.mem_map.1 hmem
    rwa [← List.inj_on_of_nodup_map hd.nodup_handles ((score_sublist d).subset hs)
      (Forest.mem_toList_of_mem_links (List.mem_of_mem_filter hl)) hsh]
  · cases h

end Addressed

/-- The systems of a document, and its pages but for the one of unbroken content. -/
def frames (d : Document α) : List Handle :=
  d.systems.map Node.handle ++ (d.pages.filter fun n => n.id ≠ contentPageId).map Node.handle

namespace Addressed

variable {kept : List (Node α)} {d d' : Document α} (hd : d.Addressed kept)

include hd

/-- Breaking content into systems leaves no system as it was, and no page but the one of unbroken
content. -/
theorem renews_breakContent {options : LayoutOptions α} {metrics : GlyphMetrics α}
    {marks : List Mark} (hok : d.breakContent options metrics = .ok (marks, d')) :
    Renews d.frames d d' := by
  rw [Document.breakContent] at hok
  obtain ⟨d₁, h₁, hok⟩ := except_bind_eq_ok.1 hok
  have hd₁ := hd.unbreak? h₁
  have hunbreak := (hd.renews_unbreak? h₁).trans hd₁.renews_contentSystem
  have hd₂ := hd₁.contentSystem
  have hloose := hd₁.loose_contentSystem
  have hcontent : d.isUnbroken → d.systems.map Node.handle = [d₁.contentSystem.1] ∧
      (d.pages.filter fun n => n.id ≠ contentPageId) = [] := by
    intro hunbroken
    rw [Document.unbreak?, if_pos hunbroken, Except.ok.injEq] at h₁
    obtain ⟨page, system, hpages, hsystems, hpage, hsystem, hmem⟩ :=
      hd.systems_of_isUnbroken hunbroken
    rw [hpages, hsystems, ← h₁]
    refine ⟨?_, by simp [hpage]⟩
    obtain ⟨s, hs, hid, heq⟩ | ⟨hnone, -⟩ := hd.contentSystem_cases
    · rw [heq, List.map_singleton, List.inj_on_of_nodup_map hd.ids ((score_sublist d).subset hs)
        ((score_sublist d).subset hmem) (hid.trans hsystem.symm)]
    · exact absurd hsystem (hnone system hmem)
  generalize d₁.contentSystem = target at hok hd₂ hloose hunbreak hcontent
  obtain ⟨content, d₂⟩ := target
  dsimp only at hok hd₂ hloose hunbreak hcontent
  obtain ⟨⟨marks₁, d₃⟩, h₃, hok⟩ := except_bind_eq_ok.1 hok
  have hnodes : ∀ h ∈ (planSystems options.breakRules ((d₂.childNodes content).map
      (BreakItem.ofNode d₂.definition metrics options.scaledUnit))).flatMap SystemPlan.nodes,
        Loose kept h := fun h hmem => by
    rw [flatMap_nodes_planSystems, List.map_map] at hmem
    refine hd₂.loose_of_mem_children hloose.not_kept ?_
    rwa [children, ← List.map_congr_left fun m _ =>
      BreakItem.handle_ofNode d₂.definition metrics options.scaledUnit m]
  have hd₃ := emitSystems hd₂ hnodes h₃
  rw [← (Prod.mk.inj (Except.ok.inj hok)).2]
  refine ((hunbreak.trans (renews_emitSystems hd₂ hnodes h₃)).trans
    (hd₃.renews_destroy content)).mono fun h hh => ?_
  rw [frames] at hh
  split_ifs with hunbroken
  · rw [(hcontent hunbroken).1, (hcontent hunbroken).2] at hh
    simpa using hh
  · rw [List.append_assoc, List.append_assoc, List.mem_append, List.mem_append]
    refine .inl ((List.mem_append.1 hh).imp_right fun h => ?_)
    obtain ⟨n, hn, rfl⟩ := List.mem_map.1 h
    exact List.mem_map_of_mem (List.mem_of_mem_filter hn)

theorem renews_breakSystems {options : LayoutOptions α} {metrics : GlyphMetrics α}
    (hok : (d.breakSystems options metrics).fault = none) :
    Renews d.frames d (d.breakSystems options metrics).document := by
  rw [Document.breakSystems, Outcome.guarded] at hok ⊢
  split at hok
  · cases hok
  · cases hbroken : d.breakContent options metrics with
    | ok r => exact hd.renews_breakContent hbroken
    | error f =>
      rw [hbroken] at hok
      cases hok

/-! ### Pages -/

omit [Scalar α] hd in
theorem renews_placeSystems : (systems : List (Handle × α)) → (d : Document α) →
    Renews [] d (d.placeSystems systems)
  | [], d => .refl d
  | (h, _) :: systems, d =>
      (Renews.mapKind d h fun k => k.tag_mapSystem _).trans (renews_placeSystems systems _)

theorem renews_emitPage {k : Nat} {p : PagePlan α} (hnodes : ∀ h ∈ p.nodes, Loose kept h)
    (hok : d.emitPage k p = .ok d') : Renews [] d d' := by
  obtain ⟨ht, hc, hf⟩ := forall₂_placeSystems p.systems d
  have hplaced := (SameAddresses.mk (ht.mono fun _ _ => .of_sameMusic) hc hf).addressed hd
  exact ((renews_placeSystems p.systems d).trans (hplaced.renews_insert _ _ (.inl rfl))).trans
    (renews_reparentAll? (hplaced.insert _ _ (by simp [NodeKind.tag])) hnodes hok)

omit hd in
theorem renews_emitPages : {plans : List (PagePlan α)} → {k : Nat} → {d d' : Document α} →
    d.Addressed kept → (∀ h ∈ plans.flatMap PagePlan.nodes, Loose kept h) →
      Document.emitPages k d plans = .ok d' → Renews [] d d'
  | [], _, d, _, _, _, hok => Except.ok.inj hok ▸ .refl d
  | p :: plans, k, d, _, hd, hnodes, hok => by
      rw [List.flatMap_cons, List.forall_mem_append] at hnodes
      rw [Document.emitPages] at hok
      obtain ⟨d₁, h₁, hok⟩ := except_bind_eq_ok.1 hok
      exact (hd.renews_emitPage hnodes.1 h₁).trans
        (renews_emitPages (hd.emitPage hnodes.1 h₁) hnodes.2 hok)

/-- Behind the breaking into pages the score has no page of unbroken content that has been there
before. -/
theorem new_or_kept_of_breakPages {options : LayoutOptions α}
    (hok : (d.breakPages options).fault = none) :
    Renews [] d (d.breakPages options).document ∧
      ∀ n ∈ (d.breakPages options).document.score.toList,
        n.IsNewFrame ∨ n.id ≠ contentPageId := by
  rw [Document.breakPages, Outcome.guarded] at hok ⊢
  split at hok
  · cases hok
  · cases hf : d.findLive? contentPageId with
    | none =>
      refine ⟨.of_subset (List.Subset.refl _), fun n hn => .inr fun hid => ?_⟩
      have hsome := hd.isSome_findLive?_iff.2 ⟨n, hn, hid⟩
      rw [hf] at hsome
      cases hsome
    | some content =>
      rw [hf] at hok
      dsimp only at hok ⊢
      rw [paginate] at hok ⊢
      dsimp only at hok ⊢
      generalize hres : (Document.emitPages 1 d _ >>= fun d => _ : Except Fault (Document α)) = res
        at hok ⊢
      cases res with
      | error f => cases hok
      | ok d' =>
        obtain ⟨d₁, h₁, hmade⟩ := except_bind_eq_ok.1 hres
        have hloose := hd.loose_of_findLive? (.inl rfl) hf
        have hnodes : ∀ h ∈ (planPages options.pageRules
            ((d.childNodes content).map d.systemItem)).flatMap PagePlan.nodes, Loose kept h := by
          intro h hmem
          rw [flatMap_systems_planPages, List.map_map] at hmem
          exact hd.loose_of_mem_children hloose.not_kept hmem
        have hrenews := (renews_emitPages hd hnodes h₁).trans
          ((emitPages hd hnodes h₁).renews_destroy content)
        rw [Outcome.ofExcept, Outcome.done, ← Except.ok.inj hmade]
        refine ⟨hrenews.mono (List.nil_subset _), fun n hn => ?_⟩
        refine (hrenews n ((score_sublist _).subset hn)).imp_right ?_
        rintro ⟨m, hm, hgone, hkeeps⟩ hid
        obtain ⟨p, hp, hpid, hph⟩ := hd.exists_of_findLive? hf
        refine hgone (List.mem_singleton.2 ?_)
        rw [← hph, List.inj_on_of_nodup_map hd.ids hm ((score_sublist d).subset hp)
          (hkeeps.id.symm.trans (hid.trans hpid.symm))]

/-! ### Passes that keep the trees -/

omit hd in
theorem renews_align (d : Document α) (metrics : GlyphMetrics α) (unit : α) :
    Renews [] d (d.align metrics unit).document := by
  have hrun := Forest.forall₂_run Node.KeepsMark.refl (fun _ _ _ => Node.KeepsMark.trans)
    (p := alignPass ⟨metrics, unit, d⟩)
    (fun s parent n => .of_sameMusic (AlignState.keeps_enter _ s n parent).toSameMusic
      (AlignState.dirty_enter _ s n parent))
    (fun s _ n below => AlignState.keepsMark_leave _ s n below) (.start d.definition) d.score
  rw [Document.align, Outcome.guarded]
  split
  · exact .refl d
  · rw [fillGrids]
    dsimp only
    have hscore := Renews.withScore (hrun.trans (Forest.Forall₂.map_right
      (AlignState.applyGraceSlots ((d.score.run (alignPass ⟨metrics, unit, d⟩)
        (.start d.definition)).1.graceSlots)) fun n _ => ?_) fun _ _ _ => Node.KeepsMark.trans)
    · split <;> exact hscore
    · rw [AlignState.applyGraceSlots]
      split <;> exact ⟨rfl, rfl, rfl, rfl⟩

omit hd in
theorem renews_space (d : Document α) (options : LayoutOptions α) :
    Renews [] d (d.space options).document := by
  have hrun := Forest.forall₂_run Node.KeepsMark.refl (fun _ _ _ => Node.KeepsMark.trans)
    (p := spacingPass (options.spacing d.longest)) (fun fault parent n => ?_)
    (fun _ _ n below => ⟨.refl n, .refl fun m _ => .refl m⟩) none d.score
  · rw [Document.space, Outcome.guarded]
    split
    · exact .refl d
    · dsimp only
      split <;> exact Renews.withScore hrun
  · rw [spacingPass]
    dsimp only
    split
    · rename_i m hm
      split
      · exact ⟨rfl, rfl, by rw [Node.tag, Node.tag, hm]; rfl, rfl⟩
      · exact .refl n
    · exact .refl n

omit hd in
theorem renews_stackStaves (d : Document α) (options : LayoutOptions α) (metrics : GlyphMetrics α) :
    Renews [] d (d.stackStaves options metrics).document := by
  have hrun (c : StackingContext α) := Forest.forall₂_run Node.KeepsMark.refl
    (fun _ _ _ => Node.KeepsMark.trans) (p := stackingPass c) (fun s parent n => ?_)
    (fun s _ n below => ?_) .start d.score
  · rw [Document.stackStaves, Outcome.guarded]
    split
    · exact .refl d
    · dsimp only
      split <;> exact Renews.withScore (hrun _)
  · rw [stackingPass]
    dsimp only
    split
    all_goals exact .refl n
  · rw [stackingPass]
    dsimp only
    split
    · refine ⟨?_, .refl fun m _ => .refl m⟩
      simp only [Stacking.leaveSystem]
      split
      · exact .mapKind (NodeKind.tag_mapSystem ..)
      · exact .refl n
    · exact ⟨.refl n, .refl fun m _ => .refl m⟩

omit [Scalar α] in
/-- What is found as a measure of a system is one. -/
theorem tag_of_mem_measuresOf {system : Handle} {p : Handle × Measure α}
    (hp : p ∈ d.measuresOf system) : ∀ n ∈ d.trees.toList, n.handle = p.1 → n.tag = .measure := by
  obtain ⟨n, hn, heq⟩ := List.mem_filterMap.1 hp
  obtain ⟨m, hm, rfl⟩ := Option.map_eq_some_iff.1 heq
  intro n' hn' hh
  rw [childNodes_eq_of_nodup hd.nodup_handles] at hn
  obtain ⟨l, hl, rfl⟩ := List.mem_map.1 hn
  rw [List.inj_on_of_nodup_map hd.nodup_handles hn'
    (Forest.mem_toList_of_mem_links (List.mem_of_mem_filter hl)) hh, Node.tag]
  cases hk : l.2.kind <;> rw [hk] at hm <;> first | rfl | cases hm

omit hd in
theorem renews_fillMeasures : {measures : List (Handle × Measure α)} → {x x' : α} →
    {gaps : List (Gap α)} → {d d' : Document α} →
    (∀ p ∈ measures, ∀ n ∈ d.trees.toList, n.handle = p.1 → n.tag = .measure) →
      d.fillMeasures x gaps measures = .ok (x', d') → Renews [] d d'
  | [], _, _, _, d, _, _, hok => by
      rw [fillMeasures, Except.ok.injEq, Prod.mk.injEq] at hok
      exact hok.2 ▸ .refl d
  | (h, m) :: measures, x, _, gaps, d, _, htag, hok => by
      rw [List.forall_mem_cons] at htag
      rw [fillMeasures] at hok
      dsimp only at hok
      split at hok
      · rename_i grid _
        have hstep := forall₂_modify Node.KeepsMark.refl d h
          (f := fun n => { n with kind := .measure { m with grid, x } }) fun n hn hh =>
            ⟨rfl, rfl, (htag.1 n hn hh).symm, rfl⟩
        refine (Renews.of_forall₂ hstep).trans (renews_fillMeasures (fun p hp n' hn' hh => ?_) hok)
        obtain ⟨n, hn, hkeeps⟩ := exists_mem_of_forall₂ hstep.toList hn'
        exact hkeeps.tag.trans (htag.2 p hp n hn (hkeeps.handle.symm.trans hh))
      · cases hok

theorem renews_fillSystem {options : LayoutOptions α} {available : α} {isLast : Bool} {n : Node α}
    (hok : d.fillSystem options available isLast n = .ok d') : Renews [] d d' := by
  rw [fillSystem] at hok
  split at hok
  · exact Except.ok.inj hok ▸ .refl d
  dsimp only at hok
  split_ifs at hok
  · exact Except.ok.inj hok ▸ .refl d
  · exact Except.ok.inj hok ▸ .refl d
  · obtain ⟨r, hr, hok⟩ := except_bind_eq_ok.1 hok
    rw [← Except.ok.inj hok]
    exact (renews_fillMeasures (fun p hp => hd.tag_of_mem_measuresOf hp) hr).trans
      (Renews.mapKind _ _ fun k => k.tag_mapSystem _)

omit hd in
theorem renews_fillSystems {options : LayoutOptions α} {available : α} : {systems : List (Node α)} →
    {d d' : Document α} → d.Addressed kept → d.fillSystems options available systems = .ok d' →
      Renews [] d d'
  | [], d, _, _, hok => Except.ok.inj hok ▸ .refl d
  | n :: systems, d, _, hd, hok => by
      obtain ⟨d₁, h₁, hok⟩ := except_bind_eq_ok.1 hok
      exact (hd.renews_fillSystem h₁).trans
        (renews_fillSystems ((hd.sameAddresses_fillSystem h₁).addressed hd) hok)

theorem renews_fillLines (options : LayoutOptions α) :
    Renews [] d (d.fillLines options).document := by
  rw [Document.fillLines, Outcome.guarded]
  split
  · exact .refl d
  split
  · exact .refl d
  split_ifs
  · cases hok : d.fillSystems options _ d.systems with
    | ok d' => exact renews_fillSystems hd hok
    | error f => exact .refl d
  · exact .refl d

omit hd in
theorem renews_fillPages (d : Document α) (options : LayoutOptions α) :
    Renews [] d (d.fillPages options).document :=
  fillPages_induction (P := Renews [] d) (.refl d)
    (fun _ _ _ _ _ _ _ h => h.trans (Renews.mapKind _ _ fun k => k.tag_mapSystem _))
    (fun _ _ _ h => h.trans (Renews.mapKind _ _ fun k => k.tag_mapPage _))
    fun _ _ h => h

theorem renews_place (options : LayoutOptions α) (metrics : GlyphMetrics α) :
    Renews [] d (d.place options metrics).document := by
  obtain ⟨score, stage, hboxed, heq⟩ := hd.rooted.exists_place hd.nodup_handles options metrics
  rw [heq]
  exact Renews.withScore (hboxed.mono fun _ _ h => .of_sameMusic h.sameMusic h.dirty)

/-- The passes behind the preparation leave all marks alone, but for the frames that they make. -/
theorem renews_run (e : Engine α) {pass : LayoutPass} (hpass : pass ≠ .prepare)
    (hok : (e.run d pass).fault = none) :
    Renews (if pass = .breakSystems then d.frames else []) d (e.run d pass).document := by
  cases pass with
  | prepare => exact absurd rfl hpass
  | align => exact renews_align d e.metrics e.options.scaledUnit
  | space => exact renews_space d e.options
  | breakSystems => exact hd.renews_breakSystems hok
  | stackStaves => exact renews_stackStaves d e.options e.metrics
  | breakPages => exact (hd.new_or_kept_of_breakPages hok).1
  | fillLines => exact hd.renews_fillLines e.options
  | fillPages => exact renews_fillPages d e.options
  | place => exact hd.renews_place e.options e.metrics

end Addressed

end Document

end ScoreLayout
