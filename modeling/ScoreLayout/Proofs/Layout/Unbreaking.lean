import ScoreLayout.Proofs.Layout.Shape

/-!
# Unbreaking

Unbreaking takes all systems and pages away, which leaves what stood in the systems detached, makes
one system on one page, and moves what is detached into it. The content is the same afterwards, and
in its order.

## Main results

* `Document.Shape.destroyRoots`, `Document.Shape.reparentRoots` — neighbouring nodes that are taken
  away, or moved, one after another.
* `Document.Shape.exists_unbreak?` — the shape of an unbroken document.
* `Document.Shape.contentSystem` — the system of the content is found again.
-/

namespace ScoreLayout

variable {α : Type}

namespace Document

/-- No detached node carries an identifier that is reserved for unbroken content. -/
def Unreserved (detached : Forest (Node α)) : Prop :=
  ∀ n ∈ detached.toList, n.id ≠ contentPageId ∧ n.id ≠ contentSystemId

namespace Shape

variable {D : ScoreDefinition} {r : Node α}

/-! ### Neighbours edited one after another -/

/-- Neighbouring nodes taken away one after another; `place` is the score around them. -/
theorem destroyRoots (place : Forest (Node α) → Forest (Node α))
    (hplace : ∀ n below siblings,
      Forest.Without n below (place (.cons n below siblings)) (place siblings)) :
    {f detached : Forest (Node α)} → {d : Document α} → d.Shape D r (place f) detached →
      ((f.roots.map Node.handle).foldl Document.destroy d).Shape D r (place .nil)
        (detached ++ f.branches)
  | .nil, detached, _, hd => by
      rw [Forest.branches, Forest.append_nil]
      exact hd
  | .cons n below siblings, detached, d, hd => by
      rw [Forest.roots, List.map_cons, List.foldl_cons, Forest.branches, ← Forest.append_assoc]
      exact destroyRoots place hplace (hd.destroy (hplace n below siblings))

/-- Neighbouring nodes moved one after another to the end of the children of a node. The score is
`pages` and what is detached is `detached` of the nodes that are still in their place and of those
that have been moved. -/
theorem reparentRoots {p : Node α} (ht : p.tag ≠ .element)
    (pages : Forest (Node α) → Forest (Node α) → Forest (Node α))
    (detached : Forest (Node α) → Forest (Node α))
    (hstep : ∀ n below siblings moved, ∃ g,
      Forest.Without n below
          (.cons r (pages (.cons n below siblings) moved) (detached (.cons n below siblings))) g ∧
        Forest.With p (.tree n below) g
          (.cons r (pages siblings (moved ++ .tree n below)) (detached siblings))) :
    {f moved : Forest (Node α)} → {d : Document α} →
      d.Shape D r (pages f moved) (detached f) → (∀ n ∈ f.roots, p.kind.accepts n.kind) →
        ∃ d', d.reparentAll? (f.roots.map Node.handle) p.handle = .ok d' ∧
          d'.Shape D r (pages .nil (moved ++ f)) (detached .nil)
  | .nil, moved, d, hd, _ => ⟨d, rfl, by rwa [Forest.append_nil]⟩
  | .cons n below siblings, moved, d, hd, hk => by
      simp only [Forest.roots, List.mem_cons, forall_eq_or_imp] at hk
      obtain ⟨g, hout, hin⟩ := hstep n below siblings moved
      obtain ⟨d₁, h₁, hd₁⟩ := hd.reparent? hout hin hk.1 ht
      obtain ⟨d', hd', hshape⟩ := reparentRoots ht pages detached hstep hd₁ hk.2
      refine ⟨d', ?_, ?_⟩
      · rw [Forest.roots, List.map_cons, reparentAll?, List.foldlM_cons, h₁]
        exact hd'
      · rw [Forest.append_assoc] at hshape
        exact hshape

/-! ### What stands where -/

section Levels

variable {d : Document α} {pages detached : Forest (Node α)} (hd : d.Shape D r pages detached)

include hd

theorem tag_of_mem_pages {n : Node α} (hn : n ∈ pages.roots) : n.tag = .page :=
  (NodeKind.tag_of_accepts (hd.accepts (Forest.link_of_mem_roots (some r) hn))).1 hd.root_tag

theorem tag_of_mem_systems {n : Node α} (hn : n ∈ pages.branches.roots) : n.tag = .system := by
  obtain ⟨p, hp, hl⟩ := Forest.exists_link_branches (some r) hn
  exact (NodeKind.tag_of_accepts (hd.accepts hl)).2 (hd.tag_of_mem_pages hp)

/-- Every system takes what stands in any system. -/
theorem accepts_of_mem_content {n s : Node α} (hn : n ∈ pages.branches.branches.roots)
    (hs : s.tag = .system) : s.kind.accepts n.kind := by
  obtain ⟨s', hs', hl⟩ := Forest.exists_link_branches none hn
  exact NodeKind.accepts_of_system (hd.accepts (Forest.mem_links_of_branches (some r) hl))
    (hd.tag_of_mem_systems hs') hs

/-- What stands in systems is neither a page nor a system. -/
theorem depth_of_mem_content {n : Node α} (hn : n ∈ pages.branches.branches.toList) :
    3 ≤ n.tag.depth := by
  refine Forest.forall_of_links (P := fun n => 3 ≤ n.tag.depth) (fun n hn => ?_)
    (fun a b hl ha => ?_) n hn
  · obtain ⟨s, hs, hl⟩ := Forest.exists_link_branches none hn
    have hts := hd.tag_of_mem_systems hs
    have hlt := NodeKind.depth_lt_of_accepts
      (hd.accepts (Forest.mem_links_of_branches (some r) hl)) (by rw [← Node.tag, hts]; decide)
    rw [← Node.tag, hts] at hlt
    exact hlt
  · refine Nat.le_trans ha (NodeKind.depth_le_of_accepts (hd.accepts ?_))
    exact Forest.mem_links_of_branches (some r) (Forest.mem_links_of_branches none hl)

/-- No symbol stands in a system itself. -/
theorem tag_ne_element_of_mem_roots {n : Node α} (hn : n ∈ pages.branches.branches.roots) :
    n.tag ≠ .element := by
  obtain ⟨s, hs, hl⟩ := Forest.exists_link_branches none hn
  have hts := hd.tag_of_mem_systems hs
  have haccepts := hd.accepts (Forest.mem_links_of_branches (some r) hl)
  intro ht
  rw [Node.tag] at hts ht
  generalize s.kind = k at hts haccepts
  generalize n.kind = m at ht haccepts
  cases k <;> cases m <;> simp_all [NodeKind.accepts, NodeKind.tag]

/-- What stands deeper in systems is no measure either. -/
theorem depth_of_mem_branches {n : Node α} (hn : n ∈ pages.branches.branches.branches.toList) :
    4 ≤ n.tag.depth := by
  refine Forest.forall_of_links (P := fun n => 4 ≤ n.tag.depth) (fun n hn => ?_)
    (fun a b hl ha => ?_) n hn
  · obtain ⟨a, ha, hl⟩ := Forest.exists_link_branches none hn
    have hlt := NodeKind.depth_lt_of_accepts (hd.accepts
      (Forest.mem_links_of_branches (some r) (Forest.mem_links_of_branches none hl)))
      (hd.tag_ne_element_of_mem_roots ha)
    exact Nat.lt_of_le_of_lt (hd.depth_of_mem_content (Forest.mem_toList_of_mem_roots ha)) hlt
  · refine Nat.le_trans ha (NodeKind.depth_le_of_accepts (hd.accepts ?_))
    exact Forest.mem_links_of_branches (some r)
      (Forest.mem_links_of_branches none (Forest.mem_links_of_branches none hl))

end Levels

/-! ### The unbroken document -/

/-- Systems are taken away page by page, which leaves pages without systems. -/
theorem destroySystems : (pages front : Forest (Node α)) → {detached : Forest (Node α)} →
    {d : Document α} →
    d.Shape D r (front ++ pages) detached →
      ((pages.branches.roots.map Node.handle).foldl Document.destroy d).Shape D r
        (front ++ pages.stubs) (detached ++ pages.branches.branches)
  | .nil, front, detached, d, hd => by
      rw [Forest.branches, Forest.branches, Forest.append_nil]
      exact hd
  | .cons p systems pages, front, detached, d, hd => by
      rw [Forest.branches, Forest.roots_append, List.map_append, List.foldl_append,
        Forest.branches_append, ← Forest.append_assoc]
      have hpage := destroyRoots (fun f => front ++ .cons p f pages)
        (fun n below siblings => (Forest.Without.deeper pages (.here siblings)).append_right front) hd
      have hpages := destroySystems pages (front ++ .tree p .nil)
        (by rwa [Forest.append_assoc])
      rwa [Forest.append_assoc] at hpages

theorem stubs_roots (f : Forest (Node α)) : f.stubs.roots = f.roots := by
  induction f with
  | nil => rfl
  | cons n below siblings _ hs => rw [Forest.stubs, Forest.roots, Forest.roots, hs]

theorem stubs_branches (f : Forest (Node α)) : f.stubs.branches = .nil := by
  induction f with
  | nil => rfl
  | cons n below siblings _ hs => rw [Forest.stubs, Forest.branches, hs]; rfl

theorem destroyAll {d : Document α} {pages detached : Forest (Node α)}
    (hd : d.Shape D r pages detached) :
    ((d.pages.map Node.handle).foldl Document.destroy
      ((d.systems.map Node.handle).foldl Document.destroy d)).Shape D r .nil
        (detached ++ d.content) := by
  rw [hd.pages_eq, hd.systems_eq, hd.content_eq, ← stubs_roots pages]
  have hsystems := destroySystems pages .nil hd
  rw [Forest.nil_append] at hsystems
  have hpages := destroyRoots id (fun n below siblings => .here siblings) hsystems
  rwa [stubs_branches, Forest.append_nil] at hpages

theorem findLive?_eq_none {d : Document α} {detached : Forest (Node α)}
    (hd : d.Shape D r .nil detached) {id : String}
    (hid : id = contentPageId ∨ id = contentSystemId) : d.findLive? id = none := by
  rw [Option.eq_none_iff_forall_ne_some]
  intro h hf
  obtain ⟨n, hn, hnid, -⟩ := hd.wellFormed.findLive?_eq_some_iff.1 hf
  have hres := hd.wellFormed.reserved n ((score_sublist d).subset hn)
  rw [hd.score] at hn
  obtain rfl : n = r := by simpa [Forest.tree, Forest.toList] using hn
  rw [hd.root_tag] at hres
  rcases hid with rfl | rfl
  · exact absurd (hres.1 hnid) (by decide)
  · exact absurd (hres.2 hnid) (by decide)

/-- In a score that is its root alone, a page and a system are made for the content, under the
identifiers kept for them if these are free. -/
theorem contentSystem_of_nil [Scalar α] {d : Document α} {detached : Forest (Node α)}
    (hd : d.Shape D r .nil detached) :
    ∃ page system : Node α, d.contentSystem.1 = system.handle ∧
      d.contentSystem.2.Shape D r (.tree page (.tree system .nil)) detached ∧
      page.tag = .page ∧ system.kind = .system .empty ∧
      ((∀ n ∈ d.trees.toList, n.id ≠ contentPageId ∧ n.id ≠ contentSystemId) →
        page.id = contentPageId ∧ system.id = contentSystemId) := by
  have hpage := hd.insert contentPageId (.page .empty)
    (.here .nil detached) (NodeKind.accepts_of_document hd.root_tag rfl)
    (.inr (.inl ⟨rfl, rfl⟩))
  have hnone := hd.findLive?_eq_none (.inl rfl)
  have hmade : d.contentPage = d.insert r.handle contentPageId (.page .empty) := by
    rw [contentPage, hnone, hd.root_handle]
  rw [contentSystem_eq, hd.findLive?_eq_none (.inr rfl)]
  dsimp only
  rw [hmade]
  generalize hp : (.new d.allocate.1 (freeId d.ids contentPageId) (.page .empty) : Node α) = page
    at hpage
  have hpageHandle : (d.insert r.handle contentPageId (.page .empty)).1 = page.handle := by
    rw [← hp]
    rfl
  rw [hpageHandle]
  generalize (d.insert r.handle contentPageId (.page .empty)).2 = d₁ at hpage
  rw [Forest.nil_append] at hpage
  have hsystem := hpage.insert contentSystemId (.system .empty) (p := page)
    (.deeper detached (.here .nil .nil))
    (NodeKind.accepts_of_page (by rw [← hp]; rfl) rfl) (.inr (.inr ⟨rfl, rfl⟩))
  refine ⟨page, _, rfl, hsystem, by rw [← hp]; rfl, rfl, fun hfree => ?_⟩
  have hpageId : page.id = contentPageId := by
    rw [← hp]
    refine freeId_of_not_mem fun hmem => ?_
    obtain ⟨n, hn, hid⟩ := List.mem_map.1 hmem
    exact (hfree n hn).1 hid
  refine ⟨hpageId, freeId_of_not_mem fun hmem => ?_⟩
  obtain ⟨n, hn, hid⟩ := List.mem_map.1 hmem
  rw [hpage.trees, Forest.tree, Forest.toList, Forest.toList, List.mem_cons, List.mem_append,
    List.mem_cons] at hn
  rcases hn with rfl | (rfl | hn) | hn
  · exact (hfree n (by rw [hd.trees]; exact List.mem_cons_self)).2 hid
  · exact absurd (hpageId.symm.trans hid) (by decide +kernel)
  · exact absurd hn List.not_mem_nil
  · exact (hfree n (hd.mem_detached hn)).2 hid

/-- Neither the root nor what stands in systems carries a reserved identifier. -/
theorem unreserved {d : Document α} {pages detached : Forest (Node α)}
    (hd : d.Shape D r pages detached) {n : Node α}
    (hn : n = r ∨ n ∈ pages.branches.branches.toList) :
    n.id ≠ contentPageId ∧ n.id ≠ contentSystemId := by
  have hmem : n ∈ d.trees.toList := by
    rw [hd.trees, Forest.toList]
    refine List.mem_cons.2 (hn.imp_right fun hn => List.mem_append_left _ ?_)
    exact (Forest.sublist_branches pages).subset ((Forest.sublist_branches _).subset hn)
  have hres := hd.wellFormed.reserved n hmem
  have htag : n.tag ≠ .page ∧ n.tag ≠ .system := by
    rcases hn with rfl | hn
    · rw [hd.root_tag]
      decide
    · have hdepth := hd.depth_of_mem_content hn
      constructor <;> (intro ht; rw [ht] at hdepth; exact absurd hdepth (by decide))
  exact ⟨fun hid => htag.1 (hres.1 hid), fun hid => htag.2 (hres.2 hid)⟩

/-- In unbroken content there is one page with one system. -/
theorem exists_of_isUnbroken {d : Document α} {pages detached : Forest (Node α)}
    (hd : d.Shape D r pages detached) (hun : d.isUnbroken) :
    ∃ page system, pages = .tree page (.tree system d.content) ∧ page.id = contentPageId ∧
      system.id = contentSystemId := by
  rw [isUnbroken, hd.pages_eq, hd.systems_eq] at hun
  split at hun
  · rename_i page system hpages hsystems
    obtain ⟨systems, rfl⟩ := Forest.eq_tree_of_roots hpages
    rw [Forest.tree, Forest.branches, Forest.branches, Forest.append_nil] at hsystems
    obtain ⟨content, rfl⟩ := Forest.eq_tree_of_roots hsystems
    have hcontent : d.content = content := by
      rw [hd.content_eq]
      simp [Forest.tree, Forest.branches]
    exact ⟨page, system, by rw [hcontent], by simpa using hun⟩
  · exact absurd hun (by simp)

theorem isUnbroken_of_tree {d : Document α} {page system : Node α}
    {content detached : Forest (Node α)}
    (hd : d.Shape D r (.tree page (.tree system content)) detached)
    (hpage : page.id = contentPageId) (hsystem : system.id = contentSystemId) : d.isUnbroken := by
  rw [isUnbroken, hd.pages_eq, hd.systems_eq]
  simp [Forest.tree, Forest.roots, Forest.branches, hpage, hsystem]

/-- Unbreaking puts the content, in its order, in one system on one page. They have the identifiers
kept for them if no detached node has one of these; if the system has another one it is new. -/
theorem exists_unbreak? [Scalar α] {d : Document α} {pages detached : Forest (Node α)}
    (hd : d.Shape D r pages detached) :
    ∃ page system d', d.unbreak? = .ok d' ∧
      d'.Shape D r (.tree page (.tree system d.content)) detached ∧
      page.tag = .page ∧ system.tag = .system ∧
      (Unreserved detached → page.id = contentPageId ∧ system.id = contentSystemId) ∧
      (system.id = contentSystemId ∨ system.kind = .system .empty) := by
  by_cases hun : d.isUnbroken
  · rw [Document.unbreak?, if_pos hun]
    obtain ⟨page, system, rfl, hids⟩ := hd.exists_of_isUnbroken hun
    refine ⟨page, system, d, rfl, hd, ?_, ?_, fun _ => hids, .inl hids.2⟩
    · exact hd.tag_of_mem_pages List.mem_cons_self
    · exact hd.tag_of_mem_systems List.mem_cons_self
  · have hbare := hd.destroyAll
    obtain ⟨page, system, htarget, hmade, htp, hks, hids⟩ := hbare.contentSystem_of_nil
    have hts : system.tag = .system := congrArg NodeKind.tag hks
    obtain ⟨d', hok, hd'⟩ := reparentRoots (p := system) (by rw [hts]; decide)
      (fun _ moved => .tree page (.tree system moved)) (fun f => detached ++ f) (fun n below siblings moved =>
        ⟨_, .beside r _ ((Forest.Without.here siblings).append_right detached),
          .deeper _ (.deeper _ (.here moved .nil))⟩)
      hmade fun n hn => hd.accepts_of_mem_content (hd.content_eq ▸ hn) hts
    rw [Forest.nil_append, Forest.append_nil] at hd'
    refine ⟨page, system, d', ?_, hd', htp, hts, fun hfree => hids ?_, .inr hks⟩
    · rw [Document.unbreak?, if_neg hun, ← hok, ← htarget, ← hd.content_handles]
      dsimp only
      rw [List.flatMap_map]
    · intro n hn
      rw [hbare.trees, Forest.toList, Forest.toList, List.nil_append, Forest.toList_append,
        List.mem_cons, List.mem_append] at hn
      rcases hn with hn | hn | hn
      · exact hd.unreserved (.inl hn)
      · exact hfree n hn
      · exact hd.unreserved (.inr (hd.content_eq ▸ hn))

theorem unbreak? [Scalar α] {d : Document α} {pages detached : Forest (Node α)}
    (hd : d.Shape D r pages detached) :
    ∃ page system d', d.unbreak? = .ok d' ∧
      d'.Shape D r (.tree page (.tree system d.content)) detached ∧
      page.tag = .page ∧ system.tag = .system ∧
      (Unreserved detached → page.id = contentPageId ∧ system.id = contentSystemId) := by
  obtain ⟨page, system, d', hok, hd', hpage, hsystem, hids, -⟩ := hd.exists_unbreak?
  exact ⟨page, system, d', hok, hd', hpage, hsystem, hids⟩

end Shape

end Document

end ScoreLayout
