import ScoreLayout.Proofs.Layout.ContentSymbols
import ScoreLayout.Proofs.Layout.PageEmission
import ScoreLayout.Proofs.Layout.SystemPlans

/-!
# Handles and identifiers that tell nodes apart

Whatever identifiers a caller chooses, no two nodes of a document share a handle or an identifier, and
no handle of a node is given out again. This does not take a well-formed document: it also holds where
an identifier that is kept for the unbroken content has gone to another node, and pages and systems
then stand in strange places.

What is detached stays under its handle and its identifier. Edits and passes take nodes apart only
where they stand in the score, and nothing that is detached comes back to it.

## Main definitions

* `Document.Addressed` — handles and identifiers tell nodes apart, and some detached nodes are kept.
* `Document.Loose` — what an edit of the layout may take.
* `Node.SameAddress` — two states of one node.

## Main results

* `Document.Addressed.insertAs`, `Document.Addressed.cut`, `Document.Addressed.destroy`,
  `Document.Addressed.reparent?` — the edits of nodes.
* `Document.Addressed.run` — the passes of a layout.
-/

namespace ScoreLayout

variable {α : Type}

namespace Document

/-- The root comes first, under an identifier of its own, and handles and identifiers tell nodes
apart. The nodes of a list are kept, out of the score. -/
structure Addressed (kept : List (Node α)) (d : Document α) : Prop where
  root : ∃ n below detached, d.trees = .cons n below detached ∧ n.handle = Document.root ∧
    n.tag = .document ∧ n.id ≠ contentPageId ∧ n.id ≠ contentSystemId
  /-- No handle that has been given out belongs to two nodes, or is free as well. -/
  arena : (d.handles ++ d.freed).Subperm (List.range d.capacity)
  ids : d.ids.Nodup
  /-- Only the root is a document node. -/
  alone : ∀ n ∈ d.trees.toList, n.tag = .document → n.handle = Document.root
  present : ∀ k ∈ kept, ∃ n ∈ d.trees.toList, n.handle = k.handle ∧ n.id = k.id
  /-- A node that has a kept node below it is kept. -/
  upward : ∀ a n, (some a, n) ∈ d.trees.links none →
    n.handle ∈ kept.map Node.handle → a.handle ∈ kept.map Node.handle
  apart : Document.root ∉ kept.map Node.handle

/-- The handle of a node that an edit of the layout may take: neither the root nor a kept node. -/
structure Loose (kept : List (Node α)) (h : Handle) : Prop where
  ne_root : h ≠ Document.root
  not_kept : h ∉ kept.map Node.handle

/-! ### Trees taken out and put in -/

/-- The images of a part of a list are a part of its images, in whatever order. -/
theorem subperm_map {β γ : Type} {l l' : List β} (h : l.Subperm l') (f : β → γ) :
    (l.map f).Subperm (l'.map f) := by
  obtain ⟨m, hm, hsub⟩ := h
  exact (hm.map f).symm.subperm.trans (hsub.map f).subperm

theorem toList_graft_subperm {g : Forest (Node α)} {parent : Handle}
    (hg : (g.toList.map Node.handle).Nodup) (added : Forest (Node α)) :
    (g.graft (hasHandle parent) added).toList.Subperm (added.toList ++ g.toList) := by
  have hperm := (Forest.links_graft_perm (hasHandle parent) g added none).map Prod.snd
  rw [Forest.map_snd_links, List.map_append, Forest.map_snd_links] at hperm
  refine hperm.subperm.trans ?_
  by_cases hex : ∃ n ∈ g.toList, n.handle = parent
  · obtain ⟨n, hn, rfl⟩ := hex
    have hfilter : g.toList.filter (hasHandle n.handle) = [n] := filter_key_eq_singleton hg hn
    rw [hfilter, List.flatMap_singleton, Forest.map_snd_links]
    exact List.perm_append_comm.subperm
  · have hfilter : g.toList.filter (hasHandle parent) = [] :=
      List.filter_eq_nil_iff.2 fun n hn hh => hex ⟨n, hn, by simpa [hasHandle] using hh⟩
    rw [hfilter, List.flatMap_nil, List.map_nil, List.append_nil]
    exact (List.sublist_append_right ..).subperm

/-- The nodes are those of a tree taken out and those that remain, with the links they had. -/
theorem toList_prune?_perm {d : Document α} {h : Handle} {n : Node α} {below g : Forest (Node α)}
    (hp : d.trees.prune? (hasHandle h) = some ((n, below), g)) :
    n.handle = h ∧ d.trees.toList.Perm (n :: (below.toList ++ g.toList)) ∧
      ∀ l ∈ below.links (some n) ++ g.links none, l ∈ d.trees.links none := by
  obtain ⟨hn, a, hperm⟩ := Forest.links_prune?_perm hp none
  have hlist := hperm.map Prod.snd
  rw [Forest.map_snd_links, List.map_cons, List.map_append, Forest.map_snd_links,
    Forest.map_snd_links] at hlist
  exact ⟨by simpa [hasHandle] using hn, hlist,
    fun l hl => hperm.mem_iff.2 (List.mem_cons_of_mem _ hl)⟩

namespace Addressed

variable {kept : List (Node α)} {d d' : Document α} (hd : d.Addressed kept)

include hd

theorem nodup_handles : d.handles.Nodup := by
  obtain ⟨l, hl, hsub⟩ := hd.arena
  exact (List.nodup_append.1 (hl.nodup_iff.1 (List.nodup_range.sublist hsub))).1

theorem mem_handles_of_kept {h : Handle} (hh : h ∈ kept.map Node.handle) : h ∈ d.handles := by
  obtain ⟨k, hk, rfl⟩ := List.mem_map.1 hh
  obtain ⟨n, hn, hnk, -⟩ := hd.present k hk
  exact hnk ▸ List.mem_map_of_mem hn

theorem rooted : d.Rooted := by
  obtain ⟨r, below, detached, htrees, hr, htag, -⟩ := hd.root
  refine ⟨r, below, detached, htrees, htag, fun n hn hdoc => ?_⟩
  have hnodup := hd.nodup_handles
  have hroot := hd.alone n (by
    rw [htrees, Forest.toList]
    exact List.mem_cons_of_mem _ (List.mem_append_left _ hn)) hdoc
  rw [handles, htrees, Forest.toList, List.map_cons, List.nodup_cons] at hnodup
  rw [hr, ← hroot] at hnodup
  exact hnodup.1 (List.mem_map_of_mem (List.mem_append_left _ hn))

/-- Nothing that is kept stands in the score. -/
theorem not_kept_of_mem_score {n : Node α} (hn : n ∈ d.score.toList) :
    n.handle ∉ kept.map Node.handle := by
  obtain ⟨r, below, detached, htrees, hr, -⟩ := hd.root
  have hscore : d.score = .tree r below := by rw [score, htrees]; rfl
  have hroot : r.handle ∉ kept.map Node.handle := hr ▸ hd.apart
  rw [hscore, Forest.toList_tree, List.mem_cons] at hn
  obtain rfl | hn := hn
  · exact hroot
  · refine Forest.rel_of_links
      (R := fun a b => a.handle ∉ kept.map Node.handle → b.handle ∉ kept.map Node.handle)
      (fun _ _ _ h h' ha => h' (h ha)) (fun a b hl ha hb => ha (hd.upward a b ?_ hb)) n hn hroot
    rw [htrees, Forest.links]
    exact List.mem_cons_of_mem _ (List.mem_append_left _ hl)

theorem exists_link_of_mem_children {h c : Handle} (hc : c ∈ d.children h) :
    ∃ p n, (some p, n) ∈ d.trees.links none ∧ p.handle = h ∧ n.handle = c := by
  obtain ⟨n, hn, rfl⟩ := List.mem_map.1 hc
  rw [childNodes_eq_of_nodup hd.nodup_handles] at hn
  obtain ⟨⟨above, n⟩, hl, rfl⟩ := List.mem_map.1 hn
  obtain ⟨hl, ha⟩ := List.mem_filter.1 hl
  cases above with
  | none => cases ha
  | some p => exact ⟨p, n, hl, by simpa [hasHandle] using ha, rfl⟩

theorem ne_root_of_mem_children {h c : Handle} (hc : c ∈ d.children h) : c ≠ Document.root := by
  obtain ⟨p, n, hl, -, rfl⟩ := hd.exists_link_of_mem_children hc
  obtain ⟨r, below, detached, htrees, hr, -⟩ := hd.root
  have hnodup := hd.nodup_handles
  rw [handles, htrees, Forest.toList, List.map_cons, List.nodup_cons] at hnodup
  rw [htrees, Forest.links] at hl
  rcases List.mem_cons.1 hl with hl | hl
  · cases (Prod.mk.inj hl).1
  · intro hroot
    refine hnodup.1 ?_
    rw [hr, ← hroot]
    refine List.mem_map_of_mem (List.mem_append.2 ?_)
    exact (List.mem_append.1 hl).imp Forest.mem_toList_of_mem_links Forest.mem_toList_of_mem_links

/-- The children of a node that is not kept may be taken. -/
theorem loose_of_mem_children {h c : Handle} (hh : h ∉ kept.map Node.handle)
    (hc : c ∈ d.children h) : Loose kept c := by
  obtain ⟨p, n, hl, rfl, rfl⟩ := hd.exists_link_of_mem_children hc
  exact ⟨hd.ne_root_of_mem_children hc, fun hkept => hh (hd.upward p n hl hkept)⟩

/-- Fewer nodes, under the same root. The kept ones are all there, and none has got below another
node. -/
theorem of_subperm (hroot : ∃ n below detached, d'.trees = .cons n below detached ∧
      n.handle = Document.root ∧ n.tag = .document ∧ n.id ≠ contentPageId ∧ n.id ≠ contentSystemId)
    (hnodes : d'.trees.toList.Subperm d.trees.toList)
    (hlinks : ∀ a n, (some a, n) ∈ d'.trees.links none →
      (some a, n) ∈ d.trees.links none ∨ n.handle ∉ kept.map Node.handle)
    (hkept : ∀ n ∈ d.trees.toList, n.handle ∈ kept.map Node.handle → n ∈ d'.trees.toList)
    (hfreed : (d'.handles ++ d'.freed).Subperm (d.handles ++ d.freed))
    (hc : d'.capacity = d.capacity) : d'.Addressed kept where
  root := hroot
  arena := hc ▸ hfreed.trans hd.arena
  ids := by
    obtain ⟨l, hl, hsub⟩ := subperm_map hnodes Node.id
    exact hl.nodup_iff.1 (hd.ids.sublist hsub)
  alone n hn := hd.alone n (hnodes.subset hn)
  present k hk := by
    obtain ⟨n, hn, hnk, hid⟩ := hd.present k hk
    exact ⟨n, hkept n hn (hnk ▸ List.mem_map_of_mem hk), hnk, hid⟩
  upward a n hl hn := hd.upward a n ((hlinks a n hl).resolve_right (absurd hn)) hn
  apart := hd.apart

theorem of_eq (ht : d'.trees = d.trees) (hc : d'.capacity = d.capacity)
    (hf : d'.freed = d.freed) : d'.Addressed kept :=
  hd.of_subperm (ht ▸ hd.root) (ht ▸ List.Subperm.refl _) (fun _ _ hl => .inl (ht ▸ hl))
    (fun _ hn _ => ht ▸ hn) (by rw [handles, handles, ht, hf]) hc

/-- A tree taken out leaves the root where it is. -/
theorem root_of_prune? {h : Handle} (hh : h ≠ Document.root) {taken : Node α × Forest (Node α)}
    {g : Forest (Node α)} (hp : d.trees.prune? (hasHandle h) = some (taken, g)) :
    ∃ n below detached, g = .cons n below detached ∧ n.handle = Document.root ∧
      n.tag = .document ∧ n.id ≠ contentPageId ∧ n.id ≠ contentSystemId := by
  obtain ⟨n, below, detached, htrees, hroot, hrest⟩ := hd.root
  have hn : ¬ hasHandle h n := by
    rw [hasHandle, hroot]
    simpa using hh.symm
  rw [htrees] at hp
  obtain ⟨below', detached', rfl⟩ := Forest.eq_cons_of_prune? hn hp
  exact ⟨n, below', detached', rfl, hroot, hrest⟩

/-! ### Edits -/

/-- The handle given out is that of no node, and is not free any more. -/
theorem allocate : (d.allocate.1 :: (d.handles ++ d.allocate.2.freed)).Subperm
    (List.range d.allocate.2.capacity) := by
  rw [Document.allocate]
  split
  · rename_i h rest hf
    have := hd.arena
    rw [hf] at this
    exact List.perm_middle.symm.subperm.trans this
  · rename_i hf
    have := hd.arena
    rw [hf, List.append_nil] at this
    rw [hf, List.append_nil, List.range_succ]
    exact ((List.subperm_cons _).2 this).trans (List.perm_append_singleton ..).symm.subperm

theorem allocate_not_mem : d.allocate.1 ∉ d.handles := by
  obtain ⟨l, hl, hsub⟩ := hd.allocate
  have hnodup := hl.nodup_iff.1 (List.nodup_range.sublist hsub)
  rw [List.nodup_cons] at hnodup
  exact fun h => hnodup.1 (List.mem_append_left _ h)

theorem insertAs [Scalar α] (parent : Handle) {id : String} (hid : id ∉ d.ids) {kind : NodeKind α}
    (hkind : kind.tag ≠ .document) : (d.insertAs parent id kind).2.Addressed kept := by
  have hsub : (d.trees.graft (hasHandle parent)
      (.tree (.new d.allocate.1 id kind) .nil)).toList.Subperm
        (.new d.allocate.1 id kind :: d.trees.toList) := toList_graft_subperm hd.nodup_handles _
  have hlinks := Forest.links_graft_perm (hasHandle parent) d.trees
    (.tree (.new d.allocate.1 id kind) .nil) none
  have htrees : (d.insertAs parent id kind).2.trees =
      d.trees.graft (hasHandle parent) (.tree (.new d.allocate.1 id kind) .nil) := by
    rw [Document.insertAs, attach, allocate_trees]
  rw [← htrees] at hsub hlinks
  constructor
  case root =>
    obtain ⟨n, below, detached, htrees', hroot⟩ := hd.root
    rw [htrees, htrees', Forest.graft]
    exact ⟨n, _, _, rfl, hroot⟩
  case arena =>
    exact ((List.subperm_append_right _).2 (subperm_map hsub Node.handle)).trans hd.allocate
  case ids =>
    obtain ⟨l, hl, hsub⟩ := subperm_map hsub Node.id
    exact hl.nodup_iff.1 ((List.nodup_cons.2 ⟨hid, hd.ids⟩).sublist hsub)
  case alone =>
    intro n hn
    obtain hn | hn := List.mem_cons.1 (hsub.subset hn)
    · rw [hn]
      exact fun h => absurd h hkind
    · exact hd.alone n hn
  case present =>
    intro k hk
    obtain ⟨n, hn, h⟩ := hd.present k hk
    refine ⟨n, ?_, h⟩
    have hperm := hlinks.map Prod.snd
    rw [Forest.map_snd_links, List.map_append, Forest.map_snd_links] at hperm
    exact hperm.mem_iff.2 (List.mem_append_left _ hn)
  case upward =>
    intro a n hl hn
    obtain hl | hl := List.mem_append.1 (hlinks.mem_iff.1 hl)
    · exact hd.upward a n hl hn
    · obtain ⟨b, -, hl⟩ := List.mem_flatMap.1 hl
      obtain ⟨-, rfl⟩ := Prod.mk.inj (List.mem_singleton.1 hl)
      exact absurd (hd.mem_handles_of_kept hn) hd.allocate_not_mem
  case apart => exact hd.apart

theorem cut {h : Handle} (hh : h ≠ Document.root) : (d.cut h).Addressed kept := by
  have hperm := WellFormed.toList_cut_perm (d := d) h
  rw [Document.cut] at hperm ⊢
  split
  · rename_i n below g hp
    rw [hp] at hperm
    obtain ⟨-, -, hlinks⟩ := toList_prune?_perm hp
    refine hd.of_subperm ?_ hperm.subperm (fun a m hl => .inl (hlinks _ ?_))
      (fun m hm _ => hperm.mem_iff.2 hm) ((hperm.map Node.handle).append_right _).subperm rfl
    · obtain ⟨r, under, detached, rfl, hroot⟩ := hd.root_of_prune? hh hp
      exact ⟨r, under, _, rfl, hroot⟩
    · rw [Forest.links_append, List.mem_append, Forest.tree, Forest.links, Forest.links,
        List.append_nil, List.mem_cons] at hl
      obtain hl | hl | hl := hl
      · exact List.mem_append_right _ hl
      · cases hl
      · exact List.mem_append_left _ hl
  · exact hd

theorem destroy {h : Handle} (hh : Loose kept h) : (d.destroy h).Addressed kept := by
  rw [Document.destroy]
  split
  · rename_i n below g hp
    obtain ⟨rfl, hperm, hlinks⟩ := toList_prune?_perm hp
    have hnodes : (g ++ below).toList.Perm (below.toList ++ g.toList) := by
      rw [Forest.toList_append]
      exact List.perm_append_comm
    refine hd.of_subperm ?_ (hnodes.subperm.trans ?_) (fun a m hl => .inl ?_) (fun m hm hkept => ?_)
      (List.Perm.subperm ?_) rfl
    · obtain ⟨r, under, detached, rfl, hroot⟩ := hd.root_of_prune? hh.ne_root hp
      exact ⟨r, under, _, rfl, hroot⟩
    · exact (List.sublist_cons_self ..).subperm.trans hperm.symm.subperm
    · rw [release, Forest.links_append, List.mem_append] at hl
      refine hlinks _ (List.mem_append.2 (hl.symm.imp_left fun hl => ?_))
      exact Forest.mem_links_of_mem_links_none hl _
    · refine hnodes.mem_iff.2 ((List.mem_cons.1 (hperm.mem_iff.1 hm)).resolve_left ?_)
      rintro rfl
      exact hh.not_kept hkept
    · refine List.Perm.trans ?_ ((hperm.map Node.handle).append_right d.freed).symm
      exact List.perm_middle.trans (((hnodes.map Node.handle).append_right _).cons _)
  · exact hd

omit hd in
theorem destroyAll : {nodes : List Handle} → (∀ h ∈ nodes, Loose kept h) →
    {d : Document α} → d.Addressed kept → (nodes.foldl Document.destroy d).Addressed kept
  | [], _, _, hd => hd
  | h :: _, hh, _, hd =>
      destroyAll (fun h' hmem => hh h' (List.mem_cons_of_mem h hmem))
        (hd.destroy (hh h List.mem_cons_self))

/-- A tree moved to another place. If that lies inside the tree, it is lost with its handles. -/
theorem reparent? {h parent : Handle} (hh : Loose kept h)
    (hok : d.reparent? h parent = .ok d') : d'.Addressed kept := by
  obtain ⟨n, p, moved, below, g, -, -, -, hprune, rfl⟩ := WellFormed.exists_of_reparent? hok
  obtain ⟨rfl, hperm, hlinks⟩ := toList_prune?_perm hprune
  have hg : (g.toList.map Node.handle).Nodup := by
    have hnodup := (hperm.map Node.handle).nodup_iff.1 hd.nodup_handles
    rw [List.map_cons, List.nodup_cons, List.map_append, List.nodup_append] at hnodup
    exact hnodup.2.2.1
  -- what stands below a tree that may be taken is not kept either
  have hbelow : ∀ m ∈ below.toList, m.handle ∉ kept.map Node.handle := fun m hm =>
    Forest.rel_of_links
      (R := fun a b => a.handle ∉ kept.map Node.handle → b.handle ∉ kept.map Node.handle)
      (fun _ _ _ h h' ha => h' (h ha))
      (fun a b hl ha hb => ha (hd.upward a b (hlinks _ (List.mem_append_left _ hl)) hb)) m hm
      hh.not_kept
  have hsub : (g.graft (hasHandle parent) (.tree moved below)).toList.Subperm d.trees.toList := by
    refine (toList_graft_subperm hg _).trans ?_
    rw [Forest.toList_tree, List.cons_append]
    exact hperm.symm.subperm
  have hgraft := Forest.links_graft_perm (hasHandle parent) g (.tree moved below) none
  refine hd.of_subperm ?_ hsub (fun a m hl => ?_) (fun m hm hkept => ?_)
    ((List.subperm_append_right _).2 (subperm_map hsub Node.handle)) rfl
  · obtain ⟨r, under, detached, rfl, hroot⟩ := hd.root_of_prune? hh.ne_root hprune
    exact ⟨r, _, _, rfl, hroot⟩
  · obtain hl | hl := List.mem_append.1 (hgraft.mem_iff.1 hl)
    · exact .inl (hlinks _ (List.mem_append_right _ hl))
    · obtain ⟨b, -, hl⟩ := List.mem_flatMap.1 hl
      rw [Forest.tree, Forest.links, Forest.links, List.append_nil, List.mem_cons] at hl
      obtain hl | hl := hl
      · rw [(Prod.mk.inj hl).2]
        exact .inr hh.not_kept
      · exact .inl (hlinks _ (List.mem_append_left _ hl))
  · have hlist := hgraft.map Prod.snd
    rw [Forest.map_snd_links, List.map_append, Forest.map_snd_links] at hlist
    refine hlist.mem_iff.2 (List.mem_append_left _ ?_)
    obtain rfl | hm := List.mem_cons.1 (hperm.mem_iff.1 hm)
    · exact absurd hkept hh.not_kept
    · exact (List.mem_append.1 hm).resolve_left fun hm => hbelow m hm hkept

omit hd in
theorem reparentAll? {parent : Handle} : {nodes : List Handle} → {d : Document α} →
    d.Addressed kept → (∀ h ∈ nodes, Loose kept h) → d.reparentAll? nodes parent = .ok d' →
      d'.Addressed kept
  | [], _, hd, _, hok => Except.ok.inj hok ▸ hd
  | h :: nodes, d, hd, hnodes, hok => by
      rw [List.forall_mem_cons] at hnodes
      rw [Document.reparentAll?, List.foldlM_cons, except_bind_eq_ok] at hok
      obtain ⟨d₁, h₁, hok⟩ := hok
      exact reparentAll? (hd.reparent? hnodes.1 h₁) hnodes.2 hok

end Addressed

theorem toList_eq_score_append (d : Document α) :
    d.trees.toList = d.score.toList ++ d.trees.rest.toList := by
  rw [score, ← Forest.toList_append, first_append_rest]

/-- Where nothing is kept, detached nodes may go. -/
theorem Addressed.collect {d : Document α} (hd : d.Addressed []) : d.collect.2.Addressed [] := by
  obtain ⟨n, below, detached, htrees, hroot⟩ := hd.root
  have hfirst : d.trees.first = .tree n below := by rw [htrees]; rfl
  have hdead : ((d.trees.rest.toList.map Node.handle).mergeSort).reverse.Perm
      (d.trees.rest.toList.map Node.handle) :=
    (List.reverse_perm _).trans (List.mergeSort_perm _ _)
  rw [collect_eq]
  refine hd.of_subperm ⟨n, below, .nil, hfirst, hroot⟩ ?_ (fun _ _ _ => .inr List.not_mem_nil)
    (fun _ _ h => absurd h List.not_mem_nil) (List.Perm.subperm ?_) rfl
  · exact (score_sublist d).subperm
  · refine ((hdead.append_right _).append_left _).trans ?_
    rw [handles, handles, toList_eq_score_append d, List.map_append, List.append_assoc, score]

theorem addressed_ofDefinition [Scalar α] (definition : ScoreDefinition) :
    (ofDefinition definition : Document α).Addressed [] := by
  have hpage : "doc" ≠ contentPageId := by decide +kernel
  have hsystem : "doc" ≠ contentSystemId := by decide +kernel
  refine ⟨⟨_, .nil, .nil, rfl, rfl, rfl, hpage, hsystem⟩, List.Subperm.refl _,
    List.nodup_singleton _, fun n hn _ => ?_, fun k hk => absurd hk List.not_mem_nil,
    fun a n hl hn => absurd hn List.not_mem_nil, List.not_mem_nil⟩
  rw [List.mem_singleton.1 hn]
  rfl

end Document

/-! ### Nodes that keep their handles -/

theorem NodeKind.tag_mapSystem (k : NodeKind α) (f : ScoreSystem α → ScoreSystem α) :
    (k.mapSystem f).tag = k.tag := by cases k <;> rfl

theorem NodeKind.tag_mapPage (k : NodeKind α) (f : Page α → Page α) :
    (k.mapPage f).tag = k.tag := by cases k <;> rfl

/-- Two states of one node, which keeps its handle and its identifier. -/
structure Node.SameAddress (n n' : Node α) : Prop where
  handle : n'.handle = n.handle
  id : n'.id = n.id
  document : n'.tag = .document ↔ n.tag = .document

namespace Node.SameAddress

variable {a b c : Node α}

theorem refl (n : Node α) : n.SameAddress n := ⟨rfl, rfl, .rfl⟩

theorem trans (h : a.SameAddress b) (h' : b.SameAddress c) : a.SameAddress c where
  handle := h'.handle.trans h.handle
  id := h'.id.trans h.id
  document := h'.document.trans h.document

theorem of_sameMusic [Scalar α] (h : a.SameMusic b) : a.SameAddress b :=
  ⟨h.handle, h.id, by rw [h.tag]⟩

end Node.SameAddress

namespace Document

/-- Two states of one document, whose nodes keep their handles and identifiers. -/
structure SameAddresses (d d' : Document α) : Prop where
  trees : Forest.Forall₂ Node.SameAddress d.trees d'.trees
  capacity : d'.capacity = d.capacity
  freed : d'.freed = d.freed

namespace SameAddresses

variable {d d₁ d₂ : Document α}

theorem refl (d : Document α) : d.SameAddresses d := ⟨.refl fun n _ => .refl n, rfl, rfl⟩

theorem trans (h : d.SameAddresses d₁) (h' : d₁.SameAddresses d₂) : d.SameAddresses d₂ where
  trees := h.trees.trans h'.trees fun _ _ _ => Node.SameAddress.trans
  capacity := h'.capacity.trans h.capacity
  freed := h'.freed.trans h.freed

theorem withStage (h : d.SameAddresses d₁) (stage : Stage) :
    d.SameAddresses { d₁ with stage } := ⟨h.trees, h.capacity, h.freed⟩

theorem of_sameTree [Scalar α] (h : d.SameTree d₁) : d.SameAddresses d₁ :=
  ⟨h.trees.mono fun _ _ => .of_sameMusic, h.capacity, h.freed⟩

theorem addressed {kept : List (Node α)} (h : d.SameAddresses d₁) (hd : d.Addressed kept) :
    d₁.Addressed kept := by
  have hhandles : d.handles = d₁.handles :=
    map_eq_of_forall₂ (fun _ _ hn => hn.handle.symm) h.trees.toList
  constructor
  case root =>
    obtain ⟨n, below, detached, htrees, hroot, htag, hid⟩ := hd.root
    have ht := h.trees
    rw [htrees] at ht
    generalize d₁.trees = trees at ht
    cases ht with
    | cons hn _ _ =>
      exact ⟨_, _, _, rfl, hn.handle.trans hroot, hn.document.2 htag, hn.id ▸ hid⟩
  case arena =>
    rw [← hhandles, h.freed, h.capacity]
    exact hd.arena
  case ids =>
    have hids : d.ids = d₁.ids := map_eq_of_forall₂ (fun _ _ hn => hn.id.symm) h.trees.toList
    exact hids ▸ hd.ids
  case alone =>
    intro n' hn' hdoc
    obtain ⟨n, hn, hsame⟩ := exists_mem_of_forall₂ h.trees.toList hn'
    exact hsame.handle.trans (hd.alone n hn (hsame.document.1 hdoc))
  case present =>
    intro k hk
    obtain ⟨n, hn, hnk, hid⟩ := hd.present k hk
    obtain ⟨n', hn', hsame⟩ := exists_mem_of_forall₂ h.trees.flip.toList hn
    exact ⟨n', hn', hsame.handle.trans hnk, hsame.id.trans hid⟩
  case upward =>
    intro a' n' hl' hn'
    obtain ⟨⟨above, n⟩, hl, habove, hsame⟩ := exists_mem_of_forall₂ (h.trees.links .none) hl'
    cases habove with
    | some ha =>
      rw [ha.handle]
      exact hd.upward _ n hl (hsame.handle ▸ hn')
  case apart => exact hd.apart

end SameAddresses

/-- A change of a node that keeps its handle and its identifier. -/
theorem sameAddresses_modify (d : Document α) {h : Handle} {f : Node α → Node α}
    (hf : ∀ n, (f n).handle = n.handle ∧ (f n).id = n.id)
    (htag : ∀ n ∈ d.trees.toList, n.handle = h → ((f n).tag = .document ↔ n.tag = .document)) :
    d.SameAddresses (d.modify h f) :=
  ⟨forall₂_modify Node.SameAddress.refl d h fun n hn hh =>
    ⟨(hf n).1, (hf n).2, htag n hn hh⟩, rfl, rfl⟩

variable [Scalar α]

/-! ### Finding and making the system of the unbroken content -/

namespace Addressed

variable {kept : List (Node α)} {d d' : Document α} (hd : d.Addressed kept)

include hd

omit [Scalar α] in
/-- A node of the score that is found under an identifier carries it. -/
theorem exists_of_findLive? {id : String} {h : Handle} (hf : d.findLive? id = some h) :
    ∃ n ∈ d.score.toList, n.id = id ∧ n.handle = h := by
  rw [findLive?, Option.filter_eq_some_iff, find?, Option.map_eq_some_iff] at hf
  obtain ⟨⟨n, hn, hh⟩, hlive⟩ := hf
  rw [Forest.find?_eq_find?_toList] at hn
  obtain ⟨m, hm, hmh⟩ := (isLive_iff d h).1 hlive
  obtain rfl := List.inj_on_of_nodup_map hd.nodup_handles ((score_sublist d).subset hm)
    (List.mem_of_find?_eq_some hn) (hmh.trans hh.symm)
  exact ⟨m, hm, by simpa [hasId] using List.find?_some hn, hh⟩

omit [Scalar α] in
/-- What is found in the score under an identifier that is kept for the unbroken content may be
taken: the root has another one. -/
theorem loose_of_findLive? {id : String} (hid : id = contentPageId ∨ id = contentSystemId)
    {h : Handle} (hf : d.findLive? id = some h) : Loose kept h := by
  obtain ⟨n, hn, rfl, rfl⟩ := hd.exists_of_findLive? hf
  refine ⟨fun hroot => ?_, hd.not_kept_of_mem_score hn⟩
  obtain ⟨r, below, detached, htrees, hr, -, hpage, hsystem⟩ := hd.root
  have hmem : r ∈ d.trees.toList := by
    rw [htrees, Forest.toList]
    exact List.mem_cons_self
  obtain rfl := List.inj_on_of_nodup_map hd.nodup_handles ((score_sublist d).subset hn) hmem
    (hroot.trans hr.symm)
  exact hid.elim hpage hsystem

/-- A further child made by the layout. -/
theorem insert (parent : Handle) (base : String) {kind : NodeKind α} (hkind : kind.tag ≠ .document) :
    (d.insert parent base kind).2.Addressed kept := by
  rw [insert_eq, suffixedId_eq]
  exact hd.insertAs parent (freeId_not_mem d.ids base) hkind

omit [Scalar α] in
theorem loose_allocate : Loose kept d.allocate.1 where
  ne_root hroot := by
    obtain ⟨r, below, detached, htrees, hr, -⟩ := hd.root
    refine hd.allocate_not_mem ?_
    rw [hroot, ← hr, handles, htrees, Forest.toList]
    exact List.mem_cons_self
  not_kept h := hd.allocate_not_mem (hd.mem_handles_of_kept h)

theorem contentPage : d.contentPage.2.Addressed kept := by
  rw [Document.contentPage]
  split
  · exact hd
  · exact hd.insert _ _ (by simp [NodeKind.tag])

theorem contentSystem : d.contentSystem.2.Addressed kept := by
  rw [contentSystem_eq]
  split
  · exact hd
  · exact hd.contentPage.insert _ _ (by simp [NodeKind.tag])

theorem loose_contentSystem : Loose kept d.contentSystem.1 := by
  rw [contentSystem_eq]
  split
  · rename_i hf
    exact hd.loose_of_findLive? (.inr rfl) hf
  · exact hd.contentPage.loose_allocate

/-! ### Passes that rebuild pages and systems -/

theorem unbreak? (hok : d.unbreak? = .ok d') : d'.Addressed kept := by
  rw [Document.unbreak?] at hok
  split at hok
  · exact Except.ok.inj hok ▸ hd
  · have hpages : ∀ h ∈ d.pages.map Node.handle, Loose kept h :=
      fun h hmem => hd.loose_of_mem_children hd.apart hmem
    have hsystems : ∀ h ∈ d.systems.map Node.handle, Loose kept h := by
      intro h hmem
      obtain ⟨n, hn, rfl⟩ := List.mem_map.1 hmem
      obtain ⟨p, hp, hn⟩ := List.mem_flatMap.1 hn
      exact hd.loose_of_mem_children (hpages _ (List.mem_map_of_mem hp)).not_kept
        (List.mem_map_of_mem hn)
    refine reparentAll? (destroyAll hpages (destroyAll hsystems hd)).contentSystem ?_ hok
    intro h hmem
    obtain ⟨s, hs, hmem⟩ := List.mem_flatMap.1 hmem
    exact hd.loose_of_mem_children (hsystems _ hs).not_kept hmem

theorem emitSystem {page : Handle} {k : Nat} {overflow : Bool} {p : SystemPlan α}
    (hnodes : ∀ h ∈ p.nodes, Loose kept h)
    (hok : d.emitSystem page k overflow p = .ok d') : d'.Addressed kept := by
  rw [Document.emitSystem] at hok
  dsimp only at hok
  obtain ⟨d₁, h₁, hok⟩ := except_bind_eq_ok.1 hok
  have hd₁ := reparentAll? (hd.insert _ _ (by simp [NodeKind.tag])) hnodes h₁
  obtain ⟨ht, hc, hf⟩ := forall₂_placeMeasures 0 p.nodes d₁
  rw [← Except.ok.inj hok]
  exact (SameAddresses.mk (ht.mono fun _ _ => .of_sameMusic) hc hf).addressed hd₁

omit hd in
theorem emitSystems {r : BreakRules α} {page : Handle} : {plans : List (SystemPlan α)} →
    {k : Nat} → {marks marks' : List Mark} → {d d' : Document α} → d.Addressed kept →
    (∀ h ∈ plans.flatMap SystemPlan.nodes, Loose kept h) →
      emitSystems r page k marks d plans = .ok (marks', d') → d'.Addressed kept
  | [], _, _, _, _, _, hd, _, hok => by
      rw [Document.emitSystems, Except.ok.injEq, Prod.mk.injEq] at hok
      exact hok.2 ▸ hd
  | p :: plans, k, marks, _, d, _, hd, hnodes, hok => by
      rw [List.flatMap_cons, List.forall_mem_append] at hnodes
      rw [Document.emitSystems] at hok
      split at hok
      · exact emitSystems hd hnodes.2 hok
      · obtain ⟨d₁, h₁, hok⟩ := except_bind_eq_ok.1 hok
        exact emitSystems (hd.emitSystem hnodes.1 h₁) hnodes.2 hok

theorem breakContent {options : LayoutOptions α} {metrics : GlyphMetrics α} {marks : List Mark}
    (hok : d.breakContent options metrics = .ok (marks, d')) : d'.Addressed kept := by
  rw [Document.breakContent] at hok
  obtain ⟨d₁, h₁, hok⟩ := except_bind_eq_ok.1 hok
  have hd₂ := (hd.unbreak? h₁).contentSystem
  have hloose := (hd.unbreak? h₁).loose_contentSystem
  generalize d₁.contentSystem = target at hok hd₂ hloose
  obtain ⟨content, d₂⟩ := target
  dsimp only at hok hd₂ hloose
  obtain ⟨⟨marks₁, d₃⟩, h₃, hok⟩ := except_bind_eq_ok.1 hok
  have hd₃ := emitSystems hd₂ (fun h hmem => by
    rw [flatMap_nodes_planSystems, List.map_map] at hmem
    refine hd₂.loose_of_mem_children hloose.not_kept ?_
    rwa [children, ← List.map_congr_left fun m _ =>
      BreakItem.handle_ofNode d₂.definition metrics options.scaledUnit m]) h₃
  rw [← (Prod.mk.inj (Except.ok.inj hok)).2]
  exact (hd₃.destroy hloose).of_eq rfl rfl rfl

theorem breakSystems (options : LayoutOptions α) (metrics : GlyphMetrics α) :
    (d.breakSystems options metrics).document.Addressed kept := by
  rw [Document.breakSystems, Outcome.guarded]
  split
  · exact hd
  · split
    · rename_i hok
      exact hd.breakContent hok
    · exact hd

theorem emitPage {k : Nat} {p : PagePlan α} (hnodes : ∀ h ∈ p.nodes, Loose kept h)
    (hok : d.emitPage k p = .ok d') : d'.Addressed kept := by
  obtain ⟨ht, hc, hf⟩ := forall₂_placeSystems p.systems d
  have hplaced := (SameAddresses.mk (ht.mono fun _ _ => .of_sameMusic) hc hf).addressed hd
  exact reparentAll? (hplaced.insert _ _ (by simp [NodeKind.tag])) hnodes hok

omit hd in
theorem emitPages : {plans : List (PagePlan α)} → {k : Nat} → {d d' : Document α} →
    d.Addressed kept → (∀ h ∈ plans.flatMap PagePlan.nodes, Loose kept h) →
      emitPages k d plans = .ok d' → d'.Addressed kept
  | [], _, _, _, hd, _, hok => Except.ok.inj hok ▸ hd
  | p :: plans, k, d, _, hd, hnodes, hok => by
      rw [List.flatMap_cons, List.forall_mem_append] at hnodes
      rw [Document.emitPages] at hok
      obtain ⟨d₁, h₁, hok⟩ := except_bind_eq_ok.1 hok
      exact emitPages (hd.emitPage hnodes.1 h₁) hnodes.2 hok

theorem breakPages (options : LayoutOptions α) : (d.breakPages options).document.Addressed kept := by
  rw [Document.breakPages, Outcome.guarded]
  split
  · exact hd
  · split
    · rename_i content hcontent
      rw [paginate]
      dsimp only
      generalize hres : (Document.emitPages 1 d _ >>= fun d => _ : Except Fault (Document α)) = res
      cases res with
      | error f => exact hd
      | ok d' =>
        obtain ⟨d₁, h₁, hok⟩ := except_bind_eq_ok.1 hres
        have hloose := hd.loose_of_findLive? (.inl rfl) hcontent
        have hd₁ := emitPages hd (fun h hmem => by
          rw [flatMap_systems_planPages, List.map_map] at hmem
          exact hd.loose_of_mem_children hloose.not_kept hmem) h₁
        rw [Outcome.ofExcept, Outcome.done, ← Except.ok.inj hok]
        exact (hd₁.destroy hloose).of_eq rfl rfl rfl
    · exact hd.of_eq rfl rfl rfl

/-! ### Passes that leave the trees alone -/

theorem prepare : d.prepare.document.Addressed kept := by
  rw [Document.prepare]
  split
  · exact hd
  · rename_i d₁ h₁
    have hreset := (d₁.sameTree_reset.trans d₁.reset.sameTree_anchorControls).withStage .prepared
    exact (SameAddresses.of_sameTree hreset).addressed (hd.unbreak? h₁)

omit hd in
theorem sameAddresses_fillMeasures : {measures : List (Handle × Measure α)} → {x x' : α} →
    {gaps : List (Gap α)} → {d d' : Document α} → d.Addressed kept →
    (∀ p ∈ measures, p.1 ≠ Document.root) →
    d.fillMeasures x gaps measures = .ok (x', d') → d.SameAddresses d'
  | [], _, _, _, d, _, _, _, hok => by
      rw [fillMeasures, Except.ok.injEq, Prod.mk.injEq] at hok
      exact hok.2 ▸ .refl d
  | (h, m) :: measures, x, _, gaps, d, _, hd, hroot, hok => by
      rw [List.forall_mem_cons] at hroot
      rw [fillMeasures] at hok
      dsimp only at hok
      split at hok
      · rename_i grid _
        have hstep := sameAddresses_modify d (h := h)
          (f := fun n => { n with kind := .measure { m with grid, x } }) (fun _ => ⟨rfl, rfl⟩)
          fun n hn hh => iff_of_false (fun htag => by cases htag)
            fun hdoc => hroot.1 (hh ▸ hd.alone n hn hdoc)
        exact hstep.trans (sameAddresses_fillMeasures (hstep.addressed hd) hroot.2 hok)
      · exact absurd hok (by simp)

theorem sameAddresses_fillSystem {options : LayoutOptions α} {available : α} {isLast : Bool}
    {n : Node α} (hok : d.fillSystem options available isLast n = .ok d') :
    d.SameAddresses d' := by
  rw [fillSystem] at hok
  split at hok
  · exact Except.ok.inj hok ▸ .refl d
  · dsimp only at hok
    split at hok
    · exact Except.ok.inj hok ▸ .refl d
    · split at hok
      · exact Except.ok.inj hok ▸ .refl d
      · obtain ⟨⟨x, d₁⟩, h₁, hok⟩ := except_bind_eq_ok.1 hok
        have hfill : d.SameAddresses d₁ := by
          refine sameAddresses_fillMeasures hd (fun p hp => ?_) h₁
          obtain ⟨m, hm, heq⟩ := List.mem_filterMap.1 hp
          obtain ⟨measure, -, rfl⟩ := Option.map_eq_some_iff.1 heq
          exact hd.ne_root_of_mem_children (List.mem_map_of_mem hm)
        rw [← Except.ok.inj hok]
        exact hfill.trans
          (sameAddresses_modify d₁ (fun _ => ⟨rfl, rfl⟩)
            fun n _ _ => (n.kind.tag_mapSystem _).congr_left)

omit hd in
theorem sameAddresses_fillSystems {options : LayoutOptions α} {available : α} :
    {systems : List (Node α)} → {d d' : Document α} → d.Addressed kept →
    d.fillSystems options available systems = .ok d' → d.SameAddresses d'
  | [], d, _, _, hok => Except.ok.inj hok ▸ .refl d
  | n :: systems, d, _, hd, hok => by
      obtain ⟨d₁, h₁, hok⟩ := except_bind_eq_ok.1 hok
      have hstep := hd.sameAddresses_fillSystem h₁
      exact hstep.trans (sameAddresses_fillSystems (hstep.addressed hd) hok)

theorem fillLines (options : LayoutOptions α) : (d.fillLines options).document.Addressed kept := by
  rw [Document.fillLines, Outcome.guarded]
  split
  · exact hd
  · split
    · exact hd
    · rename_i available _
      split
      · cases hok : d.fillSystems options available d.systems with
        | error f => exact hd
        | ok d' => exact (sameAddresses_fillSystems hd hok).addressed hd
      · exact hd

omit hd in
theorem sameAddresses_spreadSystems (options : LayoutOptions α) (share : α) :
    (systems : List (Node α)) → (d : Document α) → (first : Bool) → (shift : α) →
      d.SameAddresses (spreadSystems options share first shift systems d).2
  | [], d, _, _ => .refl d
  | _ :: systems, d, _, _ =>
      (sameAddresses_modify d (f := fun n => n.mapKind (.mapSystem _)) (fun _ => ⟨rfl, rfl⟩)
        fun n _ _ => (n.kind.tag_mapSystem _).congr_left).trans
          (sameAddresses_spreadSystems options share systems _ false _)

omit hd in
theorem sameAddresses_fillPage (d : Document α) (options : LayoutOptions α) (available : α)
    (isLast : Bool) (n : Node α) : d.SameAddresses (d.fillPage options available isLast n) := by
  rw [fillPage]
  split
  · exact .refl d
  · dsimp only
    split_ifs
    · exact .refl d
    · exact .refl d
    · exact .refl d
    · exact (sameAddresses_spreadSystems options _ (d.childNodes n.handle) d true 0).trans
        (sameAddresses_modify _ (fun _ => ⟨rfl, rfl⟩) fun n _ _ => (n.kind.tag_mapPage _).congr_left)

omit hd in
theorem sameAddresses_spreadPages (options : LayoutOptions α) (available : α) :
    (pages : List (Node α)) → (d : Document α) →
      d.SameAddresses (d.spreadPages options available pages)
  | [], d => .refl d
  | n :: pages, d => (sameAddresses_fillPage d options available pages.isEmpty n).trans
      (sameAddresses_spreadPages options available pages _)

theorem fillPages (options : LayoutOptions α) : (d.fillPages options).document.Addressed kept := by
  rw [Document.fillPages, Outcome.guarded]
  split
  · exact hd
  · dsimp only
    split
    · exact ((sameAddresses_spreadPages options _ d.pages d).withStage _).addressed hd
    · exact ((SameAddresses.refl d).withStage _).addressed hd

theorem place (options : LayoutOptions α) (metrics : GlyphMetrics α) :
    (d.place options metrics).document.Addressed kept := by
  obtain ⟨score, stage, hsame, heq⟩ := hd.rooted.exists_place hd.nodup_handles options metrics
  rw [heq]
  have htree := d.sameTree_withScore (hsame.mono fun _ _ h => h.sameMusic)
  exact (SameAddresses.of_sameTree (htree.withStage stage)).addressed hd

/-! ### All passes -/

/-- Every pass keeps handles apart, also where it ends in a fault. -/
theorem run (e : Engine α) (pass : LayoutPass) : (e.run d pass).document.Addressed kept := by
  have hsame {d' : Document α} (h : d.SameTree d') : d'.Addressed kept :=
    (SameAddresses.of_sameTree h).addressed hd
  cases pass with
  | prepare => exact hd.prepare
  | align => exact hsame (d.sameTree_align e.metrics e.options.scaledUnit)
  | space => exact hsame (d.sameTree_space e.options)
  | breakSystems => exact hd.breakSystems e.options e.metrics
  | stackStaves => exact hsame (d.sameTree_stackStaves e.options e.metrics)
  | breakPages => exact hd.breakPages e.options
  | fillLines => exact hd.fillLines e.options
  | fillPages => exact hd.fillPages e.options
  | place => exact hd.place e.options e.metrics

end Addressed

end Document

end ScoreLayout
