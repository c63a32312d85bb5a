import ScoreLayout.Proofs.Content
import ScoreLayout.Proofs.Score.Addresses

/-!
# The system of the unbroken content

Whoever builds a score asks for the system that holds its content before it is broken, and asks
again whenever more is added. The system is found by its identifier and is made, with its page, where
the score has none. Asking never disturbs what is there: it adds at most a page and a system, each as
the last child of its parent.

Asking twice gives one system, unless a detached node carries the identifier of the system. That
is a defect: the identifier then belongs to a node out of the score, so a new system gets another
one, and is not found when it is asked for again.

## Main definitions

* `Document.FreelyReachable` — the documents that a caller comes to, whatever identifiers it chooses.
* `Document.ExtendedBy` — a document with further nodes, each the last child of its parent.
* `Document.ReservesIds` — the reserved identifiers of a score belong to a page and to a system on a
  page.
* `Document.GivesContentSystem` — what asking for the system does.

## Main results

* `Document.FreelyReachable.gives_content_system` — asking is safe, and when it gives one system.
* `Document.Reachable.reservesIds` — who keeps off the reserved identifiers always gets a system.
* `Document.FreelyReachable.further_system_beside_detached` — the defect.
-/

namespace ScoreLayout

namespace Document

variable {α : Type}

/-! ### Documents with further nodes -/

/-- A document with further nodes, each added below the node of a handle. Everything else is as it
was, and the nodes that were there have further children only at the end. -/
structure ExtendedBy (d d' : Document α) (added : List (Handle × Node α)) : Prop where
  node? : ∀ h n, d'.node? h = some n ↔ d.node? h = some n ∨ n ∈ added.map Prod.snd ∧ n.handle = h
  fresh : ∀ l ∈ added, d.node? l.2.handle = none
  parent? : ∀ h, (d.node? h).isSome → d'.parent? h = d.parent? h
  parent?_added : ∀ l ∈ added, d'.parent? l.2.handle = some l.1
  children : ∀ h, (d.node? h).isSome →
    d'.children h = d.children h ++ (added.filter fun l => l.1 = h).map fun l => l.2.handle
  live : ∀ h, (d.node? h).isSome → d'.isLive h = d.isLive h
  live_added : ∀ l ∈ added, d'.isLive l.2.handle
  definition : d'.definition = d.definition
  counter : d'.counter = d.counter
  stage : d'.stage = d.stage

namespace ExtendedBy

variable {d d₁ d₂ : Document α} {added more : List (Handle × Node α)}

theorem refl (d : Document α) : d.ExtendedBy d [] where
  node? h n := by simp
  fresh l hl := absurd hl List.not_mem_nil
  parent? _ _ := rfl
  parent?_added l hl := absurd hl List.not_mem_nil
  children h _ := by simp
  live _ _ := rfl
  live_added l hl := absurd hl List.not_mem_nil
  definition := rfl
  counter := rfl
  stage := rfl

theorem isSome_node? (h : d.ExtendedBy d₁ added) {i : Handle} (hi : (d.node? i).isSome) :
    (d₁.node? i).isSome := by
  obtain ⟨n, hn⟩ := Option.isSome_iff_exists.1 hi
  exact Option.isSome_iff_exists.2 ⟨n, (h.node? i n).2 (.inl hn)⟩

theorem isSome_node?_added (h : d.ExtendedBy d₁ added) {l : Handle × Node α} (hl : l ∈ added) :
    (d₁.node? l.2.handle).isSome :=
  Option.isSome_iff_exists.2
    ⟨l.2, (h.node? _ _).2 (.inr ⟨List.mem_map_of_mem hl, rfl⟩)⟩

theorem trans (h : d.ExtendedBy d₁ added) (h' : d₁.ExtendedBy d₂ more) :
    d.ExtendedBy d₂ (added ++ more) where
  node? i n := by
    rw [h'.node?, h.node?, List.map_append, List.mem_append, or_and_right, or_assoc]
  fresh l hl := by
    obtain hl | hl := List.mem_append.1 hl
    · exact h.fresh l hl
    · cases hn : d.node? l.2.handle with
      | none => rfl
      | some n =>
        have := h.isSome_node? (i := l.2.handle) (by rw [hn]; rfl)
        rw [h'.fresh l hl] at this
        cases this
  parent? i hi := (h'.parent? i (h.isSome_node? hi)).trans (h.parent? i hi)
  parent?_added l hl := by
    obtain hl | hl := List.mem_append.1 hl
    · rw [h'.parent? _ (h.isSome_node?_added hl), h.parent?_added l hl]
    · exact h'.parent?_added l hl
  children i hi := by
    rw [h'.children i (h.isSome_node? hi), h.children i hi, List.filter_append, List.map_append,
      List.append_assoc]
  live i hi := (h'.live i (h.isSome_node? hi)).trans (h.live i hi)
  live_added l hl := by
    obtain hl | hl := List.mem_append.1 hl
    · rw [h'.live _ (h.isSome_node?_added hl)]
      exact h.live_added l hl
    · exact h'.live_added l hl
  definition := h'.definition.trans h.definition
  counter := h'.counter.trans h.counter
  stage := h'.stage.trans h.stage

end ExtendedBy

/-- A node that is there has another handle than the next one. -/
theorem Addressed.exists_of_isSome_node? {kept : List (Node α)} {d : Document α}
    (hd : d.Addressed kept) {h : Handle} (hh : (d.node? h).isSome) :
    ∃ n ∈ d.trees.toList, n.handle = h ∧ d.allocate.1 ≠ h := by
  obtain ⟨n, hnode⟩ := Option.isSome_iff_exists.1 hh
  obtain ⟨hn, rfl⟩ := (node?_eq_some_iff_of_nodup hd.nodup_handles).1 hnode
  exact ⟨n, hn, rfl, fun heq => hd.allocate_not_mem (heq ▸ List.mem_map_of_mem hn)⟩

/-- A further child disturbs nothing. -/
theorem Addressed.extendedBy_insertAs [Scalar α] {kept : List (Node α)} {d : Document α}
    (hd : d.Addressed kept) {p : Node α} (hp : p ∈ d.score.toList) {id : String} (hid : id ∉ d.ids)
    {kind : NodeKind α} (hkind : kind.tag ≠ .document) :
    d.ExtendedBy (d.insertAs p.handle id kind).2
      [(p.handle, .new d.allocate.1 id kind)] := by
  have hnodup := hd.nodup_handles
  have hd' := hd.insertAs p.handle hid hkind
  have hnodup' := hd'.nodup_handles
  have hmem := (score_sublist d).subset hp
  have hlinks := links_insertAs hnodup hmem id kind
  have hlist := toList_insertAs hnodup hmem id kind
  have hscore (n : Node α) := mem_score_insertAs (n := n) hp id kind
  constructor
  case node? =>
    intro i n
    rw [node?_eq_some_iff_of_nodup hnodup', node?_eq_some_iff_of_nodup hnodup, hlist.mem_iff,
      List.mem_cons, or_and_right, or_comm]
    simp
  case fresh =>
    intro l hl
    rw [List.mem_singleton.1 hl]
    cases hn : d.node? d.allocate.1 with
    | none => exact hn
    | some n => exact absurd rfl (hd.exists_of_isSome_node? (by rw [hn]; rfl)).choose_spec.2.2
  case parent? =>
    intro i hi
    obtain ⟨n, hn, rfl, hne⟩ := hd.exists_of_isSome_node? hi
    rw [Document.parent?, Document.parent?]
    congr 1
    refine Option.ext fun a => ?_
    rw [parentNode?_eq_some_iff_of_nodup hnodup', parentNode?_eq_some_iff_of_nodup hnodup]
    refine exists_congr fun m => and_congr_left fun hm => ?_
    rw [hlinks.mem_iff, List.mem_cons, or_iff_right]
    rintro hl
    exact hne ((congrArg (fun l : Option (Node α) × Node α => l.2.handle) hl).symm.trans hm)
  case parent?_added =>
    intro l hl
    rw [List.mem_singleton.1 hl, Document.parent?, Option.map_eq_some_iff]
    exact ⟨p, (parentNode?_eq_some_iff_of_nodup hnodup').2
      ⟨_, hlinks.mem_iff.2 List.mem_cons_self, rfl⟩, rfl⟩
  case children =>
    intro i hi
    obtain ⟨n, hn, rfl, -⟩ := hd.exists_of_isSome_node? hi
    obtain ⟨below, htree⟩ := Forest.exists_hasTree hn
    have htree' := htree.graft (hasHandle p.handle) (.tree (.new d.allocate.1 id kind) .nil)
    have htrees : (d.insertAs p.handle id kind).2.trees =
        d.trees.graft (hasHandle p.handle) (.tree (.new d.allocate.1 id kind) .nil) := by
      rw [Document.insertAs, attach, allocate_trees]
    rw [Document.children, Document.children, childNodes, childNodes, below_eq_of_nodup hnodup htree,
      below_eq_of_nodup hnodup' (htrees ▸ htree'), hasHandle]
    by_cases hpn : n.handle = p.handle
    · simp [hpn, Forest.tree, Forest.roots]
    · simp [hpn, Ne.symm hpn]
  case live =>
    intro i hi
    obtain ⟨n, hn, rfl, hne⟩ := hd.exists_of_isSome_node? hi
    rw [Bool.eq_iff_iff, isLive_iff, isLive_iff]
    refine exists_congr fun m => and_congr_left fun hm => ?_
    rw [hscore, or_iff_right]
    rintro rfl
    exact hne hm
  case live_added =>
    intro l hl
    rw [List.mem_singleton.1 hl, isLive_iff]
    exact ⟨_, (hscore _).2 (.inl rfl), rfl⟩
  all_goals simp [Document.insertAs, attach]

/-! ### What asking does -/

/-- The reserved identifiers of a score belong to a page and to a system on a page. -/
structure ReservesIds (d : Document α) : Prop where
  page : ∀ n ∈ d.score.toList, n.id = contentPageId → n.tag = .page
  system : ∀ n ∈ d.score.toList, n.id = contentSystemId →
    n.tag = .system ∧ ∃ p ∈ d.score.toList, p.tag = .page ∧ d.parentNode? n.handle = some p

variable [Scalar α]

/-- What asking a document for the system of the unbroken content does. -/
structure GivesContentSystem (d : Document α) : Prop where
  live : d.contentSystem.2.isLive d.contentSystem.1
  /-- At most a page and a system are added, and nothing else is changed. -/
  extended : ∃ added, d.ExtendedBy d.contentSystem.2 added ∧
    added.map (fun l => l.2.kind) <:+ [.page .empty, .system .empty]
  /-- It is a system on a page of the score. -/
  system : d.ReservesIds → ∃ s p, d.contentSystem.2.node? d.contentSystem.1 = some s ∧
    s.tag = .system ∧ d.contentSystem.2.parentNode? d.contentSystem.1 = some p ∧ p.tag = .page ∧
      d.contentSystem.2.isLive p.handle
  /-- Asking again gives the same system and changes nothing, unless only detached nodes carry its
  identifier. -/
  again : d.contentSystem.2.contentSystem = d.contentSystem ↔
    (d.findLive? contentSystemId).isSome ∨
      ∀ n ∈ d.trees.rest.toList, n.id ≠ contentSystemId

namespace Addressed

variable {kept : List (Node α)} {d : Document α} (hd : d.Addressed kept)

include hd

omit [Scalar α] in
theorem exists_root_score : ∃ r ∈ d.score.toList, r.handle = Document.root := by
  obtain ⟨r, below, detached, htrees, hr, -⟩ := hd.root
  refine ⟨r, ?_, hr⟩
  rw [score, htrees, Forest.first, Forest.tree, Forest.toList]
  exact List.mem_cons_self

omit [Scalar α] in
/-- A node of the score is found before any detached one. -/
theorem isSome_findLive?_iff {id : String} :
    (d.findLive? id).isSome ↔ ∃ n ∈ d.score.toList, n.id = id := by
  refine ⟨fun h => ?_, fun ⟨n, hn, hid⟩ => ?_⟩
  · obtain ⟨i, hi⟩ := Option.isSome_iff_exists.1 h
    obtain ⟨n, hn, hid, -⟩ := hd.exists_of_findLive? hi
    exact ⟨n, hn, hid⟩
  · obtain ⟨m, hm⟩ := Option.isSome_iff_exists.1 (List.find?_isSome.2 ⟨n, hn, by simpa [hasId]⟩ :
      (d.score.toList.find? (hasId id)).isSome)
    have hfind : d.find? id = some m.handle := by
      rw [Document.find?, Forest.find?_eq_find?_toList, ← first_append_rest d.trees,
        Forest.toList_append, List.find?_append, show d.trees.first = d.score from rfl, hm]
      rfl
    rw [findLive?, hfind, Option.filter_some,
      if_pos ((isLive_iff d _).2 ⟨m, List.mem_of_find?_eq_some hm, rfl⟩)]
    rfl

/-- The page of the unbroken content is a node of the score, or a further child of the root. -/
theorem contentPage_cases :
    (∃ p ∈ d.score.toList, p.id = contentPageId ∧ d.contentPage = (p.handle, d)) ∨
      ∃ r ∈ d.score.toList,
        d.contentPage = d.insertAs r.handle (freeId d.ids contentPageId) (.page .empty) := by
  rw [Document.contentPage]
  cases hf : d.findLive? contentPageId with
  | some h =>
    obtain ⟨p, hp, hid, rfl⟩ := hd.exists_of_findLive? hf
    exact .inl ⟨p, hp, hid, rfl⟩
  | none =>
    obtain ⟨r, hr, hroot⟩ := hd.exists_root_score
    exact .inr ⟨r, hr, by rw [← hroot, insert_eq, suffixedId_eq]⟩

/-- The system of the unbroken content is a node of the score, or a further child of its page. -/
theorem contentSystem_cases :
    (∃ s ∈ d.score.toList, s.id = contentSystemId ∧ d.contentSystem = (s.handle, d)) ∨
      (∀ n ∈ d.score.toList, n.id ≠ contentSystemId) ∧
        d.contentSystem = d.contentPage.2.insertAs d.contentPage.1
          (freeId d.contentPage.2.ids contentSystemId) (.system .empty) := by
  rw [contentSystem_eq]
  cases hf : d.findLive? contentSystemId with
  | some h =>
    obtain ⟨s, hs, hid, rfl⟩ := hd.exists_of_findLive? hf
    exact .inl ⟨s, hs, hid, rfl⟩
  | none =>
    refine .inr ⟨fun n hn hid => ?_, by rw [← suffixedId_eq, ← insert_eq]⟩
    have := hd.isSome_findLive?_iff.2 ⟨n, hn, hid⟩
    rw [hf] at this
    cases this

/-- The page of the unbroken content belongs to the score, and at most this page is added. -/
theorem extendedBy_contentPage : ∃ p ∈ d.contentPage.2.score.toList,
    p.handle = d.contentPage.1 ∧ (d.ReservesIds → p.tag = .page) ∧
      ∃ added, d.ExtendedBy d.contentPage.2 added ∧
        added.map (fun l => l.2.kind) <:+ [.page .empty] := by
  obtain ⟨p, hp, hid, hpage⟩ | ⟨r, hr, hpage⟩ := hd.contentPage_cases
  · rw [hpage]
    exact ⟨p, hp, rfl, fun h => h.page p hp hid, [], .refl d, List.nil_suffix⟩
  · rw [hpage]
    exact ⟨_, (mem_score_insertAs hr _ _).2 (.inl rfl), rfl, fun _ => rfl, _,
      hd.extendedBy_insertAs hr (freeId_not_mem _ _) (by simp [NodeKind.tag]), List.suffix_rfl⟩

/-- Making the page does not take the identifier of the system. -/
theorem contentPage_ids {n : Node α} (hn : n ∈ d.contentPage.2.trees.toList)
    (hid : n.id = contentSystemId) : n ∈ d.trees.toList := by
  obtain ⟨p, -, -, hpage⟩ | ⟨r, hr, hpage⟩ := hd.contentPage_cases
  · rwa [hpage] at hn
  · rw [hpage, (toList_insertAs hd.nodup_handles ((score_sublist d).subset hr) _ _).mem_iff,
      List.mem_cons] at hn
    refine hn.resolve_left ?_
    rintro rfl
    have hne : contentPageId ≠ contentSystemId := by decide +kernel
    obtain heq | hend := freeId_eq_or_endsInDigit d.ids contentPageId
    · exact hne (heq.symm.trans hid)
    · exact hend.ne_contentSystemId hid

/-- Where the system is made, it is the last node added, below the page. -/
theorem extendedBy_of_made
    (hmade : d.contentSystem = d.contentPage.2.insertAs d.contentPage.1
      (freeId d.contentPage.2.ids contentSystemId) (.system .empty)) :
    ∃ p added, (d.ReservesIds → p.tag = .page) ∧
      added.map (fun l : Handle × Node α => l.2.kind) <:+ [.page .empty] ∧
      d.ExtendedBy d.contentSystem.2 (added ++ [(p.handle, .new d.contentSystem.1
        (freeId d.contentPage.2.ids contentSystemId) (.system .empty))]) ∧
      p ∈ d.contentSystem.2.score.toList ∧ (some p, Node.new d.contentSystem.1
        (freeId d.contentPage.2.ids contentSystemId) (.system .empty)) ∈
          d.contentSystem.2.trees.links none := by
  obtain ⟨p, hp, hph, htag, added, hext, hkinds⟩ := hd.extendedBy_contentPage
  rw [← hph] at hmade
  have hlast := hd.contentPage.extendedBy_insertAs hp
    (freeId_not_mem d.contentPage.2.ids contentSystemId)
    (show (NodeKind.system ScoreSystem.empty).tag ≠ .document by simp [NodeKind.tag])
  have hlinks := links_insertAs hd.contentPage.nodup_handles ((score_sublist _).subset hp)
    (freeId d.contentPage.2.ids contentSystemId) (.system .empty)
  have hscore := (mem_score_insertAs (n := p) hp (freeId d.contentPage.2.ids contentSystemId)
    (.system .empty)).2 (.inr hp)
  refine ⟨p, added, htag, hkinds, ?_⟩
  rw [hmade]
  exact ⟨hext.trans hlast, hscore, hlinks.mem_iff.2 List.mem_cons_self⟩

/-- No node of the score has the identifier of the system after its page is made, if none had it. -/
theorem ne_contentSystemId_of_contentPage (hnone : ∀ n ∈ d.score.toList, n.id ≠ contentSystemId)
    {n : Node α} (hn : n ∈ d.contentPage.2.score.toList) : n.id ≠ contentSystemId := by
  intro hid
  obtain ⟨-, -, -, -, added, hext, -⟩ := hd.extendedBy_contentPage
  have hold := hd.contentPage_ids ((score_sublist _).subset hn) hid
  have hnode := (node?_eq_some_iff_of_nodup hd.nodup_handles).2 ⟨hold, rfl⟩
  have hlive := hext.live n.handle (by rw [hnode]; rfl)
  rw [(isLive_iff _ _).2 ⟨n, hn, rfl⟩] at hlive
  obtain ⟨m, hm, hmn⟩ := (isLive_iff d n.handle).1 hlive.symm
  rw [List.inj_on_of_nodup_map hd.nodup_handles ((score_sublist d).subset hm) hold hmn] at hm
  exact hnone n hm hid

/-- A system that is made for unbroken content is found again exactly when it gets the identifier
that it is looked up under, which no detached node may carry. -/
theorem again_of_made (hnone : ∀ n ∈ d.score.toList, n.id ≠ contentSystemId)
    (hmade : d.contentSystem = d.contentPage.2.insertAs d.contentPage.1
      (freeId d.contentPage.2.ids contentSystemId) (.system .empty)) :
    d.contentSystem.2.contentSystem = d.contentSystem ↔
      ∀ n ∈ d.trees.rest.toList, n.id ≠ contentSystemId := by
  obtain ⟨p, added, -, -, hext, -⟩ := hd.extendedBy_of_made hmade
  obtain ⟨q, hq, hqh, -, pages, hpages, -⟩ := hd.extendedBy_contentPage
  have hscore (n : Node α) : n ∈ d.contentSystem.2.score.toList ↔
      n = .new d.contentSystem.1 (freeId d.contentPage.2.ids contentSystemId) (.system .empty) ∨
        n ∈ d.contentPage.2.score.toList := by
    rw [hmade, ← hqh]
    exact mem_score_insertAs hq _ _
  have hafter := hd.contentSystem.contentSystem_cases
  constructor
  · -- a detached node with the identifier leaves the system unfound, and so another is made
    intro hagain n hn hid
    have hused : contentSystemId ∈ d.contentPage.2.ids := by
      have hmem : n ∈ d.trees.toList := by
        rw [← first_append_rest d.trees, Forest.toList_append]
        exact List.mem_append_right _ hn
      have hnode := (hpages.node? n.handle n).2
        (.inl ((node?_eq_some_iff_of_nodup hd.nodup_handles).2 ⟨hmem, rfl⟩))
      exact List.mem_map.2
        ⟨n, ((node?_eq_some_iff_of_nodup hd.contentPage.nodup_handles).1 hnode).1, hid⟩
    obtain ⟨s, hs, hsid, -⟩ | ⟨-, hmade'⟩ := hafter
    · obtain rfl | hs := (hscore s).1 hs
      · have := freeId_not_mem d.contentPage.2.ids contentSystemId
        rw [show freeId _ contentSystemId = contentSystemId from hsid] at this
        exact this hused
      · exact hd.ne_contentSystemId_of_contentPage hnone hs hsid
    · obtain ⟨q', further, -, -, hext', -⟩ := hd.contentSystem.extendedBy_of_made hmade'
      have hfresh := hext'.fresh _ (List.mem_append_right _ List.mem_cons_self)
      have hthere := hext.isSome_node?_added (List.mem_append_right _ List.mem_cons_self)
      simp only [hagain, Node.new] at hfresh hthere
      rw [hfresh] at hthere
      cases hthere
  · intro hdetached
    have hfree : freeId d.contentPage.2.ids contentSystemId = contentSystemId := by
      refine freeId_of_not_mem fun hmem => ?_
      obtain ⟨n, hn, hid⟩ := List.mem_map.1 hmem
      have hold := hd.contentPage_ids hn hid
      rw [← first_append_rest d.trees, Forest.toList_append, List.mem_append] at hold
      exact hold.elim (fun h => hnone n h hid) fun h => hdetached n h hid
    obtain ⟨s, hs, hsid, hfound⟩ | ⟨hnew, -⟩ := hafter
    · obtain rfl | hs := (hscore s).1 hs
      · exact hfound
      · exact absurd hsid (hd.ne_contentSystemId_of_contentPage hnone hs)
    · exact absurd hfree (hnew _ ((hscore _).2 (.inl rfl)))

/-- What asking does, wherever handles tell nodes apart. -/
theorem givesContentSystem : d.GivesContentSystem := by
  obtain ⟨s, hs, hid, heq⟩ | ⟨hnone, hmade⟩ := hd.contentSystem_cases
  · have hnode := (node?_eq_some_iff_of_nodup hd.nodup_handles).2
      ⟨(score_sublist d).subset hs, rfl⟩
    constructor
    · rw [heq]
      exact (isLive_iff d _).2 ⟨s, hs, rfl⟩
    · rw [heq]
      exact ⟨[], .refl d, List.nil_suffix⟩
    · intro hres
      obtain ⟨htag, p, hp, hpage, hparent⟩ := hres.system s hs hid
      rw [heq]
      exact ⟨s, p, hnode, htag, hparent, hpage, (isLive_iff d _).2 ⟨p, hp, rfl⟩⟩
    · refine iff_of_true (by rw [heq]; exact heq) (.inl (hd.isSome_findLive?_iff.2 ⟨s, hs, hid⟩))
  · obtain ⟨p, added, hpage, hkinds, hext, hp, hlink⟩ := hd.extendedBy_of_made hmade
    have hlast := List.mem_append_right added
      (List.mem_singleton.2 (rfl : (p.handle, Node.new d.contentSystem.1
        (freeId d.contentPage.2.ids contentSystemId) (.system .empty)) = _))
    constructor
    · exact hext.live_added _ hlast
    · refine ⟨_, hext, ?_⟩
      rw [List.map_append]
      obtain ⟨front, hfront⟩ := hkinds
      exact ⟨front, by rw [← List.append_assoc, hfront]; rfl⟩
    · intro hres
      exact ⟨_, p, (hext.node? _ _).2 (.inr ⟨List.mem_map_of_mem hlast, rfl⟩), rfl,
        (parentNode?_eq_some_iff_of_nodup hd.contentSystem.nodup_handles).2 ⟨_, hlink, rfl⟩,
        hpage hres, (isLive_iff _ _).2 ⟨p, hp, rfl⟩⟩
    · rw [hd.again_of_made hnone hmade, hd.isSome_findLive?_iff, or_iff_right]
      exact fun ⟨n, hn, hid⟩ => hnone n hn hid

end Addressed

/-! ### The documents that a caller comes to -/

/-- The documents that a caller comes to, whatever identifiers it chooses. Layouts and passes may end
in a fault. -/
inductive FreelyReachable : Document α → Prop
  | ofDefinition (definition : ScoreDefinition) : FreelyReachable (ofDefinition definition)
  | contentSystem {d : Document α} (h : FreelyReachable d) : FreelyReachable d.contentSystem.2
  | add {d : Document α} (h : FreelyReachable d) (parent : Handle) (kind : NodeKind α) :
      FreelyReachable (d.add parent kind).2
  | addNamed {d d' : Document α} (h : FreelyReachable d) {parent child : Handle} {id : String}
      {kind : NodeKind α} (hok : d.addNamed parent id kind = .ok (child, d')) : FreelyReachable d'
  | remove {d d' : Document α} (h : FreelyReachable d) {parent child : Handle}
      (hok : d.remove parent child = .ok d') : FreelyReachable d'
  | detach {d d' : Document α} (h : FreelyReachable d) {node : Handle}
      (hok : d.detach node = .ok d') : FreelyReachable d'
  | collect {d : Document α} (h : FreelyReachable d) : FreelyReachable d.collect.2
  | layout {d : Document α} (h : FreelyReachable d) (e : Engine α) :
      FreelyReachable (e.layout d).document
  | pass {d : Document α} (h : FreelyReachable d) (e : Engine α) (pass : LayoutPass) :
      FreelyReachable (e.run d pass).document

namespace Addressed

variable {kept : List (Node α)} {d d' : Document α} (hd : d.Addressed kept)

include hd

omit [Scalar α] in
theorem markDirty (h : Handle) : (d.markDirty h).Addressed kept :=
  (sameAddresses_modify d (f := fun n => { n with dirty := true }) (fun _ => ⟨rfl, rfl⟩)
    fun _ _ _ => .rfl).addressed hd

theorem addNamed {parent child : Handle} {id : String} {kind : NodeKind α}
    (hok : d.addNamed parent id kind = .ok (child, d')) : d'.Addressed kept := by
  rw [Document.addNamed] at hok
  split at hok
  · cases hok
  · split_ifs at hok with haccepts hid
    obtain ⟨-, rfl⟩ := Prod.mk.inj (Except.ok.inj hok)
    rw [hasNodeWithId_iff] at hid
    have hinsert := hd.insertAs parent hid fun hdoc =>
      NodeKind.not_accepts_document hdoc haccepts
    exact (hinsert.markDirty parent).of_eq rfl rfl rfl

theorem add (parent : Handle) (kind : NodeKind α) : (d.add parent kind).2.Addressed kept := by
  have hcount : { d with counter := (d.freshId kind.name).2 }.Addressed kept :=
    hd.of_eq rfl rfl rfl
  rw [Document.add]
  dsimp only
  split
  · rename_i hok
    exact hcount.addNamed hok
  · exact hcount

omit [Scalar α] in
theorem remove {parent child : Handle} (hok : d.remove parent child = .ok d') :
    d'.Addressed kept := by
  rw [Document.remove] at hok
  split_ifs at hok with _ _ hmem
  rw [← Except.ok.inj hok]
  exact ((hd.cut (hd.ne_root_of_mem_children hmem)).markDirty parent).of_eq rfl rfl rfl

omit [Scalar α] in
theorem detach {node : Handle} (hok : d.detach node = .ok d') : d'.Addressed kept := by
  rw [Document.detach] at hok
  split_ifs at hok
  split at hok
  · exact hd.remove hok
  · exact Except.ok.inj hok ▸ hd

theorem layout (e : Engine α) : (e.layout d).document.Addressed kept := by
  rw [Engine.layout, Engine.runAll]
  exact foldl_run LayoutPass.all (P := Addressed kept) (fun _ hd pass _ => hd.run e pass) hd

end Addressed

theorem FreelyReachable.addressed {d : Document α} (h : d.FreelyReachable) : d.Addressed [] := by
  induction h with
  | ofDefinition definition => exact addressed_ofDefinition definition
  | contentSystem _ hd => exact hd.contentSystem
  | add _ parent kind hd => exact hd.add parent kind
  | addNamed _ hok hd => exact hd.addNamed hok
  | remove _ hok hd => exact hd.remove hok
  | detach _ hok hd => exact hd.detach hok
  | collect _ hd => exact hd.collect
  | layout _ e hd => exact hd.layout e
  | pass _ e pass hd => exact hd.run e pass

/-- Whatever a caller does, asking for the system of the unbroken content gives a node of the score
and disturbs nothing. Where the reserved identifiers are kept it gives a system on a page, and where
no detached node carries the identifier of the system, asking again gives the same one. -/
theorem FreelyReachable.gives_content_system {d : Document α} (h : d.FreelyReachable) :
    d.GivesContentSystem :=
  h.addressed.givesContentSystem

/-- Asking for the system of a score that has lost its own to a detached tree. -/
theorem FreelyReachable.gives_content_system_of_detached : ∃ d : Document Float,
    d.FreelyReachable ∧ d.trees.rest.size = 1 ∧ d.GivesContentSystem := by
  have hd := ((FreelyReachable.ofDefinition (α := Float) default).contentSystem).detach
    (show Document.detach _ 2 = _ from rfl)
  exact ⟨_, hd, by decide +kernel, hd.gives_content_system⟩

/-- After the system of the unbroken content has been detached, asking twice gives two systems. -/
theorem FreelyReachable.further_system_beside_detached : ∃ d : Document Float,
    d.FreelyReachable ∧ d.contentSystem.2.contentSystem.1 ≠ d.contentSystem.1 ∧
      d.contentSystem.2.systems.length = 1 ∧
      d.contentSystem.2.contentSystem.2.systems.length = 2 :=
  ⟨_, ((FreelyReachable.ofDefinition (α := Float) default).contentSystem).detach
    (show Document.detach _ 2 = _ from rfl), by decide +kernel, by decide +kernel,
    by decide +kernel⟩

/-! ### Who keeps off the reserved identifiers -/

/-- A caller who keeps off the reserved identifiers always gets a system on a page. -/
theorem Reachable.reservesIds {d : Document α} (h : d.Reachable) : d.ReservesIds := by
  have hd := h.wellFormed
  refine ⟨fun n hn => (hd.reserved n ((score_sublist d).subset hn)).1, fun n hn hid => ?_⟩
  have htag := (hd.reserved n ((score_sublist d).subset hn)).2 hid
  refine ⟨htag, ?_⟩
  obtain ⟨r, below, detached, htrees, hr, hroot⟩ := hd.root
  have hscore : d.score = .tree r below := by rw [score, htrees]; rfl
  have hin : n ∈ below.toList := by
    rw [hscore, Forest.toList_tree, List.mem_cons] at hn
    refine hn.resolve_left ?_
    rintro rfl
    rw [hroot] at htag
    cases htag
  obtain ⟨p, hl⟩ := Forest.exists_link_some r hin
  have hlink : (some p, n) ∈ d.trees.links none := by
    rw [htrees, Forest.links]
    exact List.mem_cons_of_mem _ (List.mem_append_left _ hl)
  refine ⟨p, ?_, NodeKind.eq_page_of_accepts (hd.accepts p n hlink) htag,
    hd.parentNode?_eq_some_iff.2 ⟨n, hlink, rfl⟩⟩
  rw [hscore, Forest.tree, Forest.toList, List.mem_cons, List.mem_append]
  obtain hp | hp := Forest.mem_of_mem_links hl
  · exact .inl (Option.some.inj hp).symm
  · exact .inr (.inl hp)

end Document

end ScoreLayout
