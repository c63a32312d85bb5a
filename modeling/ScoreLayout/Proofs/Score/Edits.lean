import Mathlib.Tactic.Common
import ScoreLayout.Proofs.Score.WellFormed

/-!
# Edits of well-formed documents

Every edit of a well-formed document leads to one: the edits that a caller makes, and those by which
the layout takes pages and systems apart and builds them again. The step of each edit is said on
links; that a moved node is not above its new parent follows from the order of the kinds.

## Main definitions

* `Document.IsA` — a handle belongs to a node of some kind.
* `Document.insertAs` — a further child under an identifier that is known to be free.
* `Document.contentPage` — the page that holds the unbroken content.

## Main results

* `Document.WellFormed.addNamed`, `Document.WellFormed.add`, `Document.WellFormed.remove`,
  `Document.WellFormed.detach`, `Document.WellFormed.collect`,
  `Document.WellFormed.contentSystem` — the edits of a caller.
* `Document.WellFormed.insert`, `Document.WellFormed.destroy`,
  `Document.WellFormed.reparentAll?` — the edits of the layout.
-/

namespace ScoreLayout

variable {α : Type}

/-- A step after another is done when both are. -/
theorem except_bind_eq_ok {ε β γ : Type} {x : Except ε β} {next : β → Except ε γ} {c : γ} :
    x >>= next = .ok c ↔ ∃ b, x = .ok b ∧ next b = .ok c := by
  cases x with
  | error e => simp [bind, Except.bind]
  | ok b => simp [bind, Except.bind]

/-! ### The order of the kinds -/

/-- How far below the document node a kind stands. -/
def NodeTag.depth : NodeTag → Nat
  | document => 0
  | page => 1
  | system => 2
  | measure | change | systemBreak | pageBreak => 3
  | staff | control => 4
  | layer => 5
  | element => 6

theorem NodeKind.depth_le_of_accepts {a b : NodeKind α} (h : a.accepts b) :
    a.tag.depth ≤ b.tag.depth := by
  cases a <;> cases b <;> simp_all [accepts, tag, NodeTag.depth]

theorem NodeKind.depth_lt_of_accepts {a b : NodeKind α} (h : a.accepts b) (ha : a.tag ≠ .element) :
    a.tag.depth < b.tag.depth := by
  cases a <;> cases b <;> simp_all [accepts, tag, NodeTag.depth]

theorem NodeKind.eq_document {k : NodeKind α} (h : k.tag = .document) : k = .document := by
  cases k <;> simp_all [tag]

theorem NodeKind.exists_of_system {k : NodeKind α} (hk : k.tag = .system) :
    ∃ s, k = .system s := by
  cases k <;> simp_all [tag]

theorem NodeKind.exists_of_page {k : NodeKind α} (hk : k.tag = .page) : ∃ p, k = .page p := by
  cases k <;> simp_all [tag]

theorem NodeKind.exists_of_measure {k : NodeKind α} (hk : k.tag = .measure) :
    ∃ m, k = .measure m := by
  cases k <;> simp_all [tag]

theorem NodeKind.exists_of_control {k : NodeKind α} (hk : k.tag = .control) :
    ∃ c, k = .control c := by
  cases k <;> simp_all [tag]

theorem NodeKind.exists_of_element {k : NodeKind α} (hk : k.tag = .element) :
    ∃ e, k = .element e := by
  cases k <;> simp_all [tag]

theorem NodeKind.accepts_of_page {a b : NodeKind α} (ha : a.tag = .page) (hb : b.tag = .system) :
    a.accepts b := by
  cases a <;> cases b <;> simp_all [accepts, tag]

theorem NodeKind.accepts_of_document {a b : NodeKind α} (ha : a.tag = .document)
    (hb : b.tag = .page) : a.accepts b := by
  cases a <;> cases b <;> simp_all [accepts, tag]

theorem NodeKind.not_accepts_document {a b : NodeKind α} (hb : b.tag = .document) :
    ¬ a.accepts b := by
  cases a <;> cases b <;> simp_all [accepts, tag]

/-- What a document takes is a page, and what a page takes is a system. -/
theorem NodeKind.tag_of_accepts {a b : NodeKind α} (h : a.accepts b) :
    (a.tag = .document → b.tag = .page) ∧ (a.tag = .page → b.tag = .system) := by
  cases a <;> cases b <;> simp_all [accepts, tag]

/-- All systems take the same. -/
theorem NodeKind.accepts_of_system {a a' b : NodeKind α} (h : a.accepts b) (ha : a.tag = .system)
    (ha' : a'.tag = .system) : a'.accepts b := by
  cases a <;> cases a' <;> cases b <;> simp_all [accepts, tag]

/-- What takes a system is a page. -/
theorem NodeKind.eq_page_of_accepts {a b : NodeKind α} (h : a.accepts b) (hb : b.tag = .system) :
    a.tag = .page := by
  cases a <;> cases b <;> simp_all [accepts, tag]

/-- What takes a page is a document. -/
theorem NodeKind.eq_document_of_accepts {a b : NodeKind α} (h : a.accepts b) (hb : b.tag = .page) :
    a.tag = .document := by
  cases a <;> cases b <;> simp_all [accepts, tag]

namespace Document

/-! ### The end of detached trees -/

theorem collect_eq (d : Document α) :
    d.collect.2 = { d with
      trees := d.trees.first
      freed := ((d.trees.rest.toList.map Node.handle).mergeSort).reverse ++ d.freed } := by
  have hrelease (nodes : List Handle) (d : Document α) :
      nodes.foldl release d = { d with freed := nodes.reverse ++ d.freed } := by
    induction nodes generalizing d with
    | nil => rfl
    | cons h nodes ih =>
      rw [List.foldl_cons, ih, release, List.reverse_cons, List.append_assoc]
      rfl
  rw [collect]
  exact hrelease ..

/-! ### Handles of nodes of a kind -/

/-- The handle belongs to a node of the kind. -/
def IsA (d : Document α) (h : Handle) (tag : NodeTag) : Prop :=
  ∃ n ∈ d.trees.toList, n.handle = h ∧ n.tag = tag

theorem IsA.of_subset {d d' : Document α} {h : Handle} {tag : NodeTag} (hd : d.IsA h tag)
    (hs : d.trees.toList ⊆ d'.trees.toList) : d'.IsA h tag := by
  obtain ⟨n, hn, hh, ht⟩ := hd
  exact ⟨n, hs hn, hh, ht⟩

theorem IsA.of_forall₂ [Scalar α] {d d' : Document α} {h : Handle} {tag : NodeTag}
    (hd : d.IsA h tag) (hs : Forest.Forall₂ Node.SameMusic d.trees d'.trees) : d'.IsA h tag := by
  obtain ⟨n, hn, hh, ht⟩ := hd
  obtain ⟨n', hn', hm⟩ := exists_mem_of_forall₂ hs.flip.toList hn
  exact ⟨n', hn', hm.handle.trans hh, hm.tag.trans ht⟩

/-! ### Handles given out -/

/-- A further child under a given identifier. -/
def insertAs [Scalar α] (d : Document α) (parent : Handle) (id : String) (kind : NodeKind α) :
    Handle × Document α :=
  (d.allocate.1, d.allocate.2.attach parent (.tree (.new d.allocate.1 id kind) .nil))

theorem insert_eq [Scalar α] (d : Document α) (parent : Handle) (base : String)
    (kind : NodeKind α) : d.insert parent base kind = d.insertAs parent (d.suffixedId base) kind :=
  rfl

@[simp] theorem allocate_trees (d : Document α) : d.allocate.2.trees = d.trees := by
  rw [allocate]
  split <;> rfl

@[simp] theorem allocate_definition (d : Document α) :
    d.allocate.2.definition = d.definition := by
  rw [allocate]
  split <;> rfl

@[simp] theorem allocate_counter (d : Document α) : d.allocate.2.counter = d.counter := by
  rw [allocate]
  split <;> rfl

@[simp] theorem allocate_stage (d : Document α) : d.allocate.2.stage = d.stage := by
  rw [allocate]
  split <;> rfl

/-- The handle given out is that of one more node, and all others stay. -/
theorem WellFormed.allocate {d : Document α} (hd : d.WellFormed) :
    (d.allocate.1 :: (d.handles ++ d.allocate.2.freed)).Perm (List.range d.allocate.2.capacity) := by
  rw [Document.allocate]
  split
  · rename_i h rest hf
    have := hd.arena
    rw [hf] at this
    exact List.perm_middle.symm.trans this
  · rename_i hf
    have := hd.arena
    rw [hf, List.append_nil] at this
    rw [hf, List.append_nil, List.range_succ]
    exact (this.cons _).trans (List.perm_append_singleton ..).symm

theorem WellFormed.allocate_not_mem {d : Document α} (hd : d.WellFormed) :
    d.allocate.1 ∉ d.handles := by
  have := hd.allocate.nodup_iff.2 List.nodup_range
  rw [List.nodup_cons] at this
  exact fun h => this.1 (List.mem_append_left _ h)

/-! ### Edits on links -/

theorem links_insertAs [Scalar α] {d : Document α} (hd : d.handles.Nodup) {p : Node α}
    (hp : p ∈ d.trees.toList) (id : String) (kind : NodeKind α) :
    ((d.insertAs p.handle id kind).2.trees.links none).Perm
      ((some p, .new d.allocate.1 id kind) :: d.trees.links none) := by
  have hperm := Forest.links_graft_perm (hasHandle p.handle) d.trees
    (.tree (.new d.allocate.1 id kind) .nil) none
  rw [insertAs, attach, allocate_trees]
  refine hperm.trans ?_
  have hfilter : d.trees.toList.filter (hasHandle p.handle) = [p] :=
    filter_key_eq_singleton hd hp
  rw [hfilter, List.flatMap_singleton]
  exact List.perm_append_comm

private theorem toList_perm_of_links {f g : Forest (Node α)} {l : List (Option (Node α) × Node α)}
    (h : (f.links none).Perm (l ++ g.links none)) : f.toList.Perm (l.map Prod.snd ++ g.toList) := by
  have := h.map Prod.snd
  rwa [Forest.map_snd_links, List.map_append, Forest.map_snd_links] at this

theorem toList_insertAs [Scalar α] {d : Document α} (hd : d.handles.Nodup) {p : Node α}
    (hp : p ∈ d.trees.toList) (id : String) (kind : NodeKind α) :
    (d.insertAs p.handle id kind).2.trees.toList.Perm
      (.new d.allocate.1 id kind :: d.trees.toList) :=
  toList_perm_of_links (l := [_]) (links_insertAs hd hp id kind)

namespace WellFormed

variable {d d' : Document α} (hd : d.WellFormed)

include hd

theorem of_eq (ht : d'.trees = d.trees) (hc : d'.capacity = d.capacity)
    (hf : d'.freed = d.freed) : d'.WellFormed := by
  refine ⟨ht ▸ hd.root, ?_, ?_, ht ▸ hd.accepts, ht ▸ hd.reserved⟩
  · rw [Document.ids, ht]
    exact hd.ids
  · rw [handles, ht, hc, hf]
    exact hd.arena

/-- The same nodes in another order, on links that the kinds allow. -/
theorem of_perm (hroot : ∃ n below detached, d'.trees = .cons n below detached ∧
      n.handle = Document.root ∧ n.tag = .document)
    (hlist : d'.trees.toList.Perm d.trees.toList)
    (hlinks : ∀ a b, (some a, b) ∈ d'.trees.links none →
      (some a, b) ∈ d.trees.links none ∨ a.kind.accepts b.kind)
    (hc : d'.capacity = d.capacity) (hf : d'.freed = d.freed) : d'.WellFormed := by
  refine ⟨hroot, ?_, ?_, ?_, ?_⟩
  · exact ((hlist.map Node.id).nodup_iff).2 hd.ids
  · rw [hf, hc]
    exact ((hlist.map Node.handle).append_right _).trans hd.arena
  · intro a b hl
    exact (hlinks a b hl).elim (hd.accepts a b) id
  · exact fun n hn => hd.reserved n (hlist.mem_iff.1 hn)

/-! ### The root -/

theorem exists_root : ∃ n ∈ d.trees.toList, n.handle = Document.root ∧ n.tag = .document := by
  obtain ⟨n, below, detached, htrees, hh, ht⟩ := hd.root
  exact ⟨n, by rw [htrees, Forest.toList]; exact List.mem_cons_self, hh, ht⟩

theorem tag_of_handle_eq_root {n : Node α} (hn : n ∈ d.trees.toList)
    (h : n.handle = Document.root) : n.tag = .document := by
  obtain ⟨r, hr, hh, ht⟩ := hd.exists_root
  rw [hd.eq_of_handle_eq hn hr (h.trans hh.symm), ht]

/-- Nothing stands above the root. -/
theorem handle_ne_root_of_mem_links {a b : Node α} (h : (some a, b) ∈ d.trees.links none) :
    b.handle ≠ Document.root := fun hb =>
  NodeKind.not_accepts_document (hd.tag_of_handle_eq_root (Forest.mem_toList_of_mem_links h) hb)
    (hd.accepts a b h)

theorem tag_ne_document_of_mem_below {r n : Node α} {below detached : Forest (Node α)}
    (htrees : d.trees = .cons r below detached) (hn : n ∈ below.toList) : n.tag ≠ .document := by
  obtain ⟨a, hl⟩ := Forest.exists_link_some r hn
  refine fun ht => NodeKind.not_accepts_document ht (hd.accepts a n ?_)
  rw [htrees, Forest.links]
  exact List.mem_cons_of_mem _ (List.mem_append_left _ hl)

theorem ne_root_of_mem_children {h c : Handle} (hc : c ∈ d.children h) : c ≠ Document.root := by
  obtain ⟨n, hn, rfl⟩ := List.mem_map.1 hc
  obtain ⟨a, hl, -⟩ := hd.mem_childNodes_iff.1 hn
  exact hd.handle_ne_root_of_mem_links hl

/-- A tree taken out leaves the root where it is. -/
theorem root_of_prune? {h : Handle} (hh : h ≠ Document.root) {taken : Node α × Forest (Node α)}
    {g : Forest (Node α)} (hp : d.trees.prune? (hasHandle h) = some (taken, g)) :
    ∃ n below detached, g = .cons n below detached ∧ n.handle = Document.root ∧
      n.tag = .document := by
  obtain ⟨n, below, detached, htrees, hroot, htag⟩ := hd.root
  have hn : ¬ hasHandle h n := by
    rw [hasHandle, hroot]
    simpa using hh.symm
  rw [htrees] at hp
  obtain ⟨below', detached', rfl⟩ := Forest.eq_cons_of_prune? hn hp
  exact ⟨n, below', detached', rfl, hroot, htag⟩

/-! ### Taking trees out -/

theorem cut {h : Handle} (hh : h ≠ Document.root) : (d.cut h).WellFormed := by
  rw [Document.cut]
  split
  · rename_i n below g hp
    obtain ⟨-, a, hperm⟩ := Forest.links_prune?_perm hp none
    have hnew : ((g ++ .tree n below).links none).Perm
        ((none, n) :: (below.links (some n) ++ g.links none)) := by
      rw [Forest.links_append, Forest.tree, Forest.links, Forest.links, List.append_nil]
      exact List.perm_append_comm
    refine hd.of_perm ?_ ?_ ?_ rfl rfl
    · obtain ⟨r, under, detached, rfl, hroot⟩ := hd.root_of_prune? hh hp
      exact ⟨r, under, _, rfl, hroot⟩
    · have := (hnew.map Prod.snd).trans (hperm.map Prod.snd).symm
      rwa [Forest.map_snd_links, Forest.map_snd_links] at this
    · intro b c hl
      rcases List.mem_cons.1 (hnew.mem_iff.1 hl) with hl | hl
      · exact absurd (congrArg Prod.fst hl) (by simp)
      · exact .inl (hperm.mem_iff.2 (List.mem_cons_of_mem _ hl))
  · exact hd

omit hd in
theorem toList_cut_perm (h : Handle) : (d.cut h).trees.toList.Perm d.trees.toList := by
  rw [Document.cut]
  split
  · rename_i n below g hp
    obtain ⟨-, a, hperm⟩ := Forest.links_prune?_perm hp none
    have := (hperm.map Prod.snd).symm
    rw [Forest.map_snd_links, List.map_cons, List.map_append, Forest.map_snd_links,
      Forest.map_snd_links] at this
    refine List.Perm.trans ?_ this
    rw [Forest.toList_append, Forest.toList_tree]
    exact List.perm_append_comm
  · exact List.Perm.refl _

/-- A node that is gone gives its handle back, and what was below it is detached. -/
theorem destroy {h : Handle} (hh : h ≠ Document.root) : (d.destroy h).WellFormed := by
  rw [Document.destroy]
  split
  · rename_i n below g hp
    obtain ⟨hn, a, hperm⟩ := Forest.links_prune?_perm hp none
    have hlist : d.trees.toList.Perm (n :: (g ++ below).toList) := by
      have := hperm.map Prod.snd
      rw [Forest.map_snd_links, List.map_cons, List.map_append, Forest.map_snd_links,
        Forest.map_snd_links] at this
      rw [Forest.toList_append]
      exact this.trans (List.perm_append_comm.cons n)
    refine ⟨?_, ?_, ?_, ?_, ?_⟩
    · obtain ⟨r, under, detached, rfl, hroot⟩ := hd.root_of_prune? hh hp
      exact ⟨r, under, _, rfl, hroot⟩
    · exact (List.nodup_cons.1 ((hlist.map Node.id).nodup_iff.1 hd.ids)).2
    · refine List.Perm.trans ?_ hd.arena
      refine List.Perm.trans ?_ (((hlist.map Node.handle).append_right d.freed).symm)
      rw [List.map_cons, show n.handle = h by simpa [hasHandle] using hn]
      exact List.perm_middle
    · intro b c hl
      refine hd.accepts b c (hperm.mem_iff.2 (List.mem_cons_of_mem _ ?_))
      simp only [release, Forest.links_append] at hl
      rcases List.mem_append.1 hl with hl | hl
      · exact List.mem_append_right _ hl
      · exact List.mem_append_left _ (Forest.mem_links_of_mem_links_none hl _)
    · exact fun m hm => hd.reserved m (hlist.mem_iff.2 (List.mem_cons_of_mem n hm))
  · exact hd

omit hd in
theorem destroyAll : {nodes : List Handle} → (∀ h ∈ nodes, h ≠ Document.root) →
    {d : Document α} → d.WellFormed → (nodes.foldl Document.destroy d).WellFormed
  | [], _, _, hd => hd
  | h :: _, hh, _, hd =>
      destroyAll (fun h' hmem => hh h' (List.mem_cons_of_mem h hmem))
        (hd.destroy (hh h List.mem_cons_self))

/-! ### Putting trees in -/

theorem insertAs [Scalar α] {p : Node α} (hp : p ∈ d.trees.toList) {id : String}
    {kind : NodeKind α} (hid : id ∉ d.ids) (hk : p.kind.accepts kind)
    (hres : (id = contentPageId → kind.tag = .page) ∧
      (id = contentSystemId → kind.tag = .system)) :
    (d.insertAs p.handle id kind).2.WellFormed := by
  have hlinks := links_insertAs hd.nodup_handles hp id kind
  have hlist := toList_insertAs hd.nodup_handles hp id kind
  refine ⟨?_, ?_, ?_, ?_, ?_⟩
  · obtain ⟨n, below, detached, htrees, hroot, htag⟩ := hd.root
    rw [Document.insertAs, attach, allocate_trees, htrees, Forest.graft]
    exact ⟨n, _, _, rfl, hroot, htag⟩
  · refine (hlist.map Node.id).nodup_iff.2 ?_
    rw [List.map_cons, List.nodup_cons]
    exact ⟨hid, hd.ids⟩
  · exact ((hlist.map Node.handle).append_right _).trans hd.allocate
  · intro a b hl
    rcases List.mem_cons.1 (hlinks.mem_iff.1 hl) with hl | hl
    · rw [Prod.mk.injEq, Option.some.injEq] at hl
      rw [hl.1, hl.2]
      exact hk
    · exact hd.accepts a b hl
  · intro n hn
    rcases List.mem_cons.1 (hlist.mem_iff.1 hn) with rfl | hn
    · exact hres
    · exact hd.reserved n hn

omit hd in
theorem exists_of_reparent? {h parent : Handle} (hok : d.reparent? h parent = .ok d') :
    ∃ n p moved below g, d.node? h = some n ∧ d.node? parent = some p ∧ p.kind.accepts n.kind ∧
      d.trees.prune? (hasHandle h) = some ((moved, below), g) ∧
      d' = { d with trees := g.graft (hasHandle parent) (.tree moved below) } := by
  rw [Document.reparent?] at hok
  cases hn : d.node? h with
  | none => simp [hn] at hok
  | some n =>
    cases hp : d.node? parent with
    | none => simp [hn, hp] at hok
    | some p =>
      by_cases hk : p.kind.accepts n.kind
      · cases hprune : d.trees.prune? (hasHandle h) with
        | none => simp [hn, hp, hk, hprune] at hok
        | some taken =>
          obtain ⟨⟨moved, below⟩, g⟩ := taken
          simp only [hn, hp, hk, hprune, not_true_eq_false, if_false] at hok
          exact ⟨n, p, moved, below, g, rfl, rfl, hk, rfl, (Except.ok.inj hok).symm⟩
      · simp [hn, hp, hk] at hok

/-- What a node that takes another takes is not above it: kinds stand in an order. -/
theorem reparent? {h parent : Handle} (hpt : ¬ d.IsA parent .element)
    (hok : d.reparent? h parent = .ok d') :
    d'.WellFormed ∧ d'.trees.toList.Perm d.trees.toList := by
  obtain ⟨n, p, moved, below, g, hn, hp, hk, hprune, rfl⟩ := exists_of_reparent? hok
  obtain ⟨hnmem, hnh⟩ := hd.node?_eq_some_iff.1 hn
  obtain ⟨hpmem, hph⟩ := hd.node?_eq_some_iff.1 hp
  obtain ⟨hmoved, a, hperm⟩ := Forest.links_prune?_perm hprune none
  have hlist : d.trees.toList.Perm (moved :: (below.toList ++ g.toList)) := by
    have := hperm.map Prod.snd
    rwa [Forest.map_snd_links, List.map_cons, List.map_append, Forest.map_snd_links,
      Forest.map_snd_links] at this
  obtain rfl : moved = n := by
    refine hd.eq_of_handle_eq (hlist.mem_iff.2 List.mem_cons_self) hnmem ?_
    rw [hnh]
    simpa [hasHandle] using hmoved
  have hlt : p.tag.depth < moved.tag.depth :=
    NodeKind.depth_lt_of_accepts hk fun ht => hpt ⟨p, hpmem, hph, ht⟩
  have hbelow : ∀ b ∈ below.toList, moved.tag.depth ≤ b.tag.depth :=
    Forest.rel_of_links (R := fun a b => a.tag.depth ≤ b.tag.depth)
      (fun _ _ _ => Nat.le_trans) fun a b hl =>
        NodeKind.depth_le_of_accepts
          (hd.accepts a b (hperm.mem_iff.2 (List.mem_cons_of_mem _ (List.mem_append_left _ hl))))
  have hpg : p ∈ g.toList := by
    rcases List.mem_cons.1 (hlist.mem_iff.1 hpmem) with rfl | hp
    · omega
    · rcases List.mem_append.1 hp with hp | hp
      · have := hbelow p hp
        omega
      · exact hp
  have hfilter : g.toList.filter (hasHandle parent) = [p] := by
    have hnodup := (hlist.map Node.handle).nodup_iff.1 hd.nodup_handles
    rw [List.map_cons, List.map_append, List.nodup_cons, List.nodup_append] at hnodup
    rw [← hph]
    exact filter_key_eq_singleton hnodup.2.2.1 hpg
  have hnew : ((g.graft (hasHandle parent) (.tree moved below)).links none).Perm
      ((some p, moved) :: (below.links (some moved) ++ g.links none)) := by
    refine (Forest.links_graft_perm _ _ _ _).trans ?_
    rw [hfilter, List.flatMap_singleton, Forest.tree, Forest.links, Forest.links, List.append_nil]
    exact List.perm_append_comm
  have hnewList : (g.graft (hasHandle parent) (.tree moved below)).toList.Perm d.trees.toList := by
    have := (hnew.map Prod.snd).trans (hperm.map Prod.snd).symm
    rwa [Forest.map_snd_links, Forest.map_snd_links] at this
  refine ⟨hd.of_perm ?_ hnewList ?_ rfl rfl, hnewList⟩
  · have hroot : h ≠ Document.root := by
      rintro rfl
      exact NodeKind.not_accepts_document (hd.tag_of_handle_eq_root hnmem hnh) hk
    obtain ⟨r, under, detached, rfl, hr⟩ := hd.root_of_prune? hroot hprune
    exact ⟨r, _, _, rfl, hr⟩
  · intro b c hl
    rcases List.mem_cons.1 (hnew.mem_iff.1 hl) with hl | hl
    · rw [Prod.mk.injEq, Option.some.injEq] at hl
      rw [hl.1, hl.2]
      exact .inr hk
    · exact .inl (hperm.mem_iff.2 (List.mem_cons_of_mem _ hl))

omit hd in
theorem reparentAll? {parent : Handle} : {nodes : List Handle} → {d : Document α} → d.WellFormed →
    ¬ d.IsA parent .element → d.reparentAll? nodes parent = .ok d' →
      d'.WellFormed ∧ d'.trees.toList.Perm d.trees.toList
  | [], _, hd, _, hok => by
      obtain rfl := Except.ok.inj hok
      exact ⟨hd, List.Perm.refl _⟩
  | h :: nodes, d, hd, hpt, hok => by
      rw [Document.reparentAll?, List.foldlM_cons, except_bind_eq_ok] at hok
      obtain ⟨d₁, h₁, hok⟩ := hok
      obtain ⟨hd₁, hperm₁⟩ := hd.reparent? hpt h₁
      obtain ⟨hd', hperm'⟩ := reparentAll? hd₁ (fun ht => hpt (ht.of_subset hperm₁.subset)) hok
      exact ⟨hd', hperm'.trans hperm₁⟩

/-! ### The edits of a caller -/

/-- A change of a node that leaves its music as it is. -/
theorem modify [Scalar α] {f : Node α → Node α} (hf : ∀ n : Node α, n.SameMusic (f n))
    (h : Handle) :
    (d.modify h f).WellFormed := by
  refine hd.of_forall₂ ?_ rfl rfl
  refine Forest.Forall₂.map_right _ fun n _ => ?_
  split
  · exact hf n
  · exact .refl n

theorem markDirty [Scalar α] (h : Handle) : (d.markDirty h).WellFormed :=
  hd.modify (f := fun n => { n with dirty := true }) (fun _ => ⟨rfl, rfl, rfl⟩) h

theorem addNamed [Scalar α] {parent h : Handle} {id : String} {kind : NodeKind α}
    (hid : id ≠ contentPageId ∧ id ≠ contentSystemId)
    (hok : d.addNamed parent id kind = .ok (h, d')) : d'.WellFormed := by
  rw [Document.addNamed] at hok
  cases hp : d.node? parent with
  | none => simp [hp] at hok
  | some p =>
    obtain ⟨hpmem, rfl⟩ := hd.node?_eq_some_iff.1 hp
    by_cases hk : p.kind.accepts kind
    · by_cases huse : d.hasNodeWithId id
      · simp [hp, hk, huse] at hok
      · simp only [hp, hk, huse, not_true_eq_false, if_false, Bool.false_eq_true, Except.ok.injEq,
          Prod.mk.injEq] at hok
        rw [hasNodeWithId_iff] at huse
        have := hd.insertAs hpmem huse hk ⟨fun h => absurd h hid.1, fun h => absurd h hid.2⟩
        rw [← hok.2]
        exact (this.markDirty p.handle).of_eq rfl rfl rfl
    · simp [hp, hk] at hok

/-- A child with a generated identifier. Where it is refused, only the number of the identifier is
used up. -/
theorem add [Scalar α] (parent : Handle) (kind : NodeKind α) :
    (d.add parent kind).2.WellFormed := by
  have hcount : { d with counter := (d.freshId kind.name).2 }.WellFormed := hd.of_eq rfl rfl rfl
  rw [Document.add]
  dsimp only
  split
  · rename_i h d' hok
    have hend := endsInDigit_freshId d kind.name
    exact hcount.addNamed ⟨hend.ne_contentPageId, hend.ne_contentSystemId⟩ hok
  · exact hcount

theorem remove [Scalar α] {parent child : Handle} (hok : d.remove parent child = .ok d') :
    d'.WellFormed := by
  rw [Document.remove] at hok
  split at hok
  · exact absurd hok (by simp)
  · split at hok
    · exact absurd hok (by simp)
    · split at hok
      · exact absurd hok (by simp)
      · rename_i hmem
        rw [Classical.not_not] at hmem
        rw [← Except.ok.inj hok]
        exact ((hd.cut (hd.ne_root_of_mem_children hmem)).markDirty parent).of_eq rfl rfl rfl

theorem detach [Scalar α] {h : Handle} (hok : d.detach h = .ok d') : d'.WellFormed := by
  rw [Document.detach] at hok
  split at hok
  · exact absurd hok (by simp)
  · split at hok
    · exact absurd hok (by simp)
    · split at hok
      · exact hd.remove hok
      · exact Except.ok.inj hok ▸ hd

theorem collect : d.collect.2.WellFormed := by
  obtain ⟨n, below, detached, htrees, hroot, htag⟩ := hd.root
  have hfirst : d.trees.first = .tree n below := by rw [htrees]; rfl
  have hsub : d.trees.first.toList.Sublist d.trees.toList := by
    rw [hfirst, htrees, Forest.tree, Forest.toList, Forest.toList, Forest.toList, List.append_nil]
    exact (List.sublist_append_left ..).cons_cons n
  rw [collect_eq]
  refine ⟨⟨n, below, .nil, hfirst, hroot, htag⟩, hd.ids.sublist (hsub.map _), ?_, ?_, ?_⟩
  · refine List.Perm.trans ?_ hd.arena
    have hdead : ((d.trees.rest.toList.map Node.handle).mergeSort).reverse.Perm
        (d.trees.rest.toList.map Node.handle) :=
      (List.reverse_perm _).trans (List.mergeSort_perm _ _)
    refine ((hdead.append_right _).append_left _).trans ?_
    rw [← List.append_assoc]
    refine List.Perm.append_right _ (List.Perm.of_eq ?_)
    rw [handles, handles, hfirst, htrees, Forest.tree, Forest.rest, Forest.toList, Forest.toList,
      Forest.toList]
    simp
  · intro a b hl
    refine hd.accepts a b ?_
    rw [htrees, Forest.links]
    rw [hfirst, Forest.tree, Forest.links, Forest.links, List.append_nil] at hl
    rcases List.mem_cons.1 hl with hl | hl
    · exact absurd (congrArg Prod.fst hl) (by simp)
    · exact List.mem_cons_of_mem _ (List.mem_append_left _ hl)
  · exact fun m hm => hd.reserved m (hsub.subset hm)

end WellFormed

/-! ### The system of the unbroken content -/

theorem wellFormed_ofDefinition [Scalar α] (definition : ScoreDefinition) :
    (ofDefinition definition : Document α).WellFormed := by
  refine ⟨⟨_, .nil, .nil, rfl, rfl, rfl⟩, List.nodup_singleton _, List.Perm.refl _, ?_, ?_⟩
  · intro a b hl
    exact absurd (congrArg Prod.fst (List.mem_singleton.1 hl)) (by simp)
  · intro n hn
    rw [List.mem_singleton.1 hn]
    have hpage : "doc" ≠ contentPageId := by decide +kernel
    have hsystem : "doc" ≠ contentSystemId := by decide +kernel
    exact ⟨fun h => absurd h hpage, fun h => absurd h hsystem⟩

/-- The page that holds the unbroken content, made if there is none. -/
def contentPage [Scalar α] (d : Document α) : Handle × Document α :=
  match d.findLive? contentPageId with
  | some page => (page, d)
  | none => d.insert root contentPageId (.page .empty)

theorem contentSystem_eq [Scalar α] (d : Document α) :
    d.contentSystem =
      match d.findLive? contentSystemId with
      | some system => (system, d)
      | none => d.contentPage.2.insert d.contentPage.1 contentSystemId (.system .empty) := by
  unfold contentSystem contentPage
  cases d.findLive? contentSystemId with
  | some system => rfl
  | none => cases d.findLive? contentPageId <;> rfl

theorem score_sublist (d : Document α) : d.score.toList.Sublist d.trees.toList := by
  rw [score]
  cases d.trees with
  | nil => exact List.Sublist.refl _
  | cons n below detached =>
    rw [Forest.first, Forest.tree, Forest.toList, Forest.toList, Forest.toList, List.append_nil]
    exact (List.sublist_append_left ..).cons_cons n

theorem isLive_iff (d : Document α) (h : Handle) :
    d.isLive h ↔ ∃ n ∈ d.score.toList, n.handle = h := by
  rw [isLive, Forest.find?_eq_find?_toList, List.find?_isSome]
  simp [hasHandle]

/-- The nodes of a score in which a node has got a further child. -/
theorem mem_score_insertAs [Scalar α] {d : Document α} {p n : Node α}
    (hp : p ∈ d.score.toList) (id : String) (kind : NodeKind α) :
    n ∈ (d.insertAs p.handle id kind).2.score.toList ↔
      n = .new d.allocate.1 id kind ∨ n ∈ d.score.toList := by
  have hscore : (d.insertAs p.handle id kind).2.score =
      d.score.graft (hasHandle p.handle) (.tree (.new d.allocate.1 id kind) .nil) := by
    rw [score, insertAs, attach, allocate_trees, score]
    cases d.trees <;> rfl
  have hperm := (Forest.links_graft_perm (hasHandle p.handle) d.score
    (.tree (.new d.allocate.1 id kind) .nil) none).map Prod.snd
  rw [Forest.map_snd_links, List.map_append, Forest.map_snd_links] at hperm
  rw [hscore, hperm.mem_iff, List.mem_append, or_comm]
  refine or_congr_left ?_
  rw [List.mem_map]
  constructor
  · rintro ⟨l, hl, rfl⟩
    obtain ⟨a, -, hl⟩ := List.mem_flatMap.1 hl
    rw [List.mem_singleton.1 hl]
  · rintro rfl
    refine ⟨(some p, _), List.mem_flatMap.2 ⟨p, List.mem_filter.2 ⟨hp, ?_⟩, ?_⟩, rfl⟩
    · simp [hasHandle]
    · exact List.mem_singleton.2 rfl

/-- Nodes made by the layout get identifiers that are free, and none that is reserved for another
kind of node. -/
theorem WellFormed.insert [Scalar α] {d : Document α} (hd : d.WellFormed) {p : Node α}
    (hp : p ∈ d.trees.toList) {base : String} {kind : NodeKind α} (hk : p.kind.accepts kind)
    (hbase : EndsInDigit base ∨ base = contentPageId ∧ kind.tag = .page ∨
      base = contentSystemId ∧ kind.tag = .system) :
    (d.insert p.handle base kind).2.WellFormed := by
  rw [insert_eq]
  rw [suffixedId_eq]
  refine hd.insertAs hp (freeId_not_mem d.ids base) hk ?_
  have hdigit (h : EndsInDigit (freeId d.ids base)) :
      (freeId d.ids base = contentPageId → kind.tag = .page) ∧
        (freeId d.ids base = contentSystemId → kind.tag = .system) :=
    ⟨fun he => absurd he h.ne_contentPageId, fun he => absurd he h.ne_contentSystemId⟩
  have hne : contentPageId ≠ contentSystemId := by decide +kernel
  rcases freeId_eq_or_endsInDigit d.ids base with heq | hend
  · rcases hbase with hbase | ⟨rfl, hk⟩ | ⟨rfl, hk⟩
    · exact hdigit (by rwa [heq])
    · exact ⟨fun _ => hk, fun he => absurd (heq.symm.trans he) hne⟩
    · exact ⟨fun he => absurd (heq.symm.trans he) hne.symm, fun _ => hk⟩
  · exact hdigit hend

namespace WellFormed

variable {d : Document α} (hd : d.WellFormed)

include hd

theorem findLive?_eq_some_iff {id : String} {h : Handle} :
    d.findLive? id = some h ↔ ∃ n ∈ d.score.toList, n.id = id ∧ n.handle = h := by
  rw [findLive?, Option.filter_eq_some_iff, hd.find?_eq_some_iff]
  constructor
  · rintro ⟨⟨n, hn, hid, hh⟩, hlive⟩
    obtain ⟨m, hm, hmh⟩ := (isLive_iff d h).1 hlive
    obtain rfl := hd.eq_of_handle_eq ((score_sublist d).subset hm) hn (hmh.trans hh.symm)
    exact ⟨m, hm, hid, hh⟩
  · rintro ⟨n, hn, hid, hh⟩
    exact ⟨⟨n, (score_sublist d).subset hn, hid, hh⟩, (isLive_iff d h).2 ⟨n, hn, hh⟩⟩

/-- No handle belongs to the score and to a detached tree. -/
theorem not_isLive_of_mem_rest {n : Node α} (hn : n ∈ d.trees.rest.toList) :
    ¬ d.isLive n.handle := by
  intro hl
  obtain ⟨m, hm, hh⟩ := (isLive_iff d n.handle).1 hl
  have hnodup := hd.nodup_handles
  rw [score] at hm
  rw [handles] at hnodup
  cases htrees : d.trees with
  | nil =>
    rw [htrees] at hm
    exact List.not_mem_nil hm
  | cons r below detached =>
    rw [htrees] at hm hn hnodup
    simp only [Forest.first, Forest.tree, Forest.rest, Forest.toList, List.append_nil] at hm hn
    rw [Forest.toList, ← List.cons_append, List.map_append, List.nodup_append] at hnodup
    exact hnodup.2.2 _ (List.mem_map_of_mem hm) _ (List.mem_map_of_mem hn) hh

/-- What stands below a node of the score belongs to the score. -/
theorem isLive_of_mem_childNodes {h : Handle} {n : Node α} (hl : d.isLive h)
    (hn : n ∈ d.childNodes h) : d.isLive n.handle := by
  obtain ⟨a, hlink, rfl⟩ := hd.mem_childNodes_iff.1 hn
  obtain ⟨r, below, detached, htrees, -⟩ := hd.root
  have hrest : d.trees.rest = detached := by rw [htrees]; rfl
  have hscore : d.score = .tree r below := by rw [score, htrees]; rfl
  rw [htrees, Forest.links] at hlink
  rcases List.mem_cons.1 hlink with hlink | hlink
  · exact absurd (congrArg Prod.fst hlink) (by simp)
  · rcases List.mem_append.1 hlink with hlink | hlink
    · refine (isLive_iff d n.handle).2 ⟨n, ?_, rfl⟩
      rw [hscore, Forest.tree, Forest.toList]
      exact List.mem_cons_of_mem _
        (List.mem_append_left _ (Forest.mem_toList_of_mem_links hlink))
    · rcases Forest.mem_of_mem_links hlink with ha | ha
      · exact absurd ha (by simp)
      · exact absurd hl (hd.not_isLive_of_mem_rest (hrest ▸ ha))

theorem isLive_root : d.isLive Document.root := by
  obtain ⟨r, below, detached, htrees, hh, -⟩ := hd.root
  refine (isLive_iff d _).2 ⟨r, ?_, hh⟩
  rw [score, htrees, Forest.first, Forest.tree, Forest.toList]
  exact List.mem_cons_self

theorem isLive_of_mem_pages {n : Node α} (hn : n ∈ d.pages) : d.isLive n.handle :=
  hd.isLive_of_mem_childNodes hd.isLive_root hn

theorem isLive_of_mem_systems {n : Node α} (hn : n ∈ d.systems) : d.isLive n.handle := by
  obtain ⟨p, hp, hn⟩ := List.mem_flatMap.1 hn
  exact hd.isLive_of_mem_childNodes (hd.isLive_of_mem_pages hp) hn

theorem exists_root_score :
    ∃ n ∈ d.score.toList, n.handle = Document.root ∧ n.tag = .document := by
  obtain ⟨n, below, detached, htrees, hh, ht⟩ := hd.root
  refine ⟨n, ?_, hh, ht⟩
  rw [score, htrees, Forest.first, Forest.tree, Forest.toList]
  exact List.mem_cons_self

/-- The page of the unbroken content is there, or is made. -/
theorem contentPage [Scalar α] :
    d.contentPage.2.WellFormed ∧
      ∃ n ∈ d.contentPage.2.score.toList, n.handle = d.contentPage.1 ∧ n.tag = .page := by
  rw [Document.contentPage]
  split
  · rename_i p hp
    obtain ⟨n, hn, hid, hh⟩ := hd.findLive?_eq_some_iff.1 hp
    exact ⟨hd, n, hn, hh, (hd.reserved n ((score_sublist d).subset hn)).1 hid⟩
  · obtain ⟨r, hr, hh, ht⟩ := hd.exists_root_score
    rw [← hh]
    refine ⟨hd.insert ((score_sublist d).subset hr) ?_ (.inr (.inl ⟨rfl, rfl⟩)), _,
      (mem_score_insertAs hr _ _).2 (.inl rfl), rfl, rfl⟩
    exact NodeKind.accepts_of_document ht rfl

/-- The system of the unbroken content is there, or is made. -/
theorem contentSystem [Scalar α] :
    d.contentSystem.2.WellFormed ∧
      ∃ n ∈ d.contentSystem.2.score.toList, n.handle = d.contentSystem.1 ∧ n.tag = .system := by
  rw [contentSystem_eq]
  split
  · rename_i s hs
    obtain ⟨n, hn, hid, hh⟩ := hd.findLive?_eq_some_iff.1 hs
    exact ⟨hd, n, hn, hh, (hd.reserved n ((score_sublist d).subset hn)).2 hid⟩
  · obtain ⟨hd', n, hn, hh, ht⟩ := hd.contentPage
    rw [← hh]
    refine ⟨hd'.insert ((score_sublist _).subset hn) ?_ (.inr (.inr ⟨rfl, rfl⟩)), _,
      (mem_score_insertAs hn _ _).2 (.inl rfl), rfl, rfl⟩
    exact NodeKind.accepts_of_page ht rfl

end WellFormed

end Document

end ScoreLayout
