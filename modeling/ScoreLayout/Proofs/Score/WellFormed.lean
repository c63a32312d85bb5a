import Mathlib.Data.List.Perm.Lattice
import ScoreLayout.Proofs.Forest.Walk
import ScoreLayout.Proofs.Score.Identifiers

/-!
# Well-formed documents

Handles, identifiers, children and parents are four readings of one forest. A document is well
formed when each of them determines a node: no two nodes share a handle or an identifier, no free
handle is that of a node, every node takes the ones below it, and the identifiers under which
unbroken content is found again belong to a page and to a system.

## Main definitions

* `Document.WellFormed` — the invariant of all documents that edits and layouts lead to.
* `Node.SameMusic` — two states of one node, which differ in results of the layout only.

## Main results

* `Document.WellFormed.node?_eq_some_iff`, `Document.WellFormed.find?_eq_some_iff`,
  `Document.WellFormed.mem_childNodes_iff`, `Document.WellFormed.parentNode?_eq_some_iff` — what the
  four readings say.
* `Document.WellFormed.of_forall₂` — layout results do not matter.
-/

namespace ScoreLayout

variable {α : Type}

/-! ### The part of a node that belongs to the music -/

section Music

variable [Scalar α]

/-- The kind of a node without what a layout writes into it. -/
def NodeKind.bare : NodeKind α → NodeKind α
  | .measure m => .measure { m with grid := .empty, x := 0, signatures := default }
  | .system _ => .system .empty
  | .page _ => .page .empty
  | k => k

@[simp] theorem NodeKind.tag_bare (k : NodeKind α) : k.bare.tag = k.tag := by cases k <;> rfl

@[simp] theorem NodeKind.accepts_bare (a b : NodeKind α) : a.bare.accepts b.bare = a.accepts b := by
  cases a <;> cases b <;> rfl

/-- Two states of one node, which differ in results of the layout only. -/
structure Node.SameMusic (n n' : Node α) : Prop where
  handle : n'.handle = n.handle
  id : n'.id = n.id
  kind : n'.kind.bare = n.kind.bare

namespace Node.SameMusic

variable {a b c a' b' : Node α}

theorem refl (n : Node α) : n.SameMusic n := ⟨rfl, rfl, rfl⟩

theorem trans (h : a.SameMusic b) (h' : b.SameMusic c) : a.SameMusic c :=
  ⟨h'.handle.trans h.handle, h'.id.trans h.id, h'.kind.trans h.kind⟩

theorem symm (h : a.SameMusic b) : b.SameMusic a := ⟨h.handle.symm, h.id.symm, h.kind.symm⟩

theorem tag (h : a.SameMusic b) : b.tag = a.tag := by
  rw [Node.tag, ← NodeKind.tag_bare, h.kind, NodeKind.tag_bare, Node.tag]

theorem accepts (ha : a.SameMusic a') (hb : b.SameMusic b') :
    a'.kind.accepts b'.kind = a.kind.accepts b.kind := by
  rw [← NodeKind.accepts_bare, ha.kind, hb.kind, NodeKind.accepts_bare]

end Node.SameMusic

end Music

namespace Document

/-- The handles of all nodes, detached ones included. -/
def handles (d : Document α) : List Handle := d.trees.toList.map Node.handle

/-! ### Looking up nodes by handles that tell them apart -/

section Handles

variable {d : Document α} (hd : d.handles.Nodup)

include hd

theorem node?_eq_some_iff_of_nodup {h : Handle} {n : Node α} :
    d.node? h = some n ↔ n ∈ d.trees.toList ∧ n.handle = h := by
  rw [node?, Forest.find?_eq_find?_toList]
  exact find?_key_eq_some_iff hd

theorem length_filter_hasHandle_le (h : Handle) :
    (d.trees.toList.filter (hasHandle h)).length ≤ 1 := by
  by_cases hex : ∃ n ∈ d.trees.toList, n.handle = h
  · obtain ⟨n, hn, rfl⟩ := hex
    exact Nat.le_of_eq (congrArg List.length (filter_key_eq_singleton hd hn))
  · rw [List.filter_eq_nil_iff.2]
    · exact Nat.zero_le 1
    · intro n hn hh
      exact hex ⟨n, hn, by simpa [hasHandle] using hh⟩

theorem childNodes_eq_of_nodup (h : Handle) :
    d.childNodes h =
      ((d.trees.links none).filter fun l => l.1.any (hasHandle h)).map Prod.snd :=
  Forest.roots_childrenOf? (length_filter_hasHandle_le hd h) none (by simp)

theorem parentNode?_eq_some_iff_of_nodup {h : Handle} {a : Node α} :
    d.parentNode? h = some a ↔ ∃ n, (some a, n) ∈ d.trees.links none ∧ n.handle = h := by
  have hkey : (((d.trees.links none).map fun l => l.2.handle)).Nodup := by
    rwa [handles, ← Forest.map_snd_links none, List.map_map] at hd
  have hhead := Forest.head?_ancestors? (hasHandle h) d.trees none
  have hp : d.parentNode? h = (((d.trees.links none).find? fun l => hasHandle h l.2).bind
      Prod.fst) := by
    rw [parentNode?, ancestors]
    cases hanc : d.trees.ancestors? (hasHandle h) with
    | none =>
      rw [hanc, Option.map_none, eq_comm, Option.map_eq_none_iff] at hhead
      rw [hhead]
      rfl
    | some l =>
      rw [hanc, Option.map_some, eq_comm, Option.map_eq_some_iff] at hhead
      obtain ⟨link, hlink, hfst⟩ := hhead
      rw [hlink, Option.bind_some, hfst]
      simp
  rw [hp, Option.bind_eq_some_iff]
  constructor
  · rintro ⟨⟨above, n⟩, hl, rfl⟩
    obtain ⟨hmem, hn⟩ := (find?_key_eq_some_iff hkey).1 hl
    exact ⟨n, hmem, hn⟩
  · rintro ⟨n, hl, hn⟩
    exact ⟨(some a, n), (find?_key_eq_some_iff hkey).2 ⟨hl, hn⟩, rfl⟩

theorem below_eq_of_nodup {n : Node α} {below : Forest (Node α)}
    (hn : Forest.HasTree n below d.trees) : d.below n.handle = below := by
  have hchildren : d.trees.childrenOf? (hasHandle n.handle) = some below :=
    hn.childrenOf?_eq Node.handle hd
  rw [Document.below, hchildren, Option.getD_some]

end Handles

theorem findNode?_eq_some_iff_of_nodup {d : Document α} (hd : d.ids.Nodup) {id : String}
    {n : Node α} : d.trees.find? (hasId id) = some n ↔ n ∈ d.trees.toList ∧ n.id = id := by
  rw [Forest.find?_eq_find?_toList]
  exact find?_key_eq_some_iff hd

theorem find?_eq_some_iff_of_nodup {d : Document α} (hd : d.ids.Nodup) {id : String} {h : Handle} :
    d.find? id = some h ↔ ∃ n ∈ d.trees.toList, n.id = id ∧ n.handle = h := by
  rw [find?, Option.map_eq_some_iff]
  simp only [findNode?_eq_some_iff_of_nodup hd, and_assoc]

/-! ### The invariant -/

/-- The invariant of all documents that edits and layouts lead to. -/
structure WellFormed (d : Document α) : Prop where
  /-- The first tree has the document node at its root. -/
  root : ∃ n below detached, d.trees = .cons n below detached ∧ n.handle = Document.root ∧
    n.tag = .document
  ids : d.ids.Nodup
  /-- Every handle that has ever been given out belongs to one node or is free. -/
  arena : (d.handles ++ d.freed).Perm (List.range d.capacity)
  accepts : ∀ a b, (some a, b) ∈ d.trees.links none → a.kind.accepts b.kind
  reserved : ∀ n ∈ d.trees.toList,
    (n.id = contentPageId → n.tag = .page) ∧ (n.id = contentSystemId → n.tag = .system)

namespace WellFormed

variable {d : Document α} (hd : d.WellFormed)

include hd

theorem nodup_handles : d.handles.Nodup :=
  (List.nodup_append.1 (hd.arena.nodup_iff.2 List.nodup_range)).1

theorem not_mem_freed {n : Node α} (hn : n ∈ d.trees.toList) : n.handle ∉ d.freed := fun h =>
  (List.nodup_append.1 (hd.arena.nodup_iff.2 List.nodup_range)).2.2 _ (List.mem_map_of_mem hn) _ h
    rfl

theorem eq_of_handle_eq {a b : Node α} (ha : a ∈ d.trees.toList) (hb : b ∈ d.trees.toList)
    (h : a.handle = b.handle) : a = b :=
  List.inj_on_of_nodup_map hd.nodup_handles ha hb h

theorem eq_of_id_eq {a b : Node α} (ha : a ∈ d.trees.toList) (hb : b ∈ d.trees.toList)
    (h : a.id = b.id) : a = b :=
  List.inj_on_of_nodup_map hd.ids ha hb h

/-! ### Looking up nodes -/

theorem node?_eq_some_iff {h : Handle} {n : Node α} :
    d.node? h = some n ↔ n ∈ d.trees.toList ∧ n.handle = h :=
  node?_eq_some_iff_of_nodup hd.nodup_handles

theorem node?_handle {n : Node α} (hn : n ∈ d.trees.toList) : d.node? n.handle = some n :=
  hd.node?_eq_some_iff.2 ⟨hn, rfl⟩

theorem findNode?_eq_some_iff {id : String} {n : Node α} :
    d.trees.find? (hasId id) = some n ↔ n ∈ d.trees.toList ∧ n.id = id :=
  findNode?_eq_some_iff_of_nodup hd.ids

theorem find?_eq_some_iff {id : String} {h : Handle} :
    d.find? id = some h ↔ ∃ n ∈ d.trees.toList, n.id = id ∧ n.handle = h :=
  find?_eq_some_iff_of_nodup hd.ids

theorem childNodes_eq (h : Handle) :
    d.childNodes h =
      ((d.trees.links none).filter fun l => l.1.any (hasHandle h)).map Prod.snd :=
  childNodes_eq_of_nodup hd.nodup_handles h

theorem mem_childNodes_iff {h : Handle} {n : Node α} :
    n ∈ d.childNodes h ↔ ∃ a, (some a, n) ∈ d.trees.links none ∧ a.handle = h := by
  rw [hd.childNodes_eq, List.mem_map]
  constructor
  · rintro ⟨⟨above, n⟩, hl, rfl⟩
    obtain ⟨hl, ha⟩ := List.mem_filter.1 hl
    cases above with
    | none => simp at ha
    | some a => exact ⟨a, hl, by simpa [hasHandle] using ha⟩
  · rintro ⟨a, hl, rfl⟩
    exact ⟨(some a, n), List.mem_filter.2 ⟨hl, by simp [hasHandle]⟩, rfl⟩

theorem parentNode?_eq_some_iff {h : Handle} {a : Node α} :
    d.parentNode? h = some a ↔ ∃ n, (some a, n) ∈ d.trees.links none ∧ n.handle = h :=
  parentNode?_eq_some_iff_of_nodup hd.nodup_handles

theorem parent?_eq_some_iff {h p : Handle} :
    d.parent? h = some p ↔
      ∃ a n, (some a, n) ∈ d.trees.links none ∧ n.handle = h ∧ a.handle = p := by
  rw [parent?, Option.map_eq_some_iff]
  simp only [hd.parentNode?_eq_some_iff]
  constructor
  · rintro ⟨a, ⟨n, hl, hn⟩, ha⟩
    exact ⟨a, n, hl, hn, ha⟩
  · rintro ⟨a, n, hl, hn, ha⟩
    exact ⟨a, ⟨n, hl, hn⟩, ha⟩

/-! ### Layout results do not matter -/

theorem of_forall₂ [Scalar α] {d' : Document α}
    (ht : Forest.Forall₂ Node.SameMusic d.trees d'.trees) (hc : d'.capacity = d.capacity)
    (hf : d'.freed = d.freed) : d'.WellFormed := by
  have hmap {β : Type} (key : Node α → β) (hkey : ∀ a b : Node α, a.SameMusic b → key a = key b) :
      d.trees.toList.map key = d'.trees.toList.map key := by
    rw [← Forest.toList_map, ht.map_eq hkey, Forest.toList_map]
  refine ⟨?_, ?_, ?_, ?_, ?_⟩
  · obtain ⟨n, below, detached, htrees, hroot, htag⟩ := hd.root
    rw [htrees] at ht
    generalize htrees' : d'.trees = trees' at ht
    cases ht with
    | cons hn _ _ => exact ⟨_, _, _, rfl, hn.handle.trans hroot, hn.tag.trans htag⟩
  · rw [Document.ids, ← hmap Node.id fun a b h => h.id.symm]
    exact hd.ids
  · rw [handles, ← hmap Node.handle fun a b h => h.handle.symm, hf, hc]
    exact hd.arena
  · intro a' b' hl'
    obtain ⟨⟨above, b⟩, hl, ha, hb⟩ :=
      exists_mem_of_forall₂ (ht.links Option.Rel.none) hl'
    cases ha with
    | some ha => exact (Node.SameMusic.accepts ha hb).trans (hd.accepts _ _ hl)
  · intro n' hn'
    obtain ⟨n, hn, h⟩ := exists_mem_of_forall₂ ht.toList hn'
    rw [h.id, h.tag]
    exact hd.reserved n hn

end WellFormed

end Document

end ScoreLayout
