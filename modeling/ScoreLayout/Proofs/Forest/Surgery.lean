import ScoreLayout.Proofs.Forest.Walk

/-!
# Surgery on forests

Pruning and grafting look for a label. Where the place of the label in the forest is known, and no
other label has its key, the result is known as well: the forest is the same around the place.

## Main definitions

* `Forest.Without` — a forest, and what remains of it when one tree is taken out.
* `Forest.With` — a forest, and what becomes of it when trees are added below a label.
* `Forest.Changed` — a forest, and what becomes of it when one label is changed.
* `Forest.branches` — the children of all trees.
* `Forest.trees` — the labels of the trees with their children.
* `Forest.stubs` — the trees without their children.
* `Forest.NoLeaf` — every tree has children.

## Main results

* `Forest.Without.prune?_eq`, `Forest.With.graft_eq`, `Forest.Changed.modify_eq` — pruning, grafting
  and modifying at a known place.
-/

namespace ScoreLayout

namespace Forest

variable {β : Type} {κ : Type} [DecidableEq κ] (key : β → κ)

/-! ### Taking a tree out -/

/-- A forest, and what remains of it when one tree is taken out. -/
inductive Without (b : β) (below : Forest β) : Forest β → Forest β → Prop
  | here (siblings : Forest β) : Without b below (cons b below siblings) siblings
  | deeper {c : β} {children children' : Forest β} (siblings : Forest β)
      (h : Without b below children children') :
      Without b below (cons c children siblings) (cons c children' siblings)
  | beside (c : β) (children : Forest β) {siblings siblings' : Forest β}
      (h : Without b below siblings siblings') :
      Without b below (cons c children siblings) (cons c children siblings')

namespace Without

variable {b : β} {below f g : Forest β}

theorem append_right (h : Without b below f g) (front : Forest β) :
    Without b below (front ++ f) (front ++ g) := by
  induction front with
  | nil => exact h
  | cons c children siblings _ ih => exact .beside c children ih

theorem append_left (h : Without b below f g) (back : Forest β) :
    Without b below (f ++ back) (g ++ back) := by
  induction h with
  | here => exact .here _
  | deeper _ h => exact .deeper _ h
  | beside _ _ _ ih => exact .beside _ _ ih

theorem hasTree (h : Without b below f g) : HasTree b below f := by
  induction h with
  | here => exact .here _
  | deeper _ _ ih => exact .deeper _ ih
  | beside _ _ _ ih => exact .beside _ _ ih

theorem sublist (h : Without b below f g) : g.toList.Sublist f.toList := by
  induction h with
  | here siblings => exact (List.sublist_append_right ..).cons b
  | deeper _ _ ih => exact (ih.append_right _).cons_cons _
  | beside _ _ _ ih => exact (ih.append_left _).cons_cons _

/-- Where labels have different keys, looking for the key of a label prunes its tree. -/
theorem prune?_eq (h : Without b below f g) (hf : (f.toList.map key).Nodup) :
    f.prune? (fun c => key c = key b) = some ((b, below), g) := by
  induction h with
  | here => simp [prune?]
  | @deeper c children children' siblings h ih =>
    rw [toList, List.map_cons, List.nodup_cons, List.map_append, List.nodup_append] at hf
    have hc : key c ≠ key b := fun hk =>
      hf.1 (List.mem_append_left _ (hk ▸ List.mem_map_of_mem h.hasTree.mem))
    simp [prune?, hc, ih hf.2.1]
  | @beside c children siblings siblings' h ih =>
    rw [toList, List.map_cons, List.nodup_cons, List.map_append, List.nodup_append] at hf
    have hc : key c ≠ key b := fun hk =>
      hf.1 (List.mem_append_right _ (hk ▸ List.mem_map_of_mem h.hasTree.mem))
    have habs : ∀ a ∈ children.toList, ¬ decide (key a = key b) := fun a ha hk =>
      hf.2.2.2 _ (List.mem_map_of_mem ha) _ (List.mem_map_of_mem h.hasTree.mem) (by simpa using hk)
    simp [prune?, hc, prune?_of_absent habs, ih hf.2.2.1]

end Without

/-! ### Putting trees in -/

/-- A forest, and what becomes of it when trees are added below a label. -/
inductive With (b : β) (added : Forest β) : Forest β → Forest β → Prop
  | here (children siblings : Forest β) :
      With b added (cons b children siblings) (cons b (children ++ added) siblings)
  | deeper {c : β} {children children' : Forest β} (siblings : Forest β)
      (h : With b added children children') :
      With b added (cons c children siblings) (cons c children' siblings)
  | beside (c : β) (children : Forest β) {siblings siblings' : Forest β}
      (h : With b added siblings siblings') :
      With b added (cons c children siblings) (cons c children siblings')

namespace With

variable {b : β} {added f g : Forest β}

theorem append_right (h : With b added f g) (front : Forest β) :
    With b added (front ++ f) (front ++ g) := by
  induction front with
  | nil => exact h
  | cons c children siblings _ ih => exact .beside c children ih

theorem append_left (h : With b added f g) (back : Forest β) :
    With b added (f ++ back) (g ++ back) := by
  induction h with
  | here => exact .here _ _
  | deeper _ h => exact .deeper _ h
  | beside _ _ _ ih => exact .beside _ _ ih

theorem mem (h : With b added f g) : b ∈ f.toList := by
  induction h with
  | here => simp [toList]
  | deeper _ _ ih => simp [toList, ih]
  | beside _ _ _ ih => simp [toList, ih]

/-- Where labels have different keys, grafting at the key of a label adds trees below it. -/
theorem graft_eq (h : With b added f g) (hf : (f.toList.map key).Nodup) :
    f.graft (fun c => key c = key b) added = g := by
  induction h with
  | here children siblings =>
    rw [toList, List.map_cons, List.nodup_cons] at hf
    have habs (s : List β) (hs : ∀ a ∈ s, key a ∈ (children.toList ++ siblings.toList).map key) :
        ∀ a ∈ s, ¬ decide (key a = key b) := fun a ha hk => by
      have hk : key a = key b := by simpa using hk
      exact hf.1 (hk ▸ hs a ha)
    have hc := habs children.toList fun a ha => List.mem_map_of_mem (List.mem_append_left _ ha)
    have hs := habs siblings.toList fun a ha => List.mem_map_of_mem (List.mem_append_right _ ha)
    simp [graft, graft_of_absent hc, graft_of_absent hs]
  | @deeper c children children' siblings h ih =>
    rw [toList, List.map_cons, List.nodup_cons, List.map_append, List.nodup_append] at hf
    have hc : key c ≠ key b := fun hk =>
      hf.1 (List.mem_append_left _ (hk ▸ List.mem_map_of_mem h.mem))
    have habs : ∀ a ∈ siblings.toList, ¬ decide (key a = key b) := fun a ha hk =>
      hf.2.2.2 _ (List.mem_map_of_mem h.mem) _ (List.mem_map_of_mem ha) (Eq.symm (by simpa using hk))
    simp [graft, hc, graft_of_absent habs, ih hf.2.1]
  | @beside c children siblings siblings' h ih =>
    rw [toList, List.map_cons, List.nodup_cons, List.map_append, List.nodup_append] at hf
    have hc : key c ≠ key b := fun hk =>
      hf.1 (List.mem_append_right _ (hk ▸ List.mem_map_of_mem h.mem))
    have habs : ∀ a ∈ children.toList, ¬ decide (key a = key b) := fun a ha hk =>
      hf.2.2.2 _ (List.mem_map_of_mem ha) _ (List.mem_map_of_mem h.mem) (by simpa using hk)
    simp [graft, hc, graft_of_absent habs, ih hf.2.2.1]

end With

/-! ### Changing a label -/

theorem modify_cons (p : β → Bool) (u : β → β) (b : β) (children siblings : Forest β) :
    (cons b children siblings).modify p u =
      cons (if p b then u b else b) (children.modify p u) (siblings.modify p u) := rfl

/-- A forest, and what becomes of it when one label is changed. -/
inductive Changed (b c : β) : Forest β → Forest β → Prop
  | here (children siblings : Forest β) : Changed b c (cons b children siblings)
      (cons c children siblings)
  | deeper {a : β} {children children' : Forest β} (siblings : Forest β)
      (h : Changed b c children children') :
      Changed b c (cons a children siblings) (cons a children' siblings)
  | beside (a : β) (children : Forest β) {siblings siblings' : Forest β}
      (h : Changed b c siblings siblings') :
      Changed b c (cons a children siblings) (cons a children siblings')

namespace Changed

variable {b c : β} {f g : Forest β}

theorem append_right (h : Changed b c f g) (front : Forest β) :
    Changed b c (front ++ f) (front ++ g) := by
  induction front with
  | nil => exact h
  | cons a children siblings _ ih => exact .beside a children ih

theorem append_left (h : Changed b c f g) (back : Forest β) :
    Changed b c (f ++ back) (g ++ back) := by
  induction h with
  | here => exact .here _ _
  | deeper _ h => exact .deeper _ h
  | beside _ _ _ ih => exact .beside _ _ ih

theorem mem (h : Changed b c f g) : b ∈ f.toList := by
  induction h with
  | here => simp [toList]
  | deeper _ _ ih => simp [toList, ih]
  | beside _ _ _ ih => simp [toList, ih]

theorem forall₂ {R : β → β → Prop} (h : Changed b c f g) (hrefl : ∀ a, R a a) (hb : R b c) :
    Forall₂ R f g := by
  have hstay (f : Forest β) : Forall₂ R f f := .refl fun a _ => hrefl a
  induction h with
  | here => exact .cons hb (hstay _) (hstay _)
  | deeper _ _ ih => exact .cons (hrefl _) ih (hstay _)
  | beside _ _ _ ih => exact .cons (hrefl _) (hstay _) ih

/-- Where labels have different keys, modifying at the key of a label changes it alone. -/
theorem modify_eq {u : β → β} (h : Changed b (u b) f g) (hf : (f.toList.map key).Nodup) :
    f.modify (fun a => key a = key b) u = g := by
  generalize hc : u b = c at h
  induction h with
  | here children siblings =>
    rw [toList, List.map_cons, List.nodup_cons] at hf
    have habs (s : List β) (hs : ∀ a ∈ s, key a ∈ (children.toList ++ siblings.toList).map key) :
        ∀ a ∈ s, ¬ decide (key a = key b) := fun a ha hk => by
      have hk : key a = key b := by simpa using hk
      exact hf.1 (hk ▸ hs a ha)
    have hch := habs children.toList fun a ha => List.mem_map_of_mem (List.mem_append_left _ ha)
    have hsi := habs siblings.toList fun a ha => List.mem_map_of_mem (List.mem_append_right _ ha)
    rw [modify_cons, modify_of_absent hch, modify_of_absent hsi, if_pos (by simp), hc]
  | @deeper a children children' siblings h ih =>
    rw [toList, List.map_cons, List.nodup_cons, List.map_append, List.nodup_append] at hf
    have ha : key a ≠ key b := fun hk =>
      hf.1 (List.mem_append_left _ (hk ▸ List.mem_map_of_mem h.mem))
    have habs : ∀ a ∈ siblings.toList, ¬ decide (key a = key b) := fun a ha hk =>
      hf.2.2.2 _ (List.mem_map_of_mem h.mem) _ (List.mem_map_of_mem ha) (Eq.symm (by simpa using hk))
    rw [modify_cons, ih hf.2.1, modify_of_absent habs, if_neg (by simpa using ha)]
  | @beside a children siblings siblings' h ih =>
    rw [toList, List.map_cons, List.nodup_cons, List.map_append, List.nodup_append] at hf
    have ha : key a ≠ key b := fun hk =>
      hf.1 (List.mem_append_right _ (hk ▸ List.mem_map_of_mem h.mem))
    have habs : ∀ a ∈ children.toList, ¬ decide (key a = key b) := fun a ha hk =>
      hf.2.2.2 _ (List.mem_map_of_mem ha) _ (List.mem_map_of_mem h.mem) (by simpa using hk)
    rw [modify_cons, ih hf.2.2.1, modify_of_absent habs, if_neg (by simpa using ha)]

end Changed

/-! ### The children of all trees -/

/-- The children of all trees, one tree after another. -/
def branches : Forest β → Forest β
  | nil => nil
  | cons _ children siblings => children ++ siblings.branches

/-- The labels of the trees with their children. -/
def trees : Forest β → List (β × Forest β)
  | nil => []
  | cons b children siblings => (b, children) :: siblings.trees

/-- The trees without their children. -/
def stubs : Forest β → Forest β
  | nil => nil
  | cons b _ siblings => cons b nil siblings.stubs

/-- Every tree has children. -/
def NoLeaf : Forest β → Prop
  | nil => True
  | cons _ children siblings => children ≠ nil ∧ siblings.NoLeaf

theorem map_fst_trees (f : Forest β) : f.trees.map Prod.fst = f.roots := by
  induction f with
  | nil => rfl
  | cons b children siblings _ hs => rw [trees, roots, List.map_cons, hs]

theorem append_assoc (f g h : Forest β) : f ++ g ++ h = f ++ (g ++ h) := by
  induction f with
  | nil => rfl
  | cons b children siblings _ hs => rw [cons_append, cons_append, cons_append, hs]

@[simp] theorem branches_append (f g : Forest β) :
    (f ++ g).branches = f.branches ++ g.branches := by
  induction f with
  | nil => rfl
  | cons b children siblings _ hs => rw [cons_append, branches, branches, hs, append_assoc]

theorem branches_tree (b : β) (children : Forest β) : (tree b children).branches = children := by
  rw [tree, branches, branches, append_nil]

theorem branches_map {γ : Type} (h : β → γ) (f : Forest β) :
    (f.map h).branches = f.branches.map h := by
  have happend (f g : Forest β) : (f ++ g).map h = f.map h ++ g.map h := by
    induction f with
    | nil => rfl
    | cons b children siblings _ hs => rw [cons_append, map, map, hs, cons_append]
  induction f with
  | nil => rfl
  | cons b children siblings _ hs => rw [map, branches, branches, hs, happend]

/-- The labels of a forest are its roots and what is below them. -/
theorem toList_perm (f : Forest β) : f.toList.Perm (f.roots ++ f.branches.toList) := by
  induction f with
  | nil => exact .nil
  | cons b children siblings _ hs =>
    rw [toList, roots, branches, toList_append, List.cons_append]
    refine .cons b (((hs.append_left _).trans ?_))
    rw [← List.append_assoc, ← List.append_assoc]
    exact List.perm_append_comm.append_right _

/-- What no root satisfies is found among the children. -/
theorem filter_toList_branches {p : β → Bool} {f : Forest β} (h : ∀ b ∈ f.roots, ¬ p b) :
    f.branches.toList.filter p = f.toList.filter p := by
  induction f with
  | nil => rfl
  | cons b children siblings _ hs =>
    rw [roots, List.forall_mem_cons] at h
    rw [branches, toList_append, toList, List.filter_append, hs h.2,
      List.filter_cons_of_neg h.1, List.filter_append]

theorem roots_eq_nil {f : Forest β} : f.roots = [] ↔ f = nil := by
  cases f <;> simp [roots]

/-- A forest with a single root is a single tree. -/
theorem eq_tree_of_roots {f : Forest β} {b : β} (h : f.roots = [b]) :
    ∃ below, f = tree b below := by
  cases f with
  | nil => simp [roots] at h
  | cons c children siblings =>
    rw [roots, List.cons.injEq, roots_eq_nil] at h
    exact ⟨children, by rw [h.1, h.2]; rfl⟩

theorem noLeaf_append {f g : Forest β} : (f ++ g).NoLeaf ↔ f.NoLeaf ∧ g.NoLeaf := by
  induction f with
  | nil => exact (iff_of_eq (true_and _)).symm
  | cons b children siblings _ hs => rw [cons_append, NoLeaf, NoLeaf, hs, and_assoc]

theorem noLeaf_tree {b : β} {children : Forest β} (h : children ≠ nil) :
    (tree b children).NoLeaf := ⟨h, trivial⟩

/-- The trees at the top with what is below each. -/
theorem NoLeaf.eq_nil {f : Forest β} (hf : f.NoLeaf) (h : f.branches = nil) : f = nil := by
  cases f with
  | nil => rfl
  | cons b children siblings =>
    cases children with
    | nil => exact absurd rfl hf.1
    | cons c below beside => simp [branches] at h

theorem NoLeaf.of_mem_roots {f : Forest β} (hf : f.NoLeaf) {b : β} (hb : b ∈ f.roots) :
    ∃ children, children ≠ nil ∧ HasTree b children f := by
  induction f with
  | nil => simp [roots] at hb
  | cons c children siblings _ hs =>
    rcases List.mem_cons.1 hb with rfl | hb
    · exact ⟨children, hf.1, .here siblings⟩
    · obtain ⟨under, hne, h⟩ := hs hf.2 hb
      exact ⟨under, hne, .beside c children h⟩

theorem sublist_roots (f : Forest β) : f.roots.Sublist f.toList := by
  induction f with
  | nil => exact List.Sublist.refl _
  | cons c children siblings _ hs =>
    rw [roots, toList]
    exact (hs.trans (List.sublist_append_right ..)).cons_cons c

theorem mem_toList_of_mem_roots {f : Forest β} {b : β} (hb : b ∈ f.roots) : b ∈ f.toList :=
  f.sublist_roots.subset hb

/-- What stands below a root stands in the branches. -/
theorem exists_below_of_mem_roots {f : Forest β} {b : β} (hb : b ∈ f.roots) :
    ∃ children, HasTree b children f ∧
      ∀ c below, HasTree c below children → HasTree c below f.branches := by
  induction f with
  | nil => simp [roots] at hb
  | cons c children siblings _ hs =>
    rcases List.mem_cons.1 hb with rfl | hb
    · exact ⟨children, .here siblings, fun _ _ h => h.append_left siblings.branches⟩
    · obtain ⟨children', htree, hbelow⟩ := hs hb
      exact ⟨children', .beside c children htree, fun _ _ h => (hbelow _ _ h).append_right children⟩

theorem mem_toList_iff {f : Forest β} {b : β} :
    b ∈ f.toList ↔ b ∈ f.roots ∨ b ∈ f.branches.toList := by
  induction f with
  | nil => simp [toList, roots, branches]
  | cons c children siblings _ hs =>
    rw [toList, roots, branches, toList_append]
    simp only [List.mem_cons, List.mem_append, hs]
    tauto

theorem link_of_mem_roots {f : Forest β} {b : β} (above : Option β) (hb : b ∈ f.roots) :
    (above, b) ∈ f.links above := by
  induction f with
  | nil => simp [roots] at hb
  | cons c children siblings _ hs =>
    rw [links]
    rcases List.mem_cons.1 hb with rfl | hb
    · exact List.mem_cons_self
    · exact List.mem_cons_of_mem _ (List.mem_append_right _ (hs hb))

theorem sublist_branches (f : Forest β) : f.branches.toList.Sublist f.toList := by
  induction f with
  | nil => exact List.Sublist.refl _
  | cons b children siblings _ hs =>
    rw [branches, toList_append, toList]
    exact (hs.append_left children.toList).cons b

theorem hasTree_of_mem_trees {f : Forest β} {t : β × Forest β} (ht : t ∈ f.trees) :
    HasTree t.1 t.2 f := by
  induction f with
  | nil => exact absurd ht List.not_mem_nil
  | cons b children siblings _ hs =>
    rcases List.mem_cons.1 ht with rfl | ht
    · exact .here siblings
    · exact .beside b children (hs ht)

/-- What stands below the roots stands below one of them. -/
theorem exists_tree_of_mem_branches {f : Forest β} {b : β} (hb : b ∈ f.branches.toList) :
    ∃ t ∈ f.trees, b ∈ t.2.toList := by
  induction f with
  | nil => exact absurd hb List.not_mem_nil
  | cons c children siblings _ ih =>
    rw [branches, toList_append, List.mem_append] at hb
    rw [trees]
    rcases hb with hb | hb
    · exact ⟨_, List.mem_cons_self, hb⟩
    · obtain ⟨t, ht, hb⟩ := ih hb
      exact ⟨t, List.mem_cons_of_mem _ ht, hb⟩

/-- A label stands before what is below it. -/
theorem HasTree.cons_sublist {f : Forest β} {b : β} {below : Forest β}
    (h : HasTree b below f) : (b :: below.toList).Sublist f.toList := by
  induction h with
  | here => exact (List.sublist_append_left ..).cons_cons _
  | deeper siblings _ ih => exact (ih.trans (List.sublist_append_left ..)).cons _
  | beside c children _ ih => exact (ih.trans (List.sublist_append_right ..)).cons _

theorem HasTree.of_append {f g : Forest β} {b : β} {below : Forest β}
    (h : HasTree b below (f ++ g)) : HasTree b below f ∨ HasTree b below g := by
  induction f with
  | nil => exact .inr h
  | cons c children siblings _ hs =>
    rw [cons_append] at h
    cases h with
    | here => exact .inl (.here _)
    | deeper _ h => exact .inl (.deeper _ h)
    | beside _ _ h => exact (hs h).imp_left fun h => .beside _ _ h

theorem HasTree.of_branches {f : Forest β} {b : β} {below : Forest β}
    (h : HasTree b below f.branches) : HasTree b below f := by
  induction f with
  | nil => exact h
  | cons c children siblings _ hs =>
    rcases h.of_append with h | h
    · exact .deeper _ h
    · exact .beside _ _ (hs h)

/-- A tree that is no root stands below one. -/
theorem HasTree.mem_roots_or_branches {f : Forest β} {b : β} {below : Forest β}
    (h : HasTree b below f) : b ∈ f.roots ∨ HasTree b below f.branches := by
  induction h with
  | here siblings => exact .inl List.mem_cons_self
  | deeper siblings h _ => exact .inr (h.append_left _)
  | beside c children _ ih =>
    exact ih.imp (List.mem_cons_of_mem c) fun h => h.append_right children

/-- A child of some tree is linked to the root of that tree. -/
theorem exists_link_branches {f : Forest β} {b : β} (above : Option β) (hb : b ∈ f.branches.roots) :
    ∃ a ∈ f.roots, (some a, b) ∈ f.links above := by
  induction f with
  | nil => simp [branches, roots] at hb
  | cons c children siblings _ hs =>
    rw [branches, roots_append, List.mem_append] at hb
    rw [roots, links]
    rcases hb with hb | hb
    · exact ⟨c, List.mem_cons_self,
        List.mem_cons_of_mem _ (List.mem_append_left _ (link_of_mem_roots _ hb))⟩
    · obtain ⟨a, ha, hl⟩ := hs hb
      exact ⟨a, List.mem_cons_of_mem c ha, List.mem_cons_of_mem _ (List.mem_append_right _ hl)⟩

/-- A link among the children of all trees is a link of the forest. -/
theorem mem_links_of_branches {f : Forest β} {a b : β} (above : Option β)
    (h : (some a, b) ∈ f.branches.links none) : (some a, b) ∈ f.links above := by
  induction f with
  | nil => simp [branches, links] at h
  | cons c children siblings _ hs =>
    rw [branches, links_append, List.mem_append] at h
    rw [links]
    refine List.mem_cons_of_mem _ (List.mem_append.2 ?_)
    exact h.imp (fun h => mem_links_of_mem_links_none h (some c)) hs

/-- What holds of the roots and passes along links holds of all labels. -/
theorem forall_of_links {P : β → Prop} {f : Forest β} (hroots : ∀ b ∈ f.roots, P b)
    (hlinks : ∀ a b, (some a, b) ∈ f.links none → P a → P b) : ∀ b ∈ f.toList, P b := by
  induction f with
  | nil => simp [toList]
  | cons c children siblings hc hs =>
    simp only [roots, List.mem_cons, forall_eq_or_imp] at hroots
    have hbelow : ∀ a b, (some a, b) ∈ children.links (some c) → P a → P b := fun a b hl =>
      hlinks a b (List.mem_cons_of_mem _ (List.mem_append_left _ hl))
    intro b hb
    rw [toList, List.mem_cons, List.mem_append] at hb
    rcases hb with rfl | hb | hb
    · exact hroots.1
    · refine hc (fun b hb => ?_) (fun a b hl => ?_) b hb
      · exact hbelow c b (link_of_mem_roots _ hb) hroots.1
      · exact hbelow a b (mem_links_of_mem_links_none hl _)
    · refine hs hroots.2 (fun a b hl => ?_) b hb
      exact hlinks a b (List.mem_cons_of_mem _ (List.mem_append_right _ hl))

namespace Forall₂

variable {γ : Type} {R : β → γ → Prop} {f : Forest β} {g : Forest γ}

theorem branches (h : Forall₂ R f g) : Forall₂ R f.branches g.branches := by
  induction h with
  | nil => exact .nil
  | cons _ hc _ _ hs => exact hc.append hs

theorem noLeaf (h : Forall₂ R f g) (hf : f.NoLeaf) : g.NoLeaf := by
  induction h with
  | nil => exact hf
  | cons _ hc _ _ hs =>
    refine ⟨fun hnil => hf.1 ?_, hs hf.2⟩
    rw [hnil] at hc
    cases hc
    rfl

theorem eq_nil_iff (h : Forall₂ R f g) : f = .nil ↔ g = .nil := by
  cases h <;> simp

/-- A tree of a forest has its partner in a related forest. -/
theorem hasTree (h : Forall₂ R f g) {b : β} {below : Forest β} (hb : HasTree b below f) :
    ∃ c below', HasTree c below' g ∧ R b c ∧ Forall₂ R below below' := by
  induction h with
  | nil => cases hb
  | cons hlabel hc _ ihc ihs =>
    cases hb with
    | here => exact ⟨_, _, .here _, hlabel, hc⟩
    | deeper _ hb =>
      obtain ⟨c, below', hc, hR, hb⟩ := ihc hb
      exact ⟨c, below', .deeper _ hc, hR, hb⟩
    | beside _ _ hb =>
      obtain ⟨c, below', hc, hR, hb⟩ := ihs hb
      exact ⟨c, below', .beside _ _ hc, hR, hb⟩

end Forall₂

end Forest

end ScoreLayout
