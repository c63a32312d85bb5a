import Mathlib.Data.List.Nodup
import Mathlib.Data.List.Perm.Lattice
import ScoreLayout.Forest

/-!
# Links of a forest

A forest is read as the list of its labels, each together with the label directly above it. Every
change of a forest is a permutation of such links, so what is said of links is said of the labels,
of who stands above whom, and of who stands below whom at once.

## Main definitions

* `Forest.links` — the labels in document order, each with the label directly above it.
* `Forest.HasTree` — a label with its children stands somewhere in a forest.

## Main results

* `Forest.links_graft_perm`, `Forest.links_prune?_perm` — the links after grafting and pruning.
* `Forest.roots_childrenOf?` — the children of a label are the links from it.
* `Forest.head?_ancestors?` — the label directly above a label is the start of the link to it.
* `Forest.HasTree.find?_eq`, `Forest.HasTree.childrenOf?_eq` — looking up a tree by a key that only
  its label has.
-/

namespace ScoreLayout

/-- In a list whose items have different keys, looking up a key finds the one item that has it. -/
theorem find?_key_eq_some_iff {β κ : Type} [DecidableEq κ] {key : β → κ} {k : κ} {b : β} :
    {l : List β} → (l.map key).Nodup →
      (l.find? (fun c => key c = k) = some b ↔ b ∈ l ∧ key b = k)
  | [], _ => by simp
  | c :: l, h => by
      rw [List.map_cons, List.nodup_cons] at h
      by_cases hc : key c = k
      · rw [List.find?_cons_of_pos (by simpa using hc), Option.some.injEq, List.mem_cons]
        constructor
        · rintro rfl
          exact ⟨.inl rfl, hc⟩
        · rintro ⟨rfl | hb, hk⟩
          · rfl
          · exact absurd (List.mem_map.2 ⟨b, hb, hk.trans hc.symm⟩) h.1
      · rw [List.find?_cons_of_neg (by simpa using hc), find?_key_eq_some_iff h.2, List.mem_cons]
        refine ⟨fun hb => ⟨.inr hb.1, hb.2⟩, ?_⟩
        rintro ⟨rfl | hb, hk⟩
        · exact absurd hk hc
        · exact ⟨hb, hk⟩

/-- In a list whose items have different keys, at most one item has a given key. -/
theorem filter_key_eq_singleton {β κ : Type} [DecidableEq κ] {key : β → κ} {b : β} :
    {l : List β} → (l.map key).Nodup → b ∈ l → l.filter (fun c => key c = key b) = [b]
  | [], _, hb => by simp at hb
  | c :: l, h, hb => by
      rw [List.map_cons, List.nodup_cons] at h
      rcases List.mem_cons.1 hb with rfl | hb
      · rw [List.filter_cons_of_pos (by simp), List.filter_eq_nil_iff.2]
        intro c hc
        simpa using fun hk => h.1 (List.mem_map.2 ⟨c, hc, hk⟩)
      · have hc : key c ≠ key b := fun hk => h.1 (List.mem_map.2 ⟨b, hb, hk.symm⟩)
        rw [List.filter_cons_of_neg (by simpa using hc), filter_key_eq_singleton h.2 hb]

namespace Forest

variable {β : Type}

/-- The labels in document order, each with the label directly above it; `above` stands above the
roots. -/
def links : (above : Option β) → Forest β → List (Option β × β)
  | _, nil => []
  | above, cons b children siblings =>
    (above, b) :: (children.links (some b) ++ siblings.links above)

theorem toList_tree (b : β) (f : Forest β) : (tree b f).toList = b :: f.toList := by
  rw [tree, toList, toList, List.append_nil]

@[simp] theorem map_snd_links (above : Option β) (f : Forest β) :
    (f.links above).map Prod.snd = f.toList := by
  induction f generalizing above with
  | nil => rfl
  | cons b children siblings hc hs => simp [links, toList, hc, hs]

theorem mem_toList_of_mem_links {above : Option β} {f : Forest β} {l : Option β × β}
    (h : l ∈ f.links above) : l.2 ∈ f.toList :=
  map_snd_links above f ▸ List.mem_map_of_mem h

theorem exists_link {f : Forest β} {b : β} (above : Option β) (h : b ∈ f.toList) :
    ∃ a, (a, b) ∈ f.links above := by
  rw [← map_snd_links above f] at h
  obtain ⟨⟨a, _⟩, hl, rfl⟩ := List.mem_map.1 h
  exact ⟨a, hl⟩

@[simp] theorem links_append (above : Option β) (f g : Forest β) :
    (f ++ g).links above = f.links above ++ g.links above := by
  induction f with
  | nil => rfl
  | cons b children siblings _ hs => simp [links, hs]

@[simp] theorem links_map {γ : Type} (h : β → γ) (above : Option β) (f : Forest β) :
    (f.map h).links (above.map h) = (f.links above).map fun l => (l.1.map h, h l.2) := by
  induction f generalizing above with
  | nil => rfl
  | cons b children siblings hc hs =>
    have := hc (some b)
    simp_all [links, map]

theorem map_congr {γ : Type} {u v : β → γ} : {f : Forest β} → (∀ b ∈ f.toList, u b = v b) →
    f.map u = f.map v
  | nil, _ => rfl
  | cons b children siblings, h => by
      simp only [toList, List.mem_cons, List.mem_append, or_imp, forall_and, forall_eq] at h
      rw [map, map, h.1, map_congr h.2.1, map_congr h.2.2]

theorem map_eq_self {u : β → β} : {f : Forest β} → (∀ b ∈ f.toList, u b = b) → f.map u = f
  | nil, _ => rfl
  | cons b children siblings, h => by
      simp only [toList, List.mem_cons, List.mem_append, or_imp, forall_and, forall_eq] at h
      rw [map, h.1, map_eq_self h.2.1, map_eq_self h.2.2]

/-- What stands above a label is the label given for the roots, or a label of the forest. -/
theorem mem_of_mem_links {above : Option β} {f : Forest β} {a b : β}
    (h : (some a, b) ∈ f.links above) : above = some a ∨ a ∈ f.toList := by
  induction f generalizing above with
  | nil => simp [links] at h
  | cons c children siblings hc hs =>
    simp only [links, List.mem_cons, List.mem_append, Prod.mk.injEq] at h
    rw [toList, List.mem_cons, List.mem_append]
    rcases h with ⟨h, -⟩ | h | h
    · exact .inl h.symm
    · rcases hc h with h | h
      · exact .inr (.inl (Option.some.inj h).symm)
      · exact .inr (.inr (.inl h))
    · rcases hs h with h | h
      · exact .inl h
      · exact .inr (.inr (.inr h))

/-- Below a label every label has one directly above it. -/
theorem exists_link_some {f : Forest β} {b : β} (above : β) (h : b ∈ f.toList) :
    ∃ a, (some a, b) ∈ f.links (some above) := by
  induction f generalizing above with
  | nil => simp [toList] at h
  | cons c children siblings hc hs =>
    rw [toList, List.mem_cons, List.mem_append] at h
    rw [links]
    rcases h with rfl | h | h
    · exact ⟨above, List.mem_cons_self⟩
    · obtain ⟨a, ha⟩ := hc c h
      exact ⟨a, List.mem_cons_of_mem _ (List.mem_append_left _ ha)⟩
    · obtain ⟨a, ha⟩ := hs above h
      exact ⟨a, List.mem_cons_of_mem _ (List.mem_append_right _ ha)⟩

/-- Below other roots the links are the same, apart from those of the roots. -/
theorem mem_links_of_mem_links_none {f : Forest β} {a b : β} (h : (some a, b) ∈ f.links none)
    (above : Option β) : (some a, b) ∈ f.links above := by
  induction f with
  | nil => simp [links] at h
  | cons c children siblings _ hs =>
    simp only [links, List.mem_cons, List.mem_append, Prod.mk.injEq] at h ⊢
    rcases h with ⟨h, -⟩ | h | h
    · exact absurd h (by simp)
    · exact .inr (.inl h)
    · exact .inr (.inr (hs h))

/-- A transitive relation that holds along all links holds from the top to every label. -/
theorem rel_of_links {R : β → β → Prop} (htrans : ∀ a b c, R a b → R b c → R a c) {f : Forest β}
    {n : β} (h : ∀ a b, (some a, b) ∈ f.links (some n) → R a b) : ∀ b ∈ f.toList, R n b := by
  induction f generalizing n with
  | nil => simp [toList]
  | cons c children siblings hc hs =>
    simp only [links, List.mem_cons, List.mem_append] at h
    have hn : R n c := h n c (.inl rfl)
    intro b hb
    rw [toList, List.mem_cons, List.mem_append] at hb
    rcases hb with rfl | hb | hb
    · exact hn
    · exact htrans n c b hn (hc (fun a b hl => h a b (.inr (.inl hl))) b hb)
    · exact hs (fun a b hl => h a b (.inr (.inr hl))) b hb

/-! ### Forests in which no label passes a test -/

section Absent

variable {p : β → Bool} {f : Forest β} (h : ∀ b ∈ f.toList, ¬ p b)

include h

theorem find?_of_absent : f.find? p = none := by
  rw [find?_eq_find?_toList]
  exact List.find?_eq_none.2 h

theorem modify_of_absent (g : β → β) : f.modify p g = f := by
  induction f with
  | nil => rfl
  | cons b children siblings hc hs =>
    simp only [toList, List.mem_cons, List.mem_append, or_imp, forall_and, forall_eq] at h
    simp only [modify, map] at hc hs ⊢
    rw [hc h.2.1, hs h.2.2, if_neg h.1]

theorem graft_of_absent (added : Forest β) : f.graft p added = f := by
  induction f with
  | nil => rfl
  | cons b children siblings hc hs =>
    simp only [toList, List.mem_cons, List.mem_append, or_imp, forall_and, forall_eq] at h
    simp [graft, hc h.2.1, hs h.2.2, h.1]

theorem prune?_of_absent : f.prune? p = none := by
  induction f with
  | nil => rfl
  | cons b children siblings hc hs =>
    simp only [toList, List.mem_cons, List.mem_append, or_imp, forall_and, forall_eq] at h
    simp [prune?, hc h.2.1, hs h.2.2, h.1]

theorem childrenOf?_of_absent : f.childrenOf? p = none := by
  induction f with
  | nil => rfl
  | cons b children siblings hc hs =>
    simp only [toList, List.mem_cons, List.mem_append, or_imp, forall_and, forall_eq] at h
    simp [childrenOf?, hc h.2.1, hs h.2.2, h.1]

theorem ancestors?_of_absent : f.ancestors? p = none := by
  induction f with
  | nil => rfl
  | cons b children siblings hc hs =>
    simp only [toList, List.mem_cons, List.mem_append, or_imp, forall_and, forall_eq] at h
    simp [ancestors?, hc h.2.1, hs h.2.2, h.1]

/-- Where no label passes the test, the links from a label that does are those of the roots. -/
theorem filter_links_of_absent (above : Option β) :
    (f.links above).filter (fun l => l.1.any p) =
      if above.any p then f.roots.map (above, ·) else [] := by
  induction f generalizing above with
  | nil => simp [links, roots]
  | cons b children siblings hc hs =>
    simp only [toList, List.mem_cons, List.mem_append, or_imp, forall_and, forall_eq] at h
    rw [links, List.filter_cons, List.filter_append, hc h.2.1, hs h.2.2]
    by_cases ha : above.any p <;> simp [ha, h.1, roots]

end Absent

/-! ### Changing a forest -/

/-- Pruning takes the links to a label and to what is below it. -/
theorem links_prune?_perm {p : β → Bool} {f g below : Forest β} {b : β}
    (h : f.prune? p = some ((b, below), g)) (above : Option β) :
    p b ∧ ∃ a, (f.links above).Perm ((a, b) :: (below.links (some b) ++ g.links above)) := by
  induction f generalizing g above with
  | nil => simp [prune?] at h
  | cons c children siblings hc hs =>
    by_cases hp : p c
    · rw [prune?, if_pos hp] at h
      simp only [Option.some.injEq, Prod.mk.injEq] at h
      obtain ⟨⟨rfl, rfl⟩, rfl⟩ := h
      exact ⟨hp, above, List.Perm.refl _⟩
    · rw [prune?, if_neg hp] at h
      cases hch : children.prune? p with
      | some taken =>
        obtain ⟨taken, children'⟩ := taken
        simp only [hch, Option.some.injEq, Prod.mk.injEq] at h
        obtain ⟨rfl, rfl⟩ := h
        obtain ⟨hpb, a, hperm⟩ := hc hch (some c)
        refine ⟨hpb, a, ?_⟩
        simp only [links]
        refine ((hperm.append_right _).cons _).trans ?_
        rw [List.cons_append, List.append_assoc]
        exact (List.Perm.swap ..).trans (List.perm_middle.symm.cons _)
      | none =>
        simp only [hch, Option.map_eq_some_iff, Prod.mk.injEq] at h
        obtain ⟨⟨taken, siblings'⟩, hsi, rfl, rfl⟩ := h
        obtain ⟨hpb, a, hperm⟩ := hs hsi above
        refine ⟨hpb, a, ?_⟩
        simp only [links]
        refine ((hperm.append_left _).cons _).trans ?_
        refine (List.perm_middle.cons _).trans ((List.Perm.swap ..).trans (.cons _ ?_))
        rw [← List.cons_append, ← List.cons_append, ← List.append_assoc, ← List.append_assoc]
        exact List.perm_append_comm.append_right _

/-- A label that passes the test is found and pruned. -/
theorem exists_prune? {p : β → Bool} {f : Forest β} {b : β} (hb : b ∈ f.toList) (hp : p b) :
    ∃ c below g, f.prune? p = some ((c, below), g) := by
  induction f with
  | nil => simp [toList] at hb
  | cons c children siblings hc hs =>
    by_cases hpc : p c
    · exact ⟨c, children, siblings, by simp [prune?, hpc]⟩
    · rw [toList, List.mem_cons, List.mem_append] at hb
      cases hch : children.prune? p with
      | some taken =>
        obtain ⟨⟨d, below⟩, g⟩ := taken
        exact ⟨d, below, cons c g siblings, by simp [prune?, hpc, hch]⟩
      | none =>
        rcases hb with rfl | hb | hb
        · exact absurd hp hpc
        · obtain ⟨d, below, g, h⟩ := hc hb
          simp [hch] at h
        · obtain ⟨d, below, g, h⟩ := hs hb
          exact ⟨d, below, cons c children g, by simp [prune?, hpc, hch, h]⟩

/-- A first label that does not pass the test stays where it is. -/
theorem eq_cons_of_prune? {p : β → Bool} {b : β} {children siblings g : Forest β}
    {taken : β × Forest β} (hb : ¬ p b) (h : (cons b children siblings).prune? p = some (taken, g)) :
    ∃ children' siblings', g = cons b children' siblings' := by
  rw [prune?, if_neg hb] at h
  cases hch : children.prune? p with
  | some t =>
    simp only [hch, Option.some.injEq, Prod.mk.injEq] at h
    exact ⟨_, _, h.2.symm⟩
  | none =>
    simp only [hch, Option.map_eq_some_iff, Prod.mk.injEq] at h
    obtain ⟨t, -, -, rfl⟩ := h
    exact ⟨_, _, rfl⟩

@[simp] theorem roots_map {γ : Type} (h : β → γ) (f : Forest β) :
    (f.map h).roots = f.roots.map h := by
  induction f with
  | nil => rfl
  | cons b children siblings _ hs => rw [map, roots, roots, hs, List.map_cons]

@[simp] theorem roots_graft (p : β → Bool) (f added : Forest β) :
    (f.graft p added).roots = f.roots := by
  induction f with
  | nil => rfl
  | cons b children siblings _ hs => rw [graft, roots, roots, hs]

/-- Grafting adds the links of the new trees below every label that passes the test. -/
theorem links_graft_perm (p : β → Bool) (f added : Forest β) (above : Option β) :
    ((f.graft p added).links above).Perm
      (f.links above ++ (f.toList.filter p).flatMap fun b => added.links (some b)) := by
  induction f generalizing above with
  | nil => exact List.Perm.refl _
  | cons b children siblings hc hs =>
    have hch : ((children.graft p added).links (some b) ++ (siblings.graft p added).links above).Perm
        (children.links (some b) ++ siblings.links above ++
          (((children.toList ++ siblings.toList).filter p).flatMap fun b =>
            added.links (some b))) := by
      rw [List.filter_append, List.flatMap_append]
      refine ((hc (some b)).append (hs above)).trans ?_
      simp only [List.append_assoc]
      refine List.Perm.append_left _ ?_
      rw [← List.append_assoc, ← List.append_assoc]
      exact List.perm_append_comm.append_right _
    by_cases hp : p b
    · simp only [graft, if_pos hp, links, links_append, toList, List.filter_cons_of_pos hp,
        List.flatMap_cons, List.cons_append]
      refine List.Perm.cons _ ?_
      rw [List.append_assoc]
      refine (List.perm_append_comm.append_left _).trans ?_
      rw [← List.append_assoc]
      refine (hch.append_right _).trans ?_
      rw [List.append_assoc]
      exact List.perm_append_comm.append_left _
    · simp only [graft, if_neg hp, links, toList, List.filter_cons_of_neg hp, List.cons_append]
      exact hch.cons _

@[simp] theorem graft_append (p : β → Bool) (f g added : Forest β) :
    (f ++ g).graft p added = f.graft p added ++ g.graft p added := by
  induction f with
  | nil => rfl
  | cons b children siblings _ hs => simp [graft, hs]

theorem prune?_append_of_absent {p : β → Bool} {f : Forest β} (h : ∀ b ∈ f.toList, ¬ p b)
    (g : Forest β) : (f ++ g).prune? p = (g.prune? p).map fun t => (t.1, f ++ t.2) := by
  induction f with
  | nil => simp
  | cons b children siblings _ hs =>
    simp only [toList, List.mem_cons, List.mem_append, or_imp, forall_and, forall_eq] at h
    rw [cons_append, prune?, if_neg h.1, prune?_of_absent h.2.1, hs h.2.2, Option.map_map]
    rfl

/-! ### Looking up the neighbours of a label -/

/-- The children of a label are the ends of the links from it. -/
theorem roots_childrenOf? {p : β → Bool} {f : Forest β} (h : (f.toList.filter p).length ≤ 1)
    (above : Option β) (ha : ¬ above.any p) :
    ((f.childrenOf? p).getD nil).roots =
      ((f.links above).filter fun l => l.1.any p).map Prod.snd := by
  induction f generalizing above with
  | nil => rfl
  | cons b children siblings hc hs =>
    rw [links, List.filter_cons_of_neg (by simpa using ha), List.filter_append, List.map_append]
    rw [toList] at h
    by_cases hp : p b
    · rw [List.filter_cons_of_pos hp, List.length_cons] at h
      have hnil := List.eq_nil_of_length_eq_zero (Nat.le_zero.1 (Nat.le_of_succ_le_succ h))
      rw [List.filter_append, List.append_eq_nil_iff, List.filter_eq_nil_iff,
        List.filter_eq_nil_iff] at hnil
      rw [filter_links_of_absent hnil.1, filter_links_of_absent hnil.2, childrenOf?]
      simp [hp, ha, Function.comp_def]
    · rw [List.filter_cons_of_neg hp, List.filter_append, List.length_append] at h
      rw [← hc (by omega) (some b) (by simpa using hp), ← hs (by omega) above ha]
      rw [childrenOf?, if_neg hp]
      cases hcs : (children.toList.filter p).length with
      | zero =>
        have hnil := List.filter_eq_nil_iff.1 (List.eq_nil_of_length_eq_zero hcs)
        simp [childrenOf?_of_absent hnil, roots]
      | succ n =>
        have hnil : siblings.toList.filter p = [] := List.eq_nil_of_length_eq_zero (by omega)
        rw [childrenOf?_of_absent (List.filter_eq_nil_iff.1 hnil)]
        simp [roots]

theorem isSome_ancestors? {p : β → Bool} (f : Forest β) : (f.ancestors? p).isSome = f.toList.any p := by
  induction f with
  | nil => rfl
  | cons b children siblings hc hs =>
    rw [Forest.ancestors?, toList, List.any_cons, List.any_append, ← hc, ← hs]
    split <;> simp_all

/-- What is found above a label belongs to the forest. -/
theorem mem_of_ancestors? {p : β → Bool} {f : Forest β} {l : List β}
    (h : f.ancestors? p = some l) : ∀ c ∈ l, c ∈ f.toList := by
  induction f generalizing l with
  | nil => cases h
  | cons b children siblings hc hs =>
    rw [ancestors?] at h
    split at h
    · cases h
      exact fun c hc => absurd hc List.not_mem_nil
    · intro c hcl
      rw [toList, List.mem_cons, List.mem_append]
      cases hch : children.ancestors? p with
      | none =>
        rw [hch] at h
        exact .inr (.inr (hs h c hcl))
      | some l' =>
        rw [hch] at h
        cases h
        rcases List.mem_append.1 hcl with hcl | hcl
        · exact .inr (.inl (hc hch c hcl))
        · exact .inl (List.mem_singleton.1 hcl)

/-- What stands directly above a label is the start of the link to it. -/
theorem head?_ancestors? (p : β → Bool) (f : Forest β) (above : Option β) :
    (f.ancestors? p).map (fun l => (l ++ above.toList).head?) =
      ((f.links above).find? fun l => p l.2).map Prod.fst := by
  induction f generalizing above with
  | nil => rfl
  | cons b children siblings hc hs =>
    rw [links, ancestors?]
    by_cases hp : p b
    · simp only [List.find?_cons, hp]
      cases above <;> rfl
    · simp only [List.find?_cons, hp, List.find?_append]
      have hch := hc (some b)
      cases hcs : children.ancestors? p with
      | none =>
        rw [hcs, Option.map_none, eq_comm, Option.map_eq_none_iff] at hch
        simpa [hch] using hs above
      | some l =>
        rw [hcs, Option.map_some, eq_comm, Option.map_eq_some_iff] at hch
        obtain ⟨link, hlink, hfst⟩ := hch
        simp only [hlink, Option.map_some, Option.some_or, hfst, Option.toList_some]
        cases l <;> rfl

/-! ### Trees inside a forest -/

/-- A label with its children stands somewhere in a forest. -/
inductive HasTree (b : β) (below : Forest β) : Forest β → Prop
  | here (siblings : Forest β) : HasTree b below (cons b below siblings)
  | deeper {c : β} {children : Forest β} (siblings : Forest β) (h : HasTree b below children) :
      HasTree b below (cons c children siblings)
  | beside (c : β) (children : Forest β) {siblings : Forest β} (h : HasTree b below siblings) :
      HasTree b below (cons c children siblings)

namespace HasTree

variable {b : β} {below f : Forest β}

theorem mem (h : HasTree b below f) : b ∈ f.toList := by
  induction h with
  | here => simp [toList]
  | deeper _ _ ih => simp [toList, ih]
  | beside _ _ _ ih => simp [toList, ih]

theorem mem_of_mem (h : HasTree b below f) {c : β} (hc : c ∈ below.toList) : c ∈ f.toList := by
  induction h with
  | here => simp [toList, hc]
  | deeper _ _ ih => simp [toList, ih]
  | beside _ _ _ ih => simp [toList, ih]

/-- What stands below a label stands in the forest in the same order. -/
theorem sublist (h : HasTree b below f) : below.toList.Sublist f.toList := by
  induction h with
  | here => exact (List.sublist_append_left ..).cons _
  | deeper siblings _ ih => exact (ih.trans (List.sublist_append_left ..)).cons _
  | beside c children _ ih => exact (ih.trans (List.sublist_append_right ..)).cons _

theorem trans {c : β} {under : Forest β} (h : HasTree b below f) (hc : HasTree c under below) :
    HasTree c under f := by
  induction h with
  | here => exact .deeper _ hc
  | deeper _ _ ih => exact .deeper _ ih
  | beside _ _ _ ih => exact .beside _ _ ih

theorem append_left (h : HasTree b below f) (g : Forest β) : HasTree b below (f ++ g) := by
  induction h with
  | here => exact .here _
  | deeper _ h => exact .deeper _ h
  | beside _ _ _ ih => exact .beside _ _ ih

theorem append_right (h : HasTree b below f) (g : Forest β) : HasTree b below (g ++ f) := by
  induction g with
  | nil => exact h
  | cons c children siblings _ ih => exact .beside c children ih

/-- A tree with further trees grafted into it. -/
theorem graft (h : HasTree b below f) (p : β → Bool) (added : Forest β) :
    HasTree b (if p b then below.graft p added ++ added else below.graft p added)
      (f.graft p added) := by
  induction h with
  | here => exact .here _
  | @deeper c children siblings _ ih =>
    refine .deeper _ ?_
    by_cases hc : p c
    · rw [if_pos hc]
      exact ih.append_left added
    · rw [if_neg hc]
      exact ih
  | beside c children _ ih => exact .beside _ _ ih

theorem map {γ : Type} (u : β → γ) (h : HasTree b below f) :
    HasTree (u b) (below.map u) (f.map u) := by
  induction h with
  | here siblings => exact .here _
  | deeper siblings _ ih => exact .deeper _ ih
  | beside c children _ ih => exact .beside _ _ ih

theorem exists_of_map {γ : Type} {u : β → γ} {c : γ} {under : Forest γ} {f : Forest β}
    (h : HasTree c under (f.map u)) : ∃ b below, HasTree b below f ∧ c = u b ∧ under = below.map u := by
  induction f with
  | nil => cases h
  | cons b children siblings ihc ihs =>
    cases h with
    | here => exact ⟨b, children, .here siblings, rfl, rfl⟩
    | deeper _ h =>
      obtain ⟨b', below, htree, heq⟩ := ihc h
      exact ⟨b', below, .deeper siblings htree, heq⟩
    | beside _ _ h =>
      obtain ⟨b', below, htree, heq⟩ := ihs h
      exact ⟨b', below, .beside b children htree, heq⟩

/-- The links below a label are links of the forest. -/
theorem mem_links (h : HasTree b below f) {l : Option β × β} (hl : l ∈ below.links (some b))
    (above : Option β) : l ∈ f.links above := by
  induction h generalizing above with
  | here => simp [links, hl]
  | deeper _ _ ih => simp [links, ih]
  | beside _ _ _ ih => simp [links, ih]

variable {κ : Type} [DecidableEq κ] (key : β → κ)

theorem find?_eq (h : HasTree b below f) (hf : (f.toList.map key).Nodup) :
    f.find? (fun c => key c = key b) = some b := by
  rw [find?_eq_find?_toList]
  exact (find?_key_eq_some_iff hf).2 ⟨h.mem, rfl⟩

/-- Where labels have different keys, the children of a label are found under its key. -/
theorem childrenOf?_eq (h : HasTree b below f) (hf : (f.toList.map key).Nodup) :
    f.childrenOf? (fun c => key c = key b) = some below := by
  induction h with
  | here => simp [childrenOf?]
  | @deeper c children siblings h ih =>
    rw [toList, List.map_cons, List.nodup_cons, List.map_append, List.nodup_append] at hf
    have hc : key c ≠ key b := fun hk =>
      hf.1 (List.mem_append_left _ (hk ▸ List.mem_map_of_mem h.mem))
    simp [childrenOf?, hc, ih hf.2.1]
  | @beside c children siblings h ih =>
    rw [toList, List.map_cons, List.nodup_cons, List.map_append, List.nodup_append] at hf
    have hc : key c ≠ key b := fun hk =>
      hf.1 (List.mem_append_right _ (hk ▸ List.mem_map_of_mem h.mem))
    have habs : ∀ a ∈ children.toList, ¬ decide (key a = key b) := fun a ha hk =>
      hf.2.2.2 _ (List.mem_map_of_mem ha) _ (List.mem_map_of_mem h.mem) (by simpa using hk)
    simp [childrenOf?, hc, childrenOf?_of_absent habs, ih hf.2.2.1]

/-- Where labels have different keys, a label stands above all that is found below it. -/
theorem ancestors?_eq (h : HasTree b below f) (hf : (f.toList.map key).Nodup) {a : β}
    (ha : a ∈ below.toList) : ∃ l above, f.ancestors? (fun c => key c = key a) =
      some (l ++ b :: above) ∧ ∀ c ∈ l, c ∈ below.toList := by
  induction h with
  | @here siblings =>
    rw [toList, List.map_cons, List.nodup_cons, List.map_append] at hf
    have hb : key b ≠ key a := fun hk =>
      hf.1 (List.mem_append_left _ (hk ▸ List.mem_map_of_mem ha))
    cases hl : below.ancestors? (fun c => key c = key a) with
    | none =>
      have hsome := isSome_ancestors? (p := fun c => decide (key c = key a)) below
      rw [hl, eq_comm, Option.isSome_none, List.any_eq_false] at hsome
      exact absurd (decide_eq_true rfl) (hsome a ha)
    | some l =>
      refine ⟨l, [], ?_, fun c hc => mem_of_ancestors? hl c hc⟩
      simp [ancestors?, hb, hl]
  | @deeper c children siblings h ih =>
    rw [toList, List.map_cons, List.nodup_cons, List.map_append, List.nodup_append] at hf
    have hc : key c ≠ key a := fun hk =>
      hf.1 (List.mem_append_left _ (hk ▸ List.mem_map_of_mem (h.mem_of_mem ha)))
    obtain ⟨l, above, hl, hmem⟩ := ih hf.2.1
    exact ⟨l, above ++ [c], by simp [ancestors?, hc, hl], hmem⟩
  | @beside c children siblings h ih =>
    rw [toList, List.map_cons, List.nodup_cons, List.map_append, List.nodup_append] at hf
    have hc : key c ≠ key a := fun hk =>
      hf.1 (List.mem_append_right _ (hk ▸ List.mem_map_of_mem (h.mem_of_mem ha)))
    have habs : ∀ x ∈ children.toList, ¬ decide (key x = key a) := fun x hx hk =>
      hf.2.2.2 _ (List.mem_map_of_mem hx) _ (List.mem_map_of_mem (h.mem_of_mem ha))
        (by simpa using hk)
    obtain ⟨l, above, hl, hmem⟩ := ih hf.2.2.1
    exact ⟨l, above, by simp [ancestors?, hc, ancestors?_of_absent habs, hl], hmem⟩

/-- Where labels have different keys, a label stands in the forest with its children only. -/
theorem below_eq (h : HasTree b below f) {below' : Forest β} (h' : HasTree b below' f)
    (hf : (f.toList.map key).Nodup) : below' = below :=
  Option.some.inj ((h'.childrenOf?_eq key hf).symm.trans (h.childrenOf?_eq key hf))

end HasTree

/-- Where labels have different keys, no label has links from two. -/
theorem link_unique {κ : Type} (key : β → κ) {f : Forest β} (hf : (f.toList.map key).Nodup)
    {above : Option β} {l l' : Option β × β} (hl : l ∈ f.links above) (hl' : l' ∈ f.links above)
    (hkey : key l'.2 = key l.2) : l' = l := by
  rw [← map_snd_links above, List.map_map] at hf
  exact List.inj_on_of_nodup_map hf hl' hl hkey

/-- Every label stands in the forest with its children. -/
theorem exists_hasTree {f : Forest β} {b : β} (h : b ∈ f.toList) : ∃ below, HasTree b below f := by
  induction f with
  | nil => simp [toList] at h
  | cons c children siblings hc hs =>
    rw [toList, List.mem_cons, List.mem_append] at h
    rcases h with rfl | h | h
    · exact ⟨children, .here _⟩
    · exact (hc h).imp fun _ h => .deeper _ h
    · exact (hs h).imp fun _ h => .beside _ _ h

end Forest

end ScoreLayout
