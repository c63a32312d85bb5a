import ScoreLayout.Proofs.Layout.ForcedBreaks
import ScoreLayout.Proofs.Layout.GreedySystems
import ScoreLayout.Proofs.Layout.PageEmission

/-!
# Where systems and pages begin

A boundary between planned systems is found again between the systems that are made, and a system
that begins with a page break is found again at the top of a page. Both are said of the shape of the
score only, so they outlast every pass that leaves the shape alone.

## Main definitions

* `Forest.StartsAfter` — a tree that begins behind so many children of the trees before it.
* `PagesBegin` — only the first system of a page may begin with a page break.

## Main results

* `SystemsOf.startsAfter` — a boundary between planned systems.
* `PagesOf.pagesBegin` — the pages that plans make.
-/

namespace ScoreLayout

variable {α : Type}

/-! ### Trees of related forests -/

namespace Forest

variable {β γ : Type}

theorem roots_branches (f : Forest β) : f.branches.roots = f.trees.flatMap fun t => t.2.roots := by
  induction f with
  | nil => rfl
  | cons b children siblings _ hs =>
    rw [branches, roots_append, hs, trees, List.flatMap_cons]

theorem trees_append : (f g : Forest β) → (f ++ g).trees = f.trees ++ g.trees
  | nil, g => rfl
  | cons b children siblings, g => by
      rw [cons_append, trees, trees_append siblings g, trees, List.cons_append]

theorem trees_branches (f : Forest β) : f.branches.trees = f.trees.flatMap fun t => t.2.trees := by
  induction f with
  | nil => rfl
  | cons b children siblings _ hs =>
    rw [branches, trees_append, hs, trees, List.flatMap_cons]

theorem Forall₂.trees {R : β → γ → Prop} {f : Forest β} {g : Forest γ} (h : Forall₂ R f g) :
    List.Forall₂ (fun s t => R s.1 t.1 ∧ Forall₂ R s.2 t.2) f.trees g.trees := by
  induction h with
  | nil => exact .nil
  | cons hb hc _ _ hs => exact .cons ⟨hb, hc⟩ hs

/-- Some tree begins behind `n` children of the trees before it, and has more than `m` children. -/
def StartsAfter (f : Forest β) (n m : Nat) : Prop :=
  ∃ before t after, f.trees = before ++ t :: after ∧
    (before.flatMap fun s => s.2.roots).length = n ∧ m < t.2.roots.length

theorem StartsAfter.of_forall₂ {R : β → γ → Prop} {f : Forest β} {g : Forest γ} {n m : Nat}
    (h : f.StartsAfter n m) (hfg : Forall₂ R f g) : g.StartsAfter n m := by
  obtain ⟨before, t, after, htrees, hn, hm⟩ := h
  have hfg := hfg.trees
  rw [htrees] at hfg
  obtain ⟨before', back', htrees', hbefore, hback⟩ := exists_append_of_forall₂ hfg
  cases hback with
  | @cons _ t' _ after' ht hafter =>
    have hlength : (before'.flatMap fun s => s.2.roots).length =
        (before.flatMap fun s => s.2.roots).length := by
      clear htrees htrees' hn hfg
      induction hbefore with
      | nil => rfl
      | cons hs _ ih =>
        rw [List.flatMap_cons, List.flatMap_cons, List.length_append, List.length_append, ih,
          hs.2.roots.length_eq]
    exact ⟨before', t', after', htrees', hlength.trans hn, ht.2.roots.length_eq ▸ hm⟩

/-- What such a tree begins with. -/
theorem StartsAfter.exists_tree {f : Forest β} {front between back : List β} {next : β}
    (h : f.StartsAfter front.length between.length)
    (hf : f.branches.roots = front ++ (between ++ next :: back)) :
    ∃ t ∈ f.trees, ∃ rest, t.2.roots = between ++ next :: rest := by
  obtain ⟨before, t, after, htrees, hn, hm⟩ := h
  rw [roots_branches, htrees, List.flatMap_append, List.flatMap_cons] at hf
  obtain ⟨-, hf⟩ := List.append_inj hf hn
  refine ⟨t, htrees ▸ List.mem_append_right _ List.mem_cons_self, ?_⟩
  have hnext : between ++ [next] <+: between ++ next :: back := ⟨back, by simp⟩
  obtain ⟨rest, hrest⟩ : between ++ [next] <+: t.2.roots :=
    List.prefix_of_prefix_length_le hnext (hf ▸ List.prefix_append _ _)
      (by rw [List.length_append, List.length_singleton]; exact hm)
  exact ⟨rest, by simpa using hrest.symm⟩

end Forest

variable [Scalar α]

/-! ### Systems -/

namespace SystemsOf

variable {rules : BreakRules α} {used : List String} {k : Nat} {plans : List (SystemPlan α)}
  {content systems : Forest (Node α)}

/-- The system that a plan makes, behind those that the plans before it make. -/
theorem exists_trees (h : SystemsOf rules used k plans content systems)
    {front back : List (SystemPlan α)} {p : SystemPlan α} (hplans : plans = front ++ p :: back)
    (hp : p.nodes ≠ []) : ∃ before t after, systems.trees = before ++ t :: after ∧
      t.1.kind = p.kind rules ∧ t.2.roots.map Node.handle = p.nodes ∧
      (before.flatMap fun s => s.2.roots).map Node.handle = front.flatMap SystemPlan.nodes := by
  have hroots (taken : Forest (Node α)) :
      (placeRoots 0 taken).roots.map Node.handle = taken.roots.map Node.handle :=
    (map_eq_of_forall₂ (fun a b hab => hab.handle.symm) (sameMusic_placeRoots 0 taken).roots).symm
  induction h generalizing front with
  | nil => simp at hplans
  | skip hnil _ ih =>
    cases front with
    | nil =>
      obtain ⟨rfl, -⟩ := List.cons.inj hplans
      exact absurd hnil hp
    | cons q front =>
      obtain ⟨rfl, hrest⟩ := List.cons.inj hplans
      obtain ⟨before, t, after, h₁, h₂, h₃, h₄⟩ := ih hrest
      exact ⟨before, t, after, h₁, h₂, h₃, by rw [h₄, List.flatMap_cons, hnil, List.nil_append]⟩
  | @cons used k q plans taken content systems i hne htaken _ ih =>
    rw [Forest.trees]
    cases front with
    | nil =>
      obtain ⟨rfl, -⟩ := List.cons.inj hplans
      exact ⟨[], _, systems.trees, rfl, rfl, (hroots taken).trans htaken, rfl⟩
    | cons q' front =>
      obtain ⟨rfl, hrest⟩ := List.cons.inj hplans
      obtain ⟨before, t, after, h₁, h₂, h₃, h₄⟩ := ih hrest
      refine ⟨(.new i (systemId used k) (q.kind rules), placeRoots 0 taken) :: before, t, after,
        by rw [h₁, List.cons_append], h₂, h₃, ?_⟩
      rw [List.flatMap_cons, List.map_append, h₄, hroots, htaken, List.flatMap_cons]

/-- A boundary between planned systems is one between systems. -/
theorem startsAfter (h : SystemsOf rules used k plans content systems) {before first : List Handle}
    (hcut : CutAfter plans before first) {m : Nat} (hm : m < first.length) :
    systems.StartsAfter before.length m := by
  obtain ⟨front, p, back, hplans, rfl, hfirst⟩ := hcut
  have hp : p.nodes ≠ [] := by
    rintro hnil
    rw [hnil, List.prefix_nil] at hfirst
    simp [hfirst] at hm
  obtain ⟨before, t, after, htrees, -, hnodes, hbefore⟩ := h.exists_trees hplans hp
  refine ⟨before, t, after, htrees, ?_, ?_⟩
  · simpa using congrArg List.length hbefore
  · have hlength := congrArg List.length hnodes
    rw [List.length_map] at hlength
    have := hfirst.length_le
    omega

end SystemsOf

/-! ### Pages -/

theorem systemItems_eq (f : Forest (Node α)) :
    systemItems f = f.trees.map fun t => SystemItem.ofTree t.1 t.2 := by
  induction f with
  | nil => rfl
  | cons n below siblings _ hs => rw [systemItems, hs, Forest.trees, List.map_cons]

/-- A planned page with the systems it is made of, of which only the first may begin with a page
break. -/
def PagePlan.Of (p : PagePlan α) (items : List (SystemItem α)) : Prop :=
  p.nodes = items.map SystemItem.handle ∧ ∀ i ∈ items.tail, i.opensPage = false

namespace Paging

/-- A state of page breaking with the systems met so far. -/
def Covers (s : Paging α) (chunks : List (List (SystemItem α))) (current : List (SystemItem α)) :
    Prop :=
  List.Forall₂ PagePlan.Of s.complete chunks ∧ s.current.Of current

variable {r : PageRules α}

theorem Covers.step (hr : ¬ r.isSinglePage) {s : Paging α} {chunks : List (List (SystemItem α))}
    {current : List (SystemItem α)} (h : s.Covers chunks current) (i : SystemItem α) :
    ∃ chunks' current', (s.step r i).Covers chunks' current' ∧
      chunks'.flatten ++ current' = chunks.flatten ++ current ++ [i] := by
  have hempty : s.current.systems.isEmpty ↔ current = [] := by
    rw [List.isEmpty_iff, ← List.map_eq_nil_iff (f := Prod.fst), ← PagePlan.nodes, h.2.1,
      List.map_eq_nil_iff]
  rw [Paging.step]
  split
  · refine ⟨chunks ++ [current], [i], ⟨?_, by simp [PagePlan.add, PagePlan.nodes], by simp⟩,
      by simp⟩
    exact List.rel_append h.1 (.cons h.2 .nil)
  · rename_i hstay
    refine ⟨chunks, current ++ [i], ⟨h.1, ?_, ?_⟩, by simp⟩
    · rw [List.map_append, ← h.2.1]
      simp [PagePlan.add, PagePlan.nodes]
    · intro j hj
      by_cases hnil : current = []
      · simp [hnil] at hj
      · rw [List.tail_append_of_ne_nil hnil] at hj
        rcases List.mem_append.1 hj with hj | hj
        · exact h.2.2 j hj
        · rw [List.mem_singleton.1 hj]
          by_contra hopens
          refine hstay ⟨fun he => hnil (hempty.1 he), ?_⟩
          rw [Bool.not_eq_false] at hopens
          simp [PageRules.breaksBefore, hr, hopens]

theorem Covers.foldl (hr : ¬ r.isSinglePage) : (items : List (SystemItem α)) → {s : Paging α} →
    {chunks : List (List (SystemItem α))} → {current : List (SystemItem α)} →
    s.Covers chunks current → ∃ chunks' current', (items.foldl (Paging.step r) s).Covers chunks' current' ∧
      chunks'.flatten ++ current' = chunks.flatten ++ current ++ items
  | [], _, chunks, current, h => ⟨chunks, current, h, by simp⟩
  | i :: items, _, _, _, h => by
      obtain ⟨_, _, h', heq⟩ := h.step hr i
      obtain ⟨chunks', current', hfold, heq'⟩ := Covers.foldl hr items h'
      exact ⟨chunks', current', hfold, by rw [heq', heq]; simp⟩

end Paging

/-- Outside of a single page, the planned pages are made of all systems in order, and only the first
of each may begin with a page break. -/
theorem exists_chunks_planPages {r : PageRules α} (hr : ¬ r.isSinglePage)
    (items : List (SystemItem α)) :
    ∃ chunks, List.Forall₂ PagePlan.Of (planPages r items) chunks ∧ chunks.flatten = items := by
  have hstart : (Paging.start : Paging α).Covers [] [] := ⟨.nil, rfl, by simp⟩
  obtain ⟨chunks, current, h, heq⟩ := Paging.Covers.foldl hr items hstart
  rw [planPages, Paging.finish]
  split
  · rename_i hempty
    have hcurrent : current = [] := by
      rw [← List.map_eq_nil_iff (f := SystemItem.handle), ← h.2.1, PagePlan.nodes,
        List.isEmpty_iff.1 hempty, List.map_nil]
    exact ⟨chunks, h.1, by simpa [hcurrent] using heq⟩
  · exact ⟨chunks ++ [current], List.rel_append h.1 (.cons h.2 .nil), by simpa using heq⟩

/-- Only the first system of a page may begin with a page break. -/
def PagesBegin (pages : Forest (Node α)) : Prop :=
  ∀ page ∈ pages.trees, ∀ t ∈ page.2.trees.tail, (SystemItem.ofTree t.1 t.2).opensPage = false

/-- Whether a system begins with a page break depends on the kinds of its nodes only. -/
theorem opensPage_ofTree_eq {n m : Node α} {f g : Forest (Node α)}
    (h : Forest.Forall₂ Node.SameMusic f g) :
    (SystemItem.ofTree m g).opensPage = (SystemItem.ofTree n f).opensPage := by
  have htags : g.roots.map Node.tag = f.roots.map Node.tag :=
    (map_eq_of_forall₂ (fun a b hab => hab.tag.symm) h.roots).symm
  have hread (f : Forest (Node α)) (n : Node α) : (SystemItem.ofTree n f).opensPage =
      ((f.roots.map Node.tag).takeWhile fun t => t ≠ .measure).any fun t => t = .pageBreak := by
    rw [SystemItem.ofTree, List.takeWhile_map, List.any_map]
    rfl
  rw [hread, hread, htags]

theorem PagesBegin.of_forall₂ {f g : Forest (Node α)} (h : PagesBegin f)
    (hfg : Forest.Forall₂ Node.SameMusic f g) : PagesBegin g := by
  intro page' hpage' t' ht'
  obtain ⟨page, hpage, -, hbelow⟩ := exists_mem_of_forall₂ hfg.trees hpage'
  have htail := List.forall₂_drop 1 hbelow.trees
  rw [List.drop_one, List.drop_one] at htail
  obtain ⟨t, ht, -, hsame⟩ := exists_mem_of_forall₂ htail ht'
  rw [opensPage_ofTree_eq (n := t.1) hsame]
  exact h page hpage t ht

/-- A system that begins with a page break is the first on its page. -/
theorem PagesBegin.exists_page {pages : Forest (Node α)} (h : PagesBegin pages)
    {t : Node α × Forest (Node α)} (ht : t ∈ pages.branches.trees)
    (hopens : (SystemItem.ofTree t.1 t.2).opensPage) :
    ∃ page ∈ pages.trees, page.2.roots.head? = some t.1 := by
  rw [Forest.trees_branches, List.mem_flatMap] at ht
  obtain ⟨page, hpage, ht⟩ := ht
  refine ⟨page, hpage, ?_⟩
  have hnot := h page hpage t
  rw [← Forest.map_fst_trees]
  cases htrees : page.2.trees with
  | nil => simp [htrees] at ht
  | cons u rest =>
    rw [htrees] at ht hnot
    rcases List.mem_cons.1 ht with rfl | ht
    · rfl
    · rw [hnot ht] at hopens
      exact absurd hopens (by simp)

omit [Scalar α] in
theorem map_snd_trees_placeTops : (ys : List α) → (f : Forest (Node α)) →
    (placeTops ys f).trees.map Prod.snd = f.trees.map Prod.snd
  | y :: ys, .cons n below siblings => by
      rw [placeTops, Forest.trees, List.map_cons, map_snd_trees_placeTops ys siblings]
      rfl
  | [], f => by
      rw [placeTops]
      simp
  | _ :: _, .nil => rfl

/-- The pages that plans make begin where the plans do. -/
theorem PagesOf.pagesBegin {used : List String} {k : Nat} {plans : List (PagePlan α)}
    {systems pages : Forest (Node α)} (h : PagesOf used k plans systems pages)
    {chunks : List (List (SystemItem α))} (hplans : List.Forall₂ PagePlan.Of plans chunks)
    (hchunks : chunks.flatten = systemItems systems) : PagesBegin pages := by
  induction h generalizing chunks with
  | nil => exact fun page hpage => absurd hpage List.not_mem_nil
  | @cons used k p plans taken systems pages i hp htaken _ ih =>
    cases hplans with
    | @cons _ items _ chunks plan rest =>
      have hsplit : systemItems (taken ++ systems) = systemItems taken ++ systemItems systems := by
        rw [systemItems_eq, Forest.trees_append, List.map_append, ← systemItems_eq,
          ← systemItems_eq]
      rw [List.flatten_cons, hsplit] at hchunks
      obtain ⟨rfl, hrest⟩ := List.append_inj hchunks (by
        rw [← List.length_map SystemItem.handle, ← plan.1, ← htaken, ← map_handle_systemItems,
          List.length_map])
      intro page hpage t ht
      rw [Forest.trees] at hpage
      rcases List.mem_cons.1 hpage with rfl | hpage
      · have hmem : t.2 ∈ (taken.trees.map Prod.snd).tail := by
          rw [← map_snd_trees_placeTops (p.systems.map Prod.snd) taken, ← List.map_tail]
          exact List.mem_map_of_mem ht
        rw [← List.map_tail] at hmem
        obtain ⟨u, hu, heq⟩ := List.mem_map.1 hmem
        rw [opensPage_ofTree_eq (n := u.1) (f := t.2) (.refl fun m _ => .refl m), ← heq]
        refine plan.2 (SystemItem.ofTree u.1 u.2) ?_
        rw [systemItems_eq, ← List.map_tail]
        exact List.mem_map_of_mem (f := fun t => SystemItem.ofTree t.1 t.2) hu
      · exact ih rest hrest page hpage t ht

end ScoreLayout
