import Mathlib.Data.List.Chain
import ScoreLayout.Proofs.Layout.PageStarts

/-!
# Distances below the top of a page

Page breaking puts the first system of a page at its top and every other one below the system
before it, and turns the page exactly where the rules break before a system. Here this is shown of
the plans of pages, and of the pages that are made from them.

## Main definitions

* `PagePlan.Stacks` — a planned page with its systems, each with its distance below the top.
* `stackedItems` — the systems of a page with their distances, read off a tree.

## Main results

* `exists_stacks_planPages` — the planned pages, and where they are turned.
* `PagesOf.stacked` — the pages made of plans have the distances that are planned.
-/

namespace ScoreLayout

variable {α : Type} [Scalar α] {r : PageRules α}

/-! ### Plans -/

/-- The end of a system at some distance below the top. -/
def SystemItem.bottom (q : SystemItem α × α) : α := q.2 + q.1.height

/-- A planned page with its systems, each with its distance below the top: the first is at the top,
every other one follows on the one before and has room on the page. -/
structure PagePlan.Stacks (r : PageRules α) (p : PagePlan α) (c : List (SystemItem α × α)) :
    Prop where
  ne_nil : c ≠ []
  systems : p.systems = c.map fun q => (q.1.handle, q.2)
  top : ∀ q ∈ c.head?, q.2 = 0
  next : c.IsChain fun q q' => q'.2 = SystemItem.bottom q + r.spacing ∧
    r.breaksBefore (SystemItem.bottom q) q'.1 = false
  height : ∀ q ∈ c.getLast?, p.height = SystemItem.bottom q

/-- The page is turned between the last system of a page and the first of another. -/
def PageRules.Turns (r : PageRules α) (c c' : List (SystemItem α × α)) : Prop :=
  ∀ q ∈ c.getLast?, ∀ q' ∈ c'.head?, r.breaksBefore (SystemItem.bottom q) q'.1 = true

namespace PagePlan.Stacks

theorem single (r : PageRules α) (i : SystemItem α) :
    (PagePlan.add ⟨[], 0⟩ r.spacing i).Stacks r [(i, 0)] where
  ne_nil := by simp
  systems := rfl
  top := by simp
  next := .singleton _
  height := by simp [PagePlan.add, SystemItem.bottom]

/-- A system is added to a page below the last one. -/
theorem add {p : PagePlan α} {c : List (SystemItem α × α)} (h : p.Stacks r c) {i : SystemItem α}
    (hi : r.breaksBefore p.height i = false) :
    (p.add r.spacing i).Stacks r (c ++ [(i, p.height + r.spacing)]) := by
  have hempty : p.systems.isEmpty = false := by
    rw [h.systems, List.isEmpty_map, List.isEmpty_eq_false_iff]
    exact h.ne_nil
  refine ⟨by simp, ?_, ?_, ?_, ?_⟩
  · rw [PagePlan.add, hempty, List.map_append, ← h.systems]
    rfl
  · rw [List.head?_append_of_ne_nil _ h.ne_nil]
    exact h.top
  · refine List.isChain_append.2 ⟨h.next, .singleton _, fun q hq q' hq' => ?_⟩
    obtain rfl := (Option.mem_some.1 hq').symm
    rw [← h.height q hq]
    exact ⟨rfl, hi⟩
  · intro q hq
    rw [List.getLast?_concat, Option.mem_some] at hq
    rw [PagePlan.add, hempty, ← hq]
    rfl

end PagePlan.Stacks

/-- The rest of page breaking, from a page on that already holds systems. -/
theorem Paging.exists_stacks : (items : List (SystemItem α)) → {s : Paging α} →
    {c : List (SystemItem α × α)} → s.current.Stacks r c →
      ∃ more chunks plans, (items.foldl (Paging.step r) s).finish = s.complete ++ plans ∧
        List.Forall₂ (PagePlan.Stacks r) plans ((c ++ more) :: chunks) ∧
        ((c ++ more) :: chunks).IsChain r.Turns ∧
        (more ++ chunks.flatten).map Prod.fst = items
  | [], s, c, hc => by
      have hempty : s.current.systems.isEmpty = false := by
        rw [hc.systems, List.isEmpty_map, List.isEmpty_eq_false_iff]
        exact hc.ne_nil
      refine ⟨[], [], [s.current], ?_, ?_, .singleton _, rfl⟩
      · rw [List.foldl_nil, Paging.finish, hempty]
        rfl
      · rw [List.append_nil]
        exact .cons hc .nil
  | i :: items, s, c, hc => by
      have hempty : s.current.systems.isEmpty = false := by
        rw [hc.systems, List.isEmpty_map, List.isEmpty_eq_false_iff]
        exact hc.ne_nil
      rw [List.foldl_cons, Paging.step, hempty]
      by_cases hbreak : r.breaksBefore s.current.height i
      · rw [if_pos ⟨by decide, hbreak⟩]
        obtain ⟨more, chunks, plans, hfinish, hplans, hturns, hitems⟩ := Paging.exists_stacks items
          (s := ⟨s.complete ++ [s.current], PagePlan.add ⟨[], 0⟩ r.spacing i⟩) (.single r i)
        refine ⟨[], ([(i, 0)] ++ more) :: chunks, s.current :: plans, ?_, ?_, ?_, ?_⟩
        · rw [hfinish, List.append_assoc, List.singleton_append]
        · rw [List.append_nil]
          exact .cons hc hplans
        · rw [List.append_nil]
          refine .cons_cons (fun q hq q' hq' => ?_) hturns
          obtain rfl := (Option.mem_some.1 hq').symm
          rw [← hc.height q hq]
          exact hbreak
        · rw [List.nil_append, List.flatten_cons, List.append_assoc, List.singleton_append,
            List.map_cons, hitems]
      · rw [if_neg fun h => hbreak h.2]
        obtain ⟨more, chunks, plans, hfinish, hplans, hturns, hitems⟩ := Paging.exists_stacks items
          (s := { s with current := s.current.add r.spacing i })
          (hc.add (Bool.eq_false_iff.2 hbreak))
        rw [List.append_assoc, List.singleton_append] at hplans hturns
        refine ⟨_, chunks, plans, hfinish, hplans, hturns, ?_⟩
        rw [List.cons_append, List.map_cons, hitems]

/-- The planned pages with their systems in order, each with its distance below the top, and the
pages are turned exactly where the rules break. -/
theorem exists_stacks_planPages (r : PageRules α) : (items : List (SystemItem α)) →
    ∃ chunks, List.Forall₂ (PagePlan.Stacks r) (planPages r items) chunks ∧
      chunks.IsChain r.Turns ∧ chunks.flatten.map Prod.fst = items
  | [] => ⟨[], .nil, .nil, rfl⟩
  | i :: items => by
      obtain ⟨more, chunks, plans, hfinish, hplans, hturns, hitems⟩ := Paging.exists_stacks items
        (s := ⟨[], PagePlan.add ⟨[], 0⟩ r.spacing i⟩) (.single r i)
      refine ⟨([(i, 0)] ++ more) :: chunks, ?_, hturns, ?_⟩
      · rw [planPages, List.foldl_cons]
        exact hfinish ▸ hplans
      · rw [List.flatten_cons, List.append_assoc, List.singleton_append, List.map_cons, hitems]

/-! ### Pages -/

/-- The distance of a system below the top of its page. -/
def Node.top (n : Node α) : α := (n.kind.system?.map ScoreSystem.y).getD 0

/-- The height of the staves of a system. -/
def Node.stackHeight (n : Node α) : α := (n.kind.system?.map fun s => s.stack.height).getD 0

/-- The end of a system on its page. -/
def Node.bottom (n : Node α) : α := n.top + n.stackHeight

/-- A system without its distance below the top of the page. -/
def Node.untopped (n : Node α) : Node α := n.mapKind (.mapSystem fun s => { s with y := 0 })

/-- The systems of a page, as page breaking sees them, with their distances below the top. -/
def stackedItems (f : Forest (Node α)) : List (SystemItem α × α) :=
  f.trees.map fun t => (.ofTree t.1 t.2, t.1.top)

theorem map_fst_stackedItems (f : Forest (Node α)) :
    (stackedItems f).map Prod.fst = systemItems f := by
  rw [stackedItems, List.map_map, systemItems_eq]
  rfl

/-- Systems at given distances below the top. -/
theorem stackedItems_placeTops : (c : List (SystemItem α × α)) → {f : Forest (Node α)} →
    (∀ n ∈ f.roots, n.tag = .system) → c.map Prod.fst = systemItems f →
      stackedItems (placeTops (c.map Prod.snd) f) = c
  | [], .nil, _, _ => rfl
  | [], .cons _ _ _, _, h => by simp [systemItems] at h
  | _ :: _, .nil, _, h => by simp [systemItems] at h
  | q :: c, .cons n below siblings, htags, h => by
      rw [systemItems, List.map_cons, List.cons.injEq] at h
      have ih := stackedItems_placeTops c
        (fun m hm => htags m (List.mem_cons_of_mem n hm)) h.2
      rw [stackedItems] at ih ⊢
      rw [List.map_cons, placeTops, Forest.trees, List.map_cons, ih]
      refine congrArg (· :: c) (Prod.ext (Eq.trans ?_ h.1.symm) ?_)
      · obtain ⟨s, hs⟩ := NodeKind.exists_of_system (htags n List.mem_cons_self)
        simp [SystemItem.ofTree, Node.mapKind, NodeKind.mapSystem, NodeKind.system?, hs]
      · obtain ⟨s, hs⟩ := NodeKind.exists_of_system (htags n List.mem_cons_self)
        simp [Node.top, Node.mapKind, NodeKind.mapSystem, NodeKind.system?, hs]

/-- The pages made of plans have the systems and the distances that are planned, and the height of
the last system's end. -/
theorem PagesOf.stacked {used : List String} {k : Nat} {plans : List (PagePlan α)}
    {systems pages : Forest (Node α)} (h : PagesOf used k plans systems pages)
    (htags : ∀ n ∈ systems.roots, n.tag = .system) {chunks : List (List (SystemItem α × α))}
    (hplans : List.Forall₂ (PagePlan.Stacks r) plans chunks)
    (hchunks : chunks.flatten.map Prod.fst = systemItems systems) :
    pages.trees.map (fun page => stackedItems page.2) = chunks ∧
      ∀ page ∈ pages.trees, ∀ q ∈ (stackedItems page.2).getLast?,
        page.1.kind = .page { contentHeight := SystemItem.bottom q } := by
  induction h generalizing chunks with
  | nil =>
    obtain rfl : chunks = [] := by simpa using hplans
    exact ⟨rfl, fun page hpage => absurd hpage List.not_mem_nil⟩
  | @cons used k p plans taken systems pages i hp htaken _ ih =>
    cases hplans with
    | @cons _ c _ chunks plan rest =>
      have hsplit : systemItems (taken ++ systems) = systemItems taken ++ systemItems systems := by
        rw [systemItems_eq, Forest.trees_append, List.map_append, ← systemItems_eq,
          ← systemItems_eq]
      rw [Forest.roots_append] at htags
      rw [List.flatten_cons, List.map_append, hsplit] at hchunks
      obtain ⟨hc, hrest⟩ := List.append_inj hchunks (by
        have hlength := congrArg List.length (map_handle_systemItems taken)
        rw [htaken, PagePlan.nodes, plan.systems, List.length_map] at hlength
        rw [hlength]
        simp)
      have htops : p.systems.map Prod.snd = c.map Prod.snd := by
        rw [plan.systems, List.map_map]
        rfl
      have hstacked := stackedItems_placeTops c
        (fun n hn => htags n (List.mem_append_left _ hn)) hc
      obtain ⟨ih, ihheight⟩ := ih (fun n hn => htags n (List.mem_append_right _ hn)) rest hrest
      rw [Forest.trees, htops]
      constructor
      · rw [List.map_cons, ih, hstacked]
      · refine List.forall_mem_cons.2 ⟨fun q hq => ?_, ihheight⟩
        rw [hstacked] at hq
        rw [← plan.height q hq]
        rfl

theorem Node.handle_untopped (n : Node α) : n.untopped.handle = n.handle := rfl

theorem Node.untopped_place (n : Node α) (y : α) :
    (n.mapKind (.mapSystem fun s => { s with y })).untopped = n.untopped := by
  cases hk : n.kind <;> simp [untopped, mapKind, NodeKind.mapSystem, hk]

/-- Systems with what stands in them, without their distances below the top. -/
def untoppedTrees (f : Forest (Node α)) : List (Node α × Forest (Node α)) :=
  f.trees.map fun t => (t.1.untopped, t.2)

theorem untoppedTrees_append (f g : Forest (Node α)) :
    untoppedTrees (f ++ g) = untoppedTrees f ++ untoppedTrees g := by
  rw [untoppedTrees, Forest.trees_append, List.map_append]
  rfl

theorem untoppedTrees_placeTops : (ys : List α) → (f : Forest (Node α)) →
    untoppedTrees (placeTops ys f) = untoppedTrees f
  | y :: ys, .cons n below siblings => by
      have ih := untoppedTrees_placeTops ys siblings
      rw [untoppedTrees] at ih ⊢
      rw [placeTops, Forest.trees, List.map_cons, ih, n.untopped_place y]
      rfl
  | [], f => by
      rw [placeTops]
      simp
  | _ :: _, .nil => rfl

/-- Nothing but the distances of systems is changed on the way to pages. -/
theorem PagesOf.untoppedTrees_branches {used : List String} {k : Nat} {plans : List (PagePlan α)}
    {systems pages : Forest (Node α)} (h : PagesOf used k plans systems pages) :
    untoppedTrees pages.branches = untoppedTrees systems := by
  induction h with
  | nil => rfl
  | cons _ _ _ _ ih =>
    rw [Forest.branches, untoppedTrees_append, untoppedTrees_append, untoppedTrees_placeTops, ih]

/-- The systems of all pages, each with its page. -/
def pagedItems (pages : Forest (Node α)) : List (Node α × SystemItem α × α) :=
  pages.trees.flatMap fun page => (stackedItems page.2).map fun q => (page.1, q)

omit [Scalar α] in
theorem isChain_and {β : Type} {R S : β → β → Prop} : {l : List β} → l.IsChain R → l.IsChain S →
    l.IsChain fun a b => R a b ∧ S a b
  | [], _, _ => .nil
  | [_], _, _ => .singleton _
  | _ :: _ :: _, h, h' => by
      rw [List.isChain_cons_cons] at h h' ⊢
      exact ⟨⟨h.1, h'.1⟩, isChain_and h.2 h'.2⟩

/-- Pages are turned exactly where the rules break. -/
theorem isChain_pagedItems {pages : Forest (Node α)}
    (hnodup : (pages.roots.map Node.handle).Nodup) {plans : List (PagePlan α)}
    (hplans : List.Forall₂ (PagePlan.Stacks r) plans
      (pages.trees.map fun page => stackedItems page.2))
    (hturns : (pages.trees.map fun page => stackedItems page.2).IsChain r.Turns) :
    (pagedItems pages).IsChain fun x y =>
      (y.1.handle ≠ x.1.handle ↔ r.breaksBefore (SystemItem.bottom x.2) y.2.1 = true) := by
  have hstacks : ∀ page ∈ pages.trees, ∃ p : PagePlan α, p.Stacks r (stackedItems page.2) := by
    intro page hpage
    obtain ⟨p, -, hp⟩ := exists_mem_of_forall₂ hplans (List.mem_map_of_mem hpage)
    exact ⟨p, hp⟩
  rw [pagedItems, List.flatMap, List.isChain_flatten]
  · constructor
    · intro l hl
      obtain ⟨page, hpage, rfl⟩ := List.mem_map.1 hl
      obtain ⟨p, hp⟩ := hstacks page hpage
      refine (List.isChain_map _).2 (hp.next.imp fun q q' h => ?_)
      rw [h.2]
      simp
    · rw [← Forest.map_fst_trees, List.map_map, List.Nodup, List.pairwise_map] at hnodup
      rw [List.isChain_map] at hturns ⊢
      refine (isChain_and hturns hnodup.isChain).imp fun page page' h x hx y hy => ?_
      rw [List.getLast?_map] at hx
      rw [List.head?_map] at hy
      obtain ⟨q, hq, rfl⟩ := Option.map_eq_some_iff.1 hx
      obtain ⟨q', hq', rfl⟩ := Option.map_eq_some_iff.1 hy
      exact iff_of_true (Ne.symm h.2) (h.1 q hq q' hq')
  · intro hnil
    obtain ⟨page, hpage, hempty⟩ := List.mem_map.1 hnil
    obtain ⟨p, hp⟩ := hstacks page hpage
    exact hp.ne_nil (List.map_eq_nil_iff.1 hempty)

end ScoreLayout
