import ScoreLayout.Proofs.Layout.PageTops
import ScoreLayout.Proofs.Layout.Passes

/-!
# Pages broken greedily

Breaking into pages fills one page after another from the top. A system that is not the first opens
a page for two reasons only: a page break is written before its first measure, or it does not fit
below the systems before it. Which of these count depends on the mode. The systems stay as they are
in their order, and a system that is higher than the page is reported.

## Main definitions

* `LayoutOptions.TurnsPage` — whether a system opens a page.
* `Document.pagedSystems` — the systems of all pages, each with its page.
* `Document.PagedGreedily` — where pages begin, and where their systems stand.

## Main results

* `Document.Reachable.greedy_breakPages` — breaking into pages is greedy.
-/

namespace ScoreLayout

variable {α : Type} [Scalar α]

/-- Whether a system opens a page behind one that ends at `bottom`, by its height and by whether a
page break is written before its first measure. -/
def LayoutOptions.TurnsPage (o : LayoutOptions α) (bottom height : α) (marked : Bool) : Prop :=
  (o.breaks = .auto ∨ o.breaks = .smart) ∧ (marked ∨
    o.contentHeight + fitTolerance < bottom + o.spacingSystem * o.scaledUnit + height) ∨
  o.breaks = .encoded ∧ marked

theorem LayoutOptions.breaksBefore_iff (o : LayoutOptions α) (bottom : α) (i : SystemItem α) :
    o.pageRules.breaksBefore bottom i = true ↔ o.TurnsPage bottom i.height i.opensPage := by
  rw [TurnsPage, PageRules.breaksBefore, PageRules.isSinglePage, PageRules.isFull, pageRules]
  cases o.breaks <;> simp

namespace Document

/-- The systems of all pages in order, each with its page. -/
def pagedSystems (d : Document α) : List (Node α × Node α) :=
  d.pages.flatMap fun page => (d.childNodes page.handle).map fun n => (page, n)

/-- Where pages begin, and where their systems stand. -/
structure PagedGreedily (d : Document α) (o : LayoutOptions α) : Prop where
  /-- A system begins a page where the rules turn it. -/
  turns : d.pagedSystems.IsChain fun p q => q.1.handle ≠ p.1.handle ↔
    o.TurnsPage p.2.bottom q.2.stackHeight (d.opensPage q.2.handle)
  top : ∀ page ∈ d.pages, ∀ n ∈ (d.childNodes page.handle).head?, n.top = 0
  /-- A system stands below the one before it. -/
  next : ∀ page ∈ d.pages, (d.childNodes page.handle).IsChain fun m n =>
    n.top = m.bottom + o.spacingSystem * o.scaledUnit
  /-- A page knows where its last system ends. -/
  height : ∀ page ∈ d.pages, ∀ n ∈ (d.childNodes page.handle).getLast?,
    page.kind = .page { contentHeight := n.bottom }

namespace Shape

variable {d : Document α} {D : ScoreDefinition} {r : Node α} {pages detached : Forest (Node α)}
  (hd : d.Shape D r pages detached)

include hd

theorem stackedItems_eq {page : Node α × Forest (Node α)} (hpage : page ∈ pages.trees) :
    stackedItems page.2 =
      (d.childNodes page.1.handle).map fun n => (d.systemItem n, n.top) := by
  have hchildren : d.childNodes page.1.handle = page.2.roots := by
    rw [childNodes, hd.below_eq (Forest.hasTree_of_mem_trees hpage)]
  rw [hchildren, ← Forest.map_fst_trees, List.map_map, stackedItems]
  refine List.map_congr_left fun t ht => Prod.ext (Eq.symm ?_) rfl
  have ht : Forest.HasTree t.1 t.2 pages :=
    (Forest.hasTree_of_mem_trees hpage).trans (Forest.hasTree_of_mem_trees ht)
  show d.systemItem t.1 = _
  rw [systemItem, SystemItem.ofTree, opensPage, childNodes, hd.below_eq ht]

theorem pagedItems_eq : pagedItems pages =
    d.pagedSystems.map fun p => (p.1, d.systemItem p.2, p.2.top) := by
  rw [pagedSystems, hd.pages_eq, ← Forest.map_fst_trees, List.flatMap_map, List.map_flatMap,
    pagedItems]
  refine List.flatMap_congr fun page hpage => ?_
  rw [hd.stackedItems_eq hpage, List.map_map, List.map_map]
  rfl

omit [Scalar α] in
theorem nodup_pages : (pages.roots.map Node.handle).Nodup :=
  hd.nodup.sublist ((pages.sublist_roots.trans (List.sublist_append_left ..)).cons r |>.map _)

end Shape

/-! ### Documents broken into pages -/

section Pages

variable {d : Document α} {D : ScoreDefinition} {r : Node α} {front made detached : Forest (Node α)}

/-- Pages made of plans stand as the plans say, behind pages without systems. -/
theorem Shape.pagedGreedily (hd : d.Shape D r (front ++ made) detached)
    (hfront : ∀ page ∈ front.trees, page.2 = .nil) {options : LayoutOptions α}
    {used : List String} {k : Nat} {systems : Forest (Node α)}
    (htags : ∀ n ∈ systems.roots, n.tag = .system)
    (hmade : PagesOf used k (Shape.pagePlans options systems) systems made) :
    d.PagedGreedily options := by
  obtain ⟨chunks, hplans, hturns, hitems⟩ :=
    exists_stacks_planPages options.pageRules (systemItems systems)
  obtain ⟨rfl, hheight⟩ := hmade.stacked htags hplans hitems
  -- what is known of a page, read off its plan
  have hpage : ∀ page ∈ d.pages, d.childNodes page.handle = [] ∨
      ((∃ p : PagePlan α, p.Stacks options.pageRules
        ((d.childNodes page.handle).map fun n => (d.systemItem n, n.top))) ∧
      ∀ n ∈ (d.childNodes page.handle).getLast?,
        page.kind = .page { contentHeight := n.bottom }) := by
    intro page hpage
    rw [hd.pages_eq, ← Forest.map_fst_trees] at hpage
    obtain ⟨t, ht, rfl⟩ := List.mem_map.1 hpage
    rw [Forest.trees_append] at ht
    rcases List.mem_append.1 ht with ht | ht
    · left
      rw [childNodes, hd.below_eq (Forest.hasTree_of_mem_trees
        (by rw [Forest.trees_append]; exact List.mem_append_left _ ht)), hfront t ht]
      rfl
    · have hpage : t ∈ (front ++ made).trees := by
        rw [Forest.trees_append]
        exact List.mem_append_right _ ht
      have hstacked := hd.stackedItems_eq hpage
      obtain ⟨p, -, hp⟩ := exists_mem_of_forall₂ hplans
        (List.mem_map_of_mem (f := fun page => stackedItems page.2) ht)
      have hlast := hheight t ht
      rw [hstacked] at hp hlast
      refine .inr ⟨⟨p, hp⟩, fun n hn => ?_⟩
      refine hlast (d.systemItem n, n.top) ?_
      rw [List.getLast?_map]
      exact Option.mem_map_of_mem _ hn
  refine ⟨?_, fun page hmem n hn => ?_, fun page hmem => ?_, fun page hmem n hn => ?_⟩
  · have hitems : pagedItems made = pagedItems (front ++ made) := by
      rw [pagedItems, pagedItems, Forest.trees_append, List.flatMap_append, eq_comm,
        List.append_left_eq_self, List.flatMap_eq_nil_iff]
      intro page hpage
      rw [hfront page hpage]
      rfl
    have hnodup := hd.nodup_pages
    rw [Forest.roots_append, List.map_append] at hnodup
    have hchain := isChain_pagedItems (List.nodup_append.1 hnodup).2.1 hplans hturns
    rw [hitems, hd.pagedItems_eq, List.isChain_map] at hchain
    refine hchain.imp fun p q h => h.trans ?_
    exact options.breaksBefore_iff p.2.bottom (d.systemItem q.2)
  · rcases hpage page hmem with hnil | ⟨⟨p, hp⟩, -⟩
    · rw [hnil] at hn
      cases hn
    · refine hp.top (d.systemItem n, n.top) ?_
      rw [List.head?_map]
      exact Option.mem_map_of_mem _ hn
  · rcases hpage page hmem with hnil | ⟨⟨p, hp⟩, -⟩
    · rw [hnil]
      exact .nil
    · exact ((List.isChain_map _).1 hp.next).imp fun m n h => h.1
  · rcases hpage page hmem with hnil | ⟨-, hlast⟩
    · rw [hnil] at hn
      cases hn
    · exact hlast n hn

/-- Pages made of plans hold the systems they are made of, at other distances below the top. -/
theorem Shape.untopped_systems (hd : d.Shape D r (front ++ made) detached)
    (hfront : ∀ page ∈ front.trees, page.2 = .nil) {used : List String} {k : Nat}
    {plans : List (PagePlan α)} {systems : Forest (Node α)}
    (hmade : PagesOf used k plans systems made) :
    d.systems.map Node.untopped = systems.roots.map Node.untopped ∧
      ∀ t ∈ systems.trees, d.below t.1.handle = t.2 := by
  have hbranches : (front ++ made).branches.trees = made.branches.trees := by
    rw [Forest.trees_branches, Forest.trees_branches, Forest.trees_append, List.flatMap_append,
      List.append_left_eq_self, List.flatMap_eq_nil_iff]
    intro page hpage
    rw [hfront page hpage]
    rfl
  have hsame := hmade.untoppedTrees_branches
  rw [untoppedTrees, untoppedTrees] at hsame
  constructor
  · have hfst := congrArg (List.map Prod.fst) hsame
    rw [List.map_map, List.map_map] at hfst
    rw [hd.systems_eq, ← Forest.map_fst_trees, hbranches, ← Forest.map_fst_trees systems,
      List.map_map, List.map_map]
    exact hfst
  · intro t ht
    have hmem : (t.1.untopped, t.2) ∈ systems.trees.map fun t => (t.1.untopped, t.2) :=
      List.mem_map_of_mem (f := fun t : Node α × Forest (Node α) => (t.1.untopped, t.2)) ht
    rw [← hsame] at hmem
    obtain ⟨t', ht', heq⟩ := List.mem_map.1 hmem
    obtain ⟨hnode, hbelow⟩ := Prod.mk.inj heq
    have hhandle := congrArg Node.handle hnode
    rw [Node.handle_untopped, Node.handle_untopped] at hhandle
    rw [← hhandle, ← hbelow]
    refine hd.below_eq (Forest.HasTree.of_branches ?_)
    exact Forest.hasTree_of_mem_trees (hbranches ▸ ht')

end Pages

/-- Breaking whatever a caller comes to into pages is greedy, as long as nothing detached has an
identifier kept for unbroken content: the systems on the page of the content keep their order and
what stands in them, a system begins a page where the rules turn it, and a system is reported where
it is higher than the page. -/
theorem Reachable.greedy_breakPages {d : Document α} (h : d.Reachable)
    (hfree : Unreserved d.trees.rest) (hs : .stacked ≤ d.stage) (content : Handle)
    (hcontent : d.findLive? contentPageId = some content)
    (hall : ∀ page ∈ d.pages, page.handle ≠ content → d.childNodes page.handle = [])
    (options : LayoutOptions α) :
    (d.breakPages options).fault = none ∧
      (d.breakPages options).document.PagedGreedily options ∧
      (d.breakPages options).document.systems.map Node.untopped = d.systems.map Node.untopped ∧
      (∀ n ∈ d.systems, (d.breakPages options).document.below n.handle = d.below n.handle) ∧
      (d.breakPages options).marks =
        (d.systems.filter fun n => options.contentHeight + fitTolerance < n.stackHeight).map
          fun n => .warning n.id .systemOverflow
            ("system '" ++ n.id ++ "' does not fit the page height") := by
  have hd := h.ready hfree
  obtain ⟨r, pages, hshape⟩ := hd.wellFormed.exists_shape
  have hstep : Step.pageBreaking.required ≤ d.stage := hs
  have hbuilt : d.stage ≠ .built := fun hb => absurd (hb ▸ hs) (by decide)
  obtain ⟨front, page, systems, rfl, rfl, -⟩ :=
    hshape.exists_of_findLive? hd.settled hbuilt hcontent
  obtain ⟨made, d', hok, hd', -, hmade⟩ := hshape.paginate options
  have hrun : d.breakPages options = .done d' (Shape.pageMarks options systems) := by
    rw [breakPages, Outcome.guarded_of_le hstep, hcontent]
    exact hok
  have hin : Forest.HasTree page systems (front ++ .tree page systems) :=
    (Forest.HasTree.here .nil).append_right front
  have hfront : ∀ t ∈ front.trees, t.2 = .nil := by
    intro t ht
    have htree : Forest.HasTree t.1 t.2 (front ++ .tree page systems) :=
      Forest.hasTree_of_mem_trees (by rw [Forest.trees_append]; exact List.mem_append_left _ ht)
    have hempty := hall t.1 (by
      rw [hshape.pages_eq, Forest.roots_append, ← Forest.map_fst_trees]
      exact List.mem_append_left _ (List.mem_map_of_mem ht)) (by
      have hnodup := hshape.nodup_pages
      rw [Forest.roots_append, List.map_append, List.nodup_append] at hnodup
      refine hnodup.2.2 _ (List.mem_map_of_mem ?_) _ List.mem_cons_self
      rw [← Forest.map_fst_trees]
      exact List.mem_map_of_mem ht)
    rw [childNodes, hshape.below_eq htree, Forest.roots_eq_nil] at hempty
    exact hempty
  have hsystems : d.systems = systems.roots := by
    rw [hshape.systems_eq, Forest.roots_branches, Forest.trees_append, List.flatMap_append,
      List.flatMap_eq_nil_iff.2 fun t ht => by rw [hfront t ht]; rfl]
    simp [Forest.tree, Forest.trees]
  have htags : ∀ n ∈ systems.roots, n.tag = .system := fun n hn =>
    hshape.tag_of_mem_systems (by rw [← hshape.systems_eq, hsystems]; exact hn)
  obtain ⟨huntopped, hbelow⟩ := hd'.untopped_systems hfront hmade
  rw [hrun, hsystems]
  refine ⟨rfl, hd'.pagedGreedily hfront htags hmade, huntopped, ?_, ?_⟩
  · intro n hn
    rw [← Forest.map_fst_trees] at hn
    obtain ⟨t, ht, rfl⟩ := List.mem_map.1 hn
    show d'.below t.1.handle = _
    rw [hbelow t ht, hshape.below_eq (hin.trans (Forest.hasTree_of_mem_trees ht))]
  · show Shape.pageMarks options systems = _
    rw [Shape.pageMarks, ← hshape.map_systemItem fun n below h => hin.trans h, List.filter_map,
      List.map_map]
    rfl

/-- Two measures with a page break between them, which come to stand on two pages. -/
theorem Reachable.greedy_breakPages_of_break :
    ∃ d : Document Float, d.systems.length = 2 ∧ (d.breakPages .default).fault = none ∧
      (d.breakPages .default).document.PagedGreedily .default ∧
      (d.breakPages .default).document.pages.length = 2 := by
  have hd := (((Reachable.ofDefinition (α := Float) default).contentSystem.add 2
    (.measure (.ofNumber 1))).add 2 .pageBreak).add 2 (.measure (.ofNumber 2))
  have hprepared := hd.pass .default .prepare (by decide +kernel)
  have haligned := hprepared.pass .default .align (by decide +kernel)
  have hspaced := haligned.pass .default .space (by decide +kernel)
  have hbroken := hspaced.pass .default .breakSystems (by decide +kernel)
  have hstacked := hbroken.pass .default .stackStaves (by decide +kernel)
  obtain ⟨hfault, hpaged, -⟩ := hstacked.greedy_breakPages
    (fun n hn => absurd hn List.not_mem_nil) (by decide +kernel) 1 (by decide +kernel)
    (by decide +kernel) .default
  exact ⟨_, by decide +kernel, hfault, hpaged, by decide +kernel⟩

end Document

end ScoreLayout
