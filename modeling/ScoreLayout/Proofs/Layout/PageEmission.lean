import ScoreLayout.Proofs.Layout.SystemEmission

/-!
# Pages made from plans

The systems of the page of the content are planned onto pages from top to bottom, and the pages are
made one after another at the end of the score. Each takes its systems from the front of those on
the page of the content, which is empty at the end and taken away.

## Main definitions

* `systemItems` — the systems of a page, as page breaking sees them.
* `placeTops` — neighbouring systems at given distances below the top of their page.
* `PagesOf` — the pages that plans make of systems.

## Main results

* `flatMap_systems_planPages`, `systems_ne_nil_of_mem_planPages` — the planned pages are a partition
  of the systems, and none is empty.
* `Document.Shape.paginate` — the shape of a document broken into pages.
-/

namespace ScoreLayout

variable {α : Type} [Scalar α]

/-! ### Plans of pages -/

/-- The handles of the systems of a planned page. -/
def PagePlan.nodes (p : PagePlan α) : List Handle := p.systems.map Prod.fst

namespace Paging

omit [Scalar α] in
/-- The systems met so far. -/
def placed (s : Paging α) : List Handle := s.complete.flatMap PagePlan.nodes ++ s.current.nodes

theorem placed_step (r : PageRules α) (s : Paging α) (i : SystemItem α) :
    (s.step r i).placed = s.placed ++ [i.handle] := by
  rw [step]
  split
  · simp [placed, PagePlan.nodes, PagePlan.add]
  · simp [placed, PagePlan.nodes, PagePlan.add]

theorem placed_foldl (r : PageRules α) (items : List (SystemItem α)) (s : Paging α) :
    (items.foldl (step r) s).placed = s.placed ++ items.map SystemItem.handle := by
  induction items generalizing s with
  | nil => rw [List.foldl_nil, List.map_nil, List.append_nil]
  | cons i items ih =>
    rw [List.foldl_cons, ih, placed_step, List.append_assoc, List.map_cons, List.singleton_append]

theorem complete_step (r : PageRules α) {s : Paging α} (hs : ∀ p ∈ s.complete, p.systems ≠ [])
    (i : SystemItem α) : ∀ p ∈ (s.step r i).complete, p.systems ≠ [] := by
  rw [step]
  split
  · rename_i h
    intro p hp
    rcases List.mem_append.1 hp with hp | hp
    · exact hs p hp
    · rw [List.mem_singleton.1 hp]
      simpa using h.1
  · exact hs

theorem complete_foldl (r : PageRules α) : (items : List (SystemItem α)) → {s : Paging α} →
    (∀ p ∈ s.complete, p.systems ≠ []) →
      ∀ p ∈ (items.foldl (step r) s).complete, p.systems ≠ []
  | [], _, hs => hs
  | i :: items, _, hs => complete_foldl r items (complete_step r hs i)

end Paging

/-- The planned pages hold every system once, in order. -/
theorem flatMap_systems_planPages (r : PageRules α) (items : List (SystemItem α)) :
    (planPages r items).flatMap PagePlan.nodes = items.map SystemItem.handle := by
  have hplaced := Paging.placed_foldl r items .start
  rw [planPages, Paging.finish]
  split
  · rename_i h
    have hnil : (items.foldl (Paging.step r) .start).current.nodes = [] := by
      rw [PagePlan.nodes, List.isEmpty_iff.1 h, List.map_nil]
    rw [Paging.placed, hnil, List.append_nil] at hplaced
    exact hplaced
  · rw [List.flatMap_append, List.flatMap_singleton]
    exact hplaced

/-- No planned page is empty. -/
theorem systems_ne_nil_of_mem_planPages (r : PageRules α) (items : List (SystemItem α)) :
    ∀ p ∈ planPages r items, p.systems ≠ [] := by
  have hcomplete := Paging.complete_foldl r items (s := .start)
    fun p hp => absurd hp List.not_mem_nil
  rw [planPages, Paging.finish]
  split
  · exact hcomplete
  · rename_i h
    intro p hp
    rcases List.mem_append.1 hp with hp | hp
    · exact hcomplete p hp
    · rw [List.mem_singleton.1 hp]
      simpa using h

/-! ### The pages that plans make -/

/-- A system with what stands in it, as page breaking sees it. -/
def SystemItem.ofTree (n : Node α) (below : Forest (Node α)) : SystemItem α where
  handle := n.handle
  id := n.id
  height := (n.kind.system?.map fun s => s.stack.height).getD 0
  opensPage := (below.roots.takeWhile fun n => n.tag ≠ .measure).any fun n => n.tag = .pageBreak

/-- The systems of a page, as page breaking sees them. -/
def systemItems : Forest (Node α) → List (SystemItem α)
  | .nil => []
  | .cons n below siblings => .ofTree n below :: systemItems siblings

/-- Neighbouring systems at given distances below the top of their page. -/
def placeTops : List α → Forest (Node α) → Forest (Node α)
  | y :: ys, .cons n below siblings =>
    .cons (n.mapKind (.mapSystem fun s => { s with y })) below (placeTops ys siblings)
  | _, f => f

/-- The identifier of the page of number `k`, where others are in use. -/
def pageId (used : List String) (k : Nat) : String :=
  Document.freeId used ("page-" ++ toString k)

/-- The pages that plans, numbered from `k` on, make of systems. -/
inductive PagesOf : (used : List String) → (k : Nat) → List (PagePlan α) →
    (systems pages : Forest (Node α)) → Prop
  | nil (used : List String) (k : Nat) : PagesOf used k [] .nil .nil
  | cons {used : List String} {k : Nat} {p : PagePlan α} {plans : List (PagePlan α)}
      {taken systems pages : Forest (Node α)} (h : Handle) (hp : p.systems ≠ [])
      (htaken : taken.roots.map Node.handle = p.nodes)
      (rest : PagesOf (pageId used k :: used) (k + 1) plans systems pages) :
      PagesOf used k (p :: plans) (taken ++ systems)
        (.cons (.new h (pageId used k) (.page { contentHeight := p.height }))
          (placeTops (p.systems.map Prod.snd) taken) pages)

omit [Scalar α] in
theorem map_handle_systemItems [Scalar α] (f : Forest (Node α)) :
    (systemItems f).map SystemItem.handle = f.roots.map Node.handle := by
  induction f with
  | nil => rfl
  | cons n below siblings _ hs => rw [systemItems, List.map_cons, hs]; rfl

theorem sameMusic_placeTops : (ys : List α) → (f : Forest (Node α)) →
    Forest.Forall₂ Node.SameMusic f (placeTops ys f)
  | y :: ys, .cons n below siblings =>
      .cons ⟨rfl, rfl, Document.NodeKind.bare_mapSystem ..⟩ (.refl fun m _ => .refl m)
        (sameMusic_placeTops ys siblings)
  | [], f => by
      rw [placeTops]
      · exact .refl fun m _ => .refl m
      · simp
  | _ :: _, .nil => .nil

namespace PagesOf

variable {used : List String} {k : Nat} {plans : List (PagePlan α)}
  {systems pages : Forest (Node α)}

/-- The pages hold the systems in their order. -/
theorem branches (h : PagesOf used k plans systems pages) :
    Forest.Forall₂ Node.SameMusic systems pages.branches := by
  induction h with
  | nil => exact .nil
  | cons _ _ _ _ ih => exact (sameMusic_placeTops _ _).append ih

/-- No page is empty. -/
theorem noLeaf (h : PagesOf used k plans systems pages) : pages.NoLeaf := by
  induction h with
  | nil => exact trivial
  | @cons _ _ p _ taken _ _ _ hp htaken _ ih =>
    refine ⟨fun hnil => hp ?_, ih⟩
    rw [PagePlan.nodes, ((sameMusic_placeTops _ taken).eq_nil_iff).2 hnil, Forest.roots,
      List.map_nil, eq_comm, List.map_eq_nil_iff] at htaken
    exact htaken

/-- Only the set of identifiers in use matters. -/
theorem perm {used' : List String} (h : PagesOf used k plans systems pages)
    (hp : used.Perm used') : PagesOf used' k plans systems pages := by
  induction h generalizing used' with
  | nil => exact .nil _ _
  | cons i hne htaken _ ih =>
    have hid := Document.freeId_perm hp
    simp only [pageId, hid] at ih ⊢
    exact .cons i hne htaken (ih (hp.cons _))

/-- The identifiers of the pages end in digits. -/
theorem endsInDigit (h : PagesOf used k plans systems pages) :
    ∀ n ∈ pages.roots, EndsInDigit n.id := by
  induction h with
  | nil => exact fun n hn => absurd hn List.not_mem_nil
  | @cons used k p plans taken systems pages i _ _ _ ih =>
    intro n hn
    rcases List.mem_cons.1 hn with rfl | hn
    · rw [Node.new, pageId]
      rcases Document.freeId_eq_or_endsInDigit used ("page-" ++ toString k) with heq | hend
      · rw [heq]
        exact Document.endsInDigit_base "page-" k
      · exact hend
    · exact ih n hn

end PagesOf

namespace Document

namespace Shape

variable {D : ScoreDefinition} {r page : Node α} {detached : Forest (Node α)}

/-- Neighbouring systems set at given distances; `place` is the score around them. -/
theorem placeSystems (place : Forest (Node α) → Forest (Node α))
    (hplace : ∀ {b c f g}, Forest.Changed b c f g → Forest.Changed b c (place f) (place g)) :
    (f done : Forest (Node α)) → {d : Document α} → {systems : List (Handle × α)} →
      d.Shape D r (place (done ++ f)) detached →
      f.roots.map Node.handle = systems.map Prod.fst →
        (d.placeSystems systems).Shape D r (place (done ++ placeTops (systems.map Prod.snd) f))
          detached
  | .nil, done, d, systems, hd, hf => by
      obtain rfl : systems = [] := by simpa [Forest.roots] using hf.symm
      exact hd
  | .cons n below siblings, done, d, [], hd, hf => by simp [Forest.roots] at hf
  | .cons n below siblings, done, d, (h, y) :: systems, hd, hf => by
      rw [Forest.roots, List.map_cons, List.map_cons, List.cons.injEq] at hf
      obtain ⟨rfl, hf⟩ := hf
      have hstep := hd.modify (f := fun n => n.mapKind (.mapSystem fun s => { s with y }))
        (hplace ((Forest.Changed.here below siblings).append_right done))
        ⟨rfl, rfl, NodeKind.bare_mapSystem ..⟩
      have hrest := placeSystems place hplace siblings
        (done ++ .tree (n.mapKind (.mapSystem fun s => { s with y })) below)
        (by rw [Forest.append_assoc]; exact hstep) hf
      rw [Forest.append_assoc] at hrest
      exact hrest

/-- A planned page takes its systems from the front of those on the page of the content. -/
theorem emitPage {front taken systems pages : Forest (Node α)} {d : Document α}
    (hd : d.Shape D r (front ++ .cons page (taken ++ systems) pages) detached)
    (hacc : ∀ n ∈ taken.roots, n.tag = .system) (k : Nat) {p : PagePlan α}
    (htaken : taken.roots.map Node.handle = p.nodes) :
    ∃ h d', d.emitPage k p = .ok d' ∧
      d'.Shape D r (front ++ .cons page systems (pages ++
        .tree (.new h (pageId d.ids k) (.page { contentHeight := p.height }))
          (placeTops (p.systems.map Prod.snd) taken))) detached ∧
      d'.labels.Perm ((h, pageId d.ids k) :: d.labels) := by
  have hplaced := placeSystems (fun f => front ++ .cons page (f ++ systems) pages)
    (fun h => (Forest.Changed.deeper pages (h.append_left systems)).append_right front) taken .nil
    hd htaken
  have hsame := labels_of_forall₂ (forall₂_placeSystems p.systems d).1
  rw [Forest.nil_append] at hplaced
  have hids : (d.placeSystems p.systems).ids = d.ids := by
    have := congrArg (List.map Prod.snd) hsame
    simpa [labels, ids, Function.comp_def] using this
  have hroot : r ∈ (d.placeSystems p.systems).trees.toList := by
    rw [hplaced.trees]
    exact List.mem_cons_self
  have hins := hplaced.insert (p := r) ("page-" ++ toString k)
    (.page { contentHeight := p.height }) (.here _ detached)
    (NodeKind.accepts_of_document hplaced.root_tag rfl) (.inl (endsInDigit_base "page-" k))
  have hlabels := labels_insert hplaced.wellFormed hroot ("page-" ++ toString k)
    (.page { contentHeight := p.height })
  rw [hids, hsame, ← pageId] at hlabels
  rw [hids, ← pageId, Forest.append_assoc, Forest.cons_append] at hins
  generalize hnew : (.new (d.placeSystems p.systems).allocate.1 (pageId d.ids k)
    (.page { contentHeight := p.height }) : Node α) = new at hins
  have hnewHandle : ((d.placeSystems p.systems).insert r.handle ("page-" ++ toString k)
      (.page { contentHeight := p.height })).1 = new.handle := by rw [← hnew]; rfl
  have hnewTag : new.tag = .page := by rw [← hnew]; rfl
  have hroots : (placeTops (p.systems.map Prod.snd) taken).roots.map Node.handle = p.nodes := by
    rw [← htaken]
    exact (map_eq_of_forall₂ (fun a b h => h.handle.symm)
      (sameMusic_placeTops (p.systems.map Prod.snd) taken).roots).symm
  have htags : ∀ n ∈ (placeTops (p.systems.map Prod.snd) taken).roots, n.tag = .system := by
    intro n hn
    obtain ⟨m, hm, hsame⟩ := exists_mem_of_forall₂ (sameMusic_placeTops _ taken).roots hn
    rw [hsame.tag, hacc m hm]
  obtain ⟨d', hok, hd'⟩ := reparentRoots (p := new) (by rw [hnewTag]; decide)
    (fun f moved => front ++ .cons page (f ++ systems) (pages ++ .tree new moved))
    (fun _ => detached) (fun n below siblings moved =>
      ⟨_, .deeper detached ((Forest.Without.deeper _ (.here (siblings ++ systems))).append_right
        front), .deeper detached ((Forest.With.beside page _
          ((Forest.With.here moved .nil).append_right pages)).append_right front)⟩)
    hins fun n hn => NodeKind.accepts_of_page hnewTag (htags n hn)
  have hnewMem : new ∈ (front ++ .cons page (placeTops (p.systems.map Prod.snd) taken ++ systems)
      (pages ++ .tree new .nil)).toList :=
    ((Forest.HasTree.beside page _ ((Forest.HasTree.here .nil).append_right pages)).append_right
      front).mem
  have hnewIs : IsA _ new.handle .page := ⟨new, hins.mem hnewMem, rfl, hnewTag⟩
  have hlabels' := labels_reparentAll? hins.wellFormed
    (hins.wellFormed.not_isA hnewIs (by decide)) hok
  refine ⟨new.handle, d', ?_, ?_, ?_⟩
  · rw [Document.emitPage]
    dsimp only
    rw [← hplaced.root_handle, hnewHandle, ← PagePlan.nodes, ← hroots]
    exact hok
  · have hself : (.new new.handle (pageId d.ids k) (.page { contentHeight := p.height }) :
        Node α) = new := by
      rw [← hnew]
      rfl
    rw [hself]
    exact hd'
  · rw [hnewHandle] at hlabels
    exact hlabels'.trans hlabels

theorem emitPages {front : Forest (Node α)} : {plans : List (PagePlan α)} →
    {systems pages : Forest (Node α)} → {d : Document α} → (k : Nat) →
      d.Shape D r (front ++ .cons page systems pages) detached →
      (∀ n ∈ systems.roots, n.tag = .system) →
      plans.flatMap PagePlan.nodes = systems.roots.map Node.handle →
      (∀ p ∈ plans, p.systems ≠ []) →
        ∃ made d', emitPages k d plans = .ok d' ∧
          d'.Shape D r (front ++ .cons page .nil (pages ++ made)) detached ∧
          PagesOf d.ids k plans systems made
  | [], systems, pages, d, k, hd, _, hnodes, _ => by
      obtain rfl : systems = .nil := by
        rw [List.flatMap_nil, eq_comm, List.map_eq_nil_iff, Forest.roots_eq_nil] at hnodes
        exact hnodes
      exact ⟨.nil, d, rfl, by rwa [Forest.append_nil], .nil _ _⟩
  | p :: plans, systems, pages, d, k, hd, hacc, hnodes, hne => by
      rw [List.flatMap_cons] at hnodes
      obtain ⟨taken, systems, rfl, htaken, hrest⟩ := exists_append_of_roots Node.handle hnodes.symm
      rw [Forest.roots_append] at hacc
      obtain ⟨h, d₁, h₁, hd₁, hlabels⟩ := hd.emitPage
        (fun n hn => hacc n (List.mem_append_left _ hn)) k htaken
      obtain ⟨made, d', hok, hd', hmade⟩ := emitPages (k + 1) hd₁
        (fun n hn => hacc n (List.mem_append_right _ hn)) hrest.symm
        fun q hq => hne q (List.mem_cons_of_mem p hq)
      refine ⟨.cons (.new h (pageId d.ids k) (.page { contentHeight := p.height }))
        (placeTops (p.systems.map Prod.snd) taken) made, d', ?_, ?_,
        .cons h (hne p List.mem_cons_self) htaken (hmade.perm (ids_perm_of_labels hlabels))⟩
      · rw [ScoreLayout.Document.emitPages, h₁]
        exact hok
      · rw [Forest.append_assoc] at hd'
        exact hd'

/-- The plans for the systems of a page. -/
def pagePlans (options : LayoutOptions α) (systems : Forest (Node α)) : List (PagePlan α) :=
  planPages options.pageRules (systemItems systems)

/-- The marks on the systems of a page that do not fit it. -/
def pageMarks (options : LayoutOptions α) (systems : Forest (Node α)) : List Mark :=
  ((systemItems systems).filter fun i => options.pageRules.overflows i.height).map
    SystemItem.overflowMark

theorem map_systemItem {pages : Forest (Node α)} {d : Document α}
    (hd : d.Shape D r pages detached) {f : Forest (Node α)}
    (hf : ∀ n below, Forest.HasTree n below f → Forest.HasTree n below pages) :
    f.roots.map d.systemItem = systemItems f := by
  induction f with
  | nil => rfl
  | cons n below siblings _ hs =>
    have hitem : d.systemItem n = .ofTree n below := by
      rw [systemItem, SystemItem.ofTree, opensPage, childNodes, hd.below_eq (hf n below (.here _))]
    rw [Forest.roots, List.map_cons, systemItems, hitem,
      hs fun m under h => hf m under (.beside n below h)]

/-- Breaking into pages leaves, behind the pages that are there already, those that the plans make
of the systems on the page of the content. It meets no fault. -/
theorem paginate {front systems : Forest (Node α)} {d : Document α}
    (hd : d.Shape D r (front ++ .tree page systems) detached) (options : LayoutOptions α) :
    ∃ made d', d.paginate options page.handle = .done d' (pageMarks options systems) ∧
      d'.Shape D r (front ++ made) detached ∧ d'.stage = .paginated ∧
      PagesOf d.ids 1 (pagePlans options systems) systems made := by
  have hin : Forest.HasTree page systems (front ++ .tree page systems) :=
    (Forest.HasTree.here .nil).append_right front
  have hitems : (d.childNodes page.handle).map d.systemItem = systemItems systems := by
    rw [childNodes, hd.below_eq hin]
    exact hd.map_systemItem fun n below h => hin.trans h
  have htags : ∀ n ∈ systems.roots, n.tag = .system := fun n hn => hd.tag_of_mem_systems (by
    rw [Forest.branches_append, Forest.roots_append, Forest.tree, Forest.branches,
      Forest.roots_append]
    exact List.mem_append_right _ (List.mem_append_left _ hn))
  have hplans : (pagePlans options systems).flatMap PagePlan.nodes =
      systems.roots.map Node.handle := by
    rw [pagePlans, flatMap_systems_planPages, map_handle_systemItems]
  obtain ⟨made, d₁, hok, hd₁, hmade⟩ := emitPages 1 hd htags hplans
    (systems_ne_nil_of_mem_planPages _ _)
  rw [Forest.nil_append] at hd₁
  have hdestroyed := hd₁.destroy ((Forest.Without.here made).append_right front)
  rw [Forest.append_nil] at hdestroyed
  refine ⟨made, { d₁.destroy page.handle with stage := .paginated }, ?_,
    ⟨hdestroyed.wellFormed.of_eq rfl rfl rfl, hdestroyed.definition, hdestroyed.trees⟩, rfl, hmade⟩
  rw [Document.paginate]
  dsimp only
  rw [hitems, ← pagePlans, hok]
  rfl

end Shape

end Document

end ScoreLayout
