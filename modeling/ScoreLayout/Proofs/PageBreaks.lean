import Mathlib.Tactic.IntervalCases
import ScoreLayout.Proofs.Layout.PageStarts
import ScoreLayout.Proofs.Layout.Passes

/-!
# Page breaks are honoured

Whatever else is written between two measures, a page break makes the second one begin a system, and
on paged output that system begins a page. What stands between the measures goes with the second
one. There is one exception: in smart mode a system break behind the page break takes its place, and
counts only where the system is full.

## Main definitions

* `BreakMode.HonoursPageBreak` — whether a page break between two measures counts.
* `Document.AfterPageBreak` — a measure behind a page break that counts.

## Main results

* `Document.Reachable.page_breaks_honoured` — such a measure begins a system and a page.
-/

namespace ScoreLayout

variable {α : Type}

/-- Whether a page break counts, given the kinds of the nodes between two measures: in every mode
that breaks, but in smart mode only if no system break is written behind it. -/
def BreakMode.HonoursPageBreak (mode : BreakMode) (between : List NodeTag) : Prop :=
  mode ≠ .unbroken ∧ ∃ before after, between = before ++ .pageBreak :: after ∧
    (mode = .smart → .systemBreak ∉ after)

/-- Systems begin where page breaks ask for it. -/
def BreaksAt (mode : BreakMode) (systems : Forest (Node α)) : Prop :=
  ∀ front between back : List NodeTag,
    systems.branches.roots.map Node.tag = front ++ .measure :: (between ++ .measure :: back) →
      .measure ∉ between → mode.HonoursPageBreak between →
        systems.StartsAfter (front.length + 1) between.length

variable [Scalar α]

theorem BreaksAt.of_forall₂ {mode : BreakMode} {f g : Forest (Node α)} (h : BreaksAt mode f)
    (hfg : Forest.Forall₂ Node.SameMusic f g) : BreaksAt mode g := by
  intro front between back htags hbetween hmode
  have heq : f.branches.roots.map Node.tag = g.branches.roots.map Node.tag :=
    map_eq_of_forall₂ (fun a b hab => hab.tag.symm) hfg.branches.roots
  exact (h front between back (heq.trans htags) hbetween hmode).of_forall₂ hfg

/-! ### Nodes as items -/

section Items

variable (definition : ScoreDefinition) (metrics : GlyphMetrics α) (unit : α)

theorem BreakItem.measure?_ofNode_eq_none {n : Node α} :
    (ofNode definition metrics unit n).measure? = none ↔ n.tag ≠ .measure := by
  rw [measure?_ofNode, Option.map_eq_none_iff, Node.tag]
  cases n.kind <;> simp [NodeKind.measure?, NodeKind.tag]

theorem BreakItem.ofNode_pageBreak {n : Node α} (hn : n.tag = .pageBreak) :
    ofNode definition metrics unit n = .pageBreak n.handle := by
  rw [Node.tag] at hn
  rw [ofNode]
  cases hk : n.kind <;> simp_all [NodeKind.tag]

theorem BreakItem.tag_of_ofNode_systemBreak {n : Node α} {h : Handle}
    (hn : ofNode definition metrics unit n = .systemBreak h) : n.tag = .systemBreak := by
  rw [ofNode] at hn
  rw [Node.tag]
  cases hk : n.kind <;> simp_all [NodeKind.tag]

/-- The rules for systems honour what the mode does. -/
theorem BreakMode.HonoursPageBreak.forces {r : BreakRules α} {nodes : List (Node α)}
    (h : r.mode.HonoursPageBreak (nodes.map Node.tag)) :
    r.Forces (nodes.map (BreakItem.ofNode definition metrics unit)) := by
  obtain ⟨hmode, before, after, htags, hsmart⟩ := h
  obtain ⟨front, rest, rfl, rfl, hrest⟩ := List.map_eq_append_iff.1 htags
  obtain ⟨n, back, rfl, hn, rfl⟩ := List.map_eq_cons_iff.1 hrest
  refine ⟨hmode, front.map (BreakItem.ofNode definition metrics unit), n.handle,
    back.map (BreakItem.ofNode definition metrics unit), ?_, fun hm i hi => ?_⟩
  · rw [List.map_append, List.map_cons, BreakItem.ofNode_pageBreak definition metrics unit hn]
  · obtain ⟨m, hm', heq⟩ := List.mem_map.1 hi
    refine hsmart hm ?_
    rw [← BreakItem.tag_of_ofNode_systemBreak definition metrics unit heq]
    exact List.mem_map_of_mem hm'

/-- The systems of a score begin where page breaks ask for it. -/
theorem SystemsOf.breaksAt {rules : BreakRules α} {used : List String} {k : Nat}
    {content systems : Forest (Node α)} (h : SystemsOf rules used k
      (planSystems rules (content.roots.map (BreakItem.ofNode definition metrics unit))) content
        systems) : BreaksAt rules.mode systems := by
  intro front between back htags hbetween hmode
  rw [← map_eq_of_forall₂ (fun a b hab => hab.tag.symm) h.branches.roots] at htags
  generalize hroots : content.roots = nodes at htags
  obtain ⟨front, nodes₁, rfl, rfl, htags₁⟩ := List.map_eq_append_iff.1 htags
  obtain ⟨last, nodes₂, rfl, hlast, htags₂⟩ := List.map_eq_cons_iff.1 htags₁
  obtain ⟨between, nodes₃, rfl, rfl, htags₃⟩ := List.map_eq_append_iff.1 htags₂
  obtain ⟨next, back, rfl, hnext, rfl⟩ := List.map_eq_cons_iff.1 htags₃
  have hmeasure {n : Node α} (hn : n.tag = .measure) :
      (BreakItem.ofNode definition metrics unit n).measure? ≠ none := fun hnone =>
    (BreakItem.measure?_ofNode_eq_none definition metrics unit).1 hnone hn
  have hwaiting : ∀ i ∈ between.map (BreakItem.ofNode definition metrics unit),
      i.measure? = none := by
    intro i hi
    obtain ⟨n, hn, rfl⟩ := List.mem_map.1 hi
    exact (BreakItem.measure?_ofNode_eq_none definition metrics unit).2 fun ht =>
      hbetween (ht ▸ List.mem_map_of_mem hn)
  have hcut := cutAfter_planSystems (front.map (BreakItem.ofNode definition metrics unit))
    (back.map (BreakItem.ofNode definition metrics unit)) (hmeasure hlast) (hmeasure hnext)
    hwaiting (hmode.forces definition metrics unit)
  have hitems : content.roots.map (BreakItem.ofNode definition metrics unit) =
      front.map (BreakItem.ofNode definition metrics unit) ++
        [BreakItem.ofNode definition metrics unit last] ++
        between.map (BreakItem.ofNode definition metrics unit) ++
        [BreakItem.ofNode definition metrics unit next] ++
        back.map (BreakItem.ofNode definition metrics unit) := by
    rw [hroots]
    simp
  rw [← hitems] at hcut
  have hstarts := h.startsAfter hcut (m := between.length) (by simp)
  simpa using hstarts

end Items

namespace Document

/-! ### Documents -/

/-- What stands in the systems of a score, system after system. -/
def contentNodes (d : Document α) : List (Node α) :=
  d.systems.flatMap fun system => d.childNodes system.handle

/-- A measure behind a page break that counts, with what stands between it and the measure
before. -/
def AfterPageBreak (d : Document α) (mode : BreakMode) (between : List (Node α)) (next : Node α) :
    Prop :=
  ∃ front last back, d.contentNodes = front ++ last :: (between ++ next :: back) ∧
    last.tag = .measure ∧ next.tag = .measure ∧ (∀ n ∈ between, n.tag ≠ .measure) ∧
    mode.HonoursPageBreak (between.map Node.tag)

/-- A measure is the first of its system, which begins with given nodes. -/
def BeginsSystem (d : Document α) (between : List (Node α)) (next system : Node α) : Prop :=
  system ∈ d.systems ∧ ∃ rest, d.childNodes system.handle = between ++ next :: rest

/-- A system is the first of its page. -/
def BeginsPage (d : Document α) (system : Node α) : Prop :=
  ∃ page ∈ d.pages, (d.childNodes page.handle).head? = some system

namespace Shape

variable {d : Document α} {D : ScoreDefinition} {r : Node α} {pages detached : Forest (Node α)}
  (hd : d.Shape D r pages detached)

include hd

omit [Scalar α] in
theorem contentNodes_eq : d.contentNodes = pages.branches.branches.roots := by
  rw [contentNodes, hd.systems_eq]
  exact hd.flatMap_childNodes fun _ _ h => h.of_branches

omit [Scalar α] in
/-- The system that begins behind a page break, with what stands in it. -/
theorem exists_system {mode : BreakMode} (h : BreaksAt mode pages.branches)
    {between : List (Node α)} {next : Node α} (hafter : d.AfterPageBreak mode between next) :
    ∃ t ∈ pages.branches.trees, t.1 ∈ d.systems ∧ d.childNodes t.1.handle = t.2.roots ∧
      ∃ rest, t.2.roots = between ++ next :: rest := by
  obtain ⟨front, last, back, hcontent, hlast, hnext, hbetween, hmode⟩ := hafter
  rw [hd.contentNodes_eq] at hcontent
  have hstarts := h (front.map Node.tag) (between.map Node.tag) (back.map Node.tag)
    (by rw [hcontent]; simp [hlast, hnext])
    (fun hin => by
      obtain ⟨n, hn, ht⟩ := List.mem_map.1 hin
      exact hbetween n hn ht) hmode
  have hcut : (front ++ [last]).length = (front.map Node.tag).length + 1 := by simp
  rw [← hcut, List.length_map] at hstarts
  have hroots : pages.branches.branches.roots = front ++ [last] ++ (between ++ next :: back) := by
    rw [hcontent, List.append_assoc, List.singleton_append]
  obtain ⟨t, ht, rest, hrest⟩ := hstarts.exists_tree hroots
  refine ⟨t, ht, ?_, ?_, rest, hrest⟩
  · rw [hd.systems_eq, ← Forest.map_fst_trees]
    exact List.mem_map_of_mem ht
  · rw [childNodes, hd.below_eq (Forest.hasTree_of_mem_trees ht).of_branches]

omit [Scalar α] in
theorem exists_beginsSystem {mode : BreakMode} (h : BreaksAt mode pages.branches)
    {between : List (Node α)} {next : Node α} (hafter : d.AfterPageBreak mode between next) :
    ∃ system, d.BeginsSystem between next system := by
  obtain ⟨t, -, ht, hchildren, rest, hrest⟩ := hd.exists_system h hafter
  exact ⟨t.1, ht, rest, hchildren.trans hrest⟩

theorem exists_beginsPage {mode : BreakMode} (h : BreaksAt mode pages.branches)
    (hpages : mode ≠ .line → PagesBegin pages) {between : List (Node α)} {next : Node α}
    (hafter : d.AfterPageBreak mode between next) :
    ∃ system, d.BeginsSystem between next system ∧ (mode ≠ .line → d.BeginsPage system) := by
  obtain ⟨t, ht, hmem, hchildren, rest, hrest⟩ := hd.exists_system h hafter
  obtain ⟨-, -, -, -, -, -, hbetween, -, before, after, hbreak, -⟩ := hafter
  have hopens : (SystemItem.ofTree t.1 t.2).opensPage := by
    obtain ⟨n, hn, htag⟩ : ∃ n ∈ between, n.tag = .pageBreak := by
      refine List.mem_map.1 (?_ : NodeTag.pageBreak ∈ between.map Node.tag)
      rw [hbreak]
      exact List.mem_append_right _ List.mem_cons_self
    rw [SystemItem.ofTree]
    dsimp only
    rw [hrest, List.takeWhile_append_of_pos (by simpa using hbetween), List.any_append,
      List.any_eq_true.2 ⟨n, hn, by simpa using htag⟩, Bool.true_or]
  refine ⟨t.1, ⟨hmem, rest, hchildren.trans hrest⟩, fun hmode => ?_⟩
  obtain ⟨page, hpage, hhead⟩ := (hpages hmode).exists_page ht hopens
  refine ⟨page.1, ?_, ?_⟩
  · rw [hd.pages_eq, ← Forest.map_fst_trees]
    exact List.mem_map_of_mem hpage
  · rw [childNodes, hd.below_eq (Forest.hasTree_of_mem_trees hpage)]
    exact hhead

end Shape

/-! ### Passes -/

/-- Systems begin where page breaks ask for it, and if there are pages, so do these. -/
structure BreaksPages (d : Document α) (mode : BreakMode) : Prop where
  systems : BreaksAt mode d.score.branches.branches
  pages : mode ≠ .line → PagesBegin d.score.branches

theorem BreaksPages.of_sameTree {d d' : Document α} {mode : BreakMode} (h : d.BreaksPages mode)
    (hd : d.SameTree d') : d'.BreaksPages mode :=
  ⟨h.systems.of_forall₂ hd.score.branches.branches, fun hm => (h.pages hm).of_forall₂ hd.score.branches⟩

/-- Breaking into systems begins systems where page breaks ask for it. -/
theorem WellFormed.exists_breaksAt {d : Document α} (hd : d.WellFormed)
    (hfree : Unreserved d.trees.rest) (hs : .spaced ≤ d.stage) (options : LayoutOptions α)
    (metrics : GlyphMetrics α) : (d.breakSystems options metrics).fault = none ∧
      ∃ r page systems, (d.breakSystems options metrics).document.Shape d.definition r
        (.tree page systems) d.trees.rest ∧ page.id = contentPageId ∧
          BreaksAt options.breaks systems := by
  obtain ⟨r, page, systems, _, d', hok, hd', hid, hsystems, -⟩ :=
    hd.exists_breakSystems hfree hs options metrics
  rw [hok]
  exact ⟨rfl, r, page, systems, hd', hid,
    hsystems.breaksAt d.definition metrics options.scaledUnit⟩

/-- The passes up to breaking into pages begin systems and pages where page breaks ask for it. -/
theorem Ready.breaksPages {d : Document α} (hd : d.Ready) {e : Engine α}
    (hmode : e.options.breaks ≠ .unbroken)
    (hok : (e.runAll d (LayoutPass.all.take 6)).fault = none) :
    (e.runAll d (LayoutPass.all.take 6)).document.BreaksPages e.options.breaks := by
  obtain ⟨hok₅, hrun₆, heq₆⟩ := Engine.of_runAll_take (k := 5) rfl hok
  obtain ⟨hok₄, -, heq₅⟩ := Engine.of_runAll_take (k := 4) rfl hok₅
  obtain ⟨-, hrun₄, heq₄⟩ := Engine.of_runAll_take (k := 3) rfl hok₄
  have hready := (hd.runAll e (LayoutPass.all.take 3)).2
  obtain ⟨-, r, page, systems, hd₄, hid, hbreaks⟩ := hready.wellFormed.exists_breaksAt
    hready.unreserved (Outcome.required_le_of_guarded hrun₄) e.options e.metrics
  obtain ⟨r₅, page₅, systems₅, hd₅, hpage, hsystems⟩ :=
    hd₄.of_sameTree (sameTree_stackStaves _ e.options e.metrics)
  rw [heq₆]
  rw [heq₅, heq₄] at hrun₆ ⊢
  simp only [Engine.run] at hrun₆ ⊢
  obtain ⟨pages, d₆, hbreak, hd₆, hpages, -⟩ := hd₅.exists_breakPages (hpage.id ▸ hid)
    (Outcome.required_le_of_guarded hrun₆)
  have hscore : d₆.score.branches = pages := by
    rw [hd₆.score, Forest.tree, Forest.branches, Forest.branches, Forest.append_nil]
  rw [hbreak]
  constructor
  · show BreaksAt _ d₆.score.branches.branches
    rw [hscore]
    exact (hbreaks.of_forall₂ hsystems).of_forall₂ hpages.branches
  · intro hline
    show PagesBegin d₆.score.branches
    have hpaged : ¬ e.options.pageRules.isSinglePage := by
      simp [PageRules.isSinglePage, LayoutOptions.pageRules, hmode, hline]
    obtain ⟨chunks, hchunks, hflatten⟩ := exists_chunks_planPages hpaged (systemItems systems₅)
    exact hscore ▸ hpages.pagesBegin hchunks hflatten

omit [Scalar α] in
/-- The passes up to breaking into pages come first, and the passes after it leave the trees alone. -/
theorem exists_later_passes {passes : List LayoutPass} (hpart : passes <+: LayoutPass.all)
    (hmem : .breakPages ∈ passes) : ∃ later, passes = LayoutPass.all.take 6 ++ later ∧
      ∀ pass ∈ later, pass ∈ [LayoutPass.fillLines, .fillPages, .place] := by
  have hlength : passes.length ≤ 9 := hpart.length_le
  rw [List.prefix_iff_eq_take] at hpart
  generalize passes.length = n at hpart hlength
  have hn : 6 ≤ n := by
    by_contra hlt
    rw [hpart] at hmem
    interval_cases n <;> simp [LayoutPass.all] at hmem
  obtain ⟨m, rfl⟩ := Nat.exists_eq_add_of_le hn
  refine ⟨(LayoutPass.all.drop 6).take m, hpart.trans (List.take_add ..), fun pass hp => ?_⟩
  exact List.mem_of_mem_take hp

/-- Whatever a caller comes to, a measure behind a page break that counts begins a system once the
document is broken into systems, and a page once it is broken into pages, unless all pages make one
long line. The content is the same as before. -/
theorem Reachable.page_breaks_honoured {d : Document α} (h : d.Reachable)
    (hfree : Unreserved d.trees.rest) (e : Engine α) (hmode : e.options.breaks ≠ .unbroken) :
    (.spaced ≤ d.stage → (e.run d .breakSystems).fault = none ∧
      (e.run d .breakSystems).document.contentHandles = d.contentHandles ∧
      ∀ between next, (e.run d .breakSystems).document.AfterPageBreak e.options.breaks between next →
        ∃ system, (e.run d .breakSystems).document.BeginsSystem between next system) ∧
    ∀ passes, passes <+: LayoutPass.all → .breakPages ∈ passes →
      (e.runAll d passes).fault = none →
        (e.runAll d passes).document.contentHandles = d.contentHandles ∧
        ∀ between next, (e.runAll d passes).document.AfterPageBreak e.options.breaks between next →
          ∃ system, (e.runAll d passes).document.BeginsSystem between next system ∧
            (e.options.breaks ≠ .line → (e.runAll d passes).document.BeginsPage system) := by
  have hd := h.ready hfree
  constructor
  · intro hs
    obtain ⟨hok, r, page, systems, hd', -, hbreaks⟩ :=
      hd.wellFormed.exists_breaksAt hfree hs e.options e.metrics
    obtain ⟨hsame, hready⟩ := hd.run e .breakSystems
    refine ⟨hok, hsame.contentHandles_eq hd.wellFormed hready.wellFormed, fun between next hafter => ?_⟩
    exact hd'.exists_beginsSystem (by
      rw [Forest.tree, Forest.branches, Forest.branches, Forest.append_nil]
      exact hbreaks) hafter
  · intro passes hpart hmem hok
    obtain ⟨hsame, hready⟩ := hd.runAll e passes
    refine ⟨hsame.contentHandles_eq hd.wellFormed hready.wellFormed, fun between next hafter => ?_⟩
    obtain ⟨later, rfl, hlater⟩ := exists_later_passes hpart hmem
    have hfirst := hd.breaksPages hmode (Engine.fault_of_runAll_append _ hok)
    -- the passes that follow leave the trees alone
    have hlast : (e.runAll d (LayoutPass.all.take 6 ++ later)).document.WellFormed ∧
        (e.runAll d (LayoutPass.all.take 6 ++ later)).document.BreaksPages e.options.breaks := by
      refine of_runAll_append (P := fun d => d.WellFormed ∧ d.BreaksPages e.options.breaks) _ later
        ⟨(hd.runAll e _).2.wellFormed, hfirst⟩ fun d hd pass hpass => ⟨hd.1.run e pass, ?_⟩
      have hpass := hlater pass hpass
      simp only [List.mem_cons, List.not_mem_nil, or_false] at hpass
      rcases hpass with rfl | rfl | rfl
      · exact hd.2.of_sameTree (hd.1.sameTree_fillLines e.options)
      · exact hd.2.of_sameTree (hd.1.sameTree_fillPages e.options)
      · exact hd.2.of_sameTree (hd.1.sameTree_place e.options e.metrics)
    obtain ⟨r, pages, hshape⟩ := hlast.1.exists_shape
    have hscore : (e.runAll d (LayoutPass.all.take 6 ++ later)).document.score.branches = pages := by
      rw [hshape.score, Forest.tree, Forest.branches, Forest.branches, Forest.append_nil]
    exact hshape.exists_beginsPage (hscore ▸ hlast.2.systems)
      (fun hline => hscore ▸ hlast.2.pages hline) hafter

/-- The engine that breaks where systems are full, with the options that hold otherwise. -/
def smartEngine : Engine Float := .ofOptions { LayoutOptions.default with breaks := .smart } .default

/-- Two measures with a page break between them. -/
theorem Reachable.page_breaks_honoured_of_break :
    ∃ (d : Document Float) (between : List (Node Float)) (next : Node Float),
      d.AfterPageBreak .smart between next ∧
        ∃ system, d.BeginsSystem between next system ∧ d.BeginsPage system := by
  have hd := (((Reachable.ofDefinition (α := Float) default).contentSystem.add 2
    (.measure (.ofNumber 1))).add 2 .pageBreak).add 2 (.measure (.ofNumber 2))
  have hhonoured := (hd.page_breaks_honoured (fun n hn => absurd hn List.not_mem_nil) smartEngine
    (by decide +kernel)).2 LayoutPass.all (List.prefix_refl _) (by decide) (by decide +kernel)
  generalize hlayout : (smartEngine.runAll _ LayoutPass.all).document = d at hhonoured
  have htags : d.contentNodes.map Node.tag = [.measure, .pageBreak, .measure] := by
    rw [← hlayout]
    decide +kernel
  obtain ⟨last, nodes, hnodes, hlast, htags⟩ := List.map_eq_cons_iff.1 htags
  obtain ⟨pageBreak, nodes, rfl, hbreak, htags⟩ := List.map_eq_cons_iff.1 htags
  obtain ⟨next, nodes, rfl, hnext, htags⟩ := List.map_eq_cons_iff.1 htags
  have hafter : d.AfterPageBreak .smart [pageBreak] next :=
    ⟨[], last, nodes, hnodes, hlast, hnext, by simp [hbreak], by decide, [], [],
      by simp [hbreak], by simp⟩
  obtain ⟨system, hsystem, hpage⟩ := hhonoured.2 [pageBreak] next hafter
  exact ⟨d, [pageBreak], next, hafter, system, hsystem, hpage (by decide +kernel)⟩

/-- In smart mode a system break behind a page break takes its place: both measures stand in one
system. -/
theorem Reachable.page_break_lost_before_system_break :
    ∃ d : Document Float, d.Reachable ∧ (smartEngine.layout d).fault = none ∧
      (smartEngine.layout d).document.contentNodes.map Node.tag =
        [.measure, .pageBreak, .systemBreak, .measure] ∧
      (smartEngine.layout d).document.systems.length = 1 :=
  ⟨_, ((((Reachable.ofDefinition (α := Float) default).contentSystem.add 2
    (.measure (.ofNumber 1))).add 2 .pageBreak).add 2 .systemBreak).add 2 (.measure (.ofNumber 2)),
    by decide +kernel, by decide +kernel, by decide +kernel⟩

end Document

end ScoreLayout
