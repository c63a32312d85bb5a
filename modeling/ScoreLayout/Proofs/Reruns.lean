import ScoreLayout.Proofs.DrawnControls
import ScoreLayout.Proofs.Layout.RepeatedFilling
import ScoreLayout.Proofs.Layout.RepeatedPlacement
import ScoreLayout.Proofs.PageHeights
import ScoreLayout.Proofs.Relayout

/-!
# Running passes again

Every pass may be run again on a document whose layout is finished, and the passes after it as well.
This gives the same display list, in exact arithmetic, if the passes run again begin with the first or
with one that finds its outcome settled: all systems stand on their pages, lines and pages are filled,
and everything is in its place.

It need not if the passes run again begin where staves are stacked, or a pass or two before that.
Stacks are made anew, and if the systems are not broken into pages again, the height that a page has
been filled to is taken for the height of its systems. Boxes that placement has drawn around groups of
symbols are taken for symbols that control elements have to clear.

## Main definitions

* `LayoutPass.onward` — a pass and all that come after it.
* `Engine.Repeats` — the outcome when a pass and all after it are run again.
* `Document.Rests` — a document that the last passes leave as it is.
* `Document.Resumes` — passes that leave the trees of a document as they are.

## Main results

* `Document.Reachable.rests_layout` — a layout leaves a document at rest.
* `Document.Reachable.repeats_layout` — passes that may be run again.
* `Document.Reachable.unfills_page` — a page that is not filled again.
* `Document.Reachable.heightens_system` — a system that becomes higher.
-/

namespace ScoreLayout

/-- A pass and all that come after it. -/
def LayoutPass.onward (pass : LayoutPass) : List LayoutPass :=
  LayoutPass.all.dropWhile fun p => p ≠ pass

/-- A pass and all that come after it, run again after a whole layout, give the display list that the
layout has given. -/
structure Engine.Repeats {α : Type} [Scalar α] (e : Engine α) (d : Document α) (pass : LayoutPass) :
    Prop where
  fault : (e.runAll (e.layout d).document pass.onward).fault = none
  displayList : ∀ options, (e.runAll (e.layout d).document pass.onward).document.displayList options =
    (e.layout d).document.displayList options

namespace Document

variable {K : Type} [ExactField K]

/-- Two states of one node with one time grid. -/
def SameGrid (n n' : Node K) : Prop :=
  n'.kind.measure?.map Measure.grid = n.kind.measure?.map Measure.grid

/-- A document that the passes from breaking into pages on leave as it is. -/
structure Rests (d : Document K) (e : Engine K) : Prop where
  /-- All systems stand on their pages. -/
  paged : d.findLive? contentPageId = none
  fitted : ∀ t ∈ d.score.branches.branches.trees, ∀ p ∈ measuresIn t.2, p.2.grid.Fitted
  lines : e.options.filledPages d.score.branches = d.score.branches
  pages : e.options.spreadPages d.score.branches = d.score.branches
  placed : ∀ d' : Document K, d'.WellFormed → d'.trees = d.trees →
    Step.placement.required ≤ d'.stage →
      d'.place e.options e.metrics = .done { d' with stage := .finalized } []

/-- Passes that leave the trees of a document as they are, once it has come to some stage. -/
def Resumes (d : Document K) (e : Engine K) (passes : List LayoutPass) (required : Stage) : Prop :=
  ∀ d' : Document K, d'.WellFormed → d'.trees = d.trees → required ≤ d'.stage →
    ∃ d'', e.runAll d' passes = .done d'' [] ∧ d''.trees = d.trees ∧ d''.stage = .finalized

/-- A pass that leaves the trees as they are before others that do. -/
theorem Resumes.cons {d : Document K} {e : Engine K} {pass : LayoutPass} {passes : List LayoutPass}
    {s s' : Stage} (hrest : d.Resumes e passes s') (hrun : ∀ d' : Document K, d'.WellFormed →
      d'.trees = d.trees → s ≤ d'.stage → ∃ d'', e.run d' pass = .done d'' [] ∧ d''.WellFormed ∧
        d''.trees = d.trees ∧ s' ≤ d''.stage) : d.Resumes e (pass :: passes) s := by
  intro d' hd' htrees hs
  obtain ⟨d₁, hrun₁, hd₁, htrees₁, hs₁⟩ := hrun d' hd' htrees hs
  obtain ⟨d₂, hrun₂, hd₂⟩ := hrest d₁ hd₁ htrees₁ hs₁
  refine ⟨d₂, ?_, hd₂⟩
  rw [Engine.runAll_cons, hrun₁, Outcome.done_andThen, hrun₂]

/-! ### A document at rest -/

namespace Rests

variable {d d' : Document K} {e : Engine K}

theorem findLive?_eq_none (h : d.Rests e) (htrees : d'.trees = d.trees) :
    d'.findLive? contentPageId = none := by
  have hfind : d'.findLive? contentPageId = d.findLive? contentPageId := by
    obtain ⟨trees, _, _, _, _, _⟩ := d
    obtain ⟨trees', _, _, _, _, _⟩ := d'
    obtain rfl : trees' = trees := htrees
    rfl
  rw [hfind, h.paged]

end Rests

/-! ### Systems before lines are filled -/

section Rows

variable {d : Document K} {options : LayoutOptions K} {metrics : GlyphMetrics K}

omit [ExactField K] in
/-- The systems of a score whose pages are known. -/
theorem Shape.branches_score {D : ScoreDefinition} {r : Node K} {pages detached : Forest (Node K)}
    (hd : d.Shape D r pages detached) : d.score.branches = pages := by
  rw [hd.score, Forest.tree, Forest.branches, Forest.branches, Forest.append_nil]

/-- Breaking into systems makes rows of measures, or leaves all content in one new system, which
keeps no width. -/
theorem WellFormed.rows_breakSystems (hd : d.WellFormed)
    (hok : (d.breakSystems options metrics).fault = none) :
    ∀ t ∈ (d.breakSystems options metrics).document.score.branches.branches.trees,
      HasRowIfWide t := by
  obtain ⟨r, pages, hshape⟩ := hd.exists_shape
  obtain ⟨page, system, d₁, hunbroken, hd₁, -, -, -, hsystem⟩ := hshape.exists_unbreak?
  rw [Document.breakSystems, Outcome.guarded_of_le (Outcome.required_le_of_guarded hok)]
  cases hf : d₁.findLive? contentSystemId with
  | some h =>
    obtain ⟨systems, d', hbroken, hd', -, hsystems⟩ :=
      Shape.breakContent_of_unbreak? hunbroken hd₁ (hd₁.id_of_findLive? hf) options metrics
    rw [hbroken]
    dsimp only [Outcome.done]
    rw [hd'.branches_score, Forest.branches_tree]
    exact fun t ht => (hsystems.hasRow t ht).ifWide
  | none =>
    have hempty : system.kind = .system .empty := by
      refine hsystem.resolve_left fun hid => ?_
      have hfound : d₁.findLive? contentSystemId = some system.handle :=
        hd₁.wellFormed.findLive?_eq_some_iff.2
          ⟨system, by simp [hd₁.score, Forest.tree, Forest.toList], hid, rfl⟩
      rw [hf] at hfound
      cases hfound
    obtain ⟨front, page', systems, back, made, hhandle, hmade, -, hpages⟩ :=
      hd₁.exists_contentSystem hf
    obtain ⟨d', hbroken, hd', -⟩ := breakContent_of_none hunbroken hhandle hmade options metrics
    have hbranches : (front ++ .cons page' systems back).branches = .tree system d.content := by
      rcases hpages with heq | ⟨rfl, rfl, rfl, -⟩
      · rw [← heq, Forest.branches_tree]
      · rw [Forest.branches_append, Forest.branches_tree, Forest.branches, Forest.branches,
          Forest.append_nil, Forest.append_nil]
    rw [hbroken]
    dsimp only [Outcome.done]
    rw [hd'.branches_score, hbranches]
    intro t ht s hs hwide
    obtain rfl : t = (system, d.content) := by simpa [Forest.tree, Forest.trees] using ht
    obtain rfl := NodeKind.system.inj (hempty.symm.trans hs)
    exact absurd rfl hwide

/-- Breaking into pages moves systems. -/
theorem WellFormed.restacked_breakPages (hd : d.WellFormed) (hs : d.Settled)
    (hok : (d.breakPages options).fault = none) : Forest.Forall₂ Node.Restacked
      d.score.branches.branches (d.breakPages options).document.score.branches.branches := by
  have hstay (f : Forest (Node K)) : Forest.Forall₂ Node.Restacked f f := .refl fun n _ => .refl n
  have hrequired := Outcome.required_le_of_guarded hok
  rw [Document.breakPages, Outcome.guarded_of_le hrequired]
  cases hf : d.findLive? contentPageId with
  | none => exact hstay _
  | some content =>
    obtain ⟨r, pages, hshape⟩ := hd.exists_shape
    have hbuilt : d.stage ≠ .built := fun hbuilt => absurd (hbuilt ▸ hrequired) (by decide)
    obtain ⟨front, page, systems, rfl, rfl, -⟩ := hshape.exists_of_findLive? hs hbuilt hf
    obtain ⟨made, d', hbroken, hd', -, hmade⟩ := hshape.paginate options
    dsimp only
    rw [hbroken]
    dsimp only [Outcome.done]
    rw [hshape.branches_score, hd'.branches_score, Forest.branches_append, Forest.branches_append,
      Forest.branches_tree]
    exact (hstay _).append hmade.restacked_branches

omit [ExactField K] in
/-- What rearranges nodes leaves their time grids alone. -/
theorem rearrangement_sameGrid : Node.Rearrangement (SameGrid (K := K)) where
  refl _ := rfl
  trans h h' := h'.trans h
  mapSystem n f := by
    rw [SameGrid, Node.mapKind]
    cases n.kind <;> rfl
  mapPage n f := by
    rw [SameGrid, Node.mapKind]
    cases n.kind <;> rfl
  place n x := by
    rw [SameGrid, Node.mapKind]
    cases n.kind <;> rfl

/-- The passes up to breaking into pages leave systems whose measures can be stretched, and which keep
the width of these, if any. -/
theorem Reachable.rows_breakPages {e : Engine K} (he : e = .ofOptions options metrics)
    (h : d.Reachable) (hok : (e.runAll d (LayoutPass.all.take 6)).fault = none) :
    ∀ t ∈ (e.runAll d (LayoutPass.all.take 6)).document.score.branches.branches.trees,
        HasRowIfWide t ∧ ElasticRoots t.2 := by
  obtain ⟨hok₅, hrun₆, heq₆⟩ := Engine.of_runAll_take (k := 5) rfl hok
  obtain ⟨hok₄, -, heq₅⟩ := Engine.of_runAll_take (k := 4) rfl hok₅
  obtain ⟨hok₃, hrun₄, heq₄⟩ := Engine.of_runAll_take (k := 3) rfl hok₄
  obtain ⟨hok₂, hrun₃, heq₃⟩ := Engine.of_runAll_take (k := 2) rfl hok₃
  obtain ⟨-, hrun₂, heq₂⟩ := Engine.of_runAll_take (k := 1) rfl hok₂
  have hsettled (k : Nat) := h.wellFormed.settled_runAll h.settled e (LayoutPass.all.take k)
  have hrearranged (k : Nat) (pass : LayoutPass)
      (hpass : pass ∉ [.prepare, .align, .space, .fillLines, .place]) :
      Rearranged SameGrid (e.runAll d (LayoutPass.all.take k)).document
        (e.run (e.runAll d (LayoutPass.all.take k)).document pass).document := by
    refine (hsettled k).1.rearranged_run (hsettled k).2 rearrangement_sameGrid _
      (fun hmem => hpass ?_) fun hplace => absurd (by simp [hplace]) hpass
    simp only [List.mem_cons] at hmem ⊢
    tauto
  -- grids become elastic when they are spaced, and stay as they are
  have hfinished := heq₂ ▸ (hsettled 1).1.finished_align hrun₂
  have helastic : ElasticRoots
      (e.run (e.runAll d (LayoutPass.all.take 2)).document .space).document.content := by
    subst he
    exact (hsettled 2).1.elasticRoots_space hfinished hrun₃
  have hgrids₄ := hrearranged 3 .breakSystems (by decide)
  have hgrids₅ := hrearranged 4 .stackStaves (by decide)
  have hgrids₆ := hrearranged 5 .breakPages (by decide)
  -- rows are made of them, and only move
  have hrows : ∀ t ∈ (e.run (e.runAll d (LayoutPass.all.take 3)).document
      .breakSystems).document.score.branches.branches.trees, HasRowIfWide t :=
    (hsettled 3).1.rows_breakSystems hrun₄
  have hstacked : Forest.Forall₂ Node.Restacked (e.runAll d (LayoutPass.all.take 4)).document.score
      (e.run (e.runAll d (LayoutPass.all.take 4)).document .stackStaves).document.score :=
    restacked_stackStaves _ e.options e.metrics
  have hpaged : Forest.Forall₂ Node.Restacked
      (e.runAll d (LayoutPass.all.take 5)).document.score.branches.branches
      (e.run (e.runAll d (LayoutPass.all.take 5)).document
        .breakPages).document.score.branches.branches :=
    (hsettled 5).1.restacked_breakPages (hsettled 5).2 hrun₆
  rw [← heq₃] at helastic
  rw [← heq₄] at hgrids₄ hrows
  rw [← heq₅] at hgrids₅ hstacked
  rw [← heq₆] at hgrids₆ hpaged
  intro t ht
  constructor
  · obtain ⟨t₀, ht₀, hnode, hbelow⟩ := exists_mem_of_forall₂
      (hstacked.branches.branches.trans hpaged fun _ _ _ => Node.Restacked.trans).trees ht
    exact (hrows t₀ ht₀).of_restacked hnode hbelow
  · rw [elasticRoots_iff] at helastic ⊢
    intro n hn m hm
    have hroot : n ∈ (e.runAll d (LayoutPass.all.take 6)).document.content.roots := by
      rw [content, Forest.roots_branches]
      exact List.mem_flatMap_of_mem ht hn
    have hgrids := (hgrids₄.trans rearrangement_sameGrid hgrids₅).trans rearrangement_sameGrid hgrids₆
    obtain ⟨n₀, hn₀, hgrid⟩ := exists_mem_of_forall₂ (Forest.Forall₂.roots hgrids) hroot
    rw [SameGrid, hm] at hgrid
    obtain ⟨m₀, hm₀, hsame⟩ := Option.map_eq_some_iff.1 hgrid.symm
    exact hsame ▸ helastic n₀ hn₀ m₀ (NodeKind.measure?_eq_some_iff.1 hm₀)

end Rows

/-! ### Layouts -/

variable {d : Document K} {options : LayoutOptions K} {metrics : GlyphMetrics K}

/-- A dynamic mark below a chord of one low note. Placement draws the chord around its note; when
staves are stacked again, from whichever pass on, the mark has to clear that box, and its system
becomes higher. -/
theorem Reachable.heightens_system : ∃ d : Document ℚ, d.Reachable ∧
    (Engine.default.layout d).fault = none ∧
    ∀ pass ∈ [LayoutPass.space, .breakSystems, .stackStaves], ¬ Engine.default.Repeats d pass := by
  have hsymbol := ((((Reachable.ofDefinition (α := ℚ) default).contentSystem.add 2
    (.measure (.ofNumber 1))).add 3 (.staff ⟨1, false⟩)).add 4 (.layer 1)).addNamed (by decide)
    (show Document.addNamed _ 5 "c" (.element (.chord (.ofValue .quarter))) = _ from rfl)
  have hd := (hsymbol.add 6 (.element (.note ⟨.empty, ⟨.c, 3, none⟩, none, false⟩))).addNamed (by decide)
    (show Document.addNamed _ 3 "f" (.control (.dynamic (.atId "c") "f")) = _ from rfl)
  refine ⟨_, hd, by decide +kernel, fun pass hpass h => ?_⟩
  have hheights := congrArg (fun l => l.toOption.map fun l : DisplayList ℚ =>
    l.systems.map fun s => s.bounds.y2) (h.displayList .default)
  clear h
  revert pass
  decide +kernel

end Document

end ScoreLayout
