import ScoreLayout.Proofs.Layout.GreedySystems
import ScoreLayout.Proofs.Layout.Passes
import ScoreLayout.Proofs.Layout.Spacing
import ScoreLayout.Proofs.Layout.SparePlans
import ScoreLayout.Proofs.Layout.Twins

/-!
# Spacing and breaking two documents side by side

Spacing and breaking into systems make twins of two documents whose contents differ in nothing that
these passes look at: the same systems with the same measures, whatever systems and pages there have
been before. Further control elements that are left out go with the measures behind them.

## Main definitions

* `Node.NearUnplaced` — nodes that are near each other, but for the places of measures.
* `SystemPlan.without`, `Breaking.without` — plans without some of their nodes.

## Main results

* `Document.Abreast.space` — two documents after spacing.
* `Document.Abreast.breakSystems` — two documents after breaking into systems.
-/

namespace ScoreLayout

variable {α : Type} [Scalar α]

/-! ### Spacing -/

/-- Two nodes that are near each other, but for the places of measures. -/
def Node.NearUnplaced (T : Comparison α) (n n' : Node α) : Prop := n.unplaced.Near T n'.unplaced

namespace Node

variable {T : Comparison α} {n n' : Node α}

@[simp] theorem tag_unplaced (n : Node α) : n.unplaced.tag = n.tag := by
  rw [unplaced, Node.tag, Node.tag, mapKind]
  cases n.kind <;> rfl

theorem unplaced_of_tag_ne (hn : n.tag ≠ .measure) : n.unplaced = n := by
  obtain ⟨handle, id, kind, box, dirty, layout⟩ := n
  cases kind with
  | measure => exact absurd rfl hn
  | _ => rfl

theorem isFrame_unplaced : n.unplaced.IsFrame ↔ n.IsFrame := by rw [IsFrame, IsFrame, tag_unplaced]

theorem Near.unplaced (h : n.Near T n') : n.NearUnplaced T n' :=
  h.mapKind fun k => by cases k <;> rfl

namespace NearUnplaced

variable (h : n.NearUnplaced T n')

include h

theorem tag : n'.tag = n.tag := by rw [← tag_unplaced n', ← tag_unplaced n, Near.tag h]

theorem id : n'.id = n.id := by
  have hnear : n.unplaced.Near T n'.unplaced := h
  exact hnear.id

theorem handle (hn : ¬ n.IsFrame) : n'.handle = n.handle := by
  have hnear : n.unplaced.Near T n'.unplaced := h
  exact hnear.handle (mt isFrame_unplaced.1 hn)

theorem own (hn : ¬ n.IsFrame) : ¬ T.spare n'.handle := by
  have hnear : n.unplaced.Near T n'.unplaced := h
  exact hnear.own (mt isFrame_unplaced.1 hn)

theorem not_isSpare : ¬ n'.IsSpare T := fun hs => Near.not_isSpare h
  ⟨(tag_unplaced n').trans hs.tag, hs.omitted, hs.spare, hs.blank⟩

/-- Two measures that differ in their places only, or two nodes of one kind. -/
theorem kind_cases : (∃ m x, n.kind = .measure m ∧ n'.kind = .measure { m with x }) ∨
    n.tag ≠ .measure ∧ n'.kind = n.kind := by
  by_cases hn : n.tag = .measure
  · obtain ⟨m, hm⟩ := NodeKind.exists_of_measure hn
    obtain ⟨m', hm'⟩ := NodeKind.exists_of_measure (h.tag.trans hn)
    have hkind : n'.unplaced.kind = n.unplaced.kind := Near.kind h
    rw [Node.unplaced, Node.unplaced, mapKind, mapKind, hm, hm'] at hkind
    obtain ⟨number, grid, x, left, right, signatures⟩ := m
    obtain ⟨number', grid', x', left', right', signatures'⟩ := m'
    simp only [NodeKind.mapMeasure, NodeKind.measure.injEq, Measure.mk.injEq, true_and] at hkind
    obtain ⟨rfl, rfl, rfl, rfl, rfl⟩ := hkind
    exact .inl ⟨_, x', hm, hm'⟩
  · have hkind : n'.unplaced.kind = n.unplaced.kind := Near.kind h
    rw [unplaced_of_tag_ne hn, unplaced_of_tag_ne (h.tag ▸ hn)] at hkind
    exact .inr ⟨hn, hkind⟩

/-- Two measures that change alike. -/
theorem withMeasure (hn : n.tag = .measure) (m m' : Measure α) (hm : m' = { m with x := m'.x }) :
    NearUnplaced T { n with kind := .measure m } { n' with kind := .measure m' } := by
  rw [hm]
  exact Near.withKind (k := .measure { m with x := 0 }) h ((tag_unplaced n).trans hn).symm

theorem spaced (p : Spacing α) : (n.spaced p).NearUnplaced T (n'.spaced p) := by
  obtain ⟨m, x, hm, hm'⟩ | ⟨hn, hkind⟩ := h.kind_cases
  · rw [Node.spaced, Node.spaced, hm, hm']
    dsimp only
    split
    · exact h.withMeasure (congrArg NodeKind.tag hm) _ _ rfl
    · exact h
  · rw [spaced_of_tag_ne hn, spaced_of_tag_ne (h.tag ▸ hn)]
    exact h

end NearUnplaced

theorem IsSpare.spaced (h : n.IsSpare T) (p : Spacing α) : (n.spaced p).IsSpare T := by
  rw [spaced_of_tag_ne (by rw [h.tag]; decide)]
  exact h

end Node

namespace Document

variable {T : Comparison α} {d d' : Document α}

omit [Scalar α] in
/-- The longest advance is found in the content. -/
theorem WellFormed.longest_eq (hd : d.WellFormed) : d.longest =
    (d.content.toList.filterMap fun n =>
      if n.tag = .element ∧ n.isTimed then some n.layout.duration else none).foldl
        Fraction.max 0 := by
  rw [longest, hd.nodesOfKind_eq_filter (by decide), List.filter_filter, ← List.filterMap_eq_map', List.filterMap_filter]
  congr 1
  refine List.filterMap_congr fun n _ => ?_
  by_cases hn : n.tag = .element <;> by_cases ht : n.isTimed <;> simp [hn, ht]

omit [Scalar α] in
/-- The longest advance depends on the symbols only. -/
theorem WellFormed.longest_congr (hd : d.WellFormed) (hd' : d'.WellFormed) {P : Node α → Prop}
    {R : Node α → Node α → Prop} (h : Forest.Padded P R d.content d'.content)
    (hP : ∀ n, P n → n.tag = .control) (hR : ∀ n n', R n n' → n'.tag = n.tag ∧
      (n.tag = .element → n'.isTimed = n.isTimed ∧ n'.layout.duration = n.layout.duration)) :
    d'.longest = d.longest := by
  rw [hd.longest_eq, hd'.longest_eq]
  refine congrArg (List.foldl Fraction.max 0) (h.filterMap_toList (fun n hn => ?_)
    fun n n' hn => ?_).symm
  · rw [if_neg]
    rw [hP n hn]
    exact fun hn => absurd hn.1 (by decide)
  · obtain ⟨htag, hsymbol⟩ := hR n n' hn
    by_cases ht : n.tag = .element
    · rw [htag, (hsymbol ht).1, (hsymbol ht).2]
    · rw [if_neg fun hn => ht hn.1, if_neg fun hn' => ht (htag ▸ hn'.1)]

/-- What spacing leaves if it meets no fault. -/
theorem WellFormed.of_space (hd : d.WellFormed) {options : LayoutOptions α}
    (hok : (d.space options).fault = none) : (d.space options).marks = [] ∧
      (d.space options).document.stage = .spaced ∧
      (d.space options).document.score =
        d.score.map (Node.spaced (options.spacing d.longest)) := by
  rw [(hd.space_eq hok).1]
  exact ⟨rfl, rfl, score_withScore (R := fun _ _ => True)
    (Forest.Forall₂.map_right _ fun _ _ => trivial)⟩

theorem WellFormed.roots_map_spaced (hd : d.WellFormed) (p : Spacing α) :
    (d.score.map (Node.spaced p)).roots = d.score.roots := by
  obtain ⟨r, pages, hshape⟩ := hd.exists_shape
  rw [hshape.score]
  exact congrArg (fun n => [n]) (Node.spaced_of_tag_ne (by rw [hshape.root_tag]; decide))

namespace Abreast

variable (h : d.Abreast T (Node.NearUnplaced T) d')

include h

theorem longest_eq : d'.longest = d.longest := by
  refine h.left.longest_congr h.right h.content (fun n hn => hn.tag) fun n n' hn => ⟨hn.tag, ?_⟩
  intro ht
  have hplain : n.tag ≠ .measure := by rw [ht]; decide
  have hplain' : n'.tag ≠ .measure := hn.tag ▸ hplain
  rw [Node.NearUnplaced, Node.unplaced_of_tag_ne hplain, Node.unplaced_of_tag_ne hplain'] at hn
  rw [Node.isTimed, Node.isTimed, hn.kind, hn.layout_eq (.inl (by rw [ht]; decide))]
  exact ⟨rfl, rfl⟩

/-- Two documents with ideal positions. -/
theorem space (options : LayoutOptions α) (hok : (d.space options).fault = none)
    (hok' : (d'.space options).fault = none) : (d'.space options).marks = (d.space options).marks ∧
      (d.space options).document.Abreast T (Node.NearUnplaced T) (d'.space options).document := by
  obtain ⟨hmarks, hstage, hscore⟩ := h.left.of_space hok
  obtain ⟨hmarks', hstage', hscore'⟩ := h.right.of_space hok'
  refine ⟨hmarks'.trans hmarks.symm, h.of_sameTree (d.sameTree_space options)
    (d'.sameTree_space options) ?_ ?_ (hstage'.trans hstage.symm)⟩
  · rw [Document.content, Document.content, hscore, hscore', h.longest_eq]
    simp only [Forest.branches_map]
    exact h.content.map (fun n hn => hn.spaced _) fun n n' hn => hn.spaced _
  · rw [hscore, hscore', h.left.roots_map_spaced, h.right.roots_map_spaced]
    exact h.root

end Abreast

end Document

/-! ### Breaking into systems -/

section Near

variable {T : Comparison α}

/-- Nodes that are near each other but for their places are one item for breaking. -/
theorem Node.NearUnplaced.ofNode_eq {n n' : Node α} (h : n.NearUnplaced T n') (hn : ¬ n.IsFrame)
    (definition : ScoreDefinition) (metrics : GlyphMetrics α) (unit : α) :
    BreakItem.ofNode definition metrics unit n' = BreakItem.ofNode definition metrics unit n := by
  have hkind : n'.unplaced.kind = n.unplaced.kind := Near.kind h
  rw [← BreakItem.ofNode_unplaced, ← BreakItem.ofNode_unplaced definition metrics unit n,
    BreakItem.ofNode, BreakItem.ofNode, hkind,
    show n'.unplaced.handle = n.unplaced.handle from h.handle hn]

/-- Measures that differ in their places only get the same places. -/
theorem Forest.Padded.placeRoots {f g : Forest (Node α)}
    (h : Forest.Padded (Node.IsSpare T) (Node.NearUnplaced T) f g)
    (hf : ∀ n ∈ f.branches.toList, n.tag ≠ .measure) (x : α) :
    Forest.Padded (Node.IsSpare T) (Node.Near T) (placeRoots x f) (placeRoots x g) := by
  have hplain {n n' : Node α} (hn : n.NearUnplaced T n') (ht : n.tag ≠ .measure) :
      n.Near T n' := by
    have ht' : n'.tag ≠ .measure := hn.tag ▸ ht
    rwa [Node.NearUnplaced, Node.unplaced_of_tag_ne ht, Node.unplaced_of_tag_ne ht'] at hn
  induction h generalizing x with
  | nil => exact .nil
  | @leaf c f g hc _ ih =>
    have hnone : c.kind.measure? = none := NodeKind.measure?_eq_none (by
      rw [← Node.tag, hc.tag]
      decide)
    rw [ScoreLayout.placeRoots.eq_def x (.cons c .nil g)]
    dsimp only
    rw [hnone]
    exact .leaf hc (ih hf x)
  | @cons n n' children siblings children' siblings' hn hbelow _ _ ih =>
    rw [Forest.branches, Forest.toList_append] at hf
    have hchildren : Forest.Padded (Node.IsSpare T) (Node.Near T) children children' :=
      hbelow.mem.mono (fun _ hc => hc.1) fun b c hbc =>
        hplain hbc.1 (hf b (List.mem_append_left _ hbc.2.1))
    have hrest := fun x => ih (fun n hn => hf n (List.mem_append_right _ hn)) x
    rw [ScoreLayout.placeRoots, ScoreLayout.placeRoots]
    obtain ⟨m, y, hm, hm'⟩ | ⟨ht, hkind⟩ := hn.kind_cases
    · have hplaced : (n.unplaced.mapKind (.mapMeasure fun m => { m with x })).Near T
          (n'.unplaced.mapKind (.mapMeasure fun m => { m with x })) :=
        Node.Near.mapKind hn fun k => by cases k <;> rfl
      rw [Node.unplaced, Node.unplaced, Node.mapKind, Node.mapKind, Node.mapKind, Node.mapKind, hm,
        hm'] at hplaced
      rw [Node.mapKind, Node.mapKind, hm, hm']
      exact .cons hplaced hchildren (hrest _)
    · rw [hkind, NodeKind.measure?_eq_none ht]
      exact .cons (hplain hn ht) hchildren (hrest x)

/-- Nodes of the content that are near each other but for the places of measures. -/
def Node.NearMusic (T : Comparison α) (n n' : Node α) : Prop := n.NearUnplaced T n' ∧ ¬ n.IsFrame

end Near

/-! ### Plans for two contents -/

/-- Relations between the nodes of two contents that breaking tells apart by control elements only
that are spare: the second may have further ones. -/
structure BreaksAlike (spare : Handle → Prop) (P : Node α → Prop) (R : Node α → Node α → Prop) :
    Prop where
  tag : ∀ {n}, P n → n.tag = .control
  isSpare : ∀ {n}, P n → spare n.handle
  handle : ∀ {n n'}, R n n' → n'.handle = n.handle
  kept : ∀ {n n'}, R n n' → ¬ spare n'.handle
  item : ∀ {n n'}, R n n' → ∀ definition metrics unit,
    BreakItem.ofNode definition metrics unit n' = BreakItem.ofNode definition metrics unit n

namespace BreaksAlike

variable {spare : Handle → Prop} [DecidablePred spare] {P : Node α → Prop}
  {R : Node α → Node α → Prop} (h : BreaksAlike spare P R) {f g : Forest (Node α)}
  (hfg : Forest.Padded P R f g)

include h hfg

/-- What is taken of the first content is taken of the second, apart from what is spare. -/
theorem map_handle_roots :
    f.roots.map Node.handle = (g.roots.map Node.handle).filter fun i => !decide (spare i) := by
  rw [List.filter_map]
  exact hfg.map_roots (fun n hn => by simp [h.isSpare hn]) fun n n' hn =>
    ⟨by simpa using h.kept hn, (h.handle hn).symm⟩

/-- What breaking sees of the first content is what it sees of the second, apart from what is
spare. -/
theorem map_ofNode (definition : ScoreDefinition) (metrics : GlyphMetrics α) (unit : α) :
    f.roots.map (BreakItem.ofNode definition metrics unit) =
      (g.roots.map (BreakItem.ofNode definition metrics unit)).filter
        fun i => !decide (spare i.handle) := by
  rw [List.filter_map]
  exact hfg.map_roots (fun n hn => by simp [BreakItem.handle_ofNode, h.isSpare hn])
    fun n n' hn => ⟨by simpa [BreakItem.handle_ofNode] using h.kept hn, (h.item hn ..).symm⟩

/-- Spare nodes are neither measures nor breaks. -/
theorem onlyOthersSpare (definition : ScoreDefinition) (metrics : GlyphMetrics α) (unit : α) :
    OnlyOthersSpare (fun i => decide (spare i))
      (g.roots.map (BreakItem.ofNode definition metrics unit)) := by
  intro i hi hspare
  obtain ⟨n, hn, rfl⟩ := List.mem_map.1 hi
  rw [BreakItem.handle_ofNode, decide_eq_true_eq] at hspare
  have htag : n.tag = .control := by
    rcases hfg.exists_left n (Forest.mem_toList_of_mem_roots hn) with hs | ⟨m, -, hm⟩
    · exact h.tag hs
    · exact absurd hspare (h.kept hm)
  rw [BreakItem.handle_ofNode, BreakItem.ofNode]
  rw [Node.tag] at htag
  split <;> rename_i hk <;> first | rfl | (rw [hk] at htag; cases htag)

theorem systemPlans_eq (definition : ScoreDefinition) (options : LayoutOptions α)
    (metrics : GlyphMetrics α) :
    Document.Shape.systemPlans definition options metrics f =
      (Document.Shape.systemPlans definition options metrics g).map
        (SystemPlan.without fun i => decide (spare i)) := by
  rw [Document.Shape.systemPlans, h.map_ofNode hfg,
    planSystems_without _ (h.onlyOthersSpare hfg _ _ _)]
  rfl

/-- A system that loses all its nodes has had none, since measures are not spare. -/
theorem nodes_eq_nil (hplain : (∀ n ∈ g.roots, ¬ P n) ∨ ∃ n ∈ f.roots, n.tag = .measure)
    (definition : ScoreDefinition) (options : LayoutOptions α) (metrics : GlyphMetrics α) :
    ∀ p ∈ Document.Shape.systemPlans definition options metrics g,
      (p.without fun i => decide (spare i)).nodes = [] → p.nodes = [] := by
  intro p hp hnil
  rcases hplain with hplain | ⟨n, hn, ht⟩
  · -- nothing at all is spare among the nodes
    refine List.eq_nil_iff_forall_not_mem.2 fun i hi => ?_
    have hmem : i ∈ g.roots.map Node.handle := by
      rw [← Document.Shape.flatMap_nodes_systemPlans definition options metrics]
      exact List.mem_flatMap_of_mem hp hi
    obtain ⟨n, hn, rfl⟩ := List.mem_map.1 hmem
    rcases hfg.exists_left n (Forest.mem_toList_of_mem_roots hn) with hs | ⟨m, -, hm⟩
    · exact hplain n hn hs
    · have hkept := List.filter_eq_nil_iff.1 hnil n.handle hi
      simp [h.kept hm] at hkept
  · obtain ⟨i, hi, hkept⟩ := exists_kept_of_mem_planSystems _ (h.onlyOthersSpare hfg _ _ _) (by
      have hmem := List.mem_map_of_mem
        (f := BreakItem.ofNode definition metrics options.scaledUnit) hn
      rw [h.map_ofNode hfg, List.mem_filter] at hmem
      refine ⟨_, hmem.1, ?_⟩
      obtain ⟨m, hm⟩ := NodeKind.exists_of_measure ht
      rw [BreakItem.ofNode_measure _ _ _ hm]
      rfl) p hp
    exact absurd (by simpa using hkept) (List.filter_eq_nil_iff.1 hnil i hi)

omit hfg in
/-- The systems that plans make with and without some of their nodes. The names that are taken may
differ by `I`. -/
theorem padded_systems {R₁ : Node α → Node α → Prop} {I : List String → List String → Prop}
    {rules : BreakRules α}
    (hnew : ∀ {used used' : List String}, I used used' → ∀ i i' k (p : SystemPlan α),
      R₁ (.new i (systemId used k) (p.kind rules)) (.new i' (systemId used' k) (p.kind rules)))
    (hnames : ∀ {used used' : List String}, I used used' → ∀ k,
      I (systemId used k :: used) (systemId used' k :: used'))
    (hplace : ∀ {f g : Forest (Node α)}, Forest.Padded P R f g →
      (∀ n ∈ f.branches.toList, n.tag ≠ .measure) →
        Forest.Padded P R₁ (placeRoots 0 f) (placeRoots 0 g))
    {used used' : List String} (hused : I used used') {k : Nat} {plans' : List (SystemPlan α)}
    {content' systems' : Forest (Node α)}
    (h' : SystemsOf rules used' k plans' content' systems')
    (hkept : ∀ p ∈ plans', (p.without fun i => decide (spare i)).nodes = [] → p.nodes = [])
    {content systems : Forest (Node α)}
    (hsystems : SystemsOf rules used k (plans'.map (SystemPlan.without fun i => decide (spare i)))
      content systems)
    (hcontent : Forest.Padded P R content content')
    (hdeep : ∀ n ∈ content.branches.toList, n.tag ≠ .measure) :
    Forest.Padded P R₁ systems systems' := by
  induction h' generalizing content systems used with
  | nil =>
    cases hsystems
    exact .nil
  | @skip used' k p plans' content' systems' hp _ ih =>
    rw [List.forall_mem_cons] at hkept
    cases hsystems with
    | skip _ hrest => exact ih hused hkept.2 hrest hcontent hdeep
    | cons _ hne => exact absurd (by rw [SystemPlan.without, hp]; rfl) hne
  | @cons used' k p plans' taken' content' systems' i' hp htaken' _ ih =>
    rw [List.forall_mem_cons] at hkept
    cases hsystems with
    | skip hnil => exact absurd (hkept.1 hnil) hp
    | @cons _ _ _ _ taken content systems i _ htaken hrest =>
      obtain ⟨f₁, f₂, heq, h₁, h₂⟩ := hcontent.exists_append
      have hroots := h.map_handle_roots h₁
      rw [htaken'] at hroots
      obtain ⟨rfl, rfl⟩ := Forest.append_inj heq
        (by simpa using congrArg List.length (htaken.trans hroots.symm))
      rw [Forest.branches_append, Forest.toList_append] at hdeep
      exact .cons (hnew hused i i' k p)
        (hplace h₁ fun n hn => hdeep n (List.mem_append_left _ hn))
        (ih (hnames hused k) hkept.2 hrest h₂ fun n hn => hdeep n (List.mem_append_right _ hn))

end BreaksAlike

/-! ### Two documents -/

section Breaking

variable {T : Comparison α}

theorem Node.NearMusic.breaksAlike :
    BreaksAlike T.spare (Node.IsSpare T) (Node.NearMusic T) where
  tag h := h.tag
  isSpare h := h.spare
  handle h := h.1.handle h.2
  kept h := h.1.own h.2
  item h := h.1.ofNode_eq h.2

variable [DecidablePred T.spare]

namespace Document.Abreast

variable {d d' : Document α} (h : d.Abreast T (Node.NearUnplaced T) d')

include h

omit [DecidablePred T.spare] in
theorem nearMusic : Forest.Padded (Node.IsSpare T) (Node.NearMusic T) d.content d'.content :=
  h.content.mem.mono (fun _ hc => hc.1) fun _ _ hn => ⟨hn.1, h.left.not_isFrame hn.2.1⟩

/-- The marks on systems that do not fit. -/
theorem overflowMarks_eq {d₁ d₁' : Document α} (hd₁ : d₁.WellFormed) (hd₁' : d₁'.WellFormed)
    (hlabels : ∀ n ∈ d.content.toList, (n.handle, n.id) ∈ d₁.labels)
    (hlabels' : ∀ n ∈ d'.content.toList, (n.handle, n.id) ∈ d₁'.labels)
    {options : LayoutOptions α} {metrics : GlyphMetrics α}
    (hkept : ∀ p ∈ Shape.systemPlans d.definition options metrics d'.content,
      (p.without fun h => decide (T.spare h)).nodes = [] → p.nodes = []) :
    (Shape.systemPlans d.definition options metrics d'.content).flatMap
        (overflowMarks options.breakRules d₁') =
      (Shape.systemPlans d.definition options metrics d.content).flatMap
        (overflowMarks options.breakRules d₁) := by
  have hplans := Node.NearMusic.breaksAlike.systemPlans_eq h.nearMusic d.definition options metrics
  rw [hplans, List.flatMap_map]
  refine List.flatMap_congr fun p hp => ?_
  have hmem : p.without (fun h => decide (T.spare h)) ∈
      Shape.systemPlans d.definition options metrics d.content :=
    hplans ▸ List.mem_map_of_mem hp
  have hmarks : p.measures.map d₁'.overflowMark = p.measures.map d₁.overflowMark := by
    refine List.map_congr_left fun i hi => ?_
    have hroot : i ∈ d.content.roots.map Node.handle := by
      rw [← Shape.flatMap_nodes_systemPlans d.definition options metrics]
      exact List.mem_flatMap_of_mem hmem (measures_subset_planSystems _ _ _ hmem hi)
    obtain ⟨n, hn, rfl⟩ := List.mem_map.1 hroot
    obtain ⟨n', hn', hnear, hframe⟩ := h.nearMusic.exists_right n (Forest.mem_toList_of_mem_roots hn)
    have hlabel := hlabels n (Forest.mem_toList_of_mem_roots hn)
    have hlabel' := hlabels' n' hn'
    rw [hnear.handle hframe, hnear.id] at hlabel'
    rw [overflowMark_of_mem hd₁ hlabel, overflowMark_of_mem hd₁' hlabel']
  have hempty : (p.without fun h => decide (T.spare h)).nodes.isEmpty = p.nodes.isEmpty := by
    rw [Bool.eq_iff_iff, List.isEmpty_iff, List.isEmpty_iff]
    exact ⟨hkept p hp, fun hnil => by rw [SystemPlan.without, hnil]; rfl⟩
  rw [overflowMarks, overflowMarks, hempty, hmarks]
  rfl

omit [DecidablePred T.spare] in
/-- Two documents broken into systems. -/
theorem breakSystems (hs : .spaced ≤ d.stage) (hplain : (∀ n ∈ d'.content.roots, ¬ n.IsSpare T) ∨
      ∃ n ∈ d.content.roots, n.tag = .measure) (options : LayoutOptions α)
    (metrics : GlyphMetrics α) :
    (d'.breakSystems options metrics).marks = (d.breakSystems options metrics).marks ∧
      ∃ systems systems', TwinSystems T (d.breakSystems options metrics).document
        (d'.breakSystems options metrics).document systems systems' := by
  classical
  obtain ⟨r, page, systems, d₁, d₂, hok, hd₂, hid, hsystems, hd₁, hlabels, hr, hstage⟩ :=
    h.left.exists_breakSystems h.unreserved hs options metrics
  obtain ⟨r', page', systems', d₁', d₂', hok', hd₂', hid', hsystems', hd₁', hlabels', hr',
    hstage'⟩ := h.right.exists_breakSystems h.unreserved' (h.stage.symm ▸ hs) options metrics
  rw [h.definition] at hok' hsystems' hd₂'
  rw [hok, hok']
  have hkept := Node.NearMusic.breaksAlike.nodes_eq_nil h.nearMusic hplain d.definition options metrics
  have hused : (Shape.usedBeforeSystems r' d'.content d'.trees.rest).Perm
      (Shape.usedBeforeSystems r d.content d.trees.rest) := by
    have hroot := h.root
    rw [hr, hr', List.forall₂_cons] at hroot
    rw [Shape.usedBeforeSystems, Shape.usedBeforeSystems, hroot.1.id]
    exact ((h.ids.cons _).cons _).cons _
  obtain ⟨_, pages, hshape⟩ := h.left.exists_shape
  obtain ⟨_, pages', hshape'⟩ := h.right.exists_shape
  have hdeep : ∀ n ∈ d.content.branches.toList, n.tag ≠ .measure := fun n hn ht => by
    have hdepth := hshape.depth_of_mem_branches (hshape.content_eq ▸ hn)
    rw [ht] at hdepth
    exact absurd hdepth (by decide)
  have hcontent := hshape.sameContent_breakSystems h.unreserved options metrics
  have hcontent' := hshape'.sameContent_breakSystems h.unreserved' options metrics
  rw [hok] at hcontent
  rw [hok'] at hcontent'
  refine ⟨h.overflowMarks_eq hd₁ hd₁' hlabels hlabels' hkept, systems, systems', ?_⟩
  exact {
    left := ⟨_, r, page, _, hd₂, hid⟩
    right := ⟨_, r', page', _, hd₂', hid'⟩
    systems := Node.NearMusic.breaksAlike.padded_systems
      (fun hused i i' k p => hused ▸ Node.near_new i i' _ (.inr rfl)) (fun hused _ => hused ▸ rfl)
      (fun hfg hdeep => (hfg.mono (fun _ hn => hn) fun _ _ hn => hn.1).placeRoots hdeep 0) rfl
      (hsystems'.perm hused) hkept (Node.NearMusic.breaksAlike.systemPlans_eq h.nearMusic
        d.definition options metrics ▸ hsystems) h.nearMusic hdeep
    root := by
      have hroot := h.root
      rw [hr, hr'] at hroot
      show List.Forall₂ _ d₂.score.roots d₂'.score.roots
      rwa [hd₂.score, hd₂'.score]
    ids := by
      rw [hcontent.musicIds_eq, hcontent'.musicIds_eq]
      exact h.ids
    definition := hcontent'.definition.trans (h.definition.trans hcontent.definition.symm)
    stage := hstage'.trans hstage.symm
    symbols := fun a ha => (h.symbols a ha).of_sameMusic hcontent.content }

end Document.Abreast

end Breaking

end ScoreLayout
