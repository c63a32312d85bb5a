import Mathlib.Data.List.Flatten
import ScoreLayout.Proofs.Exact
import ScoreLayout.Proofs.GreedyBreaks
import ScoreLayout.Proofs.InRange
import ScoreLayout.Proofs.Layout.FittingPlans
import ScoreLayout.Proofs.PageBreaks

/-!
# Measures that are too wide

Where systems are broken by their widths, a measure that is too wide for its system stands alone in
it. The system knows that it overflows, and the measure is marked. Nothing else is. There is one
exception: a lone last measure joins the system before it even if there is no room for it, and then
nobody is told.

## Main definitions

* `LayoutOptions.TooWide` — whether a measure is too wide for a system with given signatures.
* `Document.Crowded` — the last system, if it has more measures than it has room for.
* `Document.ReportsTooWide` — measures that are too wide stand alone and are marked.

## Main results

* `Document.ReachableInRange.reports_too_wide` — so it is after breaking into systems.
-/

namespace ScoreLayout

open Scalar

variable {α : Type} [Scalar α]

/-- Whether a measure is too wide for a system with the given signatures. -/
def LayoutOptions.TooWide (o : LayoutOptions α) (width definitionWidth : α) : Prop :=
  o.pageWidth - o.marginLeft - o.marginRight - definitionWidth + fitTolerance < width

instance (o : LayoutOptions α) (width definitionWidth : α) :
    Decidable (o.TooWide width definitionWidth) := Scalar.instDecidableLT _ _

namespace Document

/-- The measures of a system. -/
def measureNodes (d : Document α) (system : Handle) : List (Node α) :=
  (d.childNodes system).filter fun n => n.tag = .measure

/-- The only measure of a system, if it is too wide for it. -/
def StandsAlone (d : Document α) (o : LayoutOptions α) (system : Node α) (s : ScoreSystem α)
    (c : Node α) : Prop :=
  d.measureNodes system.handle = [c] ∧ ∃ m, c.kind = .measure m ∧ o.TooWide m.width s.definitionWidth

/-- The last system, if a lone last measure has joined it without having room in it. -/
structure Crowded (d : Document α) (o : LayoutOptions α) (system : Node α) (s : ScoreSystem α) :
    Prop where
  noWidow : o.noWidow
  last : d.systems.getLast? = some system
  several : 2 ≤ (d.measureNodes system.handle).length
  crowded : ¬ o.HasRoom s.measuresWidth s.definitionWidth

/-- Measures that are too wide for their systems stand alone and are marked. -/
structure ReportsTooWide (d : Document α) (o : LayoutOptions α) (marks : List Mark) : Prop where
  /-- A measure that is too wide stands alone, and there is one mark that names it. -/
  alone : ∀ system ∈ d.systems, ∀ s, system.kind = .system s →
    ∀ c ∈ d.measureNodes system.handle, ∀ m, c.kind = .measure m →
      o.TooWide m.width s.definitionWidth → d.Crowded o system s ∨
        (d.StandsAlone o system s c ∧ s.overflow ∧
          marks.filter (fun k => k.node = some c.id) = [d.overflowMark c.handle])
  /-- No other measure is marked. -/
  marked : ∀ k ∈ marks, ∃ system ∈ d.systems, ∃ s c, system.kind = .system s ∧
    d.StandsAlone o system s c ∧ k = d.overflowMark c.handle
  /-- No other system overflows. -/
  flagged : ∀ system ∈ d.systems, ∀ s, system.kind = .system s → s.overflow →
    ∃ c, d.StandsAlone o system s c

end Document

/-! ### Widths of planned systems -/

/-- The measures among items have widths that are not negative. -/
def NonnegWidths (items : List (BreakItem α)) : Prop :=
  ∀ m ∈ items.filterMap BreakItem.measure?, Nonneg m.1

section Widths

variable [Scalar.Ordered α] {r : BreakRules α} {p : SystemPlan α} {items : List (BreakItem α)}
  {bound : α}

theorem SystemPlan.Of.le_of_width_le {withMeter : Bool} (h : p.Of withMeter items)
    (hitems : NonnegWidths items) (hbound : p.measuresWidth ≤ bound) :
    ∀ m ∈ items.filterMap BreakItem.measure?, m.1 ≤ bound := by
  intro m hm
  rw [h.width] at hbound
  exact le_of_sum_le (List.forall_mem_map.2 hitems) hbound m.1 (List.mem_map_of_mem hm)

theorem SystemPlan.Of.nonneg_width {withMeter : Bool} (h : p.Of withMeter items)
    (hitems : NonnegWidths items) : Nonneg p.measuresWidth := by
  rw [h.width]
  exact Nonneg.sum (List.forall_mem_map.2 hitems)

/-- A bound on the width of a planned system is one on that of each of its measures. -/
theorem le_of_whole_or_joined (h : r.Whole p items ∨ p.Joined items) (hitems : NonnegWidths items)
    (hbound : p.measuresWidth ≤ bound) :
    ∀ m ∈ items.filterMap BreakItem.measure?, m.1 ≤ bound := by
  obtain ⟨⟨_, hmade⟩, -⟩ | ⟨a, b, items₁, items₂, ⟨_, ha⟩, ⟨_, hb⟩, -, -, rfl, rfl⟩ := h
  · exact hmade.le_of_width_le hitems hbound
  · rw [NonnegWidths, List.filterMap_append, List.forall_mem_append] at hitems
    rw [SystemPlan.join] at hbound
    rw [List.filterMap_append, List.forall_mem_append]
    exact ⟨ha.le_of_width_le hitems.1
        (Ordered.le_of_add_le_left (hb.nonneg_width hitems.2) hbound),
      hb.le_of_width_le hitems.2 (Ordered.le_of_add_le_right (ha.nonneg_width hitems.1) hbound)⟩

end Widths

theorem LayoutOptions.overflows_iff {o : LayoutOptions α} (ho : o.breaks ≠ .unbroken)
    (p : SystemPlan α) : o.breakRules.overflows p ↔
      p.measures.length = 1 ∧ o.TooWide p.measuresWidth p.definitionWidth := by
  rw [breakRules, BreakRules.overflows, contentWidth?, if_neg ho, TooWide]
  exact decide_eq_true_iff

/-! ### Systems and their plans -/

theorem Node.measureWidth?_eq_some {n : Node α} {m : Measure α} (hn : n.kind = .measure m) :
    n.measureWidth? = some m.width := by
  rw [measureWidth?, NodeKind.measure?_eq_some_iff.2 hn, Option.map_some]

/-- Only measures have widths. -/
theorem filterMap_measureWidth?_filter (nodes : List (Node α)) :
    (nodes.filter fun n => n.tag = .measure).filterMap Node.measureWidth? =
      nodes.filterMap Node.measureWidth? := by
  rw [List.filterMap_filter]
  refine List.filterMap_congr fun n _ => ?_
  by_cases hn : n.tag = .measure
  · rw [decide_eq_true hn, if_pos rfl]
  · rw [decide_eq_false hn, if_neg (by decide), Node.measureWidth?_eq_none hn]

section Items

variable (definition : ScoreDefinition) (metrics : GlyphMetrics α) (unit : α)

theorem BreakItem.isMeasure_ofNode (n : Node α) :
    (ofNode definition metrics unit n).isMeasure = decide (n.tag = .measure) := by
  rw [isMeasure, measure?_ofNode, Node.tag]
  cases n.kind <;> simp [NodeKind.measure?, NodeKind.tag]

/-- The measures among nodes, by their handles. -/
theorem map_handle_filter_isMeasure (nodes : List (Node α)) :
    ((nodes.map (BreakItem.ofNode definition metrics unit)).filter BreakItem.isMeasure).map
      BreakItem.handle = (nodes.filter fun n => n.tag = .measure).map Node.handle := by
  rw [List.filter_map, List.map_map]
  refine congrArg₂ _ (funext fun n => BreakItem.handle_ofNode ..) (List.filter_congr fun n _ => ?_)
  exact BreakItem.isMeasure_ofNode ..

end Items

namespace Document

/-- A planned system and the one that it has made, in a document. -/
structure Planned (d : Document α) (definition : ScoreDefinition) (metrics : GlyphMetrics α)
    (o : LayoutOptions α) (p : SystemPlan α) (system : Node α) : Prop where
  kind : system.kind = p.kind o.breakRules
  items : o.breakRules.Whole p
      ((d.childNodes system.handle).map (BreakItem.ofNode definition metrics o.scaledUnit)) ∨
    p.Joined ((d.childNodes system.handle).map
      (BreakItem.ofNode definition metrics o.scaledUnit)) ∧ o.noWidow ∧
        d.systems.getLast? = some system

namespace Planned

variable {d : Document α} {definition : ScoreDefinition} {metrics : GlyphMetrics α}
  {o : LayoutOptions α} {p : SystemPlan α} {system c : Node α} {s : ScoreSystem α} {m : Measure α}

theorem nodes (h : d.Planned definition metrics o p system) :
    p.nodes = (d.childNodes system.handle).map Node.handle := by
  have hhandles : ((d.childNodes system.handle).map
      (BreakItem.ofNode definition metrics o.scaledUnit)).map BreakItem.handle =
        (d.childNodes system.handle).map Node.handle := by
    rw [List.map_map]
    exact List.map_congr_left fun n _ => BreakItem.handle_ofNode ..
  rw [← hhandles]
  obtain hwhole | ⟨hjoined, -⟩ := h.items
  · exact hwhole.nodes
  · exact hjoined.nodes

theorem measures (h : d.Planned definition metrics o p system) :
    p.measures = (d.measureNodes system.handle).map Node.handle := by
  rw [measureNodes, ← map_handle_filter_isMeasure definition metrics o.scaledUnit]
  obtain ⟨⟨_, hmade⟩, -⟩ | ⟨hjoined, -⟩ := h.items
  · exact hmade.measures
  · exact hjoined.measures

theorem length_measures (h : d.Planned definition metrics o p system) :
    p.measures.length = (d.measureNodes system.handle).length := by
  rw [h.measures, List.length_map]

/-- The width of the only measure of a system. -/
theorem width_of_lone (h : d.Planned definition metrics o p system)
    (hlone : d.measureNodes system.handle = [c]) (hc : c.kind = .measure m) :
    p.measuresWidth = 0 + m.width := by
  have hlength := h.length_measures
  rw [hlone, List.length_singleton] at hlength
  obtain ⟨⟨_, hmade⟩, -⟩ | ⟨hjoined, -⟩ := h.items
  · rw [hmade.width, sum_measure?_ofNode, totalWidth, ← filterMap_measureWidth?_filter,
      ← measureNodes, hlone, List.filterMap_cons_some (Node.measureWidth?_eq_some hc)]
    rfl
  · exact absurd hjoined.two_le (by omega)

variable [Scalar.Ordered α]

/-- If there is room for the measures of a system, none of them is too wide. -/
theorem not_tooWide (h : d.Planned definition metrics o p system)
    (hwidths : ∀ c ∈ d.childNodes system.handle, ∀ m, c.kind = .measure m → Nonneg m.width)
    (hroom : o.HasRoom p.measuresWidth p.definitionWidth)
    (hc : c ∈ d.measureNodes system.handle) (hm : c.kind = .measure m) :
    ¬ o.TooWide m.width p.definitionWidth := by
  have hitem {c : Node α} (hc : c ∈ d.childNodes system.handle) {m : Measure α} (hm : c.kind = .measure m) :
      (m.width, definitionWidth definition metrics o.scaledUnit m.signatures) ∈
        ((d.childNodes system.handle).map
          (BreakItem.ofNode definition metrics o.scaledUnit)).filterMap BreakItem.measure? := by
    rw [filterMap_measure?_ofNode]
    exact List.mem_map_of_mem (List.mem_filterMap.2 ⟨c, hc, NodeKind.measure?_eq_some_iff.2 hm⟩)
  have hnonneg : NonnegWidths ((d.childNodes system.handle).map
      (BreakItem.ofNode definition metrics o.scaledUnit)) := by
    rw [NonnegWidths, filterMap_measure?_ofNode]
    refine List.forall_mem_map.2 fun m hm => ?_
    obtain ⟨c, hc, hm⟩ := List.mem_filterMap.1 hm
    exact hwidths c hc m (NodeKind.measure?_eq_some_iff.1 hm)
  exact not_lt_of_le (le_of_whole_or_joined (h.items.imp_right And.left) hnonneg hroom _
    (hitem (List.mem_of_mem_filter hc) hm))

/-- A measure that is too wide is the only one of a system that overflows, or it has no room beside
others in the last system. -/
theorem crowded_or_standsAlone (h : d.Planned definition metrics o p system)
    (hwidths : ∀ c ∈ d.childNodes system.handle, ∀ m, c.kind = .measure m → Nonneg m.width)
    (ho : o.breaks ≠ .unbroken) (hs : system.kind = .system s)
    (hc : c ∈ d.measureNodes system.handle) (hm : c.kind = .measure m)
    (hwide : o.TooWide m.width s.definitionWidth) :
    d.Crowded o system s ∨ d.StandsAlone o system s c ∧ s.overflow := by
  obtain rfl := NodeKind.system.inj (hs.symm.trans h.kind)
  have hroom : ¬ o.HasRoom p.measuresWidth p.definitionWidth := fun hroom =>
    h.not_tooWide hwidths hroom hc hm hwide
  by_cases hseveral : 2 ≤ p.measures.length
  · obtain hwhole | ⟨-, hwidow, hlast⟩ := h.items
    · exact absurd ((LayoutOptions.fits_iff ho ..).1 (hwhole.fitting hseveral)) hroom
    · exact .inl ⟨hwidow, hlast, h.length_measures ▸ hseveral, hroom⟩
  · have hlength := h.length_measures
    have hpos := List.length_pos_of_mem hc
    obtain ⟨c', hlone⟩ := List.length_eq_one_iff.1
      (show (d.measureNodes system.handle).length = 1 by omega)
    obtain rfl : c = c' := List.mem_singleton.1 (hlone ▸ hc)
    refine .inr ⟨⟨hlone, m, hm, hwide⟩, (LayoutOptions.overflows_iff ho p).2 ⟨by omega, ?_⟩⟩
    rw [h.width_of_lone hlone hm, LayoutOptions.TooWide, Ordered.lt_zero_add_iff]
    exact hwide

/-- Only a measure that is too wide makes a system overflow. -/
theorem exists_standsAlone (h : d.Planned definition metrics o p system)
    (ho : o.breaks ≠ .unbroken) (hs : system.kind = .system s) (hoverflow : s.overflow) :
    ∃ c, d.StandsAlone o system s c := by
  obtain rfl := NodeKind.system.inj (hs.symm.trans h.kind)
  obtain ⟨hlength, hwide⟩ := (LayoutOptions.overflows_iff ho p).1 hoverflow
  rw [h.length_measures] at hlength
  obtain ⟨c, hlone⟩ := List.length_eq_one_iff.1 hlength
  have hc : c ∈ d.measureNodes system.handle := hlone ▸ List.mem_singleton_self c
  obtain ⟨m, hm⟩ := NodeKind.exists_of_measure (of_decide_eq_true (List.mem_filter.1 hc).2)
  rw [h.width_of_lone hlone hm, LayoutOptions.TooWide, Ordered.lt_zero_add_iff] at hwide
  exact ⟨c, hlone, m, hm, hwide⟩

end Planned

/-! ### Documents broken into systems -/

omit [Scalar α] in
/-- Nodes with different identifiers, but for one. -/
theorem filter_id_eq {nodes : List (Node α)} (h : (nodes.map Node.id).Nodup) {c : Node α}
    (hc : c ∈ nodes) : nodes.filter (fun n => n.id = c.id) = [c] := by
  obtain ⟨front, back, rfl⟩ := List.append_of_mem hc
  rw [List.map_append, List.map_cons, List.nodup_append, List.nodup_cons] at h
  have hfront : front.filter (fun n => n.id = c.id) = [] := List.filter_eq_nil_iff.2 fun n hn heq =>
    h.2.2 n.id (List.mem_map_of_mem hn) c.id List.mem_cons_self (of_decide_eq_true heq)
  have hback : back.filter (fun n => n.id = c.id) = [] := List.filter_eq_nil_iff.2 fun n hn heq =>
    h.2.1.1 (of_decide_eq_true heq ▸ List.mem_map_of_mem hn)
  rw [List.filter_append, List.filter_cons_of_pos (by simp), hfront, hback, List.nil_append]

/-- The measures of a system, if it overflows. -/
def overflowingIn (d : Document α) (system : Node α) : List (Node α) :=
  match system.kind with
  | .system s => if s.overflow then d.measureNodes system.handle else []
  | _ => []

omit [Scalar α] in
theorem overflowingIn_of_overflow {d : Document α} {system : Node α} {s : ScoreSystem α}
    (hs : system.kind = .system s) (hoverflow : s.overflow) :
    d.overflowingIn system = d.measureNodes system.handle := by
  rw [overflowingIn, hs]
  exact if_pos hoverflow

omit [Scalar α] in
theorem exists_of_mem_overflowingIn {d : Document α} {system c : Node α}
    (hc : c ∈ d.overflowingIn system) : ∃ s, system.kind = .system s ∧ s.overflow ∧
      c ∈ d.measureNodes system.handle := by
  rw [overflowingIn] at hc
  split at hc
  · rename_i s hs
    split_ifs at hc with hoverflow
    · exact ⟨s, hs, hoverflow, hc⟩
    · exact absurd hc List.not_mem_nil
  · exact absurd hc List.not_mem_nil

omit [Scalar α] in
theorem mem_childNodes_of_overflowingIn {d : Document α} {system c : Node α}
    (hc : c ∈ d.overflowingIn system) : c ∈ d.childNodes system.handle := by
  obtain ⟨-, -, -, hc⟩ := exists_of_mem_overflowingIn hc
  exact List.mem_of_mem_filter hc

namespace Shape

omit [Scalar α] in
theorem sublist_contentNodes {d : Document α} {D : ScoreDefinition} {r : Node α}
    {pages detached : Forest (Node α)} (hd : d.Shape D r pages detached) :
    d.contentNodes.Sublist d.score.toList := by
  rw [hd.contentNodes_eq, hd.score, Forest.tree, Forest.toList]
  exact ((Forest.sublist_roots _).trans ((Forest.sublist_branches _).trans
    (Forest.sublist_branches _))).trans ((List.sublist_append_left ..).cons r)

omit [Scalar α] in
theorem mem_of_mem_contentNodes {d : Document α} {D : ScoreDefinition} {r n : Node α}
    {pages detached : Forest (Node α)} (hd : d.Shape D r pages detached)
    (hn : n ∈ d.contentNodes) : n ∈ d.trees.toList :=
  (hd.sublist_contentNodes.trans (score_sublist d)).subset hn

variable {d : Document α} {D : ScoreDefinition} {r page : Node α} {systems detached : Forest (Node α)}
  {o : LayoutOptions α} {metrics : GlyphMetrics α} {used : List String} {k : Nat}
  {content : Forest (Node α)} (hd : d.Shape D r (.tree page systems) detached)
  (hsystems : SystemsOf o.breakRules used k (systemPlans D o metrics content) content systems)
  (hr : o.breakRules.byWidth)

include hd

omit [Scalar α] in
/-- The measures of systems that overflow differ in their identifiers. -/
theorem nodup_overflowing : ((d.systems.flatMap d.overflowingIn).map Node.id).Nodup := by
  refine hd.wellFormed.ids.sublist (List.Sublist.map _ (.trans ?_
    (hd.sublist_contentNodes.trans (score_sublist d))))
  refine List.Sublist.flatMap_right _ fun n _ => ?_
  rw [overflowingIn]
  split
  · split_ifs
    · exact List.filter_sublist
    · exact List.nil_sublist _
  · exact List.nil_sublist _

include hd hsystems hr

/-- The plans behind the systems of a document. -/
theorem planned (hne : content ≠ .nil) :
    List.Forall₂ (d.Planned D metrics o) (systemPlans D o metrics content) d.systems := by
  have hitems : content.roots.map (BreakItem.ofNode D metrics o.scaledUnit) ≠ [] := fun hnil =>
    hne (Forest.roots_eq_nil.1 (List.map_eq_nil_iff.1 hnil))
  have hsystems' : d.systems = systems.trees.map Prod.fst := by
    rw [hd.systems_eq, Forest.tree, Forest.branches, Forest.branches, Forest.append_nil,
      Forest.map_fst_trees]
  rw [hsystems', List.forall₂_map_right_iff]
  refine (forall₂_mem_right (hsystems.whole_or_joined hr rfl hitems)).imp fun p t h => ?_
  obtain ⟨⟨hkind, hplan⟩, ht⟩ := h
  have hchildren : d.childNodes t.1.handle = t.2.roots := by
    rw [childNodes, hd.below_eq (.deeper .nil (Forest.hasTree_of_mem_trees ht))]
  refine ⟨hkind, ?_⟩
  rw [hchildren, hsystems', List.getLast?_map]
  exact hplan.imp_right fun h => ⟨h.1, h.2.1, by rw [h.2.2, Option.map_some]⟩

omit hr in
theorem systems_eq_nil (hnil : content = .nil) : d.systems = [] := by
  rw [hd.systems_eq, Forest.tree, Forest.branches, Forest.branches, Forest.append_nil,
    hsystems.noLeaf.eq_nil (hsystems.branches.eq_nil_iff.1 hnil)]
  rfl

/-- The plan behind a system. -/
theorem exists_planned {n : Node α} (hn : n ∈ d.systems) : ∃ p, d.Planned D metrics o p n := by
  by_cases hne : content = .nil
  · rw [hd.systems_eq_nil hsystems hne] at hn
    exact absurd hn List.not_mem_nil
  · obtain ⟨p, -, hp⟩ := exists_mem_of_forall₂ (hd.planned hsystems hr hne) hn
    exact ⟨p, hp⟩

/-- The marks are those on the measures of systems that overflow. -/
theorem flatMap_overflowMarks {d₁ : Document α} (hd₁ : d₁.WellFormed)
    (hlabels : ∀ n ∈ d.contentNodes, (n.handle, n.id) ∈ d₁.labels) :
    (systemPlans D o metrics content).flatMap (overflowMarks o.breakRules d₁) =
      (d.systems.flatMap d.overflowingIn).map fun c => d.overflowMark c.handle := by
  by_cases hne : content = .nil
  · rw [hd.systems_eq_nil hsystems hne, hne]
    simp [systemPlans, planSystems, Forest.roots, Breaking.finish, Breaking.start, joinWidow,
      SystemPlan.empty, overflowMarks]
  rw [List.map_flatMap, List.flatMap_def, List.flatMap_def]
  refine congrArg List.flatten (map_eq_of_forall₂ (fun p n h => ?_)
    (forall₂_mem_right (hd.planned hsystems hr hne)))
  obtain ⟨h, hn⟩ := h
  rw [overflowMarks, overflowingIn, h.kind, SystemPlan.kind]
  dsimp only
  split_ifs with hempty hoverflow
  · rw [List.isEmpty_iff, h.nodes, List.map_eq_nil_iff] at hempty
    rw [measureNodes, hempty]
    rfl
  · rfl
  · rw [h.measures, List.map_map]
    refine List.map_congr_left fun c hc => ?_
    have hmem : c ∈ d.contentNodes := List.mem_flatMap.2 ⟨n, hn, List.mem_of_mem_filter hc⟩
    rw [Function.comp_apply, overflowMark_of_mem hd₁ (hlabels c hmem),
      overflowMark_of_mem hd.wellFormed (List.mem_map_of_mem (hd.mem_of_mem_contentNodes hmem))]
  · rfl

/-- Measures that are too wide stand alone and are marked. -/
theorem reportsTooWide [Scalar.Ordered α] (ho : o.breaks ≠ .unbroken)
    (hwidths : ∀ c ∈ d.contentNodes, ∀ m, c.kind = .measure m → Nonneg m.width) :
    d.ReportsTooWide o ((d.systems.flatMap d.overflowingIn).map fun c =>
      d.overflowMark c.handle) := by
  have hin {system c : Node α} (hn : system ∈ d.systems) (hc : c ∈ d.childNodes system.handle) :
      c ∈ d.contentNodes := List.mem_flatMap.2 ⟨system, hn, hc⟩
  have hmark {c : Node α} (hc : c ∈ d.contentNodes) : (d.overflowMark c.handle).node = some c.id := by
    rw [overflowMark_of_mem hd.wellFormed (List.mem_map_of_mem (hd.mem_of_mem_contentNodes hc))]
    rfl
  refine ⟨fun system hn s hs c hc m hm hwide => ?_, fun k hk => ?_, fun system hn s hs hoverflow => ?_⟩
  · obtain ⟨p, hp⟩ := hd.exists_planned hsystems hr hn
    refine (hp.crowded_or_standsAlone (fun c hc => hwidths c (hin hn hc)) ho hs hc hm hwide).imp_right
      fun h => ⟨h.1, h.2, ?_⟩
    have hmem : c ∈ d.systems.flatMap d.overflowingIn :=
      List.mem_flatMap.2 ⟨system, hn, (overflowingIn_of_overflow hs h.2).symm ▸ hc⟩
    have hnames (c' : Node α) (hc' : c' ∈ d.systems.flatMap d.overflowingIn) :
        decide ((d.overflowMark c'.handle).node = some c.id) = decide (c'.id = c.id) := by
      obtain ⟨n, hn, hc'⟩ := List.mem_flatMap.1 hc'
      simp only [hmark (hin hn (mem_childNodes_of_overflowingIn hc')), Option.some_inj]
    rw [List.filter_map]
    refine (congrArg _ ((List.filter_congr hnames).trans (filter_id_eq hd.nodup_overflowing hmem))).trans
      ?_
    rfl
  · obtain ⟨c, hc, rfl⟩ := List.mem_map.1 hk
    obtain ⟨n, hn, hc⟩ := List.mem_flatMap.1 hc
    obtain ⟨s, hs, hoverflow, hc⟩ := exists_of_mem_overflowingIn hc
    obtain ⟨p, hp⟩ := hd.exists_planned hsystems hr hn
    obtain ⟨c', hc'⟩ := hp.exists_standsAlone ho hs hoverflow
    obtain rfl : c = c' := List.mem_singleton.1 (hc'.1 ▸ hc)
    exact ⟨n, hn, s, c, hs, hc', rfl⟩
  · obtain ⟨p, hp⟩ := hd.exists_planned hsystems hr hn
    exact hp.exists_standsAlone ho hs hoverflow

end Shape

/-- Breaking into systems by their widths. -/
theorem WellFormed.reportsTooWide_breakSystems [Scalar.Ordered α] {d : Document α}
    (hd : d.WellFormed) (hfree : Unreserved d.trees.rest) (hs : .spaced ≤ d.stage) (hsound : d.Sound)
    {o : LayoutOptions α} (ho : o.breakRules.byWidth) (metrics : GlyphMetrics α) :
    (d.breakSystems o metrics).fault = none ∧
      (d.breakSystems o metrics).document.ReportsTooWide o (d.breakSystems o metrics).marks := by
  have hbreaks : o.breaks ≠ .unbroken := by
    rintro h
    simp [BreakRules.byWidth, LayoutOptions.breakRules, h] at ho
  have hsound' := hd.sound_breakSystems hsound o metrics
  obtain ⟨r, page, systems, d₁, d', hok, hd', -, hsystems, hd₁, hlabels, -⟩ :=
    hd.exists_breakSystems hfree hs o metrics
  rw [hok] at hsound' ⊢
  refine ⟨rfl, ?_⟩
  have hlabel : ∀ n ∈ d'.contentNodes, (n.handle, n.id) ∈ d₁.labels := by
    intro n hn
    rw [hd'.contentNodes_eq, Forest.tree, Forest.branches, Forest.branches, Forest.append_nil] at hn
    obtain ⟨m, hm, hsame⟩ := exists_mem_of_forall₂ hsystems.branches.roots hn
    rw [hsame.handle, hsame.id]
    exact hlabels m ((Forest.sublist_roots _).subset hm)
  have hmarks := hd'.flatMap_overflowMarks hsystems ho hd₁ hlabel
  show d'.ReportsTooWide o _
  rw [hmarks]
  exact hd'.reportsTooWide hsystems ho hbreaks fun c hc m hm =>
    (hsound' c (hd'.sublist_contentNodes.subset hc) m hm).width

/-- Whatever a caller comes to whose engines have options within their ranges, measures that are too
wide stand alone and are marked once it is broken into systems by their widths. The content is the
same as before. -/
theorem ReachableInRange.reports_too_wide [Scalar.Ordered α] {d : Document α}
    (h : d.ReachableInRange) (hfree : Unreserved d.trees.rest) (hs : .spaced ≤ d.stage)
    {o : LayoutOptions α} (ho : o.breaks = .auto ∨ o.breaks = .line ∨ o.breaks = .smart)
    (metrics : GlyphMetrics α) :
    (d.breakSystems o metrics).fault = none ∧
      (d.breakSystems o metrics).document.contentHandles = d.contentHandles ∧
      (d.breakSystems o metrics).document.ReportsTooWide o (d.breakSystems o metrics).marks := by
  have hready := h.reachable.ready hfree
  obtain ⟨hok, hreports⟩ := hready.wellFormed.reportsTooWide_breakSystems hfree hs (h.sound hs)
    (o := o) (decide_eq_true ho) metrics
  obtain ⟨hsame, hready'⟩ := hready.run ⟨o, metrics⟩ .breakSystems
  exact ⟨hok, hsame.contentHandles_eq hready.wellFormed hready'.wellFormed, hreports⟩

/-- Options for a page on which no measure has room. -/
def narrowOptions (α : Type) [Scalar α] (noWidow : Bool) : LayoutOptions α :=
  { LayoutOptions.default with pageWidth := 100, marginLeft := 49, marginRight := 49, noWidow }

/-- Two measures on a narrow page, both marked. -/
theorem ReachableInRange.reports_too_wide_of_narrow_page : ∃ d : Document ℚ, d.ReachableInRange ∧
    (d.breakSystems (narrowOptions ℚ false) .default).document.ReportsTooWide
      (narrowOptions ℚ false) (d.breakSystems (narrowOptions ℚ false) .default).marks ∧
    (d.breakSystems (narrowOptions ℚ false) .default).marks.length = 2 := by
  have hd := ((ReachableInRange.ofDefinition (α := ℚ) default).contentSystem.add 2
    (.measure (.ofNumber 1))).add 2 (.measure (.ofNumber 2))
  have hprepared := hd.pass .default .default .prepare (by decide +kernel)
  have haligned := hprepared.pass .default .default .align (by decide +kernel)
  have hspaced := haligned.pass .default .default .space (by decide +kernel)
  refine ⟨_, hspaced, (hspaced.reports_too_wide ?_ ?_ (.inl rfl) .default).2.2, ?_⟩
  · exact fun n hn => absurd hn List.not_mem_nil
  · decide +kernel
  · decide +kernel

/-- Where a lone last measure joins the system before it, both measures on a narrow page stand in one
system. Both are too wide for it, it does not overflow, and nothing is marked. -/
theorem ReachableInRange.too_wide_unmarked_beside_widow : ∃ d : Document Float,
    d.ReachableInRange ∧ .spaced ≤ d.stage ∧
      (d.breakSystems (narrowOptions Float true) .default).marks = [] ∧
      (d.breakSystems (narrowOptions Float true) .default).document.contentNodes.length = 2 ∧
      ((d.breakSystems (narrowOptions Float true) .default).document.systems.filterMap fun n =>
        n.kind.system?).map (fun s => s.overflow) = [false] ∧
      ∀ s ∈ (d.breakSystems (narrowOptions Float true) .default).document.systems.filterMap
          fun n => n.kind.system?,
        ∀ m ∈ (d.breakSystems (narrowOptions Float true) .default).document.contentNodes.filterMap
            fun n => n.kind.measure?,
          (narrowOptions Float true).TooWide m.width s.definitionWidth := by
  have hd := ((ReachableInRange.ofDefinition (α := Float) default).contentSystem.add 2
    (.measure (.ofNumber 1))).add 2 (.measure (.ofNumber 2))
  have hprepared := hd.pass .default .default .prepare (by decide +kernel)
  have haligned := hprepared.pass .default .default .align (by decide +kernel)
  have hspaced := haligned.pass .default .default .space (by decide +kernel)
  exact ⟨_, hspaced, by decide +kernel, by decide +kernel, by decide +kernel, by decide +kernel,
    by decide +kernel⟩

end Document

end ScoreLayout
