import Mathlib.Tactic.Common
import ScoreLayout.Layout.SystemBreaks

/-!
# Plans of systems

The left-to-right pass over the items of the unbroken content carries finished systems, the current
one, and what waits for the next measure. Read one after another these are the items met so far, so
the planned systems are a partition of all items, in every mode and with or without the rule for
lone last measures.

## Main definitions

* `BreakItem.handle` — the node of an item.
* `Breaking.placed` — the nodes met so far.

## Main results

* `flatMap_nodes_planSystems` — the planned systems hold every node once, in order.
-/

namespace ScoreLayout

variable {α : Type}

/-- The node of an item. -/
def BreakItem.handle : BreakItem α → Handle
  | measure h _ _ => h
  | systemBreak h => h
  | pageBreak h => h
  | other h => h

variable [Scalar α]

theorem BreakItem.handle_ofNode (definition : ScoreDefinition) (metrics : GlyphMetrics α)
    (unit : α) (n : Node α) : (ofNode definition metrics unit n).handle = n.handle := by
  rw [ofNode]
  split <;> rfl

namespace Breaking

omit [Scalar α] in
/-- The nodes met so far: those in finished systems, in the current one, and those that wait. -/
def placed (s : Breaking α) : List Handle :=
  s.complete.flatMap SystemPlan.nodes ++ (s.current.nodes ++ s.pending)

theorem placed_breakBefore (r : BreakRules α) (s : Breaking α) (width : α) :
    (s.breakBefore r width).placed = s.placed := by
  rw [breakBefore]
  split
  · simp [placed, SystemPlan.empty]
  · rfl

/-- Every step meets one more node. -/
theorem placed_step (r : BreakRules α) (s : Breaking α) (i : BreakItem α) :
    (s.step r i).placed = s.placed ++ [i.handle] := by
  cases i with
  | measure h width opening =>
    rw [step, ← placed_breakBefore r s width]
    simp [place, placed, BreakItem.handle]
  | systemBreak h => simp [step, placed, BreakItem.handle]
  | pageBreak h => simp [step, placed, BreakItem.handle]
  | other h => simp [step, placed, BreakItem.handle]

theorem placed_foldl (r : BreakRules α) (items : List (BreakItem α)) (s : Breaking α) :
    (items.foldl (step r) s).placed = s.placed ++ items.map BreakItem.handle := by
  induction items generalizing s with
  | nil => rw [List.foldl_nil, List.map_nil, List.append_nil]
  | cons i items ih =>
    rw [List.foldl_cons, ih, placed_step, List.append_assoc, List.map_cons, List.singleton_append]

omit [Scalar α] in
theorem flatMap_nodes_finish (s : Breaking α) :
    s.finish.flatMap SystemPlan.nodes = s.placed := by
  rw [finish]
  dsimp only
  split
  · simp [placed]
  · rename_i h
    have hnil : s.current.nodes ++ s.pending = [] := by simpa using fun hne => h (.inl hne)
    rw [placed, hnil, List.append_nil]

end Breaking

theorem flatMap_nodes_joinWidow : (plans : List (SystemPlan α)) →
    (joinWidow plans).flatMap SystemPlan.nodes = plans.flatMap SystemPlan.nodes
  | [] => rfl
  | [p] => rfl
  | [p, last] => by
      rw [joinWidow]
      split
      · simp [SystemPlan.join]
      · rfl
  | p :: q :: t :: rest => by
      have hstep : joinWidow (p :: q :: t :: rest) = p :: joinWidow (q :: t :: rest) := by
        simp [joinWidow]
      rw [hstep, List.flatMap_cons, flatMap_nodes_joinWidow (q :: t :: rest)]
      rfl

/-- The planned systems hold every node once, in order. -/
theorem flatMap_nodes_planSystems (r : BreakRules α) (items : List (BreakItem α)) :
    (planSystems r items).flatMap SystemPlan.nodes = items.map BreakItem.handle := by
  have hplaced : (items.foldl (Breaking.step r) .start).finish.flatMap SystemPlan.nodes =
      items.map BreakItem.handle := by
    rw [Breaking.flatMap_nodes_finish, Breaking.placed_foldl]
    simp [Breaking.placed, Breaking.start, SystemPlan.empty]
  rw [planSystems]
  split
  · rw [flatMap_nodes_joinWidow, hplaced]
  · exact hplaced

/-! ### The measures of a plan -/

namespace Breaking

/-- The measures of every system are among its nodes. -/
def MeasuresPlaced (s : Breaking α) : Prop :=
  (∀ p ∈ s.complete, p.measures ⊆ p.nodes) ∧ s.current.measures ⊆ s.current.nodes

theorem measuresPlaced_step (r : BreakRules α) {s : Breaking α} (hs : s.MeasuresPlaced)
    (i : BreakItem α) : (s.step r i).MeasuresPlaced := by
  cases i with
  | measure h width opening =>
    have hbreak : (s.breakBefore r width).MeasuresPlaced := by
      rw [breakBefore]
      split
      · refine ⟨fun p hp => ?_, by simp [SystemPlan.empty]⟩
        rcases List.mem_append.1 hp with hp | hp
        · exact hs.1 p hp
        · exact List.mem_singleton.1 hp ▸ hs.2
      · exact hs
    refine ⟨hbreak.1, fun m hm => ?_⟩
    simp only [step, place, List.mem_append, List.mem_singleton] at hm ⊢
    rcases hm with hm | hm
    · exact .inl (.inl (hbreak.2 hm))
    · exact .inr hm
  | systemBreak h => exact hs
  | pageBreak h => exact hs
  | other h => exact hs

theorem measuresPlaced_foldl (r : BreakRules α) : (items : List (BreakItem α)) → {s : Breaking α} →
    s.MeasuresPlaced → (items.foldl (step r) s).MeasuresPlaced
  | [], _, hs => hs
  | i :: items, _, hs => measuresPlaced_foldl r items (measuresPlaced_step r hs i)

end Breaking

omit [Scalar α] in
theorem measures_subset_finish {s : Breaking α} (hs : s.MeasuresPlaced) :
    ∀ p ∈ s.finish, p.measures ⊆ p.nodes := by
  intro p hp
  rw [Breaking.finish] at hp
  dsimp only at hp
  split at hp
  · rcases List.mem_append.1 hp with hp | hp
    · exact hs.1 p hp
    · rw [List.mem_singleton.1 hp]
      exact fun m hm => List.mem_append_left _ (hs.2 hm)
  · exact hs.1 p hp

theorem measures_subset_joinWidow : {plans : List (SystemPlan α)} →
    (∀ p ∈ plans, p.measures ⊆ p.nodes) → ∀ p ∈ joinWidow plans, p.measures ⊆ p.nodes
  | [], h => h
  | [_], h => h
  | [p, last], h => by
      rw [joinWidow]
      split
      · intro q hq m hm
        rw [List.mem_singleton.1 hq] at hm ⊢
        rcases List.mem_append.1 hm with hm | hm
        · exact List.mem_append_left _ (h p List.mem_cons_self hm)
        · exact List.mem_append_right _ (h last (by simp) hm)
      · exact h
  | p :: q :: t :: rest, h => by
      have hstep : joinWidow (p :: q :: t :: rest) = p :: joinWidow (q :: t :: rest) := by
        simp [joinWidow]
      rw [hstep]
      intro u hu
      rcases List.mem_cons.1 hu with rfl | hu
      · exact h u List.mem_cons_self
      · exact measures_subset_joinWidow (fun v hv => h v (List.mem_cons_of_mem p hv)) u hu

theorem measures_subset_planSystems (r : BreakRules α) (items : List (BreakItem α)) :
    ∀ p ∈ planSystems r items, p.measures ⊆ p.nodes := by
  have hstart : (Breaking.start : Breaking α).MeasuresPlaced :=
    ⟨fun p hp => absurd hp List.not_mem_nil, by simp [Breaking.start, SystemPlan.empty]⟩
  have hfinish := measures_subset_finish (Breaking.measuresPlaced_foldl r items hstart)
  rw [planSystems]
  split
  · exact measures_subset_joinWidow hfinish
  · exact hfinish

end ScoreLayout
