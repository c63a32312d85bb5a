import ScoreLayout.Proofs.Layout.GreedyPlans

/-!
# Plans without some nodes

Items that are neither measures nor breaks go along with the measures behind them. Systems are
planned as if those of them were not there that are left out of the layout.

## Main definitions

* `SystemPlan.without` — a planned system without some of its nodes.

## Main results

* `planSystems_without` — the plans for items some of which are left out.
* `exists_kept_of_mem_planSystems` — every planned system keeps a node if there is a measure.
-/

namespace ScoreLayout

variable {α : Type} [Scalar α]

/-- A planned system without some of its nodes. -/
def SystemPlan.without (spare : Handle → Bool) (p : SystemPlan α) : SystemPlan α :=
  { p with nodes := p.nodes.filter fun h => !spare h }

/-- Items of which only those are spare that are neither measures nor breaks. -/
def OnlyOthersSpare (spare : Handle → Bool) (items : List (BreakItem α)) : Prop :=
  ∀ i ∈ items, spare i.handle → i = .other i.handle

namespace Breaking

variable (spare : Handle → Bool)

/-- The running state of breaking without some of the nodes. -/
def without (s : Breaking α) : Breaking α :=
  { s with
    complete := s.complete.map (SystemPlan.without spare)
    current := s.current.without spare
    pending := s.pending.filter fun h => !spare h }

variable {spare} (r : BreakRules α) (s : Breaking α)

omit [Scalar α] in
theorem without_other {h : Handle} (hh : spare h) [Scalar α] (r : BreakRules α) (s : Breaking α) :
    (s.step r (.other h)).without spare = s.without spare := by
  simp [step, without, hh]

theorem without_breakBefore (width : α) :
    (s.breakBefore r width).without spare = (s.without spare).breakBefore r width := by
  rw [breakBefore, breakBefore]
  show _ = if ¬ s.current.measures.isEmpty ∧ (s.forced ∨ (r.byWidth ∧ ¬ r.fits
    (s.current.measuresWidth + width) s.current.definitionWidth)) then _ else _
  split_ifs
  · simp [without, SystemPlan.empty, SystemPlan.without]
  · rfl

theorem without_place {h : Handle} (hh : ¬ spare h) (width : α) (opening : Bool → α) :
    (s.place h width opening).without spare = (s.without spare).place h width opening := by
  simp [place, without, SystemPlan.without, hh]

/-- Breaking does not look at spare nodes. -/
theorem without_step {i : BreakItem α} (hi : ¬ spare i.handle) :
    (s.step r i).without spare = (s.without spare).step r i := by
  cases i with
  | measure h width opening =>
    rw [BreakItem.handle] at hi
    rw [step, step, without_place _ hi, without_breakBefore]
  | systemBreak h =>
    rw [BreakItem.handle] at hi
    simp only [step, without, List.filter_append, List.filter_cons, hi, List.filter_nil]
    rfl
  | pageBreak h =>
    rw [BreakItem.handle] at hi
    simp only [step, without, List.filter_append, List.filter_cons, hi, List.filter_nil]
    rfl
  | other h =>
    rw [BreakItem.handle] at hi
    simp only [step, without, List.filter_append, List.filter_cons, hi, List.filter_nil]
    rfl

theorem without_foldl : (items : List (BreakItem α)) → OnlyOthersSpare spare items →
    (s : Breaking α) → (items.foldl (step r) s).without spare =
      (items.filter fun i => !spare i.handle).foldl (step r) (s.without spare)
  | [], _, _ => rfl
  | i :: items, h, s => by
      rw [OnlyOthersSpare, List.forall_mem_cons] at h
      rw [List.foldl_cons, without_foldl items h.2]
      by_cases hi : spare i.handle
      · rw [List.filter_cons_of_neg (by simp [hi]), h.1 hi, without_other (h := i.handle) hi]
      · rw [List.filter_cons_of_pos (by simp [hi]), List.foldl_cons, without_step _ _ hi]

/-- Every complete system keeps a node, and so does the current one as soon as it has a measure. -/
structure Kept (spare : Handle → Bool) (s : Breaking α) : Prop where
  complete : ∀ p ∈ s.complete, ∃ h ∈ p.nodes, ¬ spare h
  current : s.current.measures ≠ [] → ∃ h ∈ s.current.nodes, ¬ spare h
  started : s.complete ≠ [] → s.current.measures ≠ []

theorem kept_start : (start : Breaking α).Kept spare :=
  ⟨fun _ hp => absurd hp List.not_mem_nil, fun h => absurd rfl h, fun h => absurd rfl h⟩

variable {s}

theorem Kept.step (hs : s.Kept spare) {i : BreakItem α} (hi : spare i.handle → i = .other i.handle) :
    (s.step r i).Kept spare := by
  cases i with
  | systemBreak h => exact ⟨hs.complete, hs.current, hs.started⟩
  | pageBreak h => exact ⟨hs.complete, hs.current, hs.started⟩
  | other h => exact ⟨hs.complete, hs.current, hs.started⟩
  | measure h width opening =>
    have hkept : ¬ spare h := fun hh => nomatch hi hh
    rw [Breaking.step, place]
    refine ⟨?_, fun _ => ⟨h, by simp, hkept⟩, fun _ => by simp⟩
    show ∀ p ∈ (s.breakBefore r width).complete, _
    rw [breakBefore]
    split_ifs with hbreak
    · intro p hp
      rcases List.mem_append.1 hp with hp | hp
      · exact hs.complete p hp
      · rw [List.mem_singleton.1 hp]
        exact hs.current (by simpa using hbreak.1)
    · exact hs.complete

theorem Kept.foldl : (items : List (BreakItem α)) → OnlyOthersSpare spare items →
    {s : Breaking α} → s.Kept spare → (items.foldl (Breaking.step r) s).Kept spare
  | [], _, _, hs => hs
  | i :: items, h, _, hs => by
      rw [OnlyOthersSpare, List.forall_mem_cons] at h
      exact Kept.foldl items h.2 (hs.step r h.1)

/-- Once there is a measure in the current system, there always is one. -/
theorem measures_foldl (items : List (BreakItem α)) {s : Breaking α}
    (hs : s.current.measures ≠ [] ∨ ∃ i ∈ items, i.isMeasure) :
    (items.foldl (Breaking.step r) s).current.measures ≠ [] := by
  induction items generalizing s with
  | nil => exact hs.resolve_right fun ⟨_, hi, _⟩ => List.not_mem_nil hi
  | cons i items ih =>
    refine ih ?_
    rw [or_iff_not_imp_right]
    intro hlast
    cases i with
    | measure h width opening => simp [Breaking.step, place]
    | _ =>
      refine hs.resolve_right ?_
      rintro ⟨j, hj, hmeasure⟩
      rcases List.mem_cons.1 hj with rfl | hj
      · cases hmeasure
      · exact hlast ⟨j, hj, hmeasure⟩

omit [Scalar α] in
theorem finish_of {s : Breaking α} (h : s.current.nodes ++ s.pending ≠ [] ∨ s.complete = []) :
    s.finish = s.complete ++ [{ s.current with nodes := s.current.nodes ++ s.pending }] :=
  if_pos (h.imp (by simp [List.isEmpty_iff]) List.isEmpty_iff.2)

omit [Scalar α] in
theorem without_finish (hs : s.Kept spare) :
    s.finish.map (SystemPlan.without spare) = (s.without spare).finish := by
  have hnonempty : (s.current.without spare).nodes ++ (s.without spare).pending ≠ [] ∨
      s.complete = [] := by
    rw [or_iff_not_imp_right]
    intro hcomplete
    obtain ⟨h, hh, hkept⟩ := hs.current (hs.started hcomplete)
    exact List.ne_nil_of_mem (List.mem_append_left _ (List.mem_filter.2 ⟨hh, by simpa using hkept⟩))
  rw [finish_of (s := s) ?_, finish_of (s := s.without spare) ?_]
  · simp [without, SystemPlan.without]
  · exact hnonempty.imp_right fun h => by rw [without, h, List.map_nil]
  · refine hnonempty.imp_left fun h hnil => h ?_
    rw [List.append_eq_nil_iff] at hnil
    simp [SystemPlan.without, without, hnil]

end Breaking

variable {spare : Handle → Bool}

theorem without_joinWidow : (plans : List (SystemPlan α)) →
    (joinWidow plans).map (SystemPlan.without spare) =
      joinWidow (plans.map (SystemPlan.without spare))
  | [] => rfl
  | [p] => rfl
  | [p, last] => by
      rw [joinWidow, List.map_cons, List.map_singleton, joinWidow]
      show _ = if last.measures.length = 1 ∧ ¬ last.forced then _ else _
      split_ifs
      · simp [SystemPlan.without, SystemPlan.join]
      · rfl
  | p :: q :: t :: rest => by
      have ih := without_joinWidow (q :: t :: rest)
      simp only [joinWidow, List.map_cons] at ih ⊢
      rw [ih]

/-- The plans for items without those that are spare. -/
theorem planSystems_without (r : BreakRules α) {items : List (BreakItem α)}
    (hitems : OnlyOthersSpare spare items) :
    planSystems r (items.filter fun i => !spare i.handle) =
      (planSystems r items).map (SystemPlan.without spare) := by
  have hfold := Breaking.without_foldl r items hitems .start
  have hfinish := Breaking.without_finish (Breaking.Kept.foldl r items hitems Breaking.kept_start)
  rw [show (Breaking.start : Breaking α).without spare = .start from rfl] at hfold
  rw [planSystems, planSystems, ← hfold, ← hfinish]
  split_ifs
  · exact (without_joinWidow _).symm
  · rfl

/-- Every planned system keeps a node if there is a measure. -/
theorem exists_kept_of_mem_planSystems (r : BreakRules α) {items : List (BreakItem α)}
    (hitems : OnlyOthersSpare spare items) (hmeasure : ∃ i ∈ items, i.isMeasure) :
    ∀ p ∈ planSystems r items, ∃ h ∈ p.nodes, ¬ spare h := by
  have hkept := Breaking.Kept.foldl r items hitems Breaking.kept_start
  have hcurrent := Breaking.measures_foldl r items (s := .start) (.inr hmeasure)
  have hfinish : ∀ p ∈ (items.foldl (Breaking.step r) .start).finish,
      ∃ h ∈ p.nodes, ¬ spare h := by
    intro p hp
    rw [Breaking.finish] at hp
    dsimp only at hp
    split_ifs at hp
    · rcases List.mem_append.1 hp with hp | hp
      · exact hkept.complete p hp
      · rw [List.mem_singleton.1 hp]
        obtain ⟨h, hh, hs⟩ := hkept.current hcurrent
        exact ⟨h, List.mem_append_left _ hh, hs⟩
    · exact hkept.complete p hp
  have hjoin : (plans : List (SystemPlan α)) → (∀ p ∈ plans, ∃ h ∈ p.nodes, ¬ spare h) →
      ∀ p ∈ joinWidow plans, ∃ h ∈ p.nodes, ¬ spare h := by
    intro plans
    fun_induction joinWidow plans with
    | case1 => exact fun h => h
    | case2 => exact fun h => h
    | case3 p last hlone =>
      intro h q hq
      rw [List.mem_singleton.1 hq]
      obtain ⟨i, hi, hs⟩ := h p List.mem_cons_self
      exact ⟨i, List.mem_append_left _ hi, hs⟩
    | case4 => exact fun h => h
    | case5 p rest _ _ ih =>
      intro h q hq
      rcases List.mem_cons.1 hq with rfl | hq
      · exact h q List.mem_cons_self
      · exact ih (fun u hu => h u (List.mem_cons_of_mem _ hu)) q hq
  rw [planSystems]
  split_ifs
  · exact hjoin _ hfinish
  · exact hfinish

end ScoreLayout
