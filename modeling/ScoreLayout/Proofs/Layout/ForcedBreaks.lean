import ScoreLayout.Proofs.Layout.GreedyPlans

/-!
# Systems opened by page breaks

A page break makes the next measure open a system, in every mode that breaks at all. In smart mode
a later system break takes its place, and counts only if the system is full. A system that a written
break has opened keeps its measure also where a lone last measure is joined to the system before.

## Main definitions

* `BreakRules.Forces` — whether a page break among waiting items counts.
* `Breaking.Opened` — the pass has just opened a system at a written break.
* `CutAfter` — planned systems with a boundary at some place.

## Main results

* `Breaking.opened_foldl` — the pass opens a system where a page break counts.
* `cutAfter_planSystems` — the planned systems have a boundary there.
-/

namespace ScoreLayout

variable {α : Type} [Scalar α]

/-- Whether a page break among the items that wait for a measure counts. -/
def BreakRules.Forces (r : BreakRules α) (between : List (BreakItem α)) : Prop :=
  r.mode ≠ .unbroken ∧ ∃ before h after, between = before ++ .pageBreak h :: after ∧
    (r.mode = .smart → ∀ i, .systemBreak i ∉ after)

/-! ### Waiting items -/

namespace Breaking

variable {r : BreakRules α}

/-- Items that wait change nothing but what is pending, and whether a break is due. -/
theorem step_waiting (r : BreakRules α) (s : Breaking α) {i : BreakItem α}
    (hi : i.measure? = none) : (s.step r i).complete = s.complete ∧
      (s.step r i).current = s.current ∧ (s.step r i).pending = s.pending ++ [i.handle] := by
  cases i with
  | measure => cases hi
  | systemBreak => exact ⟨rfl, rfl, rfl⟩
  | pageBreak => exact ⟨rfl, rfl, rfl⟩
  | other => exact ⟨rfl, rfl, rfl⟩

theorem foldl_pending (r : BreakRules α) : {waiting : List (BreakItem α)} →
    (∀ i ∈ waiting, i.measure? = none) → (s : Breaking α) →
      (waiting.foldl (step r) s).complete = s.complete ∧
        (waiting.foldl (step r) s).current = s.current ∧
        (waiting.foldl (step r) s).pending = s.pending ++ waiting.map BreakItem.handle
  | [], _, s => ⟨rfl, rfl, by simp⟩
  | i :: waiting, hw, s => by
      rw [List.forall_mem_cons] at hw
      obtain ⟨hcomplete, hcurrent, hpending⟩ := s.step_waiting r hw.1
      obtain ⟨hcomplete', hcurrent', hpending'⟩ := foldl_pending r hw.2 (s.step r i)
      rw [List.foldl_cons, hcomplete', hcurrent', hpending', hcomplete, hcurrent, hpending]
      exact ⟨rfl, rfl, by simp⟩

/-- A break that is due stays due, except where a system break comes in smart mode. -/
theorem forced_foldl (hmode : r.mode ≠ .unbroken) : {waiting : List (BreakItem α)} →
    (∀ i ∈ waiting, i.measure? = none) → (r.mode = .smart → ∀ h, .systemBreak h ∉ waiting) →
      {s : Breaking α} → s.forced → (waiting.foldl (step r) s).forced
  | [], _, _, _, hs => hs
  | i :: waiting, hw, hsmart, s, hs => by
      rw [List.forall_mem_cons] at hw
      refine forced_foldl hmode hw.2 (fun hm h hin => hsmart hm h (List.mem_cons_of_mem i hin)) ?_
      cases i with
      | measure => cases hw.1
      | systemBreak h =>
        have hm : r.mode ≠ .smart := fun hm => hsmart hm h List.mem_cons_self
        rw [step, BreakRules.honoursBreak]
        cases hr : r.mode with
        | unbroken => exact absurd hr hmode
        | smart => exact absurd hr hm
        | auto | line | encoded => rfl
      | pageBreak h => simp [step, hmode]
      | other h => exact hs

/-- A page break that counts makes a break due. -/
theorem forced_of_forces {between : List (BreakItem α)} (hw : ∀ i ∈ between, i.measure? = none)
    (hf : r.Forces between) (s : Breaking α) : (between.foldl (step r) s).forced := by
  obtain ⟨hmode, before, h, after, rfl, hsmart⟩ := hf
  rw [List.foldl_append, List.foldl_cons]
  refine forced_foldl hmode (fun i hi => hw i ?_) hsmart ?_
  · exact List.mem_append_right _ (List.mem_cons_of_mem _ hi)
  · simp [step, hmode]

/-! ### An opened system -/

/-- The pass has come to a measure that opens a system at a written break: what is met before
stands in complete systems, and the rest waits for nothing. -/
structure Opened (s : Breaking α) (before current : List (BreakItem α)) : Prop where
  started : s.Started
  complete : s.complete.flatMap SystemPlan.nodes = before.map BreakItem.handle
  nonempty : s.complete ≠ []
  current : s.current.nodes = current.map BreakItem.handle
  forced : s.current.forced

/-- The state right after a measure. -/
theorem exists_place (r : BreakRules α) (s : Breaking α) (front : List (BreakItem α)) {i : BreakItem α}
    (hi : i.measure? ≠ none) : ∃ s' h width opening,
      (front ++ [i]).foldl (step r) s = place s' h width opening := by
  cases i with
  | measure h width opening =>
    exact ⟨_, h, width, opening, by rw [List.foldl_append, List.foldl_cons, List.foldl_nil, step]⟩
  | systemBreak | pageBreak | other => exact absurd rfl hi

/-- Where a page break counts, the next measure opens a system. -/
theorem opened_foldl (front : List (BreakItem α)) {between : List (BreakItem α)}
    {last next : BreakItem α}
    (hlast : last.measure? ≠ none) (hnext : next.measure? ≠ none)
    (hw : ∀ i ∈ between, i.measure? = none) (hf : r.Forces between) :
    Opened ((front ++ [last] ++ between ++ [next]).foldl (step r) start) (front ++ [last])
      (between ++ [next]) := by
  obtain ⟨s', h, width, opening, hs⟩ := exists_place r start front hlast
  have hplaced := placed_foldl r (front ++ [last]) start
  rw [List.foldl_append, List.foldl_append (l := front ++ [last])]
  rw [hs] at hplaced ⊢
  obtain ⟨hcomplete, hcurrent, hpending⟩ := foldl_pending r hw (s'.place h width opening)
  have hforced := forced_of_forces hw hf (s'.place h width opening)
  have hmeasures : ¬ (s'.place h width opening).current.measures.isEmpty := by simp [place]
  rw [placed] at hplaced
  generalize between.foldl (step r) (s'.place h width opening) = s at *
  cases next with
  | systemBreak | pageBreak | other => exact absurd rfl hnext
  | measure h' width' opening' =>
    rw [List.foldl_cons, List.foldl_nil, step, breakBefore,
      if_pos ⟨by rwa [hcurrent], .inl hforced⟩]
    refine ⟨started_place .., ?_, by simp [place], ?_, ?_⟩
    · simpa [place, hcomplete, hcurrent, placed, start, SystemPlan.empty] using hplaced
    · simp [place, hpending, SystemPlan.empty, BreakItem.handle]
    · simp [place, hforced, SystemPlan.empty]

/-- A plan keeps whether a written break has opened it. -/
theorem Started.forced_finish : (items : List (BreakItem α)) → {s : Breaking α} → s.Started →
    ∃ p rest, (items.foldl (Breaking.step r) s).finish = s.complete ++ p :: rest ∧
      s.current.nodes <+: p.nodes ∧ p.forced = s.current.forced
  | [], s, hs => by
      refine ⟨{ s.current with nodes := s.current.nodes ++ s.pending }, [], ?_,
        List.prefix_append _ _, rfl⟩
      rw [List.foldl_nil, finish]
      dsimp only
      rw [if_pos (.inl (by simp [hs.2]))]
  | i :: items, s, hs => by
      obtain ⟨p, rest, hplans, hnodes, hforced⟩ := forced_finish items (hs.step (r := r) i)
      rw [List.foldl_cons, hplans]
      cases i with
      | measure h width opening =>
        rw [Breaking.step, place] at hnodes hforced ⊢
        dsimp only at hnodes hforced ⊢
        rw [breakBefore] at hnodes hforced ⊢
        split
        · exact ⟨s.current, p :: rest, by simp, List.prefix_refl _, rfl⟩
        · rename_i hkept
          rw [if_neg hkept] at hnodes hforced
          rw [List.append_assoc] at hnodes
          exact ⟨p, rest, rfl, (List.prefix_append _ _).trans hnodes, hforced⟩
      | systemBreak => exact ⟨p, rest, rfl, hnodes, hforced⟩
      | pageBreak => exact ⟨p, rest, rfl, hnodes, hforced⟩
      | other => exact ⟨p, rest, rfl, hnodes, hforced⟩

end Breaking

/-! ### Boundaries between planned systems -/

/-- Planned systems with a boundary behind some nodes, after which a system begins with others. -/
def CutAfter (plans : List (SystemPlan α)) (before first : List Handle) : Prop :=
  ∃ front p back, plans = front ++ p :: back ∧ front.flatMap SystemPlan.nodes = before ∧
    first <+: p.nodes

theorem joinWidow_append (front : List (SystemPlan α)) {p q : SystemPlan α}
    (back : List (SystemPlan α)) :
    joinWidow (front ++ p :: q :: back) = front ++ joinWidow (p :: q :: back) := by
  induction front with
  | nil => rfl
  | cons f front ih =>
    rw [List.cons_append, List.cons_append, ← ih]
    cases front with
    | nil => rfl
    | cons g front =>
      rw [List.cons_append]
      cases front with
      | nil => rfl
      | cons => rfl

/-- A lone last measure is not joined to the system before if a written break has opened its own. -/
theorem cutAfter_joinWidow {front back : List (SystemPlan α)} {p : SystemPlan α} (hp : p.forced)
    {first : List Handle} (hfirst : first <+: p.nodes) :
    CutAfter (joinWidow (front ++ p :: back)) (front.flatMap SystemPlan.nodes) first := by
  cases back with
  | nil =>
    refine ⟨front, p, [], ?_, rfl, hfirst⟩
    obtain rfl | ⟨front, f, rfl⟩ := List.eq_nil_or_concat front
    · rfl
    · rw [List.concat_eq_append, List.append_assoc, List.singleton_append, joinWidow_append,
        joinWidow,
        if_neg fun h => h.2 hp]
  | cons q back =>
    rw [joinWidow_append]
    cases back with
    | nil =>
      rw [joinWidow]
      split
      · exact ⟨front, p.join q, [], rfl, rfl, hfirst.trans (List.prefix_append _ _)⟩
      · exact ⟨front, p, [q], rfl, rfl, hfirst⟩
    | cons t back => exact ⟨front, p, joinWidow (q :: t :: back), rfl, rfl, hfirst⟩

/-- Where a page break counts, the measure after it begins a system, together with what stands
before it. -/
theorem cutAfter_planSystems {r : BreakRules α} (front back : List (BreakItem α))
    {between : List (BreakItem α)} {last next : BreakItem α} (hlast : last.measure? ≠ none) (hnext : next.measure? ≠ none)
    (hw : ∀ i ∈ between, i.measure? = none) (hf : r.Forces between) :
    CutAfter (planSystems r (front ++ [last] ++ between ++ [next] ++ back))
      ((front ++ [last]).map BreakItem.handle) ((between ++ [next]).map BreakItem.handle) := by
  have hs := Breaking.opened_foldl front hlast hnext hw hf
  obtain ⟨p, rest, hplans, hnodes, hforced⟩ := Breaking.Started.forced_finish (r := r) back hs.started
  rw [← List.foldl_append] at hplans
  rw [hs.forced] at hforced
  rw [hs.current] at hnodes
  rw [planSystems, hplans, ← hs.complete]
  split
  · exact cutAfter_joinWidow hforced hnodes
  · exact ⟨_, p, rest, rfl, rfl, hnodes⟩

end ScoreLayout
