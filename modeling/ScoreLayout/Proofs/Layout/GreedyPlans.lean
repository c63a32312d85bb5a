import ScoreLayout.Proofs.Layout.SystemPlans

/-!
# Systems planned from left to right

The left-to-right pass closes a system in front of a measure and nowhere else. Whether it does is
read off the state that the measures before have left: the width of the current system, and whether
a break has been met since its last measure.

A planned system is described by the items it is made of: their nodes, the widths of the measures
among them, and what the first of these opens with.

## Main definitions

* `SystemPlan.Of`, `PlansOf` — planned systems with the items they are made of.
* `Breaking.Covers` — a state of the pass with the items met so far.
* `BreakRules.Opens` — whether a measure opens a system.

## Main results

* `plansOf_planSystems` — the planned systems are made of all items, in order.
* `Breaking.complete_foldl` — what happens between two measures.
* `Breaking.after_foldl` — the state that the pass has come to with a measure.
-/

namespace ScoreLayout

variable {α : Type}

namespace BreakItem

/-- The width of a measure, with that of the signatures of a system starting with it. -/
def measure? : BreakItem α → Option (α × (Bool → α))
  | measure _ width opening => some (width, opening)
  | _ => none

/-- Whether the item is a measure. -/
def isMeasure (i : BreakItem α) : Bool := i.measure?.isSome

theorem filter_isMeasure_eq_nil_iff {items : List (BreakItem α)} :
    items.filter isMeasure = [] ↔ items.filterMap measure? = [] := by
  simp [List.filter_eq_nil_iff, List.filterMap_eq_nil_iff, isMeasure]

/-- Whether the item is a written break. -/
def IsBreak : BreakItem α → Prop
  | systemBreak _ | pageBreak _ => True
  | measure .. | other _ => False

end BreakItem

variable [Scalar α]

/-- A planned system with the items it is made of. -/
structure SystemPlan.Of (withMeter : Bool) (p : SystemPlan α) (items : List (BreakItem α)) :
    Prop where
  nodes : p.nodes = items.map BreakItem.handle
  measures : p.measures = (items.filter BreakItem.isMeasure).map BreakItem.handle
  width : p.measuresWidth = Scalar.sum ((items.filterMap BreakItem.measure?).map Prod.fst)
  /-- The system begins with the signatures of its first measure. -/
  opening : ∀ m ∈ (items.filterMap BreakItem.measure?).head?, p.definitionWidth = m.2 withMeter

/-- Planned systems with the items that each is made of. The meter is shown in the first. -/
inductive PlansOf : (withMeter : Bool) → List (SystemPlan α) → List (List (BreakItem α)) → Prop
  | nil (withMeter : Bool) : PlansOf withMeter [] []
  | cons {withMeter : Bool} {p : SystemPlan α} {plans : List (SystemPlan α)}
      {items : List (BreakItem α)} {chunks : List (List (BreakItem α))} (plan : p.Of withMeter items)
      (rest : PlansOf false plans chunks) : PlansOf withMeter (p :: plans) (items :: chunks)

namespace PlansOf

theorem concat {withMeter : Bool} {plans : List (SystemPlan α)}
    {chunks : List (List (BreakItem α))} (h : PlansOf withMeter plans chunks) {p : SystemPlan α}
    {items : List (BreakItem α)} (hp : p.Of (if plans = [] then withMeter else false) items) :
    PlansOf withMeter (plans ++ [p]) (chunks ++ [items]) := by
  induction h with
  | nil => exact .cons hp (.nil false)
  | cons plan rest ih =>
    refine .cons plan (ih ?_)
    rw [if_neg (by simp)] at hp
    split <;> exact hp

end PlansOf

namespace SystemPlan.Of

variable {withMeter : Bool} {p : SystemPlan α} {items : List (BreakItem α)}

theorem empty (withMeter forced : Bool) : (SystemPlan.empty forced : SystemPlan α).Of withMeter [] :=
  ⟨rfl, rfl, rfl, fun _ hm => by simp at hm⟩

theorem measures_eq_nil_iff (h : p.Of withMeter items) :
    p.measures.isEmpty ↔ items.filterMap BreakItem.measure? = [] := by
  rw [List.isEmpty_iff, h.measures, List.map_eq_nil_iff, BreakItem.filter_isMeasure_eq_nil_iff]

/-- Items without a measure only add to the nodes. -/
theorem append_waiting (h : p.Of withMeter items) {waiting : List (BreakItem α)}
    (hw : waiting.filterMap BreakItem.measure? = []) :
    SystemPlan.Of withMeter { p with nodes := p.nodes ++ waiting.map BreakItem.handle }
      (items ++ waiting) := by
  have hitems : (items ++ waiting).filterMap BreakItem.measure? =
      items.filterMap BreakItem.measure? := by rw [List.filterMap_append, hw, List.append_nil]
  refine ⟨?_, ?_, ?_, ?_⟩
  · rw [List.map_append, h.nodes]
  · rw [List.filter_append, BreakItem.filter_isMeasure_eq_nil_iff.2 hw, List.append_nil]
    exact h.measures
  · rw [hitems]
    exact h.width
  · rw [hitems]
    exact h.opening

end SystemPlan.Of

namespace Breaking

/-- A state of the pass with the items met so far: those of complete systems, those of the current
one, and those that wait. -/
structure Covers (s : Breaking α) (chunks : List (List (BreakItem α)))
    (current waiting : List (BreakItem α)) : Prop where
  complete : PlansOf true s.complete chunks
  /-- Only a system with a measure is ever closed. -/
  filled : ∀ p ∈ s.complete, p.nodes ≠ []
  current : s.current.Of s.complete.isEmpty current
  pending : s.pending = waiting.map BreakItem.handle
  waiting : waiting.filterMap BreakItem.measure? = []

theorem covers_start : (start : Breaking α).Covers [] [] [] :=
  ⟨.nil true, fun _ hp => absurd hp List.not_mem_nil, .empty true false, rfl, rfl⟩

variable {r : BreakRules α} {s : Breaking α} {chunks : List (List (BreakItem α))}
  {current waiting : List (BreakItem α)}

/-- The current system is closed as it is. -/
theorem Covers.close (h : s.Covers chunks current waiting) (hs : ¬ s.current.measures.isEmpty) :
    ({ s with complete := s.complete ++ [s.current], current := .empty s.forced } :
      Breaking α).Covers (chunks ++ [current]) [] waiting := by
  have hnodes : s.current.nodes ≠ [] := by
    rw [h.current.nodes]
    intro hnil
    rw [List.map_eq_nil_iff] at hnil
    exact hs (h.current.measures_eq_nil_iff.2 (hnil ▸ rfl))
  refine ⟨h.complete.concat ?_, fun p hp => ?_, .empty _ _, h.pending, h.waiting⟩
  · convert h.current using 1
    cases s.complete <;> rfl
  · rcases List.mem_append.1 hp with hp | hp
    · exact h.filled p hp
    · exact List.mem_singleton.1 hp ▸ hnodes

theorem Covers.breakBefore (h : s.Covers chunks current waiting) (width : α) :
    (s.breakBefore r width).Covers chunks current waiting ∨
      (s.breakBefore r width).Covers (chunks ++ [current]) [] waiting := by
  rw [Breaking.breakBefore]
  split
  · rename_i hcond
    exact .inr (h.close hcond.1)
  · exact .inl h

theorem Covers.place (h : s.Covers chunks current waiting) (i : Handle) (width : α)
    (opening : Bool → α) :
    (s.place i width opening).Covers chunks (current ++ waiting ++ [.measure i width opening])
      [] := by
  have hitems : (current ++ waiting ++ [BreakItem.measure i width opening]).filterMap BreakItem.measure? =
      current.filterMap BreakItem.measure? ++ [(width, opening)] := by
    rw [List.filterMap_append, List.filterMap_append, h.waiting, List.append_nil]
    rfl
  refine ⟨h.complete, h.filled, ⟨?_, ?_, ?_, ?_⟩, rfl, rfl⟩
  · rw [List.map_append, List.map_append, ← h.current.nodes, ← h.pending]
    rfl
  · rw [List.filter_append, List.filter_append, BreakItem.filter_isMeasure_eq_nil_iff.2 h.waiting,
      List.append_nil, List.map_append, ← h.current.measures]
    rfl
  · rw [hitems, Breaking.place, List.map_append, Scalar.sum, List.foldl_append, ← Scalar.sum,
      ← h.current.width]
    rfl
  · rw [hitems, Breaking.place]
    by_cases hnil : current.filterMap BreakItem.measure? = []
    · rw [hnil, if_pos (h.current.measures_eq_nil_iff.2 hnil)]
      rintro m ⟨⟩
      rfl
    · obtain ⟨first, rest, hfirst⟩ := List.exists_cons_of_ne_nil hnil
      have hopening := h.current.opening
      rw [hfirst] at hopening ⊢
      rw [if_neg fun he => hnil (h.current.measures_eq_nil_iff.1 he)]
      exact hopening

/-- What is no measure waits for the next one. -/
theorem Covers.wait (h : s.Covers chunks current waiting) {i : BreakItem α}
    (hi : i.measure? = none) (forced : Bool) :
    ({ s with pending := s.pending ++ [i.handle], forced } : Breaking α).Covers chunks current
      (waiting ++ [i]) := by
  refine ⟨h.complete, h.filled, h.current, ?_, ?_⟩
  · rw [List.map_append, ← h.pending]
    rfl
  · rw [List.filterMap_append, h.waiting, List.filterMap_cons_none hi]
    rfl

theorem Covers.step (h : s.Covers chunks current waiting) (i : BreakItem α) :
    ∃ chunks' current' waiting', (s.step r i).Covers chunks' current' waiting' ∧
      chunks'.flatten ++ current' ++ waiting' = chunks.flatten ++ current ++ waiting ++ [i] := by
  cases i with
  | measure i width opening =>
    obtain h | h := h.breakBefore (r := r) width
    · exact ⟨_, _, _, h.place i width opening, by simp⟩
    · exact ⟨_, _, _, h.place i width opening, by simp⟩
  | systemBreak i => exact ⟨_, _, _, h.wait (i := .systemBreak i) rfl _, by simp⟩
  | pageBreak i => exact ⟨_, _, _, h.wait (i := .pageBreak i) rfl _, by simp⟩
  | other i => exact ⟨_, _, _, h.wait (i := .other i) rfl _, by simp⟩

theorem Covers.foldl : (items : List (BreakItem α)) → {s : Breaking α} →
    {chunks : List (List (BreakItem α))} → {current waiting : List (BreakItem α)} →
    s.Covers chunks current waiting →
      ∃ chunks' current' waiting', (items.foldl (Breaking.step r) s).Covers chunks' current' waiting' ∧
        chunks'.flatten ++ current' ++ waiting' = chunks.flatten ++ current ++ waiting ++ items
  | [], _, chunks, current, waiting, h => ⟨chunks, current, waiting, h, by simp⟩
  | i :: items, _, _, _, _, h => by
      obtain ⟨_, _, _, h', heq⟩ := h.step (r := r) i
      obtain ⟨chunks', current', waiting', hfold, heq'⟩ := Covers.foldl items h'
      exact ⟨chunks', current', waiting', hfold, by rw [heq', heq]; simp⟩

/-- At the end only a score without items leaves an empty system. -/
theorem Covers.finish (h : s.Covers chunks current waiting) :
    ∃ chunks', PlansOf true s.finish chunks' ∧
      chunks'.flatten = chunks.flatten ++ current ++ waiting ∧
      (chunks.flatten ++ current ++ waiting ≠ [] → ∀ p ∈ s.finish, p.nodes ≠ []) := by
  have hlast := h.current.append_waiting h.waiting
  rw [← h.pending] at hlast
  rw [Breaking.finish]
  dsimp only
  split
  · rename_i hkept
    refine ⟨chunks ++ [current ++ waiting], h.complete.concat ?_, by simp, fun hne p hp => ?_⟩
    · convert hlast using 1
      cases s.complete <;> rfl
    · rcases List.mem_append.1 hp with hp | hp
      · exact h.filled p hp
      · rw [List.mem_singleton.1 hp]
        intro hnil
        rcases hkept with hkept | hkept
        · exact hkept (List.isEmpty_iff.2 hnil)
        · have hcomplete := h.complete
          rw [List.isEmpty_iff.1 hkept] at hcomplete
          cases hcomplete
          rw [h.current.nodes, h.pending, ← List.map_append, List.map_eq_nil_iff] at hnil
          exact hne hnil
  · rename_i hnodes
    have hnil : s.current.nodes ++ s.pending = [] := by simpa using fun hne => hnodes (.inl hne)
    rw [h.current.nodes, h.pending, ← List.map_append, List.map_eq_nil_iff] at hnil
    exact ⟨chunks, h.complete, by rw [List.append_assoc, hnil, List.append_nil],
      fun _ => h.filled⟩

end Breaking

/-- Before a lone last measure is joined, the planned systems are made of all items in order. -/
theorem Breaking.plansOf_finish (r : BreakRules α) (items : List (BreakItem α)) :
    ∃ chunks, PlansOf true (items.foldl (Breaking.step r) .start).finish chunks ∧
      chunks.flatten = items ∧
      (items ≠ [] → ∀ p ∈ (items.foldl (Breaking.step r) .start).finish, p.nodes ≠ []) := by
  obtain ⟨_, _, _, hfold, heq⟩ :=
    Breaking.Covers.foldl (r := r) items (Breaking.covers_start (α := α))
  obtain ⟨chunks, hchunks, hflatten, hne⟩ := hfold.finish
  rw [heq] at hflatten hne
  exact ⟨chunks, hchunks, by simpa using hflatten, by simpa using hne⟩

/-- Without the rule for lone last measures, the planned systems are made of all items in order. -/
theorem plansOf_planSystems {r : BreakRules α} (hr : r.noWidow = false) (items : List (BreakItem α)) :
    ∃ chunks, PlansOf true (planSystems r items) chunks ∧ chunks.flatten = items ∧
      (items ≠ [] → ∀ p ∈ planSystems r items, p.nodes ≠ []) := by
  have hplans : planSystems r items = (items.foldl (Breaking.step r) .start).finish := by
    rw [planSystems, hr]
    rfl
  rw [hplans]
  exact Breaking.plansOf_finish r items

/-! ### From one measure to the next -/

/-- Whether a measure of some width opens a system, where the system before it is planned so far and
some items stand between its last measure and this one. -/
def BreakRules.Opens (r : BreakRules α) (p : SystemPlan α) (between : List (BreakItem α))
    (width : α) : Prop :=
  (r.mode ≠ .unbroken ∧ ∃ i ∈ between, i.IsBreak) ∨
    (r.byWidth ∧ ¬ r.fits (p.measuresWidth + width) p.definitionWidth)

namespace Breaking

variable {r : BreakRules α}

/-- Between two measures nothing changes but what waits, and whether a break has been met. -/
theorem foldl_of_waiting (hr : r.mode ≠ .smart) : {between : List (BreakItem α)} →
    between.filterMap BreakItem.measure? = [] → (s : Breaking α) →
    (s.forced → r.mode ≠ .unbroken) →
      (between.foldl (step r) s).complete = s.complete ∧
        (between.foldl (step r) s).current = s.current ∧
        ((between.foldl (step r) s).forced ↔
          s.forced ∨ r.mode ≠ .unbroken ∧ ∃ i ∈ between, i.IsBreak)
  | [], _, s, _ => ⟨rfl, rfl, by simp⟩
  | i :: between, hw, s, hs => by
      have hi : i.measure? = none := by
        by_contra hne
        obtain ⟨m, hm⟩ := Option.ne_none_iff_exists'.1 hne
        rw [List.filterMap_cons_some hm] at hw
        exact List.cons_ne_nil _ _ hw
      rw [List.filterMap_cons_none hi] at hw
      have hforced : ((s.step r i).forced ↔ s.forced ∨ r.mode ≠ .unbroken ∧ i.IsBreak) := by
        cases i with
        | measure => cases hi
        | systemBreak i =>
          rw [step, BreakRules.honoursBreak]
          cases hm : r.mode <;> simp_all [BreakItem.IsBreak]
        | pageBreak i => simp [step, BreakItem.IsBreak]
        | other i => simp [step, BreakItem.IsBreak]
      have hrest := foldl_of_waiting hr hw (s.step r i) fun h => by
        rcases hforced.1 h with h | h
        · exact hs h
        · exact h.1
      have hsame : (s.step r i).complete = s.complete ∧ (s.step r i).current = s.current := by
        cases i with
        | measure => cases hi
        | systemBreak => exact ⟨rfl, rfl⟩
        | pageBreak => exact ⟨rfl, rfl⟩
        | other => exact ⟨rfl, rfl⟩
      rw [List.foldl_cons, hrest.1, hrest.2.1, hrest.2.2, hforced, hsame.1, hsame.2]
      refine ⟨rfl, rfl, ?_⟩
      simp only [List.mem_cons, exists_eq_or_imp, and_or_left, or_assoc]

/-- The current system has a measure. -/
def Started (s : Breaking α) : Prop := s.current.measures ≠ [] ∧ s.current.nodes ≠ []

theorem started_place (s : Breaking α) (i : Handle) (width : α) (opening : Bool → α) :
    (s.place i width opening).Started := by
  simp [Started, place]

theorem Started.step {s : Breaking α} (hs : s.Started) (i : BreakItem α) :
    (s.step r i).Started := by
  cases i with
  | measure i width opening => exact started_place ..
  | systemBreak => exact hs
  | pageBreak => exact hs
  | other => exact hs

/-- A measure closes the current system exactly when it opens one. -/
theorem complete_foldl (hr : r.mode ≠ .smart) {s : Breaking α} (hs : s.Started)
    (hforced : s.forced = false) {between : List (BreakItem α)}
    (hw : between.filterMap BreakItem.measure? = []) (i : Handle) (width : α)
    (opening : Bool → α) :
    (r.Opens s.current between width →
        ((between ++ [BreakItem.measure i width opening]).foldl (step r) s).complete =
          s.complete ++ [s.current]) ∧
      (¬ r.Opens s.current between width →
        ((between ++ [BreakItem.measure i width opening]).foldl (step r) s).complete = s.complete) := by
  obtain ⟨hcomplete, hcurrent, hf⟩ := foldl_of_waiting hr hw s (by simp [hforced])
  rw [hforced] at hf
  have hmeasures : ¬ s.current.measures.isEmpty := by simpa using hs.1
  have hopens : r.Opens s.current between width ↔
      ((between.foldl (step r) s).forced ∨
        (r.byWidth ∧ ¬ r.fits (s.current.measuresWidth + width) s.current.definitionWidth)) := by
    rw [hf, BreakRules.Opens]
    simp
  rw [List.foldl_append, List.foldl_cons, List.foldl_nil]
  show (_ → (Breaking.breakBefore r _ width).complete = _) ∧
    (_ → (Breaking.breakBefore r _ width).complete = _)
  rw [breakBefore, hcurrent, hcomplete]
  constructor
  · intro h
    rw [if_pos ⟨hmeasures, hopens.1 h⟩]
  · intro h
    rw [if_neg fun hc => h (hopens.2 hc.2), hcomplete]

/-! ### Where the current system ends up -/

omit [Scalar α] in
/-- The current system grows into one of the plans, behind those that are complete. -/
def EndsIn (s : Breaking α) (plans : List (SystemPlan α)) : Prop :=
  ∃ p rest, plans = s.complete ++ p :: rest ∧ s.current.nodes <+: p.nodes ∧
    p.definitionWidth = s.current.definitionWidth

theorem EndsIn.of_step {s : Breaking α} (hs : s.Started) {i : BreakItem α}
    {plans : List (SystemPlan α)} (h : (s.step r i).EndsIn plans) : s.EndsIn plans := by
  cases i with
  | measure i width opening =>
    obtain ⟨p, rest, hplans, hnodes, hdefinition⟩ := h
    rw [step, place] at hplans hnodes hdefinition
    dsimp only at hplans hnodes hdefinition
    rw [breakBefore] at hplans hnodes hdefinition
    split at hplans
    · exact ⟨s.current, p :: rest, by simpa using hplans, List.prefix_refl _, rfl⟩
    · rename_i hkept
      rw [if_neg hkept] at hnodes hdefinition
      refine ⟨p, rest, hplans, ?_, ?_⟩
      · rw [List.append_assoc] at hnodes
        exact (List.prefix_append _ _).trans hnodes
      · rw [hdefinition, if_neg (by simpa using hs.1)]
  | systemBreak => exact h
  | pageBreak => exact h
  | other => exact h

theorem Started.endsIn_finish : {items : List (BreakItem α)} → {s : Breaking α} → s.Started →
    s.EndsIn (items.foldl (Breaking.step r) s).finish
  | [], s, hs => by
      refine ⟨{ s.current with nodes := s.current.nodes ++ s.pending }, [], ?_,
        List.prefix_append _ _, rfl⟩
      rw [List.foldl_nil, finish]
      dsimp only
      rw [if_pos (.inl (by simp [hs.2]))]
  | i :: items, s, hs => (hs.step i).endsIn_finish.of_step hs

/-- The state that the pass has come to with a measure. -/
structure After (r : BreakRules α) (front back : List (BreakItem α)) (s : Breaking α) : Prop where
  started : s.Started
  calm : s.forced = false
  endsIn : s.EndsIn (planSystems r (front ++ back))
  /-- All items met so far are placed. -/
  placed : s.complete.flatMap SystemPlan.nodes ++ s.current.nodes = front.map BreakItem.handle
  /-- The current system has the items behind those of the complete ones. -/
  width : s.current.measuresWidth =
    Scalar.sum (((front.drop (s.complete.flatMap SystemPlan.nodes).length).filterMap
      BreakItem.measure?).map Prod.fst)

theorem after_foldl (hr : r.noWidow = false) (front back : List (BreakItem α)) (i : Handle)
    (width : α) (opening : Bool → α) :
    After r (front ++ [BreakItem.measure i width opening]) back
      ((front ++ [BreakItem.measure i width opening]).foldl (step r) start) := by
  obtain ⟨s, hs⟩ : ∃ s, s = (front ++ [BreakItem.measure i width opening]).foldl (step r) start := ⟨_, rfl⟩
  have hplaced : s = ((front.foldl (step r) start).breakBefore r width).place i width opening := by
    rw [hs, List.foldl_append]
    rfl
  have hstarted : s.Started := hplaced ▸ started_place ..
  have hpending : s.pending = [] := by
    rw [hplaced]
    rfl
  have hplans : planSystems r (front ++ [BreakItem.measure i width opening] ++ back) =
      (back.foldl (step r) s).finish := by
    rw [planSystems, hr, hs, ← List.foldl_append]
    rfl
  have hmet : s.placed = (front ++ [BreakItem.measure i width opening]).map BreakItem.handle :=
    hs ▸ placed_foldl r (front ++ [BreakItem.measure i width opening]) start
  rw [placed, hpending, List.append_nil] at hmet
  obtain ⟨chunks, current, waiting, hcovers, hcovered⟩ :=
    Covers.foldl (r := r) (front ++ [BreakItem.measure i width opening]) (covers_start (α := α))
  rw [← hs] at hcovers ⊢
  obtain rfl : waiting = [] := by simpa [hcovers.pending] using hpending
  have hcovered : chunks.flatten ++ current = front ++ [BreakItem.measure i width opening] := by
    simpa using hcovered
  have hlength : chunks.flatten.length = (s.complete.flatMap SystemPlan.nodes).length := by
    have hcurrent := congrArg List.length hcovers.current.nodes
    have hall := congrArg List.length hmet
    rw [← hcovered, List.map_append, List.length_append, List.length_append, List.length_map,
      List.length_map] at hall
    rw [List.length_map] at hcurrent
    omega
  refine ⟨hstarted, ?_, hplans ▸ hstarted.endsIn_finish, hmet, ?_⟩
  · rw [hplaced]
    rfl
  · rw [hcovers.current.width, ← hcovered, ← hlength, List.drop_left]

end Breaking

end ScoreLayout
