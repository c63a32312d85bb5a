import ScoreLayout.Proofs.Layout.PageStarts

/-!
# Planned systems that fit

Where systems are broken by their widths, several measures are planned for one system only if there
is room for them. There is one exception: the rule for a lone last measure joins two systems without
asking for room.

## Main definitions

* `BreakRules.Whole` — a planned system with the items it is made of, and with room for them.
* `SystemPlan.Joined` — a planned system that a lone last measure has joined.

## Main results

* `exists_chunks_planSystems` — all planned systems are of the first kind, but for the last.
* `SystemsOf.whole_or_joined` — the same of the systems that the plans make.
-/

namespace ScoreLayout

variable {α : Type} [Scalar α]

/-- Several measures planned for one system have room in it. -/
def BreakRules.Fitting (r : BreakRules α) (p : SystemPlan α) : Prop :=
  2 ≤ p.measures.length → r.fits p.measuresWidth p.definitionWidth

/-- A planned system with the items it is made of, and with room for them. -/
structure BreakRules.Whole (r : BreakRules α) (p : SystemPlan α) (items : List (BreakItem α)) :
    Prop where
  made : ∃ withMeter, p.Of withMeter items
  fitting : r.Fitting p

/-- A planned system that a lone last measure has joined, with the items it is made of. -/
def SystemPlan.Joined (p : SystemPlan α) (items : List (BreakItem α)) : Prop :=
  ∃ a b : SystemPlan α, ∃ items₁ items₂, (∃ withMeter, a.Of withMeter items₁) ∧
    (∃ withMeter, b.Of withMeter items₂) ∧ a.measures ≠ [] ∧ b.measures.length = 1 ∧
      p = a.join b ∧ items = items₁ ++ items₂

theorem BreakRules.Whole.nodes {r : BreakRules α} {p : SystemPlan α} {items : List (BreakItem α)}
    (h : r.Whole p items) : p.nodes = items.map BreakItem.handle := by
  obtain ⟨_, hp⟩ := h.made
  exact hp.nodes

/-! ### The left-to-right pass -/

namespace Breaking

/-- Complete systems hold measures, and no system has been given more than it has room for. -/
structure KeepsRoom (r : BreakRules α) (s : Breaking α) : Prop where
  filled : ∀ p ∈ s.complete, p.measures ≠ []
  complete : ∀ p ∈ s.complete, r.Fitting p
  current : r.Fitting s.current

variable {r : BreakRules α}

theorem keepsRoom_start : (start : Breaking α).KeepsRoom r :=
  ⟨fun _ hp => absurd hp List.not_mem_nil, fun _ hp => absurd hp List.not_mem_nil,
    fun h => absurd h (by simp [start, SystemPlan.empty])⟩

theorem KeepsRoom.step (hr : r.byWidth) {s : Breaking α} (hs : s.KeepsRoom r) (i : BreakItem α) :
    (s.step r i).KeepsRoom r := by
  cases i with
  | systemBreak | pageBreak | other => exact ⟨hs.filled, hs.complete, hs.current⟩
  | measure h width opening =>
    rw [Breaking.step, breakBefore]
    split
    · rename_i hclosed
      refine ⟨fun p hp => ?_, fun p hp => ?_, fun hlength => ?_⟩
      · rcases List.mem_append.1 hp with hp | hp
        · exact hs.filled p hp
        · rw [List.mem_singleton.1 hp]
          simpa using hclosed.1
      · rcases List.mem_append.1 hp with hp | hp
        · exact hs.complete p hp
        · exact List.mem_singleton.1 hp ▸ hs.current
      · simp [place, SystemPlan.empty] at hlength
    · rename_i hkept
      refine ⟨hs.filled, hs.complete, fun hlength => ?_⟩
      rw [place] at hlength ⊢
      dsimp only at hlength ⊢
      have hmeasures : s.current.measures.isEmpty = false := by
        cases hm : s.current.measures with
        | nil => simp [hm] at hlength
        | cons => rfl
      rw [hmeasures]
      by_contra hfits
      refine hkept ⟨by simp [hmeasures], .inr ⟨hr, ?_⟩⟩
      simpa using hfits

theorem KeepsRoom.foldl (hr : r.byWidth) : (items : List (BreakItem α)) → {s : Breaking α} →
    s.KeepsRoom r → (items.foldl (Breaking.step r) s).KeepsRoom r
  | [], _, hs => hs
  | i :: items, _, hs => (hs.step hr i).foldl hr items

theorem KeepsRoom.finish {s : Breaking α} (hs : s.KeepsRoom r) :
    (∀ p ∈ s.finish, r.Fitting p) ∧ ∀ front last, s.finish = front ++ [last] →
      ∀ p ∈ front, p.measures ≠ [] := by
  rw [Breaking.finish]
  dsimp only
  split
  · refine ⟨fun p hp => ?_, fun front last heq p hp => ?_⟩
    · rcases List.mem_append.1 hp with hp | hp
      · exact hs.complete p hp
      · rw [List.mem_singleton.1 hp]
        exact hs.current
    · exact hs.filled p ((List.append_inj' heq rfl).1 ▸ hp)
  · exact ⟨hs.complete, fun front last heq p hp =>
      hs.filled p (heq ▸ List.mem_append_left _ hp)⟩

end Breaking

/-! ### A lone last measure -/

theorem joinWidow_cases (plans : List (SystemPlan α)) : joinWidow plans = plans ∨
    ∃ front p last, plans = front ++ [p, last] ∧ last.measures.length = 1 ∧
      joinWidow plans = front ++ [p.join last] := by
  obtain rfl | ⟨plans, last, rfl⟩ := List.eq_nil_or_concat plans
  · exact .inl rfl
  · obtain rfl | ⟨front, p, rfl⟩ := List.eq_nil_or_concat plans
    · exact .inl rfl
    · have heq : (front.concat p).concat last = front ++ [p, last] := by simp
      rw [heq, joinWidow_append, joinWidow]
      split
      · rename_i hlone
        exact .inr ⟨front, p, last, rfl, hlone.1, rfl⟩
      · exact .inl rfl

theorem PlansOf.forall₂ {withMeter : Bool} {plans : List (SystemPlan α)}
    {chunks : List (List (BreakItem α))} (h : PlansOf withMeter plans chunks) :
    List.Forall₂ (fun p items => ∃ withMeter, p.Of withMeter items) plans chunks := by
  induction h with
  | nil => exact .nil
  | cons plan _ ih => exact .cons ⟨_, plan⟩ ih

/-- Planned systems are made of all items in order and have room for their measures, but that the
last may be one that a lone last measure has joined. -/
theorem exists_chunks_planSystems {r : BreakRules α} (hr : r.byWidth) {items : List (BreakItem α)}
    (hitems : items ≠ []) : ∃ chunks, chunks.flatten = items ∧
      (∀ p ∈ planSystems r items, p.nodes ≠ []) ∧
      (List.Forall₂ r.Whole (planSystems r items) chunks ∨
        r.noWidow ∧ ∃ front p chunks' c, planSystems r items = front ++ [p] ∧
          chunks = chunks' ++ [c] ∧ List.Forall₂ r.Whole front chunks' ∧ p.Joined c) := by
  obtain ⟨chunks, hplans, hflatten, hne⟩ := Breaking.plansOf_finish r items
  obtain ⟨hfitting, hfilled⟩ := (Breaking.keepsRoom_start.foldl hr items).finish
  simp only [planSystems]
  generalize (items.foldl (Breaking.step r) .start).finish = plans at hplans hne hfitting hfilled ⊢
  have hwhole : List.Forall₂ r.Whole plans chunks := by
    refine ((List.forall₂_and_left _ _).2 ⟨hfitting, hplans.forall₂⟩).imp fun p c h => ?_
    exact ⟨h.2, h.1⟩
  split
  · rename_i hwidow
    obtain heq | ⟨front, p, last, rfl, hlone, heq⟩ := joinWidow_cases plans
    · rw [heq]
      exact ⟨chunks, hflatten, hne hitems, .inl hwhole⟩
    · obtain ⟨chunks', back, rfl, hfront, hback⟩ := exists_append_of_forall₂ hwhole
      cases hback with
      | @cons _ c _ _ hp hback =>
        cases hback with
        | @cons _ c' _ _ hlast hnil =>
          cases hnil
          have hp' : p.measures ≠ [] := hfilled (front ++ [p]) last (by simp) p (by simp)
          refine ⟨chunks' ++ [c ++ c'], by rw [← hflatten]; simp, ?_, .inr ⟨hwidow.1, front,
            p.join last, chunks', c ++ c', heq, rfl, hfront,
            ⟨p, last, c, c', hp.made, hlast.made, hp', hlone, rfl, rfl⟩⟩⟩
          rw [heq]
          intro q hq
          rcases List.mem_append.1 hq with hq | hq
          · exact hne hitems q (List.mem_append_left _ hq)
          · rw [List.mem_singleton.1 hq]
            exact fun hnil => hne hitems p (by simp) (List.append_eq_nil_iff.1 hnil).1
  · exact ⟨chunks, hflatten, hne hitems, .inl hwhole⟩

namespace SystemPlan.Joined

variable {p : SystemPlan α} {items : List (BreakItem α)}

theorem nodes (h : p.Joined items) : p.nodes = items.map BreakItem.handle := by
  obtain ⟨a, b, items₁, items₂, ⟨_, ha⟩, ⟨_, hb⟩, -, -, rfl, rfl⟩ := h
  rw [join, ha.nodes, hb.nodes, List.map_append]

theorem measures (h : p.Joined items) :
    p.measures = (items.filter BreakItem.isMeasure).map BreakItem.handle := by
  obtain ⟨a, b, items₁, items₂, ⟨_, ha⟩, ⟨_, hb⟩, -, -, rfl, rfl⟩ := h
  rw [join, ha.measures, hb.measures, List.filter_append, List.map_append]

theorem two_le (h : p.Joined items) : 2 ≤ p.measures.length := by
  obtain ⟨a, b, items₁, items₂, -, -, ha, hb, rfl, rfl⟩ := h
  have := List.length_pos_iff.2 ha
  rw [join, List.length_append, hb]
  omega

end SystemPlan.Joined

/-! ### The systems that plans make -/

omit [Scalar α] in
theorem forall₂_and {β γ : Type} {R S : β → γ → Prop} {l : List β} {l' : List γ}
    (h : List.Forall₂ R l l') (h' : List.Forall₂ S l l') :
    List.Forall₂ (fun a b => R a b ∧ S a b) l l' :=
  List.forall₂_iff_zip.2 ⟨h.length_eq, fun hmem =>
    ⟨(List.forall₂_iff_zip.1 h).2 hmem, (List.forall₂_iff_zip.1 h').2 hmem⟩⟩

omit [Scalar α] in
theorem forall₂_mem_right {β γ : Type} {R : β → γ → Prop} {l : List β} {l' : List γ}
    (h : List.Forall₂ R l l') : List.Forall₂ (fun a b => R a b ∧ b ∈ l') l l' :=
  List.forall₂_iff_zip.2 ⟨h.length_eq, fun hmem =>
    ⟨(List.forall₂_iff_zip.1 h).2 hmem, (List.of_mem_zip hmem).2⟩⟩

namespace SystemsOf

variable {rules : BreakRules α} {used : List String} {k : Nat} {plans : List (SystemPlan α)}
  {content systems : Forest (Node α)} {definition : ScoreDefinition} {metrics : GlyphMetrics α}
  {unit : α}

/-- What stands in a tree of the score, read as items. -/
def itemsOf (definition : ScoreDefinition) (metrics : GlyphMetrics α) (unit : α)
    (t : Node α × Forest (Node α)) : List (BreakItem α) :=
  t.2.roots.map (BreakItem.ofNode definition metrics unit)

/-- Each system is made by one plan and holds the items of that. -/
theorem map_itemsOf_trees (h : SystemsOf rules used k plans content systems)
    (hne : ∀ p ∈ plans, p.nodes ≠ []) {chunks : List (List (BreakItem α))}
    (hnodes : List.Forall₂ (fun p items => p.nodes = items.map BreakItem.handle) plans chunks)
    (hitems : chunks.flatten = content.roots.map (BreakItem.ofNode definition metrics unit)) :
    systems.trees.map (itemsOf definition metrics unit) = chunks ∧
      List.Forall₂ (fun p t => t.1.kind = SystemPlan.kind rules p) plans systems.trees := by
  induction h generalizing chunks with
  | nil =>
    cases hnodes
    exact ⟨rfl, .nil⟩
  | skip hnil => exact absurd hnil (hne _ List.mem_cons_self)
  | @cons used k p plans taken content systems i _ htaken _ ih =>
    cases hnodes with
    | @cons _ items _ chunks hp hrest =>
      rw [List.flatten_cons, Forest.roots_append, List.map_append] at hitems
      obtain ⟨rfl, hrest'⟩ := List.append_inj hitems (by
        rw [List.length_map, ← List.length_map BreakItem.handle, ← hp, ← htaken, List.length_map])
      obtain ⟨hmap, hkinds⟩ := ih (fun q hq => hne q (List.mem_cons_of_mem _ hq)) hrest hrest'
      refine ⟨?_, .cons rfl hkinds⟩
      rw [Forest.trees, List.map_cons, hmap]
      exact congrArg (· :: chunks) (BreakItem.map_ofNode_of_unplaced definition metrics unit
        (roots_placeRoots 0 taken))

/-- Where systems are broken by their widths, each has room for its measures, but that a lone last
measure may have joined the last one. -/
theorem whole_or_joined {items : List (BreakItem α)}
    (h : SystemsOf rules used k (planSystems rules items) content systems) (hr : rules.byWidth)
    (hitems : items = content.roots.map (BreakItem.ofNode definition metrics unit))
    (hne : items ≠ []) :
    List.Forall₂ (fun p t => t.1.kind = SystemPlan.kind rules p ∧
      (rules.Whole p (itemsOf definition metrics unit t) ∨
        p.Joined (itemsOf definition metrics unit t) ∧ rules.noWidow ∧
          systems.trees.getLast? = some t)) (planSystems rules items) systems.trees := by
  obtain ⟨chunks, hflatten, hfilled, hchunks⟩ := exists_chunks_planSystems hr hne
  generalize planSystems rules items = plans at h hfilled hchunks ⊢
  have hnodes : List.Forall₂ (fun p items => p.nodes = items.map BreakItem.handle) plans chunks := by
    obtain hwhole | ⟨-, front, p, chunks', c, rfl, rfl, hfront, hp⟩ := hchunks
    · exact hwhole.imp fun _ _ hp => hp.nodes
    · exact List.rel_append (hfront.imp fun _ _ hp => hp.nodes) (.cons hp.nodes .nil)
  obtain ⟨rfl, hkinds⟩ := h.map_itemsOf_trees hfilled hnodes (hflatten.trans hitems)
  obtain hwhole | ⟨hwidow, front, p, chunks', c, rfl, hmap, hfront, hp⟩ := hchunks
  · exact forall₂_and hkinds ((List.forall₂_map_right_iff.1 hwhole).imp fun _ _ => .inl)
  · obtain ⟨before, last, htrees, rfl, hlast⟩ := List.map_eq_append_iff.1 hmap
    obtain ⟨t, rfl, rfl⟩ := List.map_eq_singleton_iff.1 hlast
    rw [htrees] at hkinds ⊢
    refine forall₂_and hkinds (List.rel_append ?_ (.cons (.inr ⟨hp, hwidow, ?_⟩) .nil))
    · exact (List.forall₂_map_right_iff.1 hfront).imp fun _ _ => .inl
    · exact List.getLast?_concat

end SystemsOf

end ScoreLayout
