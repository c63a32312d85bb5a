import ScoreLayout.Proofs.Layout.ShuffledVoices

/-!
# Scores whose voices are in another order

In some measures of a score the staves, and the layers of the staves, may stand in another order. A
walk over such a score comes to the same times measure by measure: between measures it carries the
meter along and no trace of the order in which it has met the layers.

## Main definitions

* `Forest.Revoiced` — a score with the staves and layers of some measures in another order.
* `Forest.MeasuresAlike` — two scores whose measures have the same slots and times.

## Main results

* `Forest.Revoiced.links_perm`, `Forest.Revoiced.mapLinked` — links, and changes of labels.
* `AlignState.retold_score` — two walks over such scores.
-/

namespace ScoreLayout

variable {α : Type}

namespace Forest

/-- A score with the staves and layers of some measures in another order. In these measures no
symbol changes the meter. -/
inductive Revoiced : Forest (Node α) → Forest (Node α) → Prop
  | nil : Revoiced nil nil
  | cons (n : Node α) {below below' siblings siblings' : Forest (Node α)}
      (hbelow : Revoiced below below') (hsiblings : Revoiced siblings siblings') :
      Revoiced (cons n below siblings) (cons n below' siblings')
  | measure {n : Node α} {below below' siblings siblings' : Forest (Node α)} (hn : n.tag = .measure)
      (hplain : ∀ b ∈ below.toList, ∀ meter, b.kind ≠ .element (.meter meter))
      (hbelow : Shuffled 2 below below') (hsiblings : Revoiced siblings siblings') :
      Revoiced (cons n below siblings) (cons n below' siblings')

namespace Revoiced

variable {f g : Forest (Node α)}

theorem refl : (f : Forest (Node α)) → f.Revoiced f
  | .nil => .nil
  | .cons n below siblings => .cons n (refl below) (refl siblings)

theorem symm (h : f.Revoiced g) : g.Revoiced f := by
  induction h with
  | nil => exact .nil
  | cons n _ _ ihbelow ihsiblings => exact .cons n ihbelow ihsiblings
  | measure hn hplain hbelow _ ih =>
    exact .measure hn (fun b hb => hplain b (hbelow.toList_perm.mem_iff.1 hb)) hbelow.symm ih

theorem links_perm (h : f.Revoiced g) (above : Option (Node α)) :
    (g.links above).Perm (f.links above) := by
  induction h generalizing above with
  | nil => exact .nil
  | cons n _ _ ihbelow ihsiblings => exact ((ihbelow (some n)).append (ihsiblings above)).cons _
  | measure _ _ hbelow _ ih => exact ((hbelow.links_perm _).append (ih above)).cons _

theorem toList_perm (h : f.Revoiced g) : g.toList.Perm f.toList := by
  rw [← map_snd_links none f, ← map_snd_links none g]
  exact (h.links_perm none).map _

theorem roots_eq (h : f.Revoiced g) : g.roots = f.roots := by
  induction h with
  | nil => rfl
  | cons n _ _ _ ih => rw [roots, roots, ih]
  | measure _ _ _ _ ih => rw [roots, roots, ih]

/-- Where no measure stands, nothing is in another order. -/
theorem eq_of_tag_ne (h : f.Revoiced g) (hf : ∀ n ∈ f.toList, n.tag ≠ .measure) : g = f := by
  induction h with
  | nil => rfl
  | cons n _ _ ihbelow ihsiblings =>
    simp only [toList, List.mem_cons, List.mem_append, or_imp, forall_and] at hf
    rw [ihbelow hf.2.1, ihsiblings hf.2.2]
  | measure hn => exact absurd hn (hf _ List.mem_cons_self)

theorem append {f' g' : Forest (Node α)} (h : f.Revoiced g) (h' : f'.Revoiced g') :
    (f ++ f').Revoiced (g ++ g') := by
  induction h with
  | nil => exact h'
  | cons n hbelow _ _ ih => exact .cons n hbelow ih
  | measure hn hplain hbelow _ ih => exact .measure hn hplain hbelow ih

theorem branches (h : f.Revoiced g) (hf : ∀ n ∈ f.roots, n.tag ≠ .measure) :
    f.branches.Revoiced g.branches := by
  induction h with
  | nil => exact .nil
  | cons n hbelow _ _ ih =>
    rw [roots, List.forall_mem_cons] at hf
    exact hbelow.append (ih hf.2)
  | measure hn => exact absurd hn (hf _ List.mem_cons_self)

/-- Labels may change in view of what stands above them. -/
theorem mapLinked {u : Option (Node α) → Node α → Node α} (hu : ∀ a n, (u a n).tag = n.tag ∧
      ∀ e, (u a n).kind = .element e → n.kind = .element e)
    (h : f.Revoiced g) (above : Option (Node α)) :
    (f.mapLinked u above).Revoiced (g.mapLinked u above) := by
  induction h generalizing above with
  | nil => exact .nil
  | cons n _ _ ihbelow ihsiblings => exact .cons _ (ihbelow _) (ihsiblings above)
  | measure hn hplain hbelow _ ih =>
    refine .measure ((hu _ _).1.trans hn) (fun b hb meter hmeter => ?_) (hbelow.mapLinked u _)
      (ih above)
    rw [toList_mapLinked, List.mem_map] at hb
    obtain ⟨l, hl, rfl⟩ := hb
    exact hplain l.2 (mem_toList_of_mem_links hl) meter ((hu _ _).2 _ hmeter)

theorem map {u : Node α → Node α} (hu : ∀ n, (u n).tag = n.tag ∧
      ∀ e, (u n).kind = .element e → n.kind = .element e) (h : f.Revoiced g) :
    (f.map u).Revoiced (g.map u) := by
  rw [map_eq_mapLinked u none, map_eq_mapLinked u none]
  exact h.mapLinked (fun _ => hu) none

end Revoiced

/-- Two scores of which the second has all measures of the first, with the same slots and times. -/
def MeasuresAlike (f g : Forest (Node α)) : Prop :=
  ∀ n below, HasTree n below f → n.tag = .measure →
    ∃ n' below', HasTree n' below' g ∧ n.MeasureAlike n' below below'

namespace MeasuresAlike

variable {n n' : Node α} {below below' siblings siblings' : Forest (Node α)}

theorem cons (htree : (tree n below).MeasuresAlike (tree n' below'))
    (hsiblings : siblings.MeasuresAlike siblings') :
    (Forest.cons n below siblings).MeasuresAlike (.cons n' below' siblings') := by
  have hback {m : Node α} {under : Forest (Node α)} (h : HasTree m under (tree n' below')) :
      HasTree m under (.cons n' below' siblings') := h.append_left siblings'
  have hleft (h : ∃ m' under', HasTree m' under' (tree n' below') ∧ n.MeasureAlike m' below under') :
      ∃ m' under', HasTree m' under' (Forest.cons n' below' siblings') ∧
        n.MeasureAlike m' below under' := by
    obtain ⟨m', under', h, halike⟩ := h
    exact ⟨m', under', hback h, halike⟩
  intro m under h hm
  cases h with
  | here => exact hleft (htree _ _ (.here .nil) hm)
  | deeper _ h =>
    obtain ⟨m', under', h, halike⟩ := htree _ _ (.deeper .nil h) hm
    exact ⟨m', under', hback h, halike⟩
  | beside _ _ h =>
    obtain ⟨m', under', h, halike⟩ := hsiblings _ _ h hm
    exact ⟨m', under', .beside n' below' h, halike⟩

/-- A node that is no measure. -/
theorem deeper (hn : n.tag ≠ .measure) (h : below.MeasuresAlike below') :
    (tree n below).MeasuresAlike (tree n' below') := by
  intro m under hm ht
  cases hm with
  | here => exact absurd ht hn
  | deeper _ hm =>
    obtain ⟨m', under', hm', halike⟩ := h _ _ hm ht
    exact ⟨m', under', .deeper .nil hm', halike⟩
  | beside _ _ hm => cases hm

/-- A measure, which holds no other. -/
theorem measure (h : n.MeasureAlike n' below below')
    (hbelow : ∀ m ∈ below.toList, m.tag ≠ .measure) :
    (tree n below).MeasuresAlike (tree n' below') := by
  intro m under hm ht
  cases hm with
  | here => exact ⟨n', below', .here .nil, h⟩
  | deeper _ hm => exact absurd ht (hbelow m hm.mem)
  | beside _ _ hm => cases hm

end MeasuresAlike

end Forest

variable [Scalar α]

namespace AlignState

variable {c c' : AlignContext α} {s t s₁ t₁ s' t' : AlignState α} {n : Node α}
  {below siblings f f' : Forest (Node α)}

section

omit [Scalar α]

theorem Walkable.free_root (h : Walkable c s (.cons n below siblings)) :
    s.graceSlots.lookup n.handle = none :=
  h.free n.handle (List.mem_map_of_mem List.mem_cons_self)

theorem Walkable.deeper (h : Walkable c s (.cons n below siblings))
    (hfound : s₁.graceSlots = s.graceSlots) : Walkable c s₁ below where
  nested := h.nested.2.1
  ids := (Forest.nodup_of_cons h.ids).1
  handles := (Forest.nodup_of_cons h.handles).1
  under := h.under.deeper
  free i hi := hfound ▸ h.free i (Forest.mem_map_cons (.inl hi))

/-- What is found in a tree leaves those behind it alone. -/
theorem Walkable.beside (h : Walkable c s (.cons n below siblings))
    (hothers : ∀ i ∉ (Forest.tree n below).toList.map Node.handle,
      s₁.graceSlots.lookup i = s.graceSlots.lookup i) : Walkable c s₁ siblings where
  nested := h.nested.2.2
  ids := (Forest.nodup_of_cons h.ids).2
  handles := (Forest.nodup_of_cons h.handles).2
  under := h.under.beside
  free i hi := by
    rw [hothers i (not_mem_tree_of_mem h.handles hi)]
    exact h.free i (Forest.mem_map_cons (.inr hi))

theorem FindsAlike.cons
    (htree : FindsAlike ((Forest.tree n below).toList.map Node.handle) s t s₁ t₁)
    (hsiblings : FindsAlike (siblings.toList.map Node.handle) s₁ t₁ s' t') :
    FindsAlike ((Forest.cons n below siblings).toList.map Node.handle) s t s' t' where
  found i hi := by
    by_cases hin : i ∈ siblings.toList.map Node.handle
    · exact hsiblings.found i hin
    · rw [hsiblings.left i hin, hsiblings.right i hin]
      refine htree.found i ?_
      rw [Forest.toList, ← List.cons_append, List.map_append, List.mem_append] at hi
      rw [Forest.toList_tree]
      exact hi.resolve_right hin
  left i hi := (hsiblings.left i (not_mem_of_cons hi).2).trans (htree.left i (not_mem_of_cons hi).1)
  right i hi :=
    (hsiblings.right i (not_mem_of_cons hi).2).trans (htree.right i (not_mem_of_cons hi).1)

theorem FindsAlike.refl (s t : AlignState α) :
    FindsAlike ((Forest.nil : Forest (Node α)).toList.map Node.handle) s t s t where
  found _ hi := absurd hi List.not_mem_nil
  left _ _ := rfl
  right _ _ := rfl

/-- What walking below a node finds is what walking over the node finds. -/
theorem FindsAlike.deeper (hs : s₁.graceSlots = s.graceSlots) (ht : t₁.graceSlots = t.graceSlots)
    (h : FindsAlike (below.toList.map Node.handle) s₁ t₁ s' t')
    (hfree : s.graceSlots.lookup n.handle = none) (hfree' : t.graceSlots.lookup n.handle = none) :
    FindsAlike ((Forest.tree n below).toList.map Node.handle) s t s' t' := by
  rw [Forest.toList_tree, List.map_cons]
  refine ⟨fun i hi => ?_, fun i hi => ?_, fun i hi => ?_⟩
  · by_cases hin : i ∈ below.toList.map Node.handle
    · exact h.found i hin
    · obtain rfl := (List.mem_cons.1 hi).resolve_right hin
      rw [h.left _ hin, h.right _ hin, hs, ht, hfree, hfree']
  · exact hs ▸ h.left i (List.not_mem_of_not_mem_cons hi)
  · exact ht ▸ h.right i (List.not_mem_of_not_mem_cons hi)

end

/-- Two walks over scores: if the first comes to its end, the second does so, too, and to the same
times. -/
def Retells (s t : AlignState α) (f : Forest (Node α))
    (r r' : AlignState α × Forest (Node α) × Visit) : Prop :=
  r.2.2 ≠ .stop → r'.2.2 ≠ .stop ∧ Abreast r.1 r'.1 ∧
    FindsAlike (f.toList.map Node.handle) s t r.1 r'.1 ∧ r.2.1.MeasuresAlike r'.2.1

/-- A tree, and those behind it. -/
theorem Retells.cons {n₁ n₁' : Node α} {below' siblings' : Forest (Node α)}
    {above above' : Option (Node α)} {around around' : Forest (Node α) → Forest (Node α)}
    (hwalk : Walkable c s (.cons n below siblings)) (hwalk' : Walkable c' t (.cons n below' siblings'))
    (hhandles : (below'.toList.map Node.handle).Perm (below.toList.map Node.handle))
    (henter : (alignPass c).enter s above n = (s₁, n₁, .proceed))
    (henter' : (alignPass c').enter t above' n = (t₁, n₁', .proceed))
    (htree : ∀ r r' : AlignState α × Forest (Node α) × Visit,
      below.runWithin (alignPass c) (some n₁) (fun f => around (.cons n₁ f siblings)) s₁ = r →
      below'.runWithin (alignPass c') (some n₁') (fun f => around' (.cons n₁' f siblings')) t₁ = r' →
      r.2.2 ≠ .stop → ∀ l l', r.1.leave c n₁ r.2.1 = l → r'.1.leave c' n₁' r'.2.1 = l' →
        l.2.2.2 ≠ .stop → r'.2.2 ≠ .stop ∧ l'.2.2.2 ≠ .stop ∧ Abreast l.1 l'.1 ∧
          FindsAlike ((Forest.tree n below).toList.map Node.handle) s t l.1 l'.1 ∧
          (Forest.tree l.2.1 l.2.2.1).MeasuresAlike (.tree l'.2.1 l'.2.2.1))
    (hsiblings : ∀ (s t : AlignState α) (around around' : Forest (Node α) → Forest (Node α)),
      Abreast s t → Walkable c s siblings → Walkable c' t siblings' →
        Retells s t siblings (siblings.runWithin (alignPass c) above around s)
          (siblings'.runWithin (alignPass c') above' around' t)) :
    Retells s t (.cons n below siblings)
      ((Forest.cons n below siblings).runWithin (alignPass c) above around s)
      ((Forest.cons n below' siblings').runWithin (alignPass c') above' around' t) := by
  intro hgo
  obtain ⟨r, hr⟩ : ∃ r, below.runWithin (alignPass c) (some n₁)
    (fun f => around (.cons n₁ f siblings)) s₁ = r := ⟨_, rfl⟩
  obtain ⟨r', hr'⟩ : ∃ r, below'.runWithin (alignPass c') (some n₁')
    (fun f => around' (.cons n₁' f siblings')) t₁ = r := ⟨_, rfl⟩
  obtain ⟨l, hl⟩ : ∃ l, r.1.leave c n₁ r.2.1 = l := ⟨_, rfl⟩
  obtain ⟨l', hl'⟩ : ∃ l, r'.1.leave c' n₁' r'.2.1 = l := ⟨_, rfl⟩
  obtain ⟨hstop, hrun⟩ := Forest.runWithin_cons_of_proceed henter hr (l := l) hl
  obtain ⟨-, hrun'⟩ := Forest.runWithin_cons_of_proceed henter' hr' (l := l') hl'
  obtain ⟨hbelow, hleave⟩ := hstop hgo
  obtain ⟨q, hq, heq⟩ := hrun hbelow hleave
  obtain ⟨hbelow', hleave', hst, hfinds, halike⟩ := htree r r' hr hr' hbelow l l' hl hl' hleave
  obtain ⟨q', hq', heq'⟩ := hrun' hbelow' hleave'
  rw [heq] at hgo ⊢
  have hrest := hsiblings _ _ (fun f => around (.cons l.2.1 l.2.2.1 f))
    (fun f => around' (.cons l'.2.1 l'.2.2.1 f)) hst (hwalk.beside hfinds.left)
    (hwalk'.beside fun i hi => hfinds.right i fun hin => hi (by
      rw [Forest.toList_tree, List.map_cons] at hin ⊢
      exact (hhandles.cons n.handle).mem_iff.2 hin))
  rw [hq, hq'] at hrest
  obtain ⟨hgo', hst', hfinds', halike'⟩ := hrest hgo
  rw [heq']
  exact ⟨hgo', hst', hfinds.cons hfinds', halike.cons halike'⟩

omit [Scalar α] in
theorem outcome_of_none (h : s.fault = none) (v : Visit) : s.outcome v = v := by
  rw [outcome, h]
  rfl

/-- A measure, and the trees behind it. -/
theorem Retells.measure {below' siblings' : Forest (Node α)}
    {above above' : Option (Node α)} {around around' : Forest (Node α) → Forest (Node α)}
    (hst : s.Abreast t) (hlines : c'.linesOf = c.linesOf)
    (hwalk : Walkable c s (.cons n below siblings))
    (hwalk' : Walkable c' t (.cons n below' siblings')) (hn : n.tag = .measure)
    (hvoices : below.SameVoices below')
    (hhandles : (below'.toList.map Node.handle).Perm (below.toList.map Node.handle))
    (hsiblings : ∀ (s t : AlignState α) (around around' : Forest (Node α) → Forest (Node α)),
      Abreast s t → Walkable c s siblings → Walkable c' t siblings' →
        Retells s t siblings (siblings.runWithin (alignPass c) above around s)
          (siblings'.runWithin (alignPass c') above' around' t)) :
    Retells s t (.cons n below siblings)
      ((Forest.cons n below siblings).runWithin (alignPass c) above around s)
      ((Forest.cons n below' siblings').runWithin (alignPass c') above' around' t) := by
  obtain ⟨m, hm⟩ := NodeKind.exists_of_measure hn
  have henter {c : AlignContext α} {s : AlignState α} (hs : s.grids = [] ∧ s.fault = none)
      (above : Option (Node α)) : (alignPass c).enter s above n =
        ((s.enterMeasure n m).1, (s.enterMeasure n m).2, .proceed) ∧
        ∃ k, (s.enterMeasure n m).2 = { n with kind := .measure k } := by
    obtain ⟨hstands, -, -, -, hk⟩ := enterMeasure_spec hs n m
    refine ⟨?_, hk⟩
    dsimp only [alignPass]
    rw [enter, hm]
    dsimp only
    rw [outcome_of_none hstands.fault]
  obtain ⟨henter₁, k, hk⟩ := henter (c := c) hst.left above
  obtain ⟨henter₁', k', hk'⟩ := henter (c := c') hst.right above'
  refine .cons hwalk hwalk' hhandles henter₁ henter₁' (fun r r' hr hr' hgo l l' hl hl' _ => ?_)
    hsiblings
  obtain ⟨htakes, -⟩ := hwalk.nested
  obtain ⟨hgo', hst', hfinds, halike⟩ := retold_measure hst hlines (hwalk.deeper rfl)
    (hwalk'.deeper rfl) hm htakes hwalk'.nested.1 hvoices hhandles hr hr' hgo k k'
  have hclose {c : AlignContext α} {s₁ : AlignState α} {n₁ : Node α} {f : Forest (Node α)}
      {k : Measure α} (hn₁ : n₁ = { n with kind := .measure k })
      (hfault : (s₁.leaveMeasure c n₁ k f).1.fault = none) : s₁.leave c n₁ f =
        ((s₁.leaveMeasure c n₁ k f).1, (s₁.leaveMeasure c n₁ k f).2.1,
          (s₁.leaveMeasure c n₁ k f).2.2, .proceed) := by
    have hkind : n₁.kind = .measure k := congrArg Node.kind hn₁
    rw [leave, hkind]
    dsimp only
    rw [outcome_of_none hfault]
  rw [hclose hk hst'.left.2] at hl
  rw [hclose hk' hst'.right.2] at hl'
  subst hl hl'
  refine ⟨hgo', by simp, hst', hfinds.deeper rfl rfl hwalk.free_root hwalk'.free_root,
    .measure halike fun b hb => ?_⟩
  -- what is left in the measure is what has stood in it
  have hwalked := keeps_completes (Forest.completes_runWithin _ _ _ _ _ (hr ▸ hgo))
  have hleft := (keeps_leave c r.1 (s.enterMeasure n m).2 r.2.1).2
  rw [hr] at hwalked
  rw [hclose hk hst'.left.2] at hleft
  have hkeeps := hwalked.trans hleft fun _ _ _ => Keeps.trans
  obtain ⟨b₀, hb₀, hkept⟩ := exists_mem_of_forall₂ hkeeps.toList hb
  rw [hkept.tag]
  exact hwalk.nested.2.1.tag_ne_measure (fun b hb =>
    (tag_of_accepts_measure hn (htakes b hb)).imp_right fun h => .inr (.inl h)) b₀ hb₀

/-- A node above measures, or beside them, is entered and left with everything but the meter as it
was. -/
theorem exists_enter_of_outer (hn : IsOuter n) (hm : n.tag ≠ .measure) (hc : n.tag ≠ .control)
    (c : AlignContext α) (s : AlignState α) (above : Option (Node α)) :
    ∃ s₁, (alignPass c).enter s above n = (s₁, n, .proceed) ∧
      s₁.signatures.meter = n.meterAfter s.signatures.meter ∧ s₁.grids = s.grids ∧
      s₁.fault = s.fault ∧ s₁.graceSlots = s.graceSlots := by
  obtain ⟨s₁, n₁, v, henter⟩ : ∃ s₁ n₁ v, (alignPass c).enter s above n = (s₁, n₁, v) := ⟨_, _, _, rfl⟩
  obtain ⟨rfl, rfl, hmeter, -, hgrids, hfault⟩ := enter_of_outer hn hm hc henter
  exact ⟨s₁, henter, hmeter, hgrids, hfault, graceSlots_enter_of_outer hn hm hc henter⟩

/-- A node above measures, or beside them, and the trees behind it. -/
theorem Retells.outer {below' siblings' : Forest (Node α)}
    {above above' : Option (Node α)} {around around' : Forest (Node α) → Forest (Node α)}
    (hst : s.Abreast t) (hwalk : Walkable c s (.cons n below siblings))
    (hwalk' : Walkable c' t (.cons n below' siblings')) (hn : IsOuter n) (hm : n.tag ≠ .measure)
    (hc : n.tag ≠ .control)
    (hhandles : (below'.toList.map Node.handle).Perm (below.toList.map Node.handle))
    (hbelow : ∀ (s t : AlignState α) (around around' : Forest (Node α) → Forest (Node α)),
      Abreast s t → Walkable c s below → Walkable c' t below' →
        Retells s t below (below.runWithin (alignPass c) (some n) around s)
          (below'.runWithin (alignPass c') (some n) around' t))
    (hsiblings : ∀ (s t : AlignState α) (around around' : Forest (Node α) → Forest (Node α)),
      Abreast s t → Walkable c s siblings → Walkable c' t siblings' →
        Retells s t siblings (siblings.runWithin (alignPass c) above around s)
          (siblings'.runWithin (alignPass c') above' around' t)) :
    Retells s t (.cons n below siblings)
      ((Forest.cons n below siblings).runWithin (alignPass c) above around s)
      ((Forest.cons n below' siblings').runWithin (alignPass c') above' around' t) := by
  obtain ⟨s₁, henter, hmeter, hgrids, hfault, hfound⟩ := exists_enter_of_outer hn hm hc c s above
  obtain ⟨t₁, henter', hmeter', hgrids', hfault', hfound'⟩ :=
    exists_enter_of_outer hn hm hc c' t above'
  have hst₁ : s₁.Abreast t₁ := ⟨by rw [hmeter, hmeter', hst.meter],
    ⟨hgrids.trans hst.left.1, hfault.trans hst.left.2⟩,
    hgrids'.trans hst.right.1, hfault'.trans hst.right.2⟩
  refine .cons hwalk hwalk' hhandles henter henter' (fun r r' hr hr' hgo l l' hl hl' _ => ?_) hsiblings
  obtain ⟨hgo', hst', hfinds, halike⟩ := hr ▸ hr' ▸ hbelow s₁ t₁ _ _ hst₁ (hwalk.deeper hfound)
    (hwalk'.deeper hfound') (hr ▸ hgo)
  have hleave {c : AlignContext α} {r : AlignState α × Forest (Node α) × Visit} :
      r.1.leave c n r.2.1 = (r.1, n, r.2.1, .proceed) := by
    obtain ⟨-, hl, he⟩ := hn
    rw [Node.tag] at hl he hm
    rw [leave]
    cases hk : n.kind <;> first | rfl | simp [hk, NodeKind.tag] at hl he hm
  rw [hleave] at hl hl'
  subst hl hl'
  exact ⟨hgo', by simp, hst', hfinds.deeper hfound hfound' hwalk.free_root hwalk'.free_root,
    .deeper hm halike⟩

/-- Two walks over a score and one with the same voices, between measures. -/
theorem retold_score {f f' : Forest (Node α)} (h : f.Revoiced f')
    (hlines : c'.linesOf = c.linesOf) (hroots : ∀ n ∈ f.roots, IsOuter n) {s t : AlignState α}
    (hst : s.Abreast t)
    (hwalk : Walkable c s f) (hwalk' : Walkable c' t f') (above above' : Option (Node α))
    (around around' : Forest (Node α) → Forest (Node α)) :
    Retells s t f (f.runWithin (alignPass c) above around s)
      (f'.runWithin (alignPass c') above' around' t) := by
  induction h generalizing s t above above' around around' with
  | nil =>
    exact fun _ => ⟨by simp [Forest.runWithin], hst, .refl s t, fun _ _ h => by cases h⟩
  | @measure n below below' siblings siblings' hn hplain hbelow hsiblings ih =>
    rw [Forest.roots, List.forall_mem_cons] at hroots
    obtain ⟨htakes, hnested, -⟩ := hwalk.nested
    have hstaves : ∀ b ∈ below.roots, b.tag = .staff ∨ b.tag = .control := fun b hb =>
      tag_of_accepts_measure hn (htakes b hb)
    refine .measure hst hlines hwalk hwalk' hn (hbelow.sameVoices (fun b hb meter => ?_) fun b hb => ?_)
      (hbelow.toList_perm.map _) fun s t around around' hst hwalk hwalk' =>
        ih hroots.2 hst hwalk hwalk' above above' around around'
    · have htag := hnested.tag_of_mem (fun b hb => (hstaves b hb).imp_right fun h => .inr (.inl h)) b hb
      have hmeter := hplain b hb
      rw [Node.tag] at htag
      rw [Node.meterAfter]
      cases hk : b.kind with
      | element e =>
        cases e with
        | meter meter => exact absurd hk (hmeter meter)
        | _ => rfl
      | _ => simp [hk, NodeKind.tag] at htag ⊢
    · rcases hstaves b hb with ht | ht <;> rw [ht] <;> decide
  | @cons n below below' siblings siblings' hbelow hsiblings ihbelow ihsiblings =>
    rw [Forest.roots, List.forall_mem_cons] at hroots
    obtain ⟨htakes, hnested, -⟩ := hwalk.nested
    have hrest (s t : AlignState α) (around around' : Forest (Node α) → Forest (Node α))
        (hst : Abreast s t) (hwalk : Walkable c s siblings) (hwalk' : Walkable c' t siblings') :
        Retells s t siblings (siblings.runWithin (alignPass c) above around s)
          (siblings'.runWithin (alignPass c') above' around' t) :=
      ihsiblings hroots.2 hst hwalk hwalk' above above' around around'
    by_cases hm : n.tag = .measure
    · have hsame : below' = below := hbelow.eq_of_tag_ne (hnested.tag_ne_measure fun b hb =>
        (tag_of_accepts_measure hm (htakes b hb)).imp_right fun h => .inr (.inl h))
      subst hsame
      exact .measure hst hlines hwalk hwalk' hm (.refl _) (.refl _) hrest
    by_cases hc : n.tag = .control
    · obtain ⟨k, hk⟩ := Node.exists_control hc
      obtain rfl := eq_nil_of_control hk htakes
      obtain rfl := hbelow.eq_of_tag_ne fun m hm => absurd hm List.not_mem_nil
      have henter {c : AlignContext α} (s : AlignState α) (above : Option (Node α)) :
          (alignPass c).enter s above n = (s, n, .skipChildren) := by
        dsimp only [alignPass]
        rw [enter, hk]
      intro hgo
      rw [Forest.runWithin, henter] at hgo ⊢
      rw [Forest.runWithin, henter]
      dsimp only at hgo ⊢
      obtain ⟨hgo', hst', hfinds, halike⟩ := hrest s t _ _ hst (hwalk.beside fun _ _ => rfl)
        (hwalk'.beside fun _ _ => rfl) hgo
      exact ⟨hgo', hst', .cons ((FindsAlike.refl s t).deeper rfl rfl hwalk.free_root hwalk'.free_root) hfinds,
        .cons (.deeper hm fun _ _ h => by cases h) halike⟩
    · exact .outer hst hwalk hwalk' hroots.1 hm hc (hbelow.toList_perm.map _)
        (fun s t around around' hst hwalk hwalk' => ihbelow (isOuter_of_accepts hroots.1 hm htakes) hst
          hwalk hwalk' (some n) (some n) around around') hrest

end AlignState

end ScoreLayout
