import ScoreLayout.Proofs.Layout.Anchoring
import ScoreLayout.Proofs.Layout.MeasureEnds

/-!
# Measures whose voices are in another order

The staves of a measure and the layers of its staves stand in some order, and a walk comes to them in
this order. Where the meter is the same at all of them, another order gives the same layers under the
same meter. So the walk asks the time grid for the same, and leaves the same times on the symbols.

## Main definitions

* `Forest.Reordered` — the trees of a forest in another order, with other forests below them.
* `Forest.Shuffled` — the trees of some levels in another order.
* `Forest.SameVoices` — two forests with the same layers, each under the same meter.
* `AlignState.Abreast` — two states of the walk between measures.

## Main results

* `Forest.Shuffled.links_perm`, `Forest.Shuffled.mapLinked` — the same links, and such forests with
  their labels changed.
* `Forest.Shuffled.sameVoices` — staves and layers in another order.
* `AlignState.retold_measure` — two walks over a measure.
-/

namespace ScoreLayout

namespace Forest

variable {β γ δ : Type}

/-- The trees of a forest in another order, with other forests below them. -/
def Reordered (R : Forest β → Forest β → Prop) (f g : Forest β) : Prop :=
  ∃ l, List.Forall₂ (fun t t' => t'.1 = t.1 ∧ R t.2 t'.2) f.trees l ∧ l.Perm g.trees

/-- The trees of some levels of a forest in another order. -/
def Shuffled : (levels : Nat) → Forest β → Forest β → Prop
  | 0 => fun f g => g = f
  | levels + 1 => Reordered (Shuffled levels)

theorem links_eq_trees (above : Option β) (f : Forest β) :
    f.links above = f.trees.flatMap fun t => (above, t.1) :: t.2.links (some t.1) := by
  induction f with
  | nil => rfl
  | cons b below siblings _ hs => rw [links, trees, List.flatMap_cons, hs, List.cons_append]

theorem trees_mapLinked (u : Option β → β → γ) (above : Option β) (f : Forest β) :
    (f.mapLinked u above).trees =
      f.trees.map fun t => (u above t.1, t.2.mapLinked u (some t.1)) := by
  induction f with
  | nil => rfl
  | cons b below siblings _ hs => rw [mapLinked, trees, trees, List.map_cons, hs]

/-- What stands above the roots matters only as far as they look at it. -/
theorem mapLinked_above_congr {u : Option β → β → γ} {above above' : Option β} {f : Forest β}
    (h : ∀ b ∈ f.roots, u above' b = u above b) : f.mapLinked u above' = f.mapLinked u above := by
  induction f with
  | nil => rfl
  | cons b below siblings _ hs =>
    rw [roots, List.forall_mem_cons] at h
    rw [mapLinked, mapLinked, h.1, hs h.2]

theorem map_eq_mapLinked (u : β → γ) (above : Option β) (f : Forest β) :
    f.map u = f.mapLinked (fun _ => u) above := by
  induction f generalizing above with
  | nil => rfl
  | cons b below siblings hc hs => rw [map, mapLinked, hc, hs]

namespace Reordered

variable {R : Forest β → Forest β → Prop} {f g : Forest β}

theorem refl (hR : ∀ f, R f f) (f : Forest β) : Reordered R f f :=
  ⟨f.trees, List.forall₂_same.2 fun t _ => ⟨rfl, hR t.2⟩, .refl _⟩

theorem symm (h : Reordered R f g) (hR : ∀ f g, R f g → R g f) : Reordered R g f := by
  obtain ⟨l, hl, hperm⟩ := h
  obtain ⟨l', hl', hperm'⟩ := List.perm_comp_forall₂ hperm.symm hl.flip
  exact ⟨l', hl'.imp fun _ _ h => ⟨h.1.symm, hR _ _ h.2⟩, hperm'⟩

theorem roots_perm (h : Reordered R f g) : g.roots.Perm f.roots := by
  obtain ⟨l, hl, hperm⟩ := h
  rw [← map_fst_trees, ← map_fst_trees, map_eq_of_forall₂ (v := Prod.fst) (fun _ _ h => h.1.symm) hl]
  exact hperm.symm.map _

/-- What is collected from trees in another order. -/
theorem flatMap_perm (h : Reordered R f g) {u : β × Forest β → List δ}
    (hu : ∀ t ∈ f.trees, ∀ below, R t.2 below → (u (t.1, below)).Perm (u t)) :
    (g.trees.flatMap u).Perm (f.trees.flatMap u) := by
  obtain ⟨l, hl, hperm⟩ := h
  refine (hperm.symm.flatMap_right u).trans ?_
  clear hperm
  generalize f.trees = trees at hl hu
  induction hl with
  | nil => exact .nil
  | @cons t t' ts ts' ht _ ih =>
    obtain ⟨b, below⟩ := t'
    obtain ⟨rfl, hbelow⟩ : b = t.1 ∧ R t.2 below := ht
    rw [List.flatMap_cons, List.flatMap_cons]
    exact (hu t List.mem_cons_self below hbelow).append
      (ih fun s hs => hu s (List.mem_cons_of_mem t hs))

theorem mapLinked {S : Forest γ → Forest γ → Prop} (h : Reordered R f g) {u : Option β → β → γ}
    (hR : ∀ f g, R f g → ∀ a, S (f.mapLinked u a) (g.mapLinked u a)) (above : Option β) :
    Reordered S (f.mapLinked u above) (g.mapLinked u above) := by
  obtain ⟨l, hl, hperm⟩ := h
  refine ⟨l.map fun t => (u above t.1, t.2.mapLinked u (some t.1)), ?_, ?_⟩
  · rw [trees_mapLinked, List.forall₂_map_left_iff, List.forall₂_map_right_iff]
    exact hl.imp fun t t' ht => ⟨congrArg (u above) ht.1, ht.1 ▸ hR _ _ ht.2 _⟩
  · rw [trees_mapLinked]
    exact hperm.map _

end Reordered

namespace Shuffled

variable {f g : Forest β}

theorem refl : (levels : Nat) → (f : Forest β) → Shuffled levels f f
  | 0, _ => rfl
  | levels + 1, f => Reordered.refl (Shuffled.refl levels) f

theorem symm : {levels : Nat} → {f g : Forest β} → Shuffled levels f g → Shuffled levels g f
  | 0, _, _, h => Eq.symm h
  | _ + 1, _, _, h => Reordered.symm h fun _ _ => Shuffled.symm

/-- Forests in another order have the same links. -/
theorem links_perm : {levels : Nat} → {f g : Forest β} → Shuffled levels f g → (above : Option β) →
    (g.links above).Perm (f.links above)
  | 0, _, _, h, _ => h ▸ .refl _
  | _ + 1, f, g, h, above => by
      rw [links_eq_trees, links_eq_trees]
      exact Reordered.flatMap_perm h fun t _ below hbelow => (links_perm hbelow (some t.1)).cons _

theorem toList_perm {levels : Nat} (h : Shuffled levels f g) : g.toList.Perm f.toList := by
  rw [← map_snd_links none f, ← map_snd_links none g]
  exact (h.links_perm none).map _

theorem mapLinked (u : Option β → β → γ) : {levels : Nat} → {f g : Forest β} →
    Shuffled levels f g → (above : Option β) →
    Shuffled levels (f.mapLinked u above) (g.mapLinked u above)
  | 0, _, _, h, _ => h ▸ rfl
  | _ + 1, _, _, h, above => Reordered.mapLinked h (fun _ _ => mapLinked u) above

end Shuffled

end Forest

variable {α : Type}

namespace Forest

/-- No label of the forest changes the meter. -/
def Unmetered (f : Forest (Node α)) : Prop :=
  ∀ n ∈ f.toList, ∀ meter, n.meterAfter meter = meter

variable {f g : Forest (Node α)}

theorem Unmetered.of_mem_trees (hf : f.Unmetered) {t : Node α × Forest (Node α)}
    (ht : t ∈ f.trees) : (tree t.1 t.2).Unmetered := fun n hn => by
  rw [toList_tree, List.mem_cons] at hn
  have htree := hasTree_of_mem_trees ht
  rcases hn with hn | hn
  · exact hf n (hn ▸ htree.mem)
  · exact hf n (htree.mem_of_mem hn)

theorem Unmetered.runningMeter (hf : f.Unmetered) (meter : MeterSig) :
    ScoreLayout.runningMeter meter f.toList = meter := by
  rw [Unmetered] at hf
  generalize f.toList = l at hf
  induction l with
  | nil => rfl
  | cons n l ih =>
    rw [List.forall_mem_cons] at hf
    rw [runningMeter_cons, hf.1, ih hf.2]

/-- What is collected tree by tree where the meter does not change. -/
theorem Unmetered.eq_flatMap {δ : Type} (hf : f.Unmetered) {u : MeterSig → Forest (Node α) → List δ}
    (hnil : ∀ meter, u meter .nil = []) (hcons : ∀ meter n below siblings,
      u meter (cons n below siblings) = u meter (tree n below) ++
        u (ScoreLayout.runningMeter meter (tree n below).toList) siblings) (meter : MeterSig) :
    u meter f = f.trees.flatMap fun t => u meter (tree t.1 t.2) := by
  induction f with
  | nil => exact hnil meter
  | cons n below siblings _ ih =>
    rw [hcons, (hf.of_mem_trees (t := (n, below)) List.mem_cons_self).runningMeter meter,
      ih fun m hm => hf m (List.mem_cons_of_mem n (List.mem_append_right _ hm)), trees,
      List.flatMap_cons]

/-- What is collected tree by tree, with staves and layers in another order. -/
theorem Shuffled.perm_of_flatMap {δ : Type} {u : UInt32 → MeterSig → Forest (Node α) → List δ}
    (hnil : ∀ staff meter, u staff meter .nil = []) (hcons : ∀ staff meter n below siblings,
      u staff meter (cons n below siblings) = u staff meter (tree n below) ++
        u staff (ScoreLayout.runningMeter meter (tree n below).toList) siblings)
    (hdeeper : ∀ staff meter n below below', n.tag ≠ .layer →
      (∀ meter, n.meterAfter meter = meter) →
      (∀ staff, (u staff meter below').Perm (u staff meter below)) →
        (u staff meter (tree n below')).Perm (u staff meter (tree n below)))
    (h : Shuffled 2 f g) (hf : f.Unmetered) (hroots : ∀ n ∈ f.roots, n.tag ≠ .layer)
    (staff : UInt32) (meter : MeterSig) : (u staff meter g).Perm (u staff meter f) := by
  have hperm {levels : Nat} {f g : Forest (Node α)} (h : Shuffled (levels + 1) f g)
      (hf : f.Unmetered) (staff : UInt32) (hstep : ∀ t ∈ f.trees, ∀ below, Shuffled levels t.2 below →
        (u staff meter (tree t.1 below)).Perm (u staff meter (tree t.1 t.2))) :
      (u staff meter g).Perm (u staff meter f) := by
    have hg : g.Unmetered := fun n hn => hf n ((toList_perm h).mem_iff.1 hn)
    rw [hf.eq_flatMap (hnil staff) (hcons staff), hg.eq_flatMap (hnil staff) (hcons staff)]
    exact Reordered.flatMap_perm h hstep
  refine hperm h hf staff fun t ht below hbelow => ?_
  have htree := hf.of_mem_trees ht
  have hroot : t.1 ∈ (tree t.1 t.2).toList := List.mem_cons_self
  refine hdeeper staff meter t.1 t.2 below (hroots _ ?_) (htree _ hroot) fun staff =>
    hperm hbelow (fun n hn => ?_) staff ?_
  · exact map_fst_trees f ▸ List.mem_map_of_mem ht
  · exact htree n (by rw [tree, toList]; exact List.mem_cons_of_mem _ (List.mem_append_left _ hn))
  · intro t' _ below' (h : below' = t'.2)
    rw [h]

variable [Scalar α]

/-- Two forests with the same layers, each under the same meter. -/
structure SameVoices (f g : Forest (Node α)) : Prop where
  meter : ∀ meter, runningMeter meter g.toList = runningMeter meter f.toList
  voices : ∀ staff meter, (g.voices staff meter).Perm (f.voices staff meter)
  spoken : ∀ c staff meter, (g.spoken c staff meter).Perm (f.spoken c staff meter)

theorem SameVoices.refl (f : Forest (Node α)) : f.SameVoices f :=
  ⟨fun _ => rfl, fun _ _ => .refl _, fun _ _ _ => .refl _⟩

/-- Staves and layers in another order have the same voices, where the meter does not change. -/
theorem Shuffled.sameVoices (h : Shuffled 2 f g) (hf : f.Unmetered)
    (hroots : ∀ n ∈ f.roots, n.tag ≠ .layer) : f.SameVoices g where
  meter meter := by
    have hg : g.Unmetered := fun n hn => hf n (h.toList_perm.mem_iff.1 hn)
    rw [hf.runningMeter, hg.runningMeter]
  voices := by
    refine Shuffled.perm_of_flatMap (u := voices) (fun _ _ => rfl) voices_cons
      (fun staff meter n below below' hn hplain hperm => ?_) h hf hroots
    rw [voices_of_passed hn (hplain meter), voices_of_passed hn (hplain meter)]
    exact hperm _
  spoken c := by
    refine Shuffled.perm_of_flatMap (u := spoken c) (fun _ _ => rfl) (spoken_cons c)
      (fun staff meter n below below' hn hplain hperm => ?_) h hf hroots
    rw [spoken_of_passed c hn (hplain meter), spoken_of_passed c hn (hplain meter)]
    exact (hperm _).cons n

end Forest

variable [Scalar α]

namespace AlignState

/-- Two states between measures, under one meter. -/
structure Abreast (s t : AlignState α) : Prop where
  meter : t.signatures.meter = s.signatures.meter
  left : s.grids = [] ∧ s.fault = none
  right : t.grids = [] ∧ t.fault = none

/-- What two walks find for grace notes among nodes of some handles. -/
structure FindsAlike (handles : List Handle) (s t s' t' : AlignState α) : Prop where
  found : ∀ h ∈ handles, t'.graceSlots.lookup h = s'.graceSlots.lookup h
  left : ∀ h ∉ handles, s'.graceSlots.lookup h = s.graceSlots.lookup h
  right : ∀ h ∉ handles, t'.graceSlots.lookup h = t.graceSlots.lookup h

/-- The highest end does not depend on the order of the ends. -/
theorem raise_perm {ends ends' : List ℚ} (h : ends'.Perm ends) (lasts : List ℚ) :
    raise ends' lasts = raise ends lasts := by
  cases lasts with
  | nil => rfl
  | cons last outer => rw [raise, raise, h.foldl_eq]

variable {c c' : AlignContext α} {staff : UInt32} {s t : AlignState α}
  {below below' : Forest (Node α)}

/-- The times at which two measures with the same layers end, and the slots drawn in them. -/
theorem Voiced.matches {s' t' : AlignState α} {f f' : Forest (Node α)} {b : MeasureGrid α}
    (hs : s.grids = [b]) (ht : t.grids = [b]) (hmeter : t.signatures.meter = s.signatures.meter)
    (hvoices : below.SameVoices below') (h : Voiced c staff s s' below f) (h' : Voiced c staff t t' below' f') :
    ∃ g g', s'.grids = [g] ∧ t'.grids = [g'] ∧ g.state = .collecting ∧ g.Matches g' := by
  obtain ⟨g, hg, hopen, hsorted, hdrawn⟩ := h.stands.grid
  obtain ⟨g', hg', hopen', hsorted', hdrawn'⟩ := h'.stands.grid
  have hperm := hvoices.voices staff s.signatures.meter
  have hhas (key : SlotKey) : g.Has key ↔ g'.Has key := by
    rw [← has_iff_of_grids hg, ← has_iff_of_grids hg', h.has, h'.has, has_iff_of_grids hs,
      has_iff_of_grids ht, hmeter]
    simp only [hperm.mem_iff]
  refine ⟨g, g', hg, hg', hopen.state, hsorted, hsorted', hopen'.state.trans hopen.state.symm, ?_,
    hhas, fun key => ?_⟩
  · have hlasts := h.lasts
    have hlasts' := h'.lasts
    rw [hmeter, raise_perm (hperm.map _), lasts_eq (congrArg _ (ht.trans hs.symm)), ← hlasts,
      AlignState.lasts, AlignState.lasts, hg, hg'] at hlasts'
    exact Fraction.same_iff_value.2 (List.cons.inj hlasts').1.symm
  · rw [hdrawn.hasSlot_iff, hdrawn'.hasSlot_iff, hhas]

/-- The nodes of two measures with the same layers are timed alike. -/
theorem Voiced.exists_synced {s' t' : AlignState α} {f f' : Forest (Node α)}
    (hmeter : t.signatures.meter = s.signatures.meter)
    (hspoken : ∀ n ∈ below.spoken c staff s.signatures.meter, n ∈ below'.spoken c staff s.signatures.meter)
    (h : Voiced c staff s s' below f) (h' : Voiced c staff t t' below' f') :
    ∀ x ∈ f.toList, ∃ y ∈ f'.toList, x.Synced y := by
  intro x hx
  obtain ⟨n, hn, hnx⟩ := exists_mem_of_forall₂ h.nodes hx
  have hnodes := h'.nodes
  rw [hmeter] at hnodes
  obtain ⟨y, hy, hny⟩ := exists_mem_of_forall₂ hnodes.flip (hspoken n hn)
  exact ⟨y, hy, hnx.symm.trans hny⟩

/-! ### A measure -/

/-- What a walk over a forest relies on. -/
structure Walkable (c : AlignContext α) (s : AlignState α) (f : Forest (Node α)) : Prop where
  nested : f.Nested
  ids : (f.toList.map Node.id).Nodup
  handles : (f.toList.map Node.handle).Nodup
  under : f.HandlesBelow c.symbolsBelow
  free : ∀ h ∈ f.toList.map Node.handle, s.graceSlots.lookup h = none

/-- The start of a measure. -/
theorem enterMeasure_spec (hs : s.grids = [] ∧ s.fault = none) (n : Node α) (m : Measure α) :
    (s.enterMeasure n m).1.Stands ∧ (s.enterMeasure n m).1.signatures = s.signatures ∧
      (s.enterMeasure n m).1.graceSlots = s.graceSlots ∧
      (MeasureGrid.empty.begin.map fun b => [b]) = .ok (s.enterMeasure n m).1.grids ∧
      ∃ m', (s.enterMeasure n m).2 = { n with kind := .measure m' } := by
  have hbegin := MeasureGrid.begin_empty (α := α)
  rw [enterMeasure, hbegin]
  dsimp only
  refine ⟨⟨rfl, hs.2, _, by rw [hs.1], (MeasureGrid.open_begin hbegin).1,
    MeasureGrid.sorted_begin hbegin, MeasureGrid.allDrawn_begin hbegin⟩, rfl, rfl, ?_, _, rfl⟩
  rw [hs.1]
  rfl

omit [Scalar α] in
/-- The symbols of two measures with the same layers stand above the same ones. -/
theorem Walkable.symbolsBelow_eq {below below' : Forest (Node α)} {s t : AlignState α}
    (h : Walkable c s below) (h' : Walkable c' t below') {meter : MeterSig}
    (hvoices : (below'.voices staff meter).Perm (below.voices staff meter)) :
    ∀ v ∈ below'.voices staff meter, ∀ m ∈ v.below.toList,
      c'.symbolsBelow m.handle = c.symbolsBelow m.handle := by
  intro v hv m hm
  obtain ⟨htree', -⟩ := Forest.hasTree_of_mem_voices hv
  obtain ⟨htree, hlayer⟩ := Forest.hasTree_of_mem_voices (hvoices.mem_iff.1 hv)
  obtain ⟨htakes, hnested⟩ := h.nested.of_hasTree htree
  have htag := (hnested.symbolic fun b hb => NodeKind.tag_of_layer hlayer (htakes b hb)).tag m hm
  obtain ⟨under, hunder⟩ := Forest.exists_hasTree hm
  rw [h.under m under (htree.trans hunder) htag, h'.under m under (htree'.trans hunder) htag]

/-- Two walks over the staves of measures with the same layers. -/
theorem told_sameVoices (staff : UInt32) {below below' : Forest (Node α)} (hst : s.Abreast t)
    (hlines : c'.linesOf = c.linesOf) (hwalk : Walkable c s below) (hwalk' : Walkable c' t below')
    (hroots : ∀ b ∈ below.roots, b.tag = .staff ∨ b.tag = .control)
    (hroots' : ∀ b ∈ below'.roots, b.tag = .staff ∨ b.tag = .control)
    (hvoices : below.SameVoices below') (n : Node α) (m : Measure α)
    {above above' : Option (Node α)} {around around' : Forest (Node α) → Forest (Node α)}
    {r r' : AlignState α × Forest (Node α) × Visit}
    (hr : below.runWithin (alignPass c) above around (s.enterMeasure n m).1 = r)
    (hr' : below'.runWithin (alignPass c') above' around' (t.enterMeasure n m).1 = r')
    (hgo : r.2.2 ≠ .stop) : r'.2.2 ≠ .stop ∧
      Voiced c staff (s.enterMeasure n m).1 r.1 below r.2.1 ∧
      Voiced c staff (t.enterMeasure n m).1 r'.1 below' r'.2.1 := by
  obtain ⟨hstands, hsignatures, hfound, -⟩ := enterMeasure_spec hst.left n m
  obtain ⟨hstands', hsignatures', hfound', -⟩ := enterMeasure_spec hst.right n m
  have htold : Told c staff (s.enterMeasure n m).1 below r := hr ▸ told_staves hwalk.nested rfl
    (.inl hroots) hwalk.ids hwalk.handles hwalk.under (fun _ _ _ _ => rfl) hstands (by rw [hfound]; exact hwalk.free) _ _
  have hperm := hvoices.voices staff s.signatures.meter
  have htold' : Told c staff (t.enterMeasure n m).1 below' r' := by
    refine hr' ▸ told_staves hwalk'.nested hlines (.inl hroots') hwalk'.ids hwalk'.handles
      hwalk'.under ?_ hstands' (by rw [hfound']; exact hwalk'.free) _ _
    rw [hsignatures', hst.meter]
    exact hwalk.symbolsBelow_eq hwalk' hperm
  have hsound := htold.sound hgo
  rw [hsignatures] at hsound
  have hgo' : r'.2.2 ≠ .stop := fun hstop => by
    obtain ⟨v, hv, hbad⟩ := htold'.stopped hstop
    rw [hsignatures', hst.meter] at hv
    exact hbad (hsound v (hperm.mem_iff.1 hv))
  exact ⟨hgo', htold.voiced hgo, htold'.voiced hgo'⟩

omit [Scalar α] in
/-- No control element stands below another node of a measure. -/
theorem tag_ne_control_of_hasTree {f below : Forest (Node α)} {n : Node α} (hf : f.Nested)
    (hroots : ∀ b ∈ f.roots, b.tag = .staff ∨ b.tag = .layer ∨ b.tag = .control ∨ b.tag = .element)
    (h : Forest.HasTree n below f) : ∀ m ∈ below.toList, m.tag ≠ .control := by
  have hdeeper {n : Node α} {below : Forest (Node α)} (htakes : ∀ b ∈ below.roots, n.kind.accepts b.kind)
      (hn : n.tag = .staff ∨ n.tag = .layer ∨ n.tag = .control ∨ n.tag = .element) :
      ∀ b ∈ below.roots, b.tag = .layer ∨ b.tag = .element := fun b hb => by
    have htakes := htakes b hb
    rw [Node.tag] at hn ⊢
    cases hk : n.kind <;> cases hk' : b.kind <;>
      simp [hk, hk', NodeKind.accepts, NodeKind.tag] at htakes hn ⊢
  have hplain {f : Forest (Node α)} (hf : f.Nested)
      (hroots : ∀ b ∈ f.roots, b.tag = .layer ∨ b.tag = .element) :
      ∀ m ∈ f.toList, m.tag ≠ .control := by
    induction f with
    | nil => exact fun m hm => absurd hm List.not_mem_nil
    | cons b below siblings ihbelow ihsiblings =>
      rw [Forest.roots, List.forall_mem_cons] at hroots
      obtain ⟨htakes, hbelow, hsiblings⟩ := hf
      simp only [Forest.toList, List.mem_cons, List.mem_append, or_imp, forall_and, forall_eq]
      refine ⟨?_, ihbelow hbelow (hdeeper htakes (by tauto)), ihsiblings hsiblings hroots.2⟩
      rcases hroots.1 with ht | ht <;> rw [ht] <;> decide
  induction h with
  | here =>
    rw [Forest.roots, List.forall_mem_cons] at hroots
    exact hplain hf.2.1 (hdeeper hf.1 hroots.1)
  | deeper _ _ ih =>
    rw [Forest.roots, List.forall_mem_cons] at hroots
    exact ih hf.2.1 fun b hb => (hdeeper hf.1 hroots.1 b hb).elim (fun h => .inr (.inl h))
      fun h => .inr (.inr (.inr h))
  | beside _ _ _ ih =>
    rw [Forest.roots, List.forall_mem_cons] at hroots
    exact ih hf.2.2 hroots.2

/-- A walk leaves control elements where they are. -/
theorem tag_ne_control_runWithin {f : Forest (Node α)} (hf : f.Nested)
    (hroots : ∀ b ∈ f.roots, b.tag = .staff ∨ b.tag = .control)
    {above : Option (Node α)} {around : Forest (Node α) → Forest (Node α)}
    (hgo : (f.runWithin (alignPass c) above around s).2.2 ≠ .stop) :
    ∀ n below, Forest.HasTree n below (f.runWithin (alignPass c) above around s).2.1 →
      ∀ m ∈ below.toList, m.tag ≠ .control := by
  intro n below h m hm
  have hkeeps := keeps_completes (Forest.completes_runWithin (alignPass c) f above around s hgo)
  obtain ⟨n₀, below₀, h₀, -, hbelow⟩ := hkeeps.flip.hasTree h
  obtain ⟨m₀, hm₀, hkept⟩ := exists_mem_of_forall₂ hbelow.flip.toList hm
  rw [hkept.tag]
  exact tag_ne_control_of_hasTree hf (fun b hb => (hroots b hb).imp_right fun h => .inr (.inl h)) h₀
    m₀ hm₀

/-- Handles are free, or belong to a layer that has found its slots on its own. -/
theorem Voiced.findsAlike {below below' f f' : Forest (Node α)} {s' t' : AlignState α}
    (hmeter : t.signatures.meter = s.signatures.meter) (hvoices : below.SameVoices below')
    (hhandles : (below'.toList.map Node.handle).Perm (below.toList.map Node.handle))
    (hfree : ∀ h ∈ below.toList.map Node.handle, s.graceSlots.lookup h = none)
    (hfree' : ∀ h ∈ below'.toList.map Node.handle, t.graceSlots.lookup h = none)
    (h : Voiced c staff s s' below f) (h' : Voiced c staff t t' below' f') :
    FindsAlike (below.toList.map Node.handle) s t s' t' := by
  have hfound' := h'.found
  have hothers' := h'.others
  have hperm := hvoices.voices staff s.signatures.meter
  rw [hmeter] at hfound' hothers'
  refine ⟨fun i hi => ?_, fun i hi => h.others i fun v hv hin => ?_,
    fun i hi => hothers' i fun v hv hin => ?_⟩
  · by_cases hvoice : ∃ v ∈ below.voices staff s.signatures.meter, i ∈ v.below.toList.map Node.handle
    · obtain ⟨v, hv, hin⟩ := hvoice
      rw [h.found v hv i hin, hfound' v (hperm.mem_iff.2 hv) i hin]
    · push Not at hvoice
      rw [h.others i hvoice, hothers' i fun v hv => hvoice v (hperm.mem_iff.1 hv), hfree i hi,
        hfree' i (hhandles.mem_iff.2 hi)]
  · exact hi (Forest.mem_handles_of_mem_voices hv hin)
  · exact hi (hhandles.mem_iff.1 (Forest.mem_handles_of_mem_voices hv hin))

end AlignState

/-- Two measures with the same slots, and with the same times on what stands in them. -/
structure Node.MeasureAlike (n n' : Node α) (below below' : Forest (Node α)) : Prop where
  handle : n'.handle = n.handle
  grid : ∃ m m', n.kind = .measure m ∧ n'.kind = .measure m' ∧ m.grid.Alike m'.grid
  nodes : ∀ x ∈ below.toList, ∃ y ∈ below'.toList, x.TimedAlike y

namespace AlignState

/-- Two walks over a measure and its end. -/
theorem retold_measure {below below' : Forest (Node α)} (hst : s.Abreast t)
    (hlines : c'.linesOf = c.linesOf)
    (hwalk : Walkable c s below) (hwalk' : Walkable c' t below') {n : Node α} {m : Measure α}
    (hn : n.kind = .measure m) (htakes : ∀ b ∈ below.roots, n.kind.accepts b.kind)
    (htakes' : ∀ b ∈ below'.roots, n.kind.accepts b.kind) (hvoices : below.SameVoices below')
    (hhandles : (below'.toList.map Node.handle).Perm (below.toList.map Node.handle))
    {above above' : Option (Node α)} {around around' : Forest (Node α) → Forest (Node α)}
    {r r' : AlignState α × Forest (Node α) × Visit}
    (hr : below.runWithin (alignPass c) above around (s.enterMeasure n m).1 = r)
    (hr' : below'.runWithin (alignPass c') above' around' (t.enterMeasure n m).1 = r')
    (hgo : r.2.2 ≠ .stop) (k k' : Measure α) :
    r'.2.2 ≠ .stop ∧
      Abreast (r.1.leaveMeasure c (s.enterMeasure n m).2 k r.2.1).1
        (r'.1.leaveMeasure c' (t.enterMeasure n m).2 k' r'.2.1).1 ∧
      FindsAlike (below.toList.map Node.handle) s t
        (r.1.leaveMeasure c (s.enterMeasure n m).2 k r.2.1).1
        (r'.1.leaveMeasure c' (t.enterMeasure n m).2 k' r'.2.1).1 ∧
      Node.MeasureAlike (r.1.leaveMeasure c (s.enterMeasure n m).2 k r.2.1).2.1
        (r'.1.leaveMeasure c' (t.enterMeasure n m).2 k' r'.2.1).2.1
        (r.1.leaveMeasure c (s.enterMeasure n m).2 k r.2.1).2.2
        (r'.1.leaveMeasure c' (t.enterMeasure n m).2 k' r'.2.1).2.2 := by
  have htag : n.tag = .measure := congrArg NodeKind.tag hn
  have hroots {f : Forest (Node α)} (h : ∀ b ∈ f.roots, n.kind.accepts b.kind) :
      ∀ b ∈ f.roots, b.tag = .staff ∨ b.tag = .control := fun b hb =>
    tag_of_accepts_measure htag (h b hb)
  obtain ⟨hgo', h, h'⟩ := told_sameVoices 1 hst hlines hwalk hwalk' (hroots htakes)
    (hroots htakes') hvoices n m hr hr' hgo
  obtain ⟨-, hsignatures, hfound, hgrids, ⟨m₁, hn₁⟩⟩ := enterMeasure_spec hst.left n m
  obtain ⟨-, hsignatures', hfound', hgrids', ⟨m₁', hn₁'⟩⟩ := enterMeasure_spec hst.right n m
  have hmeter : (t.enterMeasure n m).1.signatures.meter = (s.enterMeasure n m).1.signatures.meter := by
    rw [hsignatures, hsignatures', hst.meter]
  have hb := hgrids
  rw [MeasureGrid.begin_empty] at hb hgrids'
  obtain ⟨g, g', hg, hg', hstate, hmatches⟩ := h.matches (Except.ok.inj hb).symm
    (Except.ok.inj hgrids').symm hmeter hvoices h'
  have hmeter' : r'.1.signatures.meter = r.1.signatures.meter := by
    rw [h.meter, h'.meter, hmeter, hvoices.meter]
  obtain ⟨hcloses, hcloses', ⟨grid, grid', hk, hk', halike⟩, hnodes⟩ :=
    alike_leaveMeasure c c' hg hg' hstate hmatches hmeter' (s.enterMeasure n m).2
      (t.enterMeasure n m).2 k k' (hr ▸ tag_ne_control_runWithin hwalk.nested (hroots htakes) (hr ▸ hgo))
      (hr' ▸ tag_ne_control_runWithin hwalk'.nested (hroots htakes') (hr' ▸ hgo'))
      (h.exists_synced hmeter (fun n hn => (hvoices.spoken c _ _).mem_iff.2 hn) h') fun y hy => by
        obtain ⟨x, hx, hxy⟩ := h'.exists_synced hmeter.symm
          (fun n hn => (hvoices.spoken c _ _).mem_iff.1 hn) h y hy
        exact ⟨x, hx, hxy.symm⟩
  have hfinds := h.findsAlike hmeter hvoices hhandles (by rw [hfound]; exact hwalk.free)
    (by rw [hfound']; exact hwalk'.free) h'
  refine ⟨hgo', ⟨?_, ⟨hcloses.grids, hcloses.fault.trans h.stands.fault⟩, hcloses'.grids,
    hcloses'.fault.trans h'.stands.fault⟩, ⟨?_, ?_, ?_⟩, ⟨?_, ⟨{ k with grid }, { k' with grid := grid' },
    congrArg Node.kind hk, congrArg Node.kind hk', halike⟩, hnodes⟩⟩
  · rw [hcloses.signatures, hcloses'.signatures, hmeter']
  · rw [hcloses.found, hcloses'.found]
    exact hfinds.found
  · rw [hcloses.found, ← hfound]
    exact hfinds.left
  · rw [hcloses'.found, ← hfound']
    exact hfinds.right
  · rw [hk, hk', hn₁, hn₁']

end AlignState

end ScoreLayout
