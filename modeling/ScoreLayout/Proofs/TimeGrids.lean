import ScoreLayout.Proofs.Layout.KeptSlots
import ScoreLayout.Proofs.Layout.Positions

/-!
# Time grids after a layout

Onsets are summed up layer by layer, but what sounds together in a measure shares a slot of its time
grid, and so it shares a position on the page. What sounds earlier has an earlier slot.

## Main definitions

* `Forest.Steady` — the onsets of a layer never go back and lie within the layer.
* `Forest.Aligned` — what alignment leaves for the measures of a forest, and no later pass changes.
* `Document.SharesSlots` — what sounds together shares a slot and a position.

## Main results

* `Document.WellFormed.aligned_layout` — the measures of a score after a layout.
* `Document.Reachable.shared_slots` — after a layout all measures share their slots.
-/

namespace ScoreLayout

variable {α : Type}

/-! ### What alignment leaves -/

/-- The symbols of a layer begin one after another, and none behind the end of the layer. -/
structure Forest.Steady (f : Forest (Node α)) : Prop where
  tag : ∀ n ∈ f.toList, n.tag = .element
  ordered : f.toList.Pairwise Node.BeginsBy
  within : ∀ n ∈ f.toList, ∃ a, n.layout.onset = some a ∧
    a.value ≤ ((f.symbols .one none).map Symbol.time).sum

/-- What alignment leaves for the measures of a forest, and no later pass changes. -/
structure Forest.Aligned (f : Forest (Node α)) : Prop where
  steady : ∀ n below, HasTree n below f → n.tag = .layer → below.Steady
  booked : f.MeasuresBooked []

namespace Forest

variable {f f' : Forest (Node α)}

theorem Steady.settle (h : Forall₂ (Node.Settles []) f f') (hf : f.Steady) : f'.Steady := by
  have hback {n'} (hn' : n' ∈ f'.toList) : ∃ n ∈ f.toList, n.Settles [] n' :=
    exists_mem_of_forall₂ h.toList hn'
  have htimes : ((f'.symbols .one none).map Symbol.time).sum =
      ((f.symbols .one none).map Symbol.time).sum := by
    rw [map_eq_of_forall₂ (u := Symbol.time) (v := Symbol.time) (fun _ _ hx =>
      (time_eq_of_related Node.keepsOnsets_settles hx).symm)
      (h.related_symbols (fun _ _ h => h.element) .none)]
  refine ⟨fun n' hn' => ?_, ?_, fun n' hn' => ?_⟩
  · obtain ⟨n, hn, hnn⟩ := hback hn'
    exact hnn.tag.trans (hf.tag n hn)
  · have honsets : f.toList.map (fun n => n.layout.onset) =
        f'.toList.map fun n => n.layout.onset :=
      map_eq_of_forall₂ (R := fun n n' => n.tag = .element ∧ n.Settles [] n')
        (fun _ _ hn => (hn.2.onset hn.1).symm) ((List.forall₂_and_left _ _).2 ⟨hf.tag, h.toList⟩)
    have hpairs (f : Forest (Node α)) : f.toList.Pairwise Node.BeginsBy ↔
        (f.toList.map fun n => n.layout.onset).Pairwise fun o o' =>
          ∃ a b, o = some a ∧ o' = some b ∧ a.value ≤ b.value := by
      rw [List.pairwise_map]
      rfl
    rw [hpairs, ← honsets, ← hpairs]
    exact hf.ordered
  · obtain ⟨n, hn, hnn⟩ := hback hn'
    obtain ⟨a, ha, hle⟩ := hf.within n hn
    exact ⟨a, (hnn.onset (hf.tag n hn)).trans ha, htimes ▸ hle⟩

theorem Aligned.settle (h : Forall₂ (Node.Settles []) f f') (hf : f.Aligned) : f'.Aligned where
  steady n' below' htree hn' := by
    obtain ⟨n, below, hn, hnn, hbelow⟩ := h.flip.hasTree htree
    exact (hf.steady n below hn (hnn.tag ▸ hn')).settle hbelow.flip
  booked := hf.booked.settle h

theorem Aligned.branches (hf : f.Aligned) : f.branches.Aligned where
  steady n below htree := hf.steady n below htree.of_branches
  booked n below m htree := hf.booked n below m htree.of_branches

end Forest

variable [Scalar α]

namespace Document

/-- The symbols of a layer begin between its start and its end. -/
theorem WellFormed.onsets_align {d : Document α} (hd : d.WellFormed) {metrics : GlyphMetrics α}
    {unit : α} (hok : (d.align metrics unit).fault = none) {n : Node α} {below : Forest (Node α)}
    (htree : Forest.HasTree n below (d.align metrics unit).document.score) (hn : n.tag = .layer) :
    below.Symbolic ∧ (∀ m ∈ below.toList, ∃ a, m.layout.onset = some a ∧ 0 ≤ a.value ∧
        a.value ≤ ((below.symbols .one none).map Symbol.time).sum) ∧
      below.toList.Pairwise Node.BeginsBy ∧
        0 ≤ ((below.symbols .one none).map Symbol.time).sum := by
  have hnested := ((d.sameTree_align metrics unit).wellFormed hd).nested_score
  obtain ⟨htakes, hbelow⟩ := hnested.of_hasTree htree
  have hsymbolic := hbelow.symbolic fun b hb => NodeKind.tag_of_layer hn (htakes b hb)
  obtain ⟨before, hat⟩ := htree.exists_treeAt
  have honsets := onsets_of_timedFrom hsymbolic TupletRatio.nonneg_one
    (timedFrom_iff.2 fun front x back hx => by
      have hx := (hd.timed_align hok).symbols before n below hat hn front x back hx
      rw [← List.singleton_append, ← List.append_assoc, runningMeter_append] at hx
      rwa [zero_add])
  rw [zero_add] at honsets
  exact ⟨hsymbolic, honsets⟩

/-- What alignment leaves, where it meets no fault. -/
theorem WellFormed.aligned_align {d : Document α} (hd : d.WellFormed) {metrics : GlyphMetrics α}
    {unit : α} (hok : (d.align metrics unit).fault = none) :
    (d.align metrics unit).document.score.Aligned where
  steady n below htree hn := by
    obtain ⟨hsymbolic, honsets, hordered, -⟩ := hd.onsets_align hok htree hn
    exact ⟨hsymbolic.tag, hordered, fun m hm => (honsets m hm).imp fun a h => ⟨h.1, h.2.2⟩⟩
  booked := hd.booked_align hok

omit [Scalar α] in
/-- The measures of a score stand in its systems. -/
theorem Shape.hasTree_content {d : Document α} {D : ScoreDefinition} {r : Node α}
    {pages detached : Forest (Node α)} (hd : d.Shape D r pages detached) {n : Node α}
    {below : Forest (Node α)} (h : Forest.HasTree n below d.score) (hn : n.tag = .measure) :
    Forest.HasTree n below d.content := by
  rw [hd.score] at h
  rw [hd.content_eq]
  rcases h.mem_roots_or_branches with h | h
  · obtain rfl := List.mem_singleton.1 h
    exact absurd (hn.symm.trans hd.root_tag) (by decide)
  rw [Forest.tree, Forest.branches, Forest.branches, Forest.append_nil] at h
  rcases h.mem_roots_or_branches with h | h
  · exact absurd (hn.symm.trans (hd.tag_of_mem_pages h)) (by decide)
  rcases h.mem_roots_or_branches with h | h
  · exact absurd (hn.symm.trans (hd.tag_of_mem_systems h)) (by decide)
  · exact h

/-- Once the symbols are aligned, later passes change no slot. -/
theorem WellFormed.staysPut_later {d : Document α} (hd : d.WellFormed) (hs : d.Settled)
    (e : Engine α) (passes later : List LayoutPass)
    (hlater : ∀ pass ∈ later, pass ≠ .prepare ∧ pass ≠ .align) :
    (e.runAll d passes).document.StaysPut (e.runAll d (passes ++ later)).document := by
  have hkept := of_runAll_append (e := e) (d := d) (P := fun d' => (d'.WellFormed ∧ d'.Settled) ∧
      (e.runAll d passes).document.StaysPut d') passes later ⟨hd.settled_runAll hs e _, .refl _⟩
    fun d' hd' pass hpass => by
      obtain ⟨⟨hd', hs'⟩, hstays⟩ := hd'
      obtain ⟨hprepare, halign⟩ := hlater pass hpass
      exact ⟨⟨hd'.run e pass, hd'.settled_run hs' e pass⟩,
        hstays.trans (hd'.staysPut_run hs' e hprepare halign)⟩
  exact hkept.2

/-- Once the symbols are aligned, a layout that meets no fault only settles what stands in the
systems. -/
theorem WellFormed.settles_layout {d : Document α} (hd : d.WellFormed) (hs : d.Settled)
    {e : Engine α} (hok : (e.layout d).fault = none) :
    (e.run d.prepare.document .align).fault = none ∧
      Forest.Forall₂ (Node.Settles []) (e.run d.prepare.document .align).document.content
        (e.layout d).document.content := by
  have hall : LayoutPass.all = LayoutPass.all.take 2 ++ LayoutPass.all.drop 2 := rfl
  rw [Engine.layout, hall] at hok ⊢
  obtain ⟨hprepare, halign, hdocument⟩ :=
    Engine.of_runAll_take (k := 1) rfl (Engine.fault_of_runAll_append _ hok)
  obtain ⟨-, -, hprepared⟩ := Engine.of_runAll_take (k := 0) rfl hprepare
  have hlater := hd.staysPut_later hs e (LayoutPass.all.take 2) (LayoutPass.all.drop 2) (by decide)
  rw [hdocument] at hlater
  rw [hprepared] at halign hlater
  exact ⟨halign, hlater.mono fun _ _ h => h.settles⟩

/-- What stands in the systems after a layout that meets no fault. -/
theorem WellFormed.aligned_layout {d : Document α} (hd : d.WellFormed) (hs : d.Settled)
    {e : Engine α} (hok : (e.layout d).fault = none) :
    (e.layout d).document.content.Aligned := by
  obtain ⟨halign, hsettles⟩ := hd.settles_layout hs hok
  exact (hd.run e .prepare).aligned_align halign |>.branches.branches.branches.settle hsettles

/-- Where the symbols of a score stand after a layout that meets no fault. -/
theorem WellFormed.slotsPlaced_layout {d : Document α} (hd : d.WellFormed) (hs : d.Settled)
    {e : Engine α} (hok : (e.layout d).fault = none) :
    (e.layout d).document.score.SlotsPlaced := by
  obtain ⟨-, hplace, hdocument⟩ := Engine.of_runAll_take (k := 8) rfl hok
  have hslots := (hd.settled_runAll hs e (LayoutPass.all.take 8)).1.slotsPlaced_place hplace
  rw [Engine.layout]
  exact hdocument ▸ hslots

end Document

/-! ### Events -/

omit [Scalar α] in
/-- Whether a symbol is an event: a principal symbol of its layer, or a note of a chord that is
one. -/
def Symbol.IsEvent (x : Symbol α) : Prop := x.IsPrincipal ∨ ∃ c, x.chord = some c ∧ ¬ c.isGrace

omit [Scalar α] in
theorem Symbol.IsEvent.key?_eq {x : Symbol α} (hx : x.IsEvent) (stop : Fraction)
    (back : List (Symbol α)) :
    x.key? stop back = x.node.layout.onset.map (SlotKey.ofKind · .event) := by
  rcases hx with ⟨hchord, hduration, hgrace⟩ | ⟨c, hchord, hgrace⟩
  · rw [key?, hchord]
    dsimp only
    rw [if_neg hgrace, if_pos hduration]
  · rw [key?, hchord]
    dsimp only
    rw [if_neg hgrace]

/-- Two events of a measure with a time grid: what sounds together shares a slot, the only one of its
key, and stands at one position; what sounds earlier has an earlier slot. -/
structure MeasureGrid.Shares (g : MeasureGrid α) (x y : Node α) (a b : Fraction) : Prop where
  together : a.value = b.value → ∃ k k' s, x.layout.slot = some k ∧ y.layout.slot = some k' ∧
    k.Same k' ∧ (g.slots.filter fun t => t.key.Same k) = [s] ∧ x.box.x = y.box.x
  apart : a.value < b.value → ∃ k k' s t front middle back, x.layout.slot = some k ∧
    y.layout.slot = some k' ∧ s.key.Same k ∧ t.key.Same k' ∧
      g.slots = front ++ s :: (middle ++ t :: back)

namespace Forest

variable {f below : Forest (Node α)} {n : Node α} {m : Measure α} {x y : Symbol α}

omit [Scalar α] in
/-- A symbol of a layer. -/
def HasSymbol (x : Symbol α) (f : Forest (Node α)) : Prop :=
  ∃ layer under, HasTree layer under f ∧ layer.tag = .layer ∧ x ∈ under.symbols .one none

omit [Scalar α] in
theorem HasSymbol.mem (hx : HasSymbol x f) : x.node ∈ f.toList := by
  obtain ⟨layer, under, htree, -, hx⟩ := hx
  exact htree.mem_of_mem (mem_of_mem_symbols hx)

omit [Scalar α] in
/-- An event has a slot, and it is drawn. -/
theorem Aligned.slot_of_isEvent (hf : f.Aligned) (h : HasTree n below f) (hm : n.kind = .measure m)
    (hx : HasSymbol x below) (hevent : x.IsEvent) : x.node.tag = .element ∧
      ∃ a, x.node.layout.onset = some a ∧ x.node.layout.slot = some (.ofKind a .event) ∧
        m.grid.Has (.ofKind a .event) := by
  obtain ⟨layer, under, htree, hlayer, hx⟩ := hx
  have hsteady := hf.steady layer under (h.trans htree) hlayer
  obtain ⟨a, ha, -⟩ := hsteady.within _ (mem_of_mem_symbols hx)
  obtain ⟨stop, -, hkeys⟩ := (hf.booked n below m h hm).2 layer under htree hlayer
  obtain ⟨front, back, hxs⟩ := List.append_of_mem hx
  obtain ⟨hhas, hslot⟩ := hkeys front x back hxs (.ofKind a .event) (by
    rw [hevent.key?_eq, ha, Option.map_some])
  exact ⟨hsteady.tag _ (mem_of_mem_symbols hx), a, ha, hslot, hhas⟩

theorem Aligned.shares (hf : f.Aligned) (h : HasTree n below f) (hm : n.kind = .measure m)
    (hplaced : ∀ e ∈ below.toList, e.tag = .element →
      e.box.x = n.box.x + (e.layout.slot.bind m.grid.xOf?).getD 0)
    (hx : HasSymbol x below) (hy : HasSymbol y below) (hxe : x.IsEvent) (hye : y.IsEvent) :
    ∃ a b, x.node.layout.onset = some a ∧ y.node.layout.onset = some b ∧
      m.grid.Shares x.node y.node a b := by
  have hsorted := (hf.booked n below m h hm).1
  obtain ⟨hxtag, a, ha, hxslot, s, hs, hsk, -⟩ := hf.slot_of_isEvent h hm hx hxe
  obtain ⟨hytag, b, hb, hyslot, t, ht, htk, -⟩ := hf.slot_of_isEvent h hm hy hye
  refine ⟨a, b, ha, hb, fun heq => ?_, fun hlt => ?_⟩
  · have hkeys : (SlotKey.ofKind a .event).Same (.ofKind b .event) := SlotKey.same_ofKind_iff.2 heq
    refine ⟨_, _, s, hxslot, hyslot, hkeys, hsorted.filter_key hs hsk, ?_⟩
    rw [hplaced _ hx.mem hxtag, hplaced _ hy.mem hytag, hxslot, hyslot, Option.bind_some,
      Option.bind_some, MeasureGrid.xOf?, MeasureGrid.xOf?, hsorted.get?_eq hs hsk,
      hsorted.get?_eq hs (hsk.trans hkeys)]
  · have hplace : s.key.place < t.key.place := by
      rw [SlotKey.same_iff_place.1 hsk, SlotKey.same_iff_place.1 htk]
      exact SlotKey.place_lt_of_time rfl hlt
    obtain ⟨front, middle, back, hslots⟩ := hsorted.exists_append hs ht hplace
    exact ⟨_, _, s, t, front, middle, back, hxslot, hyslot, hsk, htk, hslots⟩

end Forest

namespace Document

/-- In every measure of the score, what sounds together shares a slot and a position, and what sounds
earlier has an earlier slot. -/
def SharesSlots (d : Document α) : Prop :=
  ∀ n below m, Forest.HasTree n below d.score → n.kind = .measure m → ∀ x y,
    Forest.HasSymbol x below → Forest.HasSymbol y below → x.IsEvent → y.IsEvent →
      ∃ a b, x.node.layout.onset = some a ∧ y.node.layout.onset = some b ∧
        m.grid.Shares x.node y.node a b

theorem WellFormed.sharesSlots_layout {d : Document α} (hd : d.WellFormed) (hs : d.Settled)
    {e : Engine α} (hok : (e.layout d).fault = none) : (e.layout d).document.SharesSlots := by
  intro n below m htree hm x y hx hy hxe hye
  obtain ⟨r, pages, hshape⟩ := (hd.settled_runAll hs e _).1.exists_shape
  have hcontent := hshape.hasTree_content htree (by rw [Node.tag, hm]; rfl)
  exact (hd.aligned_layout hs hok).shares hcontent hm
    (hd.slotsPlaced_layout hs hok n below m htree hm) hx hy hxe hye

/-- After a layout all measures share their slots, whatever a caller comes to. -/
theorem Reachable.shared_slots {d : Document α} (h : d.Reachable) {e : Engine α}
    (hok : (e.layout d).fault = none) : (e.layout d).document.SharesSlots :=
  h.wellFormed.sharesSlots_layout h.settled hok

/-- Two notes of a triplet over a quarter note on the other staff. -/
theorem Reachable.shared_slots_of_triplet : ∃ d : Document ℚ, d.Reachable ∧
    (Engine.default.layout d).fault = none ∧
    (Engine.default.layout d).document.SharesSlots ∧
    ((Engine.default.layout d).document.score.toList.filter fun n => n.layout.slot.isSome).map
      (fun n => (n.layout.onset.map Fraction.value, n.box.x)) =
        [(some 0, 131), (some (1 / 12), 21783 / 20), (some 0, 131)] := by
  have hmeasure := (Reachable.ofDefinition (α := ℚ) default).contentSystem.add 2
    (.measure (.ofNumber 1))
  have hd := (((((((hmeasure.add 3 (.staff ⟨1, false⟩)).add 4 (.layer 1)).add 5
    (.element (.tuplet 3 2))).add 6
    (.element (.note ⟨.ofValue .eighth, ⟨.c, 4, none⟩, none, false⟩))).add 6
    (.element (.note ⟨.ofValue .eighth, ⟨.d, 4, none⟩, none, false⟩))).add 3
    (.staff ⟨2, false⟩)).add 9 (.layer 1)).add 10
    (.element (.note ⟨.ofValue .quarter, ⟨.c, 3, none⟩, none, false⟩))
  refine ⟨_, hd, ?_, hd.shared_slots ?_, ?_⟩
  · decide +kernel
  · decide +kernel
  · decide +kernel

end Document

end ScoreLayout
