import ScoreLayout.Proofs.InRange
import ScoreLayout.Proofs.Layout.SlotOrder
import ScoreLayout.Proofs.TimeGrids

/-!
# Positions in document order

The symbols of a layer stand on the page in document order, as far as their slots do: an earlier slot
stands nowhere to the right of a later one, however the measure is stretched. Slots are out of order
where one symbol overtakes another.

## Main definitions

* `Document.KeepsOrder` — the order of the timed symbols of all layers on the page.

## Main results

* `MeasureGrid.Sound.atMost` — slots stand in the order of their keys.
* `Document.Reachable.keeps_order` — after a layout timed symbols stand in order, unless one
  overtakes another.
* `Document.Reachable.rest_before_grace` — a full-measure rest that overtakes a grace note.
-/

namespace ScoreLayout

open Scalar

variable {α : Type} [Scalar α]

/-! ### Slots -/

namespace MeasureGrid

variable {g : MeasureGrid α} {k k' : SlotKey}

/-- Slots stand in the order of their keys. -/
theorem Sound.atMost (hg : g.Sound) (hsorted : g.Sorted) (hk : g.Has k) (hk' : g.Has k')
    (hplace : k.place ≤ k'.place) : ∃ x x', g.xOf? k = some x ∧ g.xOf? k' = some x' ∧
      (x = x' ∨ Nonneg x ∧ AtMost x x') := by
  obtain ⟨s, hs, hsk, hdrawn⟩ := hk
  obtain ⟨t, ht, htk, hdrawn'⟩ := hk'
  refine ⟨s.x, t.x, by rw [xOf?, hsorted.get?_eq hs hsk, Option.map_some],
    by rw [xOf?, hsorted.get?_eq ht htk, Option.map_some], ?_⟩
  rw [← SlotKey.same_iff_place.1 hsk, ← SlotKey.same_iff_place.1 htk] at hplace
  rcases hplace.lt_or_eq with hlt | heq
  · obtain ⟨front, middle, back, hslots⟩ := hsorted.exists_append hs ht hlt
    have hrising := hg.rising
    rw [Rising, hslots, List.filter_append, List.filter_cons_of_pos (by simpa using hdrawn),
      List.filter_append, List.filter_cons_of_pos (by simpa using hdrawn'), List.pairwise_append,
      List.pairwise_cons] at hrising
    exact .inr (hrising.2.1.1 t (List.mem_append_right _ List.mem_cons_self))
  · exact .inl (congrArg Slot.x (hsorted.eq_of_same hs ht (SlotKey.same_iff_place.2 heq)))

end MeasureGrid

/-! ### Layers -/

namespace Forest

variable {f under : Forest (Node α)}

omit [Scalar α] in
/-- The symbols of a layer begin one after another. -/
theorem Steady.timeline (h : under.Steady) {stop : Fraction}
    (hstop : stop.value = ((under.symbols .one none).map Symbol.time).sum) :
    Timeline stop (under.symbols .one none) where
  onset x hx := by
    obtain ⟨a, ha, -⟩ := h.within _ (mem_of_mem_symbols hx)
    exact Option.isSome_iff_exists.2 ⟨a, ha⟩
  ordered := by
    have hordered := h.ordered
    rw [← map_node_symbols h.tag .one none, List.pairwise_map] at hordered
    refine hordered.imp fun {x y} ⟨a, b, ha, hb, hle⟩ => ?_
    rwa [Symbol.begins, Symbol.begins, ha, hb]
  within x hx := by
    obtain ⟨a, ha, hle⟩ := h.within _ (mem_of_mem_symbols hx)
    rwa [Symbol.begins, ha, hstop]

end Forest

/-- The order of the timed symbols of a layer on the page. -/
def Symbol.KeepOrder (xs : List (Symbol α)) : Prop :=
  ∃ stop : Fraction, stop.value = (xs.map Symbol.time).sum ∧
    ∀ front x middle y back, xs = front ++ x :: (middle ++ y :: back) → x.MovesOn → y.MovesOn →
      (¬ x.Overtakes stop middle y back → AtMost x.node.box.x y.node.box.x) ∧
        (x.Overtakes stop middle y back → AtMost y.node.box.x x.node.box.x)

/-- The timed symbols of a layer stand where their slots do. -/
theorem Forest.Aligned.keepOrder [Movable α] {f below under : Forest (Node α)} {n layer : Node α}
    {m : Measure α} (hf : f.Aligned) (htree : HasTree n below f) (hm : n.kind = .measure m)
    (hgrid : m.grid.Sound) (hplaced : ∀ e ∈ below.toList, e.tag = .element →
      e.box.x = n.box.x + (e.layout.slot.bind m.grid.xOf?).getD 0)
    (hlayer : HasTree layer under below) (htag : layer.tag = .layer) :
    Symbol.KeepOrder (under.symbols .one none) := by
  obtain ⟨hsorted, hlayers⟩ := hf.booked n below m htree hm
  obtain ⟨stop, hstop, hkeys⟩ := hlayers layer under hlayer htag
  have hsteady := hf.steady layer under (htree.trans hlayer) htag
  have htimeline := hsteady.timeline hstop
  have hposition {front back : List (Symbol α)} {x : Symbol α}
      (hxs : under.symbols .one none = front ++ x :: back) (hx : x.MovesOn) :
      m.grid.Has (x.slotKey stop back) ∧
        x.node.box.x = n.box.x + (m.grid.xOf? (x.slotKey stop back)).getD 0 := by
    have hmem : x ∈ under.symbols .one none := by simp [hxs]
    have hnode := mem_of_mem_symbols hmem
    obtain ⟨hhas, hslot⟩ := hkeys front x back hxs _
      (hx.key?_eq (htimeline.onset x hmem) stop back)
    refine ⟨hhas, ?_⟩
    rw [hplaced _ (hlayer.mem_of_mem hnode) (hsteady.tag _ hnode),
      show x.node.layout.slot = some _ from hslot, Option.bind_some]
  have hleft {front back front' back' : List (Symbol α)} {x y : Symbol α}
      (hxs : under.symbols .one none = front ++ x :: back) (hx : x.MovesOn)
      (hys : under.symbols .one none = front' ++ y :: back') (hy : y.MovesOn)
      (hplace : (x.slotKey stop back).place ≤ (y.slotKey stop back').place) :
      AtMost x.node.box.x y.node.box.x := by
    obtain ⟨hxhas, hxbox⟩ := hposition hxs hx
    obtain ⟨hyhas, hybox⟩ := hposition hys hy
    obtain ⟨a, b, ha, hb, hab⟩ := hgrid.atMost hsorted hxhas hyhas hplace
    rw [hxbox, hybox, ha, hb, Option.getD_some, Option.getD_some]
    rcases hab with rfl | ⟨hnonneg, hab⟩
    · exact id
    · exact hab.add_left hnonneg _
  refine ⟨stop, hstop, fun front x middle y back hxs hx hy => ?_⟩
  rw [hxs] at htimeline
  have hys : under.symbols .one none = (front ++ x :: middle) ++ y :: back := by simp [hxs]
  have hiff := htimeline.place_lt_iff hx hy
  exact ⟨fun hnot => hleft hxs hx hys hy (not_lt.1 fun hlt => hnot (hiff.1 hlt)),
    fun hover => hleft hys hy hxs hx (hiff.2 hover).le⟩

omit [Scalar α] in
theorem NodeKind.tag_of_accepted {a b : NodeKind α} (h : a.accepts b) :
    (b.tag = .staff → a.tag = .measure) ∧ (b.tag = .layer → a.tag = .staff) := by
  cases a <;> cases b <;> simp_all [accepts, tag]

omit [Scalar α] in
/-- Layers stand in staves, and those in measures. -/
theorem Forest.Nested.exists_measure {f under : Forest (Node α)} {layer : Node α} (hf : f.Nested)
    (hroots : ∀ n ∈ f.roots, n.tag ≠ .staff ∧ n.tag ≠ .layer) (h : HasTree layer under f)
    (hlayer : layer.tag = .layer) :
    ∃ n below, HasTree n below f ∧ n.tag = .measure ∧ HasTree layer under below := by
  induction h with
  | here => exact absurd hlayer (hroots layer List.mem_cons_self).2
  | @deeper c children siblings h ih =>
    by_cases hc : c.tag = .measure
    · exact ⟨c, children, .here siblings, hc, h⟩
    · have hstaff := hroots c List.mem_cons_self
      obtain ⟨n, below, hn, htag, hunder⟩ := ih hf.2.1 fun b hb =>
        have htakes := NodeKind.tag_of_accepted (hf.1 b hb)
        ⟨fun ht => hc (htakes.1 ht), fun ht => hstaff.1 (htakes.2 ht)⟩
      exact ⟨n, below, .deeper siblings hn, htag, hunder⟩
  | beside c children _ ih =>
    obtain ⟨n, below, hn, htag, hunder⟩ := ih hf.2.2 fun b hb => hroots b (List.mem_cons_of_mem c hb)
    exact ⟨n, below, .beside c children hn, htag, hunder⟩

namespace Document

variable {d : Document α}

/-- The symbols of a layer in document order. -/
def layerSymbols (d : Document α) (layer : Node α) : List (Symbol α) :=
  (d.below layer.handle).symbols .one none

/-- Whether timed symbols stand in document order: none to the right of a later one of its layer. -/
def InOrder (d : Document α) : Prop :=
  ∀ layer ∈ d.nodesOfKind .layer,
    ((d.layerSymbols layer).filter fun x => x.MovesOn).Pairwise fun x y =>
      AtMost x.node.box.x y.node.box.x

instance {K : Type} [ExactField K] (d : Document K) : Decidable d.InOrder :=
  inferInstanceAs (Decidable (∀ layer ∈ d.nodesOfKind .layer,
    ((d.layerSymbols layer).filter fun x => x.MovesOn).Pairwise fun x y =>
      y.node.box.x ≤ y.node.box.x → x.node.box.x ≤ y.node.box.x))

/-- Timed symbols stand in document order, unless one overtakes another; then they stand the other
way round. -/
def KeepsOrder (d : Document α) : Prop :=
  ∀ layer ∈ d.nodesOfKind .layer, Symbol.KeepOrder (d.layerSymbols layer)

omit [Scalar α] in
theorem Shape.mem_nodesOfKind {D : ScoreDefinition} {r n : Node α} {pages detached : Forest (Node α)}
    (hd : d.Shape D r pages detached) {tag : NodeTag} :
    n ∈ d.nodesOfKind tag ↔ n ∈ pages.toList ∧ n.tag = tag := by
  rw [hd.nodesOfKind_eq, List.mem_filter, decide_eq_true_iff]

theorem keepsOrder_of_aligned [Movable α] (hd : d.WellFormed) (haligned : d.content.Aligned)
    (hsound : d.Sound) (hplaced : d.score.SlotsPlaced) : d.KeepsOrder := by
  intro layer hlayer
  obtain ⟨r, pages, hshape⟩ := hd.exists_shape
  obtain ⟨hmem, htag⟩ := hshape.mem_nodesOfKind.1 hlayer
  obtain ⟨under, hunder⟩ := Forest.exists_hasTree hmem
  have hnested := hd.nested_score
  rw [hshape.score] at hnested
  obtain ⟨n, below, htree, hn, hlayer⟩ := hnested.2.1.exists_measure
    (fun n hn => by rw [hshape.tag_of_mem_pages hn]; decide) hunder htag
  obtain ⟨m, hm⟩ := NodeKind.exists_of_measure hn
  replace htree : Forest.HasTree n below d.score := hshape.score ▸ .deeper .nil htree
  rw [layerSymbols, hshape.below_eq hunder]
  exact haligned.keepOrder (hshape.hasTree_content htree hn) hm (hsound n htree.mem m hm)
    (hplaced n below m htree hm) hlayer htag

/-- The grids of a score after a layout that meets no fault. -/
theorem WellFormed.sound_layout [Ordered α] (hd : d.WellFormed) {options : LayoutOptions α}
    {metrics : GlyphMetrics α}
    (hok : ((Engine.ofOptions options metrics).layout d).fault = none) :
    ((Engine.ofOptions options metrics).layout d).document.Sound := by
  have hall : LayoutPass.all = LayoutPass.all.take 3 ++ LayoutPass.all.drop 3 := rfl
  rw [Engine.layout, hall] at hok ⊢
  obtain ⟨-, hspace, hdocument⟩ :=
    Engine.of_runAll_take (k := 2) rfl (Engine.fault_of_runAll_append _ hok)
  have hspaced := (WellFormed.runAll (o := .done d []) hd).sound_space hspace
  refine (of_runAll_append (P := fun d => d.WellFormed ∧ d.Sound) (LayoutPass.all.take 3)
    (LayoutPass.all.drop 3) ⟨WellFormed.runAll (o := .done d []) hd, hdocument ▸ hspaced⟩ fun d hd pass hpass => ?_).2
  exact ⟨hd.1.run _ pass, hd.1.sound_run hd.2 _ hpass⟩

/-- After a layout timed symbols stand in document order, unless one overtakes another, whatever a
caller comes to. -/
theorem Reachable.keeps_order [Movable α] (h : d.Reachable) {options : LayoutOptions α}
    {metrics : GlyphMetrics α}
    (hok : ((Engine.ofOptions options metrics).layout d).fault = none) :
    ((Engine.ofOptions options metrics).layout d).document.KeepsOrder := by
  exact keepsOrder_of_aligned (WellFormed.runAll (o := .done d []) h.wellFormed)
    (h.wellFormed.aligned_layout h.settled hok) (h.wellFormed.sound_layout hok)
    (h.wellFormed.slotsPlaced_layout h.settled hok)

/-- A note, a grace note before the next one, and that note. -/
theorem Reachable.keeps_order_of_grace : ∃ d : Document ℚ, d.Reachable ∧
    ((Engine.ofOptions .default .default).layout d).fault = none ∧
    ((Engine.ofOptions .default .default).layout d).document.KeepsOrder ∧
    ((Engine.ofOptions .default .default).layout d).document.InOrder := by
  have hlayer := (((Reachable.ofDefinition (α := ℚ) default).contentSystem.add 2
    (.measure (.ofNumber 1))).add 3 (.staff ⟨1, false⟩)).add 4 (.layer 1)
  have hd := ((hlayer.add 5 (.element (.note ⟨.ofValue .quarter, ⟨.c, 4, none⟩, none, false⟩))).add 5
    (.element (.note ⟨{ Duration.ofValue .eighth with grace := true }, ⟨.d, 4, none⟩, none,
      false⟩))).add 5 (.element (.note ⟨.ofValue .quarter, ⟨.e, 4, none⟩, none, false⟩))
  refine ⟨_, hd, ?_, hd.keeps_order ?_, ?_⟩
  · decide +kernel
  · decide +kernel
  · decide +kernel

/-- The timed symbols of the only layer of a score with one measure, a grace note and then a
full-measure rest. -/
theorem Reachable.rest_before_grace : ∃ d : Document ℚ, d.Reachable ∧
    ((Engine.ofOptions .default .default).layout d).fault = none ∧
    ¬ ((Engine.ofOptions .default .default).layout d).document.InOrder := by
  have hlayer := (((Reachable.ofDefinition (α := ℚ) default).contentSystem.add 2
    (.measure (.ofNumber 1))).add 3 (.staff ⟨1, false⟩)).add 4 (.layer 1)
  have hd := (hlayer.add 5 (.element (.note ⟨{ Duration.ofValue .eighth with grace := true },
    ⟨.c, 4, none⟩, none, false⟩))).add 5 (.element (.measureRest true none))
  exact ⟨_, hd, by decide +kernel, by decide +kernel⟩

end Document

end ScoreLayout
