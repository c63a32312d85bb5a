import ScoreLayout.Proofs.ElementSlots

/-!
# Refused symbols

Alignment reports every symbol that it refuses once, in document order, and nothing else: symbols
whose durations cannot be resolved, symbols that lead their layers too far, and tuplets whose ratios
count for nothing. A refused symbol takes no time, but it has its slot, and the layer goes on behind
it.

## Main definitions

* `Forest.Refuses` — the symbols of a forest that are refused.
* `Document.ReportsRefusals` — what alignment reports of a score and records in it.

## Main results

* `Forest.Reported.map_node_eq` — marks name the refused symbols, one after another.
* `Document.Reachable.reportsRefusals` — the refused symbols of whatever a caller comes to.
-/

namespace ScoreLayout

variable {α : Type}

/-- A part of a list without repetitions is what is filtered from it by membership. -/
theorem eq_filter_of_sublist {β : Type} {l m : List β} (h : l.Sublist m) (hm : m.Nodup)
    {p : β → Prop} [DecidablePred p] (hp : ∀ b ∈ m, b ∈ l ↔ p b) : l = m.filter fun b => p b := by
  induction h with
  | slnil => rfl
  | @cons l m b h ih =>
    rw [List.nodup_cons] at hm
    rw [List.forall_mem_cons] at hp
    rw [List.filter_cons_of_neg (by simpa using mt hp.1.2 fun hb => hm.1 (h.subset hb))]
    exact ih hm.2 hp.2
  | @cons_cons l m b h ih =>
    rw [List.nodup_cons] at hm
    rw [List.forall_mem_cons] at hp
    rw [List.filter_cons_of_pos (by simpa using hp.1.1 List.mem_cons_self)]
    refine congrArg _ (ih hm.2 fun c hc => ?_)
    rw [← hp.2 c hc, List.mem_cons, or_iff_right fun heq : c = b => hm.1 (heq ▸ hc)]

theorem mem_refusals_iff {marks : List Mark} {id : String} :
    some id ∈ (refusals marks).map Mark.node ↔ Refused marks id := by
  rw [List.mem_map]
  constructor
  · rintro ⟨k, hk, hid⟩
    obtain ⟨hk, hkind⟩ := List.mem_filter.1 hk
    exact ⟨k, hk, hid, of_decide_eq_true hkind⟩
  · rintro ⟨k, hk, hid, hkind⟩
    exact ⟨k, List.mem_filter.2 ⟨hk, decide_eq_true hkind⟩, hid⟩

/-- A grace note asks for a time of zero. -/
theorem Element.given_of_isGrace {e : Element} (he : e.isGrace) (ratio : TupletRatio)
    (meter : MeterSig) : e.given ratio meter = some (.ok 0) := by
  cases e <;> simp_all [isGrace, duration?, given, Duration.advance]

/-- Apart from grace notes, symbols ask for the time that they are written with. -/
theorem Element.given_eq_time? {e : Element} (he : ¬ e.isGrace) (ratio : TupletRatio)
    (meter : MeterSig) : e.given ratio meter = e.time? ratio meter := by
  cases e <;> simp_all [isGrace, duration?, given, time?, Duration.advance]

/-- What moves its layer on is no group without a time of its own. -/
theorem Symbol.MovesOn.not_isGroup {x : Symbol α} (h : x.MovesOn)
    (hx : x.node.kind = .element x.element) : ¬ x.node.IsGroup := by
  have htime := h.1
  rintro (hk | ⟨num, base, hk⟩) <;>
  · rw [NodeKind.element.inj (hx.symm.trans hk)] at htime
    cases htime

/-! ### The symbols of a forest -/

namespace Forest

/-- Whether the symbol with an identifier is refused, in a forest that is reached under a meter. -/
def Refuses (f : Forest (Node α)) (meter : MeterSig) (id : String) : Prop :=
  ∃ before layer below, TreeAt layer below before f ∧ layer.tag = .layer ∧
    ∃ front x back, below.symbols .one none = front ++ x :: back ∧ x.node.id = id ∧
      x.IsRefused (runningMeter meter (before ++ layer :: front.map Symbol.node))

theorem TreeAt.hasTree {β : Type} {b : β} {below f : Forest β} {before : List β}
    (h : TreeAt b below before f) : HasTree b below f := by
  induction h with
  | here siblings => exact .here siblings
  | deeper siblings _ ih => exact .deeper siblings ih
  | beside children _ ih => exact .beside _ children ih

variable {f below siblings : Forest (Node α)} {n : Node α} {meter : MeterSig} {id : String}

theorem refuses_nil : ¬ (nil : Forest (Node α)).Refuses meter id := by
  rintro ⟨before, layer, under, h, -⟩
  cases h

theorem refuses_cons : (cons n below siblings).Refuses meter id ↔
    (n.tag = .layer ∧ ∃ front x back, below.symbols .one none = front ++ x :: back ∧
      x.node.id = id ∧ x.IsRefused (runningMeter (n.meterAfter meter) (front.map Symbol.node))) ∨
    below.Refuses (n.meterAfter meter) id ∨
      siblings.Refuses (runningMeter (n.meterAfter meter) below.toList) id := by
  constructor
  · rintro ⟨before, layer, under, h, hlayer, hx⟩
    cases h with
    | here => exact .inl ⟨hlayer, hx⟩
    | deeper _ h => exact .inr (.inl ⟨_, layer, under, h, hlayer, hx⟩)
    | beside _ h =>
      refine .inr (.inr ⟨_, layer, under, h, hlayer, ?_⟩)
      simpa only [List.cons_append, List.append_assoc, runningMeter_cons, runningMeter_append] using hx
  · rintro (⟨hlayer, hx⟩ | ⟨before, layer, under, h, hlayer, hx⟩ |
      ⟨before, layer, under, h, hlayer, hx⟩)
    · exact ⟨[], n, below, .here siblings, hlayer, hx⟩
    · exact ⟨n :: before, layer, under, .deeper siblings h, hlayer, hx⟩
    · refine ⟨_, layer, under, .beside below h, hlayer, ?_⟩
      simpa only [List.cons_append, List.append_assoc, runningMeter_cons, runningMeter_append] using hx

/-- Among symbols there is no layer. -/
theorem Symbolic.not_refuses (hf : f.Symbolic) : ¬ f.Refuses meter id := by
  rintro ⟨before, layer, under, h, hlayer, -⟩
  exact absurd ((hf.tag layer h.hasTree.mem).symm.trans hlayer) (by decide)

namespace Reported

variable {marks : List Mark}

/-- The symbols that marks name are those that are refused. -/
theorem mem_iff (h : f.Reported meter marks) (hf : f.Nested) :
    some id ∈ marks.map Mark.node ↔ f.Refuses meter id := by
  induction h with
  | nil => exact iff_of_false List.not_mem_nil refuses_nil
  | @layer meter n below siblings deep beside hn hbelow _ ih =>
    have hsymbolic := hf.2.1.symbolic fun b hb => NodeKind.tag_of_layer hn (hf.1 b hb)
    have hnone : ¬ below.Refuses (n.meterAfter meter) id := hsymbolic.not_refuses
    rw [refuses_cons, List.map_append, List.mem_append, ih hf.2.2, hbelow.mem_iff, and_iff_right hn,
      or_iff_right hnone]
  | @frame meter n below siblings deep beside hn _ _ ihbelow ihsiblings =>
    rw [refuses_cons, List.map_append, List.mem_append, ihbelow hf.2.1, ihsiblings hf.2.2,
      or_iff_right fun h : n.tag = .layer ∧ _ => hn h.1]

/-- Marks come in document order. -/
theorem sublist (h : f.Reported meter marks) (hf : f.Nested) :
    (marks.map Mark.node).Sublist (f.toList.map fun n => some n.id) := by
  induction h with
  | nil => exact .slnil
  | @layer meter n below siblings deep beside hn hbelow _ ih =>
    have hsymbolic := hf.2.1.symbolic fun b hb => NodeKind.tag_of_layer hn (hf.1 b hb)
    rw [toList, List.map_cons, List.map_append, List.map_append,
      ← map_node_symbols hsymbolic.tag .one none, List.map_map]
    exact (hbelow.sublist.append (ih hf.2.2)).cons _
  | frame _ _ _ ihbelow ihsiblings =>
    rw [toList, List.map_cons, List.map_append, List.map_append]
    exact ((ihbelow hf.2.1).append (ihsiblings hf.2.2)).cons _

open Classical in
/-- Marks name the refused symbols, one after another. -/
theorem map_node_eq (h : f.Reported meter marks) (hf : f.Nested)
    (hids : (f.toList.map Node.id).Nodup) : marks.map Mark.node =
      (f.toList.filter fun n => f.Refuses meter n.id).map fun n => some n.id := by
  have hnodup : (f.toList.map fun n => some n.id).Nodup := by
    have := hids.map (Option.some_injective String)
    rwa [List.map_map] at this
  rw [eq_filter_of_sublist (h.sublist hf) hnodup (p := fun i => ∃ id, i = some id ∧ f.Refuses meter id)
    fun i hi => ?_, List.filter_map]
  · refine congrArg _ (List.filter_congr fun n _ => ?_)
    simp
  · obtain ⟨n, -, rfl⟩ := List.mem_map.1 hi
    simp [← h.mem_iff hf]

end Reported

end Forest

namespace Document

/-- What alignment reports of a score that begins under a meter, and what it records on its symbols.
Among its marks on durations there is one for each refused symbol, in document order. A refused symbol
takes no time and has a slot all the same; any other takes what it asks for, and layers go on behind
both alike. -/
structure ReportsRefusals (d : Document α) (marks : List Mark) (meter : MeterSig) : Prop where
  marked : open Classical in (refusals marks).map Mark.node =
    (d.score.toList.filter fun n => d.score.Refuses meter n.id).map fun n => some n.id
  once : ((refusals marks).map Mark.node).Nodup
  refused : ∀ layer below, Forest.HasTree layer below d.score → layer.tag = .layer →
    ∀ x ∈ below.symbols .one none, x.MovesOn → d.score.Refuses meter x.node.id →
      x.node.layout.duration = 0 ∧ ∃ n children m key, Forest.HasTree n children d.score ∧
        n.kind = .measure m ∧ x.node ∈ children.toList ∧ x.node.layout.slot = some key ∧ m.grid.Has key
  taken : ∀ before layer below, Forest.TreeAt layer below before d.score → layer.tag = .layer →
    ∀ front x back, below.symbols .one none = front ++ x :: back → x.MovesOn →
      ¬ d.score.Refuses meter x.node.id →
        x.element.given x.ratio (runningMeter meter (before ++ layer :: front.map Symbol.node)) =
          some (.ok x.node.layout.duration)
  onsets : ∀ layer below, Forest.HasTree layer below d.score → layer.tag = .layer →
    ∀ front x back, below.symbols .one none = front ++ x :: back → x.chord = none →
      ∃ onset, x.node.layout.onset = some onset ∧ onset.value = (front.map Symbol.time).sum

variable [Scalar α] {d : Document α} {metrics : GlyphMetrics α} {unit : α}

/-- The marks of alignment that meets no fault. -/
theorem WellFormed.reported_align (hd : d.WellFormed) (hok : (d.align metrics unit).fault = none) :
    (d.align metrics unit).document.score.Reported (Signatures.ofDefinition d.definition).meter
      (refusals (d.align metrics unit).marks) := by
  obtain ⟨s, score, hwalk, -, hmarks, -, hscore⟩ := exists_align hok
  obtain ⟨new, hnew, hreported⟩ := (AlignState.times_score hwalk hd.nested_score hd.isOuter_root
    hd.nodup_score_ids (fun g hg => absurd hg List.not_mem_nil) rfl).reports
  obtain rfl : s.marks = new := hnew
  have htiming : Forest.Forall₂ Node.SameTiming score
      (score.map (AlignState.applyGraceSlots s.graceSlots)) :=
    .map_right _ fun n _ => sameTiming_applyGraceSlots n s.graceSlots
  rw [hmarks, hscore]
  exact htiming.reported hreported

/-- The refused symbols of whatever a caller comes to. -/
theorem Reachable.reportsRefusals (h : d.Reachable) (hok : (d.align metrics unit).fault = none) :
    (d.align metrics unit).document.ReportsRefusals (d.align metrics unit).marks
      (Signatures.ofDefinition d.definition).meter := by
  have hwf := (d.sameTree_align metrics unit).wellFormed h.wellFormed
  have hreported := h.wellFormed.reported_align hok
  have htimed := h.wellFormed.timed_align hok
  have hrefused (id : String) : Refused (d.align metrics unit).marks id ↔
      (d.align metrics unit).document.score.Refuses (Signatures.ofDefinition d.definition).meter id :=
    mem_refusals_iff.symm.trans (hreported.mem_iff hwf.nested_score)
  have hmarked := hreported.map_node_eq hwf.nested_score hwf.nodup_score_ids
  refine ⟨hmarked, ?_, fun layer below htree hlayer x hx hmoves hrefuses => ?_,
    fun before layer below hat hlayer front x back hx hmoves htaken => ?_,
    fun layer below htree hlayer front x back hx hchord => ?_⟩
  · refine ((hreported.sublist hwf.nested_score).nodup ?_)
    have := hwf.nodup_score_ids.map (Option.some_injective String)
    rwa [List.map_map] at this
  · obtain ⟨before, hat⟩ := htree.exists_treeAt
    obtain ⟨front, back, hsplit⟩ := List.append_of_mem hx
    obtain ⟨n, children, m, hn, hm, hlayer'⟩ := hwf.exists_measure htree hlayer
    have hmem := Forest.mem_of_mem_symbols hx
    obtain ⟨key, hkey, -, hhas, -⟩ := (h.slotted_align hok).symbols n children m hn hm x.node
      (hlayer'.mem_of_mem hmem) (by rw [Node.tag, Forest.kind_of_mem_symbols hx]; rfl)
        (hmoves.not_isGroup (Forest.kind_of_mem_symbols hx))
    exact ⟨(htimed.symbols before layer below hat hlayer front x back hsplit).none hmoves
      (.inr ((hrefused _).2 hrefuses)), n, children, m, key, hn, hm, hlayer'.mem_of_mem hmem, hkey, hhas⟩
  · have hx := htimed.symbols before layer below hat hlayer front x back hx
    by_cases hgrace : x.element.isGrace
    · rw [hx.none hmoves (.inl hgrace)]
      exact Element.given_of_isGrace hgrace _ _
    · rw [Element.given_eq_time? hgrace]
      exact hx.given hmoves hgrace (mt (hrefused _).1 htaken)
  · obtain ⟨before, hat⟩ := htree.exists_treeAt
    exact (htimed.symbols before layer below hat hlayer front x back hx).onset hchord

/-- A note without a duration, a longest time in a tuplet with a zero term, and a quarter note that no
time is left for. -/
theorem Reachable.reportsRefusals_of_three_failures : ∃ d : Document ℚ, d.Reachable ∧
    (d.align .default 9).fault = none ∧
    (d.align .default 9).document.ReportsRefusals (d.align .default 9).marks
      (Signatures.ofDefinition d.definition).meter ∧
    ((d.align .default 9).document.score.toList.filter fun n => n.tag = .element).map (fun n =>
        (((refusals (d.align .default 9).marks).map Mark.node).count (some n.id),
          n.layout.onset.map Fraction.value, n.layout.duration.value)) =
      [(1, some 0, 0), (1, some 0, 2 ^ 63 - 1), (0, some 0, 2 ^ 63 - 1), (1, some (2 ^ 63 - 1), 0)] := by
  have hlayer := (((Reachable.ofDefinition (α := ℚ) default).contentSystem.add 2
    (.measure (.ofNumber 1))).add 3 (.staff ⟨1, false⟩)).add 4 (.layer 1)
  have hd := (((hlayer.add 5 (.element (.note ⟨.empty, ⟨.c, 4, none⟩, none, false⟩))).add 5
    (.element (.tuplet 0 2))).add 7 (.element (.note ⟨{ Duration.empty with
      performed := some (.ofWord (2 ^ 63 - 1) (by decide)) }, ⟨.d, 4, none⟩, none, false⟩))).add 5
    (.element (.note ⟨.ofValue .quarter, ⟨.e, 4, none⟩, none, false⟩))
  have hprepared := hd.pass .default .prepare (by decide +kernel)
  refine ⟨_, hprepared, ?_, hprepared.reportsRefusals ?_, ?_⟩
  · decide +kernel
  · decide +kernel
  · decide +kernel

end Document

end ScoreLayout
