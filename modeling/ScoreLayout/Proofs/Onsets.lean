import ScoreLayout.Proofs.Exact
import ScoreLayout.Proofs.Forest.TwoWalks
import ScoreLayout.Proofs.Layout.MeasureTimes
import ScoreLayout.Proofs.Layout.Shape
import ScoreLayout.Proofs.Reachable

/-!
# Exact onsets

After alignment every symbol of a layer carries its exact time: the sum of the durations before it,
through any nesting of beams and tuplets. The times of a layer never go back, and a measure lasts as
long as its longest layer. What alignment has met as the longest time of a symbol is found again in
the score that it leaves.

## Main definitions

* `Forest.TreeAt` — a tree at its place in document order.
* `Document.Timed` — the times that alignment leaves in a score.

## Main results

* `Document.WellFormed.timed_align`, `Document.Reachable.exact_onsets` — alignment leaves exact times.
* `Document.WellFormed.longest_align`, `Document.Reachable.same_longest` — the longest of them.
-/

namespace ScoreLayout

variable {α : Type}

/-! ### Places in document order -/

/-- A tree of a forest, behind the labels that come before its root in document order. -/
inductive Forest.TreeAt {β : Type} (b : β) (below : Forest β) : List β → Forest β → Prop
  | here (siblings : Forest β) : TreeAt b below [] (cons b below siblings)
  | deeper {a : β} {before : List β} {children : Forest β} (siblings : Forest β)
      (h : TreeAt b below before children) : TreeAt b below (a :: before) (cons a children siblings)
  | beside {a : β} {before : List β} (children : Forest β) {siblings : Forest β}
      (h : TreeAt b below before siblings) :
      TreeAt b below (a :: (children.toList ++ before)) (cons a children siblings)

namespace Forest

theorem HasTree.exists_treeAt {β : Type} {b : β} {below f : Forest β} (h : HasTree b below f) :
    ∃ before, TreeAt b below before f := by
  induction h with
  | here siblings => exact ⟨[], .here siblings⟩
  | deeper siblings _ ih =>
    obtain ⟨before, h⟩ := ih
    exact ⟨_, .deeper siblings h⟩
  | beside c children _ ih =>
    obtain ⟨before, h⟩ := ih
    exact ⟨_, .beside children h⟩

variable {marks : List Mark} {f : Forest (Node α)} {n : Node α} {below : Forest (Node α)}
  {before : List (Node α)}

theorem Nested.of_hasTree (h : HasTree n below f) (hf : f.Nested) :
    (∀ b ∈ below.roots, n.kind.accepts b.kind) ∧ below.Nested := by
  induction h with
  | here => exact ⟨hf.1, hf.2.1⟩
  | deeper _ _ ih => exact ih hf.2.1
  | beside _ _ _ ih => exact ih hf.2.2

theorem LayersTimed.timedFrom (h : TreeAt n below before f) {meter : MeterSig}
    (hf : f.LayersTimed marks meter) (hn : n.tag = .layer) :
    TimedFrom marks (runningMeter meter (before ++ [n])) 0 (below.symbols .one none) := by
  induction h generalizing meter with
  | here siblings => exact hf.1 hn
  | deeper siblings _ ih => exact ih hf.2.1
  | beside children _ ih =>
    rw [List.cons_append, runningMeter_cons, List.append_assoc, runningMeter_append]
    exact ih hf.2.2

theorem MeasuresLast.maxTime (h : HasTree n below f) (hf : f.MeasuresLast) {m : Measure α}
    (hm : n.kind = .measure m) : m.grid.maxTime.value = below.layerEnds.foldl max 0 := by
  induction h with
  | here => exact hf.1 m hm
  | deeper _ _ ih => exact ih hf.2.1
  | beside _ _ _ ih => exact ih hf.2.2

end Forest

/-! ### Times never go back -/

theorem TupletRatio.Nonneg.inside {r : TupletRatio} (h : r.Nonneg) (num base : UInt32) :
    (r.inside num base).Nonneg := by
  rw [TupletRatio.inside]
  split_ifs
  · exact h
  · split
    · rename_i hok
      exact h.combine (Int.natCast_nonneg _) (Int.natCast_nonneg _) hok
    · exact h

theorem Node.nonneg_ratioBelow (n : Node α) {r : TupletRatio} (h : r.Nonneg) :
    (n.ratioBelow r).Nonneg := by
  rw [ratioBelow]
  split
  · exact h.inside _ _
  · exact h

/-- No symbol moves its layer back. -/
theorem Symbol.TimedAt.time_nonneg {x : Symbol α} {marks : List Mark} {meter : MeterSig} {t : ℚ}
    (h : x.TimedAt marks meter t) (hr : x.ratio.Nonneg) : 0 ≤ x.time := by
  rw [Symbol.time]
  split_ifs with hm
  · by_cases hfree : x.element.isGrace ∨ ∃ k ∈ marks, k.RefusesDuration x.node.id
    · rw [h.none hm hfree, Fraction.value_zero]
    · rw [not_or] at hfree
      have hgiven := h.given hm hfree.1 hfree.2
      generalize x.element = e at hgiven
      cases e <;> first
        | exact Duration.value_resolve_nonneg hr (Option.some.inj hgiven)
        | exact Except.ok.inj (Option.some.inj hgiven) ▸ meter.value_measureDuration_nonneg
        | cases hgiven
  · exact le_rfl

/-- The first of two nodes begins no later than the second. -/
def Node.BeginsBy (n n' : Node α) : Prop :=
  ∃ a b, n.layout.onset = some a ∧ n'.layout.onset = some b ∧ a.value ≤ b.value

variable {marks : List Mark} {meter : MeterSig} {t : ℚ}

/-- The notes of a chord begin with it, and move nothing on. -/
theorem onsets_of_notes {f : Forest (Node α)} {r : TupletRatio} {c : Node α} (hf : f.Symbolic)
    (hnotes : ∀ b ∈ f.roots, ∃ note, b.kind = .element (.note note))
    (h : TimedFrom marks meter t (f.symbols r (some c))) :
    (∀ m ∈ f.toList, m.layout.onset = c.layout.onset) ∧
      ((f.symbols r (some c)).map Symbol.time).sum = 0 := by
  induction f generalizing meter t with
  | nil => exact ⟨fun m hm => absurd hm List.not_mem_nil, rfl⟩
  | cons n below siblings _ ih =>
    rw [Forest.roots, List.forall_mem_cons] at hnotes
    obtain ⟨⟨note, hn⟩, hnotes⟩ := hnotes
    obtain rfl := Forest.Symbolic.eq_nil_of_note hn hf.2.1
    rw [Forest.symbols_cons hn, Forest.symbols_nil, List.nil_append] at h ⊢
    obtain ⟨honsets, hsum⟩ := ih hf.2.2.2 hnotes h.2
    refine ⟨?_, ?_⟩
    · simp only [Forest.toList, List.nil_append, List.mem_cons, forall_eq_or_imp]
      exact ⟨(h.1.chord c rfl).1, honsets⟩
    · rw [List.map_cons, List.sum_cons, hsum, add_zero, Symbol.time, if_neg fun hm => by cases hm.2]

/-- The nodes of a layer begin one after another, between its start and its end. -/
theorem onsets_of_timedFrom {f : Forest (Node α)} {r : TupletRatio} (hf : f.Symbolic)
    (hr : r.Nonneg) (h : TimedFrom marks meter t (f.symbols r none)) :
    (∀ m ∈ f.toList, ∃ a, m.layout.onset = some a ∧ t ≤ a.value ∧
        a.value ≤ t + ((f.symbols r none).map Symbol.time).sum) ∧
      f.toList.Pairwise Node.BeginsBy ∧ 0 ≤ ((f.symbols r none).map Symbol.time).sum := by
  induction f generalizing meter t r with
  | nil => exact ⟨fun m hm => absurd hm List.not_mem_nil, .nil, le_rfl⟩
  | cons n below siblings ihbelow ihsiblings =>
    obtain ⟨htag, htakes, hbelow, hsiblings⟩ := hf
    obtain ⟨e, hn⟩ := Node.exists_element htag
    rw [Forest.symbols_cons hn] at h ⊢
    obtain ⟨hfirst, hrest⟩ := h
    obtain ⟨hdeep, hbeside⟩ := timedFrom_append.1 hrest
    obtain ⟨onset, honset, hvalue⟩ := hfirst.onset rfl
    have htime := hfirst.time_nonneg hr
    obtain ⟨hin, hpairs, hsum⟩ : (∀ m ∈ below.toList, ∃ a, m.layout.onset = some a ∧ t ≤ a.value ∧
        a.value ≤ t + Symbol.time ⟨n, e, r, none⟩ +
          ((below.symbols (n.ratioBelow r) n.asChord).map Symbol.time).sum) ∧
        below.toList.Pairwise Node.BeginsBy ∧
          0 ≤ ((below.symbols (n.ratioBelow r) n.asChord).map Symbol.time).sum := by
      by_cases hchord : ∃ d, e = .chord d
      · obtain ⟨d, rfl⟩ := hchord
        have hnotes : ∀ b ∈ below.roots, ∃ note, b.kind = .element (.note note) := fun b hb =>
          NodeKind.exists_note_of_chord (hn ▸ htakes b hb)
        rw [Node.asChord_eq_some hn] at hdeep ⊢
        obtain ⟨hsame, hzero⟩ := onsets_of_notes hbelow hnotes hdeep
        rw [hzero, add_zero]
        refine ⟨fun m hm => ⟨onset, (hsame m hm).trans honset, hvalue.ge, ?_⟩,
          List.pairwise_of_forall_mem_list fun m hm m' hm' => ⟨onset, onset,
            (hsame m hm).trans honset, (hsame m' hm').trans honset, le_rfl⟩, le_rfl⟩
        rw [hvalue]
        exact le_add_of_nonneg_right htime
      · rw [Node.asChord_eq_none hn hchord] at hdeep ⊢
        obtain ⟨hin, hpairs, hsum⟩ := ihbelow hbelow (n.nonneg_ratioBelow hr) hdeep
        refine ⟨fun m hm => ?_, hpairs, hsum⟩
        obtain ⟨a, ha, hle, hend⟩ := hin m hm
        exact ⟨a, ha, (le_add_of_nonneg_right htime).trans hle, hend⟩
    obtain ⟨hin', hpairs', hsum'⟩ := ihsiblings hsiblings hr hbeside
    simp only [List.map_cons, List.map_append, List.sum_cons, List.sum_append, Forest.toList,
      List.mem_cons, List.mem_append, forall_eq_or_imp, List.pairwise_cons, List.pairwise_append]
    refine ⟨⟨⟨onset, honset, hvalue.ge, by linarith⟩, fun m hm => ?_⟩, ⟨fun m hm => ?_, hpairs,
      hpairs', fun m hm m' hm' => ?_⟩, by linarith⟩
    · rcases hm with hm | hm
      · obtain ⟨a, ha, hle, hend⟩ := hin m hm
        exact ⟨a, ha, hle, by linarith⟩
      · obtain ⟨a, ha, hle, hend⟩ := hin' m hm
        exact ⟨a, ha, by linarith, by linarith⟩
    · rcases hm with hm | hm
      · obtain ⟨a, ha, hle, -⟩ := hin m hm
        exact ⟨onset, a, honset, ha, by linarith⟩
      · obtain ⟨a, ha, hle, -⟩ := hin' m hm
        exact ⟨onset, a, honset, ha, by linarith⟩
    · obtain ⟨a, ha, -, hend⟩ := hin m hm
      obtain ⟨b, hb, hle, -⟩ := hin' m' hm'
      exact ⟨a, b, ha, hb, by linarith⟩

/-! ### Alignment -/

namespace Document

/-- The times that alignment leaves in a score that begins under a meter. -/
structure Timed (d : Document α) (marks : List Mark) (meter : MeterSig) : Prop where
  /-- Every symbol of a layer carries the sum of the durations before it. -/
  symbols : ∀ before n below, Forest.TreeAt n below before d.score → n.tag = .layer →
    ∀ front x back, below.symbols .one none = front ++ x :: back →
      x.TimedAt marks (runningMeter meter (before ++ n :: front.map Symbol.node))
        (front.map Symbol.time).sum
  /-- The times of a layer never go back. -/
  ordered : ∀ n below, Forest.HasTree n below d.score → n.tag = .layer →
    below.toList.Pairwise Node.BeginsBy
  /-- A measure lasts as long as its longest layer. -/
  measures : ∀ n below m, Forest.HasTree n below d.score → n.kind = .measure m →
    m.grid.maxTime.value = below.layerEnds.foldl max 0

/-- The score is a tree below the document node. -/
theorem WellFormed.nested_score {d : Document α} (hd : d.WellFormed) : d.score.Nested := by
  obtain ⟨r, below, detached, htrees, -, -⟩ := hd.root
  have hnested := Forest.nested_of_links (f := d.trees) hd.accepts
  rw [htrees] at hnested
  rw [score, htrees]
  exact ⟨hnested.1, hnested.2.1, trivial⟩

theorem WellFormed.isOuter_root {d : Document α} (hd : d.WellFormed) :
    ∀ n ∈ d.score.roots, AlignState.IsOuter n := by
  obtain ⟨r, below, detached, htrees, -, hr⟩ := hd.root
  rw [score, htrees, Forest.first, Forest.tree, Forest.roots, Forest.roots]
  refine List.forall_mem_singleton.2 ?_
  rw [AlignState.IsOuter, hr]
  decide

theorem WellFormed.nodup_score_ids {d : Document α} (hd : d.WellFormed) :
    (d.score.toList.map Node.id).Nodup :=
  hd.ids.sublist ((score_sublist d).map _)

variable [Scalar α]

/-- Only a fault stops alignment. -/
theorem completes_align {c : AlignContext α} {f : Forest (Node α)} {s : AlignState α}
    (h : (f.run (alignPass c) s).1.fault = none) :
    Forest.Completes (alignPass c) none s f (f.run (alignPass c) s).1
      (f.run (alignPass c) s).2.1 := by
  refine Forest.completes_runWithin (alignPass c) f none id s fun hstop => ?_
  have hfault := Forest.runWithin_of_stop (P := fun s : AlignState α => s.fault.isSome)
    (fun s a n hs => s.isSome_fault_of_enter_stop c hs)
    (fun s _ n f hs => s.isSome_fault_of_leave_stop c hs) f none id s hstop
  rw [Forest.run] at h
  rw [h] at hfault
  cases hfault

/-- Alignment that meets no fault walks over the whole score, and then writes the slots of grace
notes. -/
theorem walk_align {d : Document α} {metrics : GlyphMetrics α} {unit : α}
    (hok : (d.align metrics unit).fault = none) {s : AlignState α} {score : Forest (Node α)}
    {v : Visit} (hrun : d.score.run (alignPass ⟨metrics, unit, d⟩) (.start d.definition) =
      (s, score, v)) :
    Forest.Completes (alignPass ⟨metrics, unit, d⟩) none (.start d.definition) d.score s score ∧
      s.fault = none ∧ (d.align metrics unit).marks = s.marks ∧
      (d.align metrics unit).document.stage = .aligned ∧
      (d.align metrics unit).document.score =
        score.map (AlignState.applyGraceSlots s.graceSlots) := by
  have hcompletes := completes_align (c := ⟨metrics, unit, d⟩) (f := d.score)
    (s := .start d.definition)
  rw [align, Outcome.guarded] at hok ⊢
  split at hok
  · exact absurd hok (by simp [Outcome.failed])
  dsimp only [fillGrids] at hok ⊢
  rw [hrun] at hok hcompletes ⊢
  dsimp only at hok hcompletes ⊢
  cases hfault : s.fault with
  | some f =>
    rw [hfault] at hok
    exact absurd hok (by simp [Outcome.failed])
  | none =>
    have hwalk := hcompletes hfault
    have hsame := (AlignState.keeps_completes hwalk).trans
      (Forest.Forall₂.map_right (R := fun _ _ => True)
        (AlignState.applyGraceSlots s.graceSlots) fun _ _ => trivial)
      (T := fun _ _ => True) fun _ _ _ _ _ => trivial
    exact ⟨hwalk, rfl, rfl, rfl, score_withScore hsame⟩

/-- What alignment that meets no fault comes to. -/
theorem exists_align {d : Document α} {metrics : GlyphMetrics α} {unit : α}
    (hok : (d.align metrics unit).fault = none) : ∃ s score,
      Forest.Completes (alignPass ⟨metrics, unit, d⟩) none (.start d.definition) d.score s score ∧
        s.fault = none ∧ (d.align metrics unit).marks = s.marks ∧
        (d.align metrics unit).document.stage = .aligned ∧
        (d.align metrics unit).document.score =
          score.map (AlignState.applyGraceSlots s.graceSlots) :=
  ⟨_, _, walk_align hok rfl⟩

omit [Scalar α] in
theorem sameTiming_applyGraceSlots (n : Node α)
    (slots : List (Handle × SlotKey)) : n.SameTiming (AlignState.applyGraceSlots slots n) := by
  rw [AlignState.applyGraceSlots]
  split
  · exact ⟨rfl, rfl, fun _ => rfl, fun _ => rfl⟩
  · exact .refl n

/-- Alignment that meets no fault leaves exact times. -/
theorem WellFormed.timed_align {d : Document α} (hd : d.WellFormed) {metrics : GlyphMetrics α}
    {unit : α} (hok : (d.align metrics unit).fault = none) :
    (d.align metrics unit).document.Timed (d.align metrics unit).marks
      (Signatures.ofDefinition d.definition).meter := by
  have hnested := ((d.sameTree_align metrics unit).wellFormed hd).nested_score
  obtain ⟨s, score, hwalk, -, hmarks, -, hscore⟩ := exists_align hok
  have htimes := AlignState.times_score hwalk hd.nested_score hd.isOuter_root
    hd.nodup_score_ids (fun g hg => absurd hg List.not_mem_nil) rfl
  obtain ⟨new, hnew, -, htimed⟩ := htimes.timed
  obtain rfl : s.marks = new := hnew
  have htiming : Forest.Forall₂ Node.SameTiming score
      (score.map (AlignState.applyGraceSlots s.graceSlots)) :=
    .map_right _ fun n _ => sameTiming_applyGraceSlots n s.graceSlots
  have hlayers := htiming.layersTimed htimed
  have hmeasures := htiming.measuresLast htimes.measures
  rw [hmarks]
  rw [← hscore] at hlayers hmeasures
  refine ⟨fun before n below h hn => ?_, fun n below h hn => ?_, fun n below m h hm =>
    hmeasures.maxTime h hm⟩
  · intro front x back hsymbols
    have hx := timedFrom_iff.1 (hlayers.timedFrom h hn) front x back hsymbols
    rw [zero_add, ← runningMeter_append, List.append_assoc, List.singleton_append] at hx
    exact hx
  · obtain ⟨before, hat⟩ := h.exists_treeAt
    obtain ⟨htakes, hbelow⟩ := hnested.of_hasTree h
    exact (onsets_of_timedFrom (hbelow.symbolic fun b hb => NodeKind.tag_of_layer hn (htakes b hb))
      TupletRatio.nonneg_one (hlayers.timedFrom hat hn)).2.1

/-- Whatever a caller comes to, alignment that meets no fault leaves exact times. -/
theorem Reachable.exact_onsets {d : Document α} (h : d.Reachable) {metrics : GlyphMetrics α}
    {unit : α} (hok : (d.align metrics unit).fault = none) :
    (d.align metrics unit).document.Timed (d.align metrics unit).marks
      (Signatures.ofDefinition d.definition).meter :=
  h.wellFormed.timed_align hok

/-- A chord of eighths inside a triplet, behind an eighth of it and before a note without a
duration. -/
theorem Reachable.exact_onsets_of_triplet : ∃ d : Document ℚ, d.Reachable ∧
    (d.align .default 9).fault = none ∧
    (d.align .default 9).document.Timed (d.align .default 9).marks
      (Signatures.ofDefinition d.definition).meter ∧
    ((d.align .default 9).document.score.toList.filter fun n => n.tag = .element).map
      (fun n => n.layout.onset.map Fraction.value) =
        [some 0, some 0, some (1 / 12), some (1 / 12), some (1 / 6)] := by
  have hlayer := (((Reachable.ofDefinition (α := ℚ) default).contentSystem.add 2
    (.measure (.ofNumber 1))).add 3 (.staff ⟨1, false⟩)).add 4 (.layer 1)
  have hd := ((((hlayer.add 5 (.element (.tuplet 3 2))).add 6
    (.element (.note ⟨.ofValue .eighth, ⟨.c, 4, none⟩, none, false⟩))).add 6
    (.element (.chord (.ofValue .eighth)))).add 8
    (.element (.note ⟨.empty, ⟨.e, 4, none⟩, none, false⟩))).add 5
    (.element (.note ⟨.empty, ⟨.c, 4, none⟩, none, false⟩))
  have hprepared := hd.pass .default .prepare (by decide +kernel)
  refine ⟨_, hprepared, ?_, hprepared.exact_onsets ?_, ?_⟩
  · decide +kernel
  · decide +kernel
  · decide +kernel

/-! ### The longest time -/

omit [Scalar α] in
/-- The longest time of a score, by value. -/
theorem WellFormed.value_longest {d : Document α} (hd : d.WellFormed) :
    d.longest.value = longestOf 0 d.score.toList := by
  obtain ⟨r, pages, hshape⟩ := hd.exists_shape
  have hroot : ¬ r.isTimed := Node.not_isTimed_of_tag (by rw [hshape.root_tag]; decide)
  have hvalue (l : List (Node α)) (a : Fraction) :
      ((l.map fun n => n.layout.duration).foldl Fraction.max a).value =
        (l.map fun n => n.layout.duration.value).foldl max a.value := by
    induction l generalizing a with
    | nil => rfl
    | cons n l ih => rw [List.map_cons, List.foldl_cons, ih, Fraction.value_max]; rfl
  -- whatever is timed is a symbol
  have hfilter : (pages.toList.filter fun n => n.tag = .element).filter Node.isTimed =
      pages.toList.filter Node.isTimed := by
    rw [List.filter_filter]
    refine List.filter_congr fun n _ => ?_
    by_cases hn : n.tag = .element
    · simp [hn]
    · simp [hn, Node.not_isTimed_of_tag hn]
  rw [longest, hvalue, hshape.nodesOfKind_eq, hfilter, hshape.score, Forest.toList_tree,
    longestOf_cons, longestOf_of_untimed hroot, Fraction.value_zero]
  rfl

/-- The longest time that alignment has met is the longest one of the score that it leaves. -/
theorem WellFormed.longest_align {d : Document α} (hd : d.WellFormed) {metrics : GlyphMetrics α}
    {unit : α} (hok : (d.align metrics unit).fault = none) :
    (d.fillGrids metrics unit).1.longest.Same (d.align metrics unit).document.longest := by
  obtain ⟨hwalk, -, -, -, hscore⟩ := walk_align hok rfl
  have htimes := AlignState.times_score hwalk hd.nested_score hd.isOuter_root
    hd.nodup_score_ids (fun g hg => absurd hg List.not_mem_nil) rfl
  have hlongest := htimes.longest Fraction.value_zero.ge
  rw [Fraction.same_iff_value, ((d.sameTree_align metrics unit).wellFormed hd).value_longest, hscore,
    longestOf_eq_of_sameTiming (Forest.Forall₂.map_right (R := Node.SameTiming) _ fun n _ =>
      sameTiming_applyGraceSlots n _).toList]
  exact hlongest.trans (congrArg (longestOf · _) Fraction.value_zero)

/-- Whatever a caller comes to, the score that alignment leaves has the longest time that alignment
has met. -/
theorem Reachable.same_longest {d : Document α} (h : d.Reachable) {metrics : GlyphMetrics α}
    {unit : α} (hok : (d.align metrics unit).fault = none) :
    (d.fillGrids metrics unit).1.longest.Same (d.align metrics unit).document.longest :=
  h.wellFormed.longest_align hok

/-- A beam over an eighth and a whole chord in a triplet, and behind it a note without a duration. -/
theorem Reachable.same_longest_of_chord : ∃ d : Document ℚ, d.Reachable ∧
    (d.align .default 9).fault = none ∧
    (d.fillGrids .default 9).1.longest.Same (d.align .default 9).document.longest ∧
    ((d.align .default 9).document.score.toList.filter fun n => n.tag = .element).map
      (fun n => n.layout.duration.value) = [19 / 24, 1 / 8, 2 / 3, 2 / 3, 0, 0] := by
  have hlayer := (((Reachable.ofDefinition (α := ℚ) default).contentSystem.add 2
    (.measure (.ofNumber 1))).add 3 (.staff ⟨1, false⟩)).add 4 (.layer 1)
  have hd := (((((hlayer.add 5 (.element .beam)).add 6
    (.element (.note ⟨.ofValue .eighth, ⟨.c, 4, none⟩, none, false⟩))).add 6
    (.element (.tuplet 3 2))).add 8 (.element (.chord (.ofValue .whole)))).add 9
    (.element (.note ⟨.empty, ⟨.e, 4, none⟩, none, false⟩))).add 5
    (.element (.note ⟨.empty, ⟨.c, 4, none⟩, none, false⟩))
  have hprepared := hd.pass .default .prepare (by decide +kernel)
  refine ⟨_, hprepared, ?_, hprepared.same_longest ?_, ?_⟩
  · decide +kernel
  · decide +kernel
  · decide +kernel

end Document

end ScoreLayout
