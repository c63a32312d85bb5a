import ScoreLayout.Proofs.ElementSlots
import ScoreLayout.Proofs.Layout.TwinLayouts

/-!
# Score time

The time of a symbol since the start of the score adds the lengths of the measures before its own to
its onset, one checked sum after another. Onsets lie within their measures, so score time never goes
back: neither along a layer nor over a bar line, however long the layers of a measure are.

## Main definitions

* `Forest.Clocked` — the onsets of a measure lie between its start and its end.
* `Document.SoundsAt` — the time of one symbol since the start of the score.
* `Document.TellsTime` — score time is exact, and it never goes back.

## Main results

* `Document.fromAlignment_clocked` — onsets lie within their measures from alignment on.
* `Document.Reachable.tellsTime` — the score time of whatever a caller comes to.
-/

namespace ScoreLayout

variable {α : Type}

/-- Two members of a list without repetitions that belong to a part of it stand there in the same
order. -/
theorem sublist_pair_of_nodup {β : Type} {l₁ l : List β} (h : l₁.Sublist l) (hl : l.Nodup)
    {a b : β} (hab : [a, b].Sublist l) (ha : a ∈ l₁) (hb : b ∈ l₁) : [a, b].Sublist l₁ := by
  induction h with
  | slnil => exact hab
  | cons c hsub ih =>
    rw [List.nodup_cons] at hl
    cases hab with
    | cons _ hab => exact ih hl.2 hab ha hb
    | cons_cons _ hab => exact absurd (hsub.subset ha) hl.1
  | @cons_cons l₁ l c hsub ih =>
    rw [List.nodup_cons] at hl
    have hrest {x : β} (hx : x ∈ c :: l₁) (hmem : x ∈ l) : x ∈ l₁ :=
      (List.mem_cons.1 hx).resolve_left fun heq => hl.1 (heq ▸ hmem)
    cases hab with
    | cons _ hab =>
      exact (ih hl.2 hab (hrest ha (hab.subset List.mem_cons_self))
        (hrest hb (hab.subset (by simp)))).cons c
    | cons_cons _ hab =>
      exact (List.singleton_sublist.2 (hrest hb (hab.subset List.mem_cons_self))).cons_cons _

/-! ### Onsets within their measures -/

/-- The onsets of a measure lie between its start and its end. -/
structure Forest.Clocked (f : Forest (Node α)) : Prop where
  length : ∀ n below m, HasTree n below f → n.kind = .measure m → 0 ≤ m.grid.maxTime.value
  within : ∀ n below m, HasTree n below f → n.kind = .measure m → ∀ x ∈ below.toList,
    x.tag = .element → ∃ a, x.layout.onset = some a ∧ 0 ≤ a.value ∧ a.value ≤ m.grid.maxTime.value

namespace Document

variable {d : Document α}

/-! ### Queries -/

/-- The closest node of a kind above a node. -/
theorem WellFormed.ancestorOfKind?_eq (hd : d.WellFormed) {n : Node α} {below : Forest (Node α)}
    (hn : Forest.HasTree n below d.score) {a : Node α} (ha : a ∈ below.toList)
    (hbetween : ∀ c ∈ below.toList, c.tag ≠ n.tag) : d.ancestorOfKind? a.handle n.tag = some n := by
  have htree : Forest.HasTree n below d.trees := by
    rw [← first_append_rest d.trees]
    exact hn.append_left _
  obtain ⟨l, above, heq, hl⟩ := htree.ancestors?_eq Node.handle hd.nodup_handles ha
  have hfound : d.trees.ancestors? (hasHandle a.handle) = some (l ++ n :: above) := heq
  rw [ancestorOfKind?, ancestors, hfound, Option.getD_some, List.find?_append,
    List.find?_eq_none.2 fun c hc => by simpa using hbetween c (hl c hc),
    List.find?_cons_of_pos (by simp)]
  rfl

/-- The measures before a measure. -/
theorem WellFormed.measuresBefore?_eq (hd : d.WellFormed) {front back : List (Node α)} {n : Node α}
    (h : d.measures = front ++ n :: back) : d.measuresBefore? n.handle = some front := by
  have hnodup : (d.measures.map Node.handle).Nodup := by
    rw [measures, hd.nodesOfKind_eq_filter (by decide)]
    exact hd.nodup_handles.sublist ((List.filter_sublist.trans d.content_sublist).map Node.handle)
  rw [h, List.map_append, List.map_cons, List.nodup_append] at hnodup
  have hfront : ∀ m ∈ front, decide (m.handle ≠ n.handle) := fun m hm =>
    decide_eq_true (hnodup.2.2 _ (List.mem_map_of_mem hm) _ List.mem_cons_self)
  rw [measuresBefore?, h, if_pos (by simp [hasHandle]), List.takeWhile_append_of_pos hfront,
    List.takeWhile_cons_of_neg (by simp), List.append_nil]

/-- Lengths are summed up exactly. -/
theorem value_of_foldlM_add? {nodes : List (Node α)} {start total : Fraction}
    (h : nodes.foldlM (fun time n => time.add? (lengthOf n)) start = some total) :
    total.value = start.value + (nodes.map fun n => (lengthOf n).value).sum := by
  induction nodes generalizing start with
  | nil =>
    obtain rfl := Option.some.inj h
    rw [List.map_nil, List.sum_nil, add_zero]
  | cons n nodes ih =>
    rw [List.foldlM_cons, Option.bind_eq_bind, Option.bind_eq_some_iff] at h
    obtain ⟨time, htime, hrest⟩ := h
    rw [ih hrest, Fraction.value_of_add? htime, List.map_cons, List.sum_cons, add_assoc]

/-- Lengths have no sum only if one of the sums on the way is refused. -/
theorem refused_of_foldlM_add? {nodes : List (Node α)} {start : Fraction}
    (h : nodes.foldlM (fun time n => time.add? (lengthOf n)) start = none) :
    ∃ before n after time, nodes = before ++ n :: after ∧
      before.foldlM (fun time n => time.add? (lengthOf n)) start = some time ∧
        time.add? (lengthOf n) = none := by
  induction nodes generalizing start with
  | nil => cases h
  | cons n nodes ih =>
    rw [List.foldlM_cons, Option.bind_eq_bind] at h
    cases htime : start.add? (lengthOf n) with
    | none => exact ⟨[], n, nodes, start, rfl, rfl, htime⟩
    | some time =>
      rw [htime, Option.bind_some] at h
      obtain ⟨before, k, after, time', rfl, hbefore, hk⟩ := ih h
      refine ⟨n :: before, k, after, time', rfl, ?_, hk⟩
      rw [List.foldlM_cons, htime]
      exact hbefore

/-- The time of one symbol since the start of the score: the lengths of the measures before its own
and its onset, summed up exactly. There is none only if one of these sums is refused. -/
structure SoundsAt (d : Document α) (n : Node α) (front : List (Node α)) (onset : Fraction) : Prop where
  time : d.timeOf? n.id = some onset
  sum : ∀ t, d.scoreTimeOf? n.id = some t →
    t.value = (front.map fun m => (lengthOf m).value).sum + onset.value
  refused : d.scoreTimeOf? n.id = none →
    (∃ before m after start, front = before ++ m :: after ∧ totalLength? before = some start ∧
      start.add? (lengthOf m) = none) ∨
    ∃ start, totalLength? front = some start ∧ start.add? onset = none

theorem WellFormed.soundsAt (hd : d.WellFormed) (hs : .aligned ≤ d.stage) {e n : Node α}
    (he : e ∈ d.score.toList) {onset : Fraction} (honset : e.layout.onset = some onset)
    (hn : d.ancestorOfKind? e.handle .measure = some n) {front back : List (Node α)}
    (hmeasures : d.measures = front ++ n :: back) : d.SoundsAt e front onset := by
  have hlive : d.liveNode? e.id = some e := by
    rw [hd.liveNode?_eq, Forest.find?_eq_find?_toList]
    exact (find?_key_eq_some_iff hd.nodup_score_ids).2 ⟨he, rfl⟩
  have htime : d.timeOf? e.id = some onset := by
    rw [timeOf?, if_pos hs, hlive, Option.bind_some, honset]
  have hscore : d.scoreTimeOf? e.id = (totalLength? front).bind fun start => start.add? onset := by
    simp only [scoreTimeOf?, htime, hlive, hn, hd.measuresBefore?_eq hmeasures, Option.bind_eq_bind,
      Option.bind_some]
  refine ⟨htime, fun t ht => ?_, fun hnone => ?_⟩
  · rw [hscore, Option.bind_eq_some_iff] at ht
    obtain ⟨start, hstart, ht⟩ := ht
    rw [Fraction.value_of_add? ht, value_of_foldlM_add? hstart, Fraction.value_zero, zero_add]
  · rw [hscore] at hnone
    cases hstart : totalLength? front with
    | none => exact .inl (refused_of_foldlM_add? hstart)
    | some start => exact .inr ⟨start, rfl, by rwa [hstart] at hnone⟩

/-! ### Times never go back -/

/-- Score time is exact, and it never goes back, neither from measure to measure nor along a layer. -/
structure TellsTime (d : Document α) : Prop where
  exact : ∀ e ∈ d.score.toList, e.tag = .element → ∃ n front back onset,
    d.ancestorOfKind? e.handle .measure = some n ∧ d.measures = front ++ n :: back ∧
      e.layout.onset = some onset ∧ d.SoundsAt e front onset
  across : ∀ a ∈ d.score.toList, ∀ b ∈ d.score.toList, a.tag = .element → b.tag = .element →
    ∀ n n', d.ancestorOfKind? a.handle .measure = some n →
      d.ancestorOfKind? b.handle .measure = some n' → [n, n'].Sublist d.measures →
        ∀ t t', d.scoreTimeOf? a.id = some t → d.scoreTimeOf? b.id = some t' → t.value ≤ t'.value
  along : ∀ a b, [a, b].Sublist d.score.toList → a.tag = .element → b.tag = .element →
    d.ancestorOfKind? a.handle .layer = d.ancestorOfKind? b.handle .layer →
      ∀ t t', d.scoreTimeOf? a.id = some t → d.scoreTimeOf? b.id = some t' → t.value ≤ t'.value

/-- The measure around a layer of the score. -/
theorem WellFormed.exists_measureAbove (hd : d.WellFormed) {k : Node α} {under : Forest (Node α)}
    (hk : Forest.HasTree k under d.score) (hlayer : k.tag = .layer) : ∃ n below m front back,
      Forest.HasTree n below d.content ∧ n.kind = .measure m ∧ Forest.HasTree k under below ∧
        d.measures = front ++ n :: back ∧
          ∀ e ∈ below.toList, d.ancestorOfKind? e.handle .measure = some n := by
  obtain ⟨n, below, m, hn, hm, hbelow⟩ := hd.exists_measure hk hlayer
  have htag : n.tag = .measure := by rw [Node.tag, hm]; rfl
  obtain ⟨r, pages, hshape⟩ := hd.exists_shape
  have hcontent := hshape.hasTree_content hn htag
  have hmem : n ∈ d.measures := by
    rw [measures, hd.nodesOfKind_eq_filter (by decide), List.mem_filter]
    exact ⟨hcontent.mem, decide_eq_true htag⟩
  obtain ⟨front, back, hmeasures⟩ := List.append_of_mem hmem
  refine ⟨n, below, m, front, back, hcontent, hm, hbelow, hmeasures, fun e he => ?_⟩
  have habove := hd.ancestorOfKind?_eq hn he (htag ▸ hd.nested_score.tag_ne_measure_below hn htag)
  rwa [htag] at habove

/-- The layer around a symbol of the score. -/
theorem WellFormed.exists_layerAbove (hd : d.WellFormed) {e : Node α} (he : e ∈ d.score.toList)
    (htag : e.tag = .element) : ∃ k under, Forest.HasTree k under d.score ∧ k.tag = .layer ∧
      e ∈ under.toList ∧ d.ancestorOfKind? e.handle .layer = some k := by
  obtain ⟨children, htree⟩ := Forest.exists_hasTree he
  obtain ⟨k, under, hk, hlayer, hunder⟩ := hd.exists_layer htree htag
  obtain ⟨htakes, hnested⟩ := hd.nested_score.of_hasTree hk
  have hsymbolic := hnested.symbolic fun b hb => NodeKind.tag_of_layer hlayer (htakes b hb)
  have habove := hd.ancestorOfKind?_eq hk hunder.mem fun c hc => by
    rw [hsymbolic.tag c hc, hlayer]
    decide
  rw [hlayer] at habove
  exact ⟨k, under, hk, hlayer, hunder.mem, habove⟩

/-- The place of a symbol of the score in its measure. -/
theorem WellFormed.exists_clocked (hd : d.WellFormed) (hclocked : d.content.Clocked) {e : Node α}
    (he : e ∈ d.score.toList) (htag : e.tag = .element) : ∃ n m front back onset,
      n.kind = .measure m ∧ d.ancestorOfKind? e.handle .measure = some n ∧
        d.measures = front ++ n :: back ∧ e.layout.onset = some onset ∧ 0 ≤ onset.value ∧
          onset.value ≤ m.grid.maxTime.value := by
  obtain ⟨k, under, hk, hlayer, hunder, -⟩ := hd.exists_layerAbove he htag
  obtain ⟨n, below, m, front, back, hn, hm, hbelow, hmeasures, habove⟩ :=
    hd.exists_measureAbove hk hlayer
  have hmem := hbelow.mem_of_mem hunder
  obtain ⟨onset, honset, hlow, hhigh⟩ := hclocked.within n below m hn hm e hmem htag
  exact ⟨n, m, front, back, onset, hm, habove e hmem, hmeasures, honset, hlow, hhigh⟩

/-- No measure has a negative length. -/
theorem WellFormed.lengthOf_nonneg (hd : d.WellFormed) (hclocked : d.content.Clocked) {n : Node α}
    (hn : n ∈ d.measures) : 0 ≤ (lengthOf n).value := by
  rw [measures, hd.nodesOfKind_eq_filter (by decide), List.mem_filter, decide_eq_true_iff] at hn
  obtain ⟨below, htree⟩ := Forest.exists_hasTree hn.1
  obtain ⟨m, hm⟩ := NodeKind.exists_of_measure hn.2
  rw [lengthOf, hm]
  exact hclocked.length n below m htree hm

/-- A score whose onsets lie within their measures tells its time. -/
theorem WellFormed.tellsTime_of_clocked (hd : d.WellFormed) (hs : .aligned ≤ d.stage)
    (haligned : d.content.Aligned) (hclocked : d.content.Clocked) : d.TellsTime where
  exact e he htag := by
    obtain ⟨n, m, front, back, onset, -, habove, hmeasures, honset, -, -⟩ :=
      hd.exists_clocked hclocked he htag
    exact ⟨n, front, back, onset, habove, hmeasures, honset,
      hd.soundsAt hs he honset habove hmeasures⟩
  across a ha b hb hatag hbtag n n' hn hn' hbefore t t' ht ht' := by
    obtain ⟨_, m, -, -, onset, hm, hm₁, -, honset, -, hhigh⟩ := hd.exists_clocked hclocked ha hatag
    obtain rfl := Option.some.inj (hn.symm.trans hm₁)
    obtain ⟨_, -, -, -, onset', -, -, -, honset', hlow', -⟩ := hd.exists_clocked hclocked hb hbtag
    -- the measures before the later one are those before the earlier one, this one and some more
    obtain ⟨before, after, hsplit, hmem, hlater⟩ := List.cons_sublist_iff.1 hbefore
    obtain ⟨front, middle, rfl⟩ := List.append_of_mem hmem
    obtain ⟨middle', back, rfl⟩ := List.append_of_mem (List.singleton_sublist.1 hlater)
    have hfirst : d.measures = front ++ n :: (middle ++ (middle' ++ n' :: back)) := by
      rw [hsplit, List.append_assoc, List.cons_append]
    have hsecond : d.measures = (front ++ n :: (middle ++ middle')) ++ n' :: back := by
      rw [hfirst, List.append_assoc, List.cons_append, List.append_assoc]
    have hlength : (lengthOf n).value = m.grid.maxTime.value := by
      rw [lengthOf, hm]
      rfl
    have hbetween : 0 ≤ ((middle ++ middle').map fun m => (lengthOf m).value).sum := by
      refine List.sum_nonneg fun q hq => ?_
      obtain ⟨k, hk, rfl⟩ := List.mem_map.1 hq
      refine hd.lengthOf_nonneg hclocked ?_
      rw [hsecond]
      exact List.mem_append_left _ (List.mem_append_right _ (List.mem_cons_of_mem _ hk))
    rw [(hd.soundsAt hs ha honset hn hfirst).sum t ht,
      (hd.soundsAt hs hb honset' hn' hsecond).sum t' ht', List.map_append, List.map_cons,
      List.sum_append, List.sum_cons]
    linarith
  along a b hab hatag hbtag hsame t t' ht ht' := by
    have ha : a ∈ d.score.toList := hab.subset List.mem_cons_self
    have hb : b ∈ d.score.toList := hab.subset (by simp)
    obtain ⟨k, under, hk, hlayer, hak, hka⟩ := hd.exists_layerAbove ha hatag
    obtain ⟨k', under', hk', -, hbk, hkb⟩ := hd.exists_layerAbove hb hbtag
    obtain rfl : k = k' := Option.some.inj (hka.symm.trans (hsame.trans hkb))
    have hnodup : (d.score.toList.map Node.handle).Nodup :=
      hd.nodup_handles.sublist ((score_sublist d).map Node.handle)
    obtain rfl := hk.below_eq Node.handle hk' hnodup
    obtain ⟨n, below, m, front, back, hn, hm, hbelow, hmeasures, habove⟩ :=
      hd.exists_measureAbove hk hlayer
    obtain ⟨onset, onset', honset, honset', hle⟩ :=
      List.rel_of_pairwise_cons ((haligned.steady k under' (hn.trans hbelow) hlayer).ordered.sublist
        (sublist_pair_of_nodup hk.sublist hnodup.of_map hab hak hbk)) List.mem_cons_self
    rw [(hd.soundsAt hs ha honset (habove a (hbelow.mem_of_mem hak)) hmeasures).sum t ht,
      (hd.soundsAt hs hb honset' (habove b (hbelow.mem_of_mem hbk)) hmeasures).sum t' ht']
    linarith

variable [Scalar α]

/-- Onsets lie within their measures from alignment on. -/
theorem fromAlignment_clocked : FromAlignment (α := α) Forest.Clocked where
  align {d} hd metrics unit hok := by
    have hscore {n : Node α} {below : Forest (Node α)}
        (hn : Forest.HasTree n below (d.align metrics unit).document.content) :
        Forest.HasTree n below (d.align metrics unit).document.score :=
      hn.of_branches.of_branches.of_branches
    have hwf := (d.sameTree_align metrics unit).wellFormed hd
    refine ⟨fun n below m hn hm => ?_, fun n below m hn hm e he htag => ?_⟩
    · rw [(hd.timed_align hok).measures n below m (hscore hn) hm]
      exact le_foldl_max.1
    · obtain ⟨k, under, hk, hlayer, hunder⟩ := hwf.nested_score.exists_layer (hscore hn)
        (by rw [Node.tag, hm]; rfl) he htag
      obtain ⟨-, honsets, -⟩ := hd.onsets_align hok ((hscore hn).trans hk) hlayer
      obtain ⟨a, ha, hlow, hhigh⟩ := honsets e hunder
      exact ⟨a, ha, hlow, hhigh.trans (hd.layerEnd_le_maxTime hok (hscore hn) hm hk hlayer)⟩
  stays h hf := by
    refine ⟨fun n' below' m' hn' hm' => ?_, fun n' below' m' hn' hm' e' he' htag => ?_⟩
    · obtain ⟨n, below, hn, hnn, -⟩ := h.flip.hasTree hn'
      obtain ⟨m, hm, hgrid⟩ := hnn.grid m' hm'
      exact hgrid.maxTime ▸ hf.length n below m hn hm
    · obtain ⟨n, below, hn, hnn, hbelow⟩ := h.flip.hasTree hn'
      obtain ⟨m, hm, hgrid⟩ := hnn.grid m' hm'
      obtain ⟨e, he, hee⟩ := exists_mem_of_forall₂ hbelow.flip.toList he'
      have hetag := hee.tag.symm.trans htag
      rw [hee.layout hetag, hgrid.maxTime]
      exact hf.within n below m hn hm e he hetag

theorem fromAlignment_aligned : FromAlignment (α := α) Forest.Aligned where
  align hd _ _ hok := (hd.aligned_align hok).branches.branches.branches
  stays h hf := hf.settle (h.mono fun _ _ hn => hn.settles)

/-- The score time of whatever a caller comes to. -/
theorem Reachable.tellsTime (h : d.Reachable) (hs : .aligned ≤ d.stage) : d.TellsTime :=
  h.wellFormed.tellsTime_of_clocked hs (fromAlignment_aligned.promise.of_reachable h hs)
    (fromAlignment_clocked.promise.of_reachable h hs)

/-- A quarter note over a half note, and two eighths in the measure behind them. -/
theorem Reachable.tellsTime_of_two_measures : ∃ d : Document ℚ, d.Reachable ∧
    .aligned ≤ d.stage ∧ d.TellsTime ∧
    (d.score.toList.filter fun n => n.tag = .element).map
      (fun n => (d.scoreTimeOf? n.id).map Fraction.value) =
        [some 0, some 0, some (1 / 2), some (5 / 8)] := by
  have hmeasure := ((((((Reachable.ofDefinition (α := ℚ) default).contentSystem.add 2
    (.measure (.ofNumber 1))).add 3 (.staff ⟨1, false⟩)).add 4 (.layer 1)).add 5
    (.element (.note ⟨.ofValue .quarter, ⟨.c, 4, none⟩, none, false⟩))).add 4 (.layer 2)).add 7
    (.element (.note ⟨.ofValue .half, ⟨.c, 5, none⟩, none, false⟩))
  have hd := ((((hmeasure.add 2 (.measure (.ofNumber 2))).add 9 (.staff ⟨1, false⟩)).add 10
    (.layer 1)).add 11 (.element (.note ⟨.ofValue .eighth, ⟨.d, 4, none⟩, none, false⟩))).add 11
    (.element (.note ⟨.ofValue .eighth, ⟨.e, 4, none⟩, none, false⟩))
  have hprepared := hd.pass .default .prepare (by decide +kernel)
  have haligned := hprepared.pass .default .align (by decide +kernel)
  refine ⟨_, haligned, ?_, haligned.tellsTime ?_, ?_⟩
  · decide +kernel
  · decide +kernel
  · decide +kernel

end Document

end ScoreLayout
