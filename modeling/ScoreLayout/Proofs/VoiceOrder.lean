import ScoreLayout.Proofs.Layout.RevoicedScores
import ScoreLayout.Proofs.Relayout

/-!
# The order of voices

All layers of a measure write into one time grid, and they share the state of the walk that fills it.
Nothing of this leaks from one layer to the next: where a measure does not change the meter, its
staves, and the layers of its staves, may stand in any order without a change of its slots or of the
times in it.

## Main definitions

* `Document.Revoiced` — a document with the staves and layers of some measures in another order.

## Main results

* `Document.Reachable.voice_order` — alignment comes to the same slots and times.
-/

namespace ScoreLayout

variable {α : Type}

namespace Node

theorem kind_applyGraceSlots (slots : List (Handle × SlotKey)) (n : Node α) :
    (AlignState.applyGraceSlots slots n).kind = n.kind ∧
      (AlignState.applyGraceSlots slots n).handle = n.handle := by
  rw [AlignState.applyGraceSlots]
  split <;> exact ⟨rfl, rfl⟩

/-- The slot that is written on a node depends on its handle. -/
theorem TimedAlike.applyGraceSlots {n n' : Node α} (h : n.TimedAlike n')
    {slots slots' : List (Handle × SlotKey)} (hslots : slots'.lookup n.handle = slots.lookup n.handle) :
    (AlignState.applyGraceSlots slots n).TimedAlike (AlignState.applyGraceSlots slots' n') := by
  rw [AlignState.applyGraceSlots, AlignState.applyGraceSlots, h.handle, hslots]
  cases slots.lookup n.handle with
  | none => exact h
  | some key => exact ⟨h.handle, h.kind, h.onset, h.duration, .some key.same_refl⟩

end Node

/-- What is found for grace notes goes to the same nodes. -/
theorem Forest.MeasuresAlike.applyGraceSlots {f g : Forest (Node α)} (h : f.MeasuresAlike g)
    {slots slots' : List (Handle × SlotKey)}
    (hslots : ∀ i ∈ f.toList.map Node.handle, slots'.lookup i = slots.lookup i) :
    (f.map (AlignState.applyGraceSlots slots)).MeasuresAlike
      (g.map (AlignState.applyGraceSlots slots')) := by
  intro _ _ hmapped hn
  obtain ⟨n, below, htree, rfl, rfl⟩ := hmapped.exists_of_map
  rw [Node.tag, (n.kind_applyGraceSlots slots).1] at hn
  obtain ⟨n', below', htree', hhandle, ⟨m, m', hm, hm', hgrid⟩, hnodes⟩ := h n below htree hn
  refine ⟨_, _, htree'.map _, ?_, ⟨m, m', ?_, ?_, hgrid⟩, fun x hx => ?_⟩
  · rw [(n.kind_applyGraceSlots slots).2, (n'.kind_applyGraceSlots slots').2, hhandle]
  · rw [(n.kind_applyGraceSlots slots).1, hm]
  · rw [(n'.kind_applyGraceSlots slots').1, hm']
  · rw [Forest.toList_map, List.mem_map] at hx
    obtain ⟨x, hx, rfl⟩ := hx
    obtain ⟨y, hy, hxy⟩ := hnodes x hx
    refine ⟨_, by rw [Forest.toList_map]; exact List.mem_map_of_mem hy, hxy.applyGraceSlots ?_⟩
    exact hslots _ (List.mem_map_of_mem (htree.mem_of_mem hx))

namespace Document

/-- The document with the staves and layers of some measures in another order. -/
structure Revoiced (d d' : Document α) : Prop where
  score : d.score.Revoiced d'.score
  rest : d' = d.withScore d'.score

section Revoiced

variable {d d' : Document α} {D : ScoreDefinition} {r : Node α} {pages detached : Forest (Node α)}

theorem Revoiced.exists_pages (h : d.Revoiced d') (hd : d.Shape D r pages detached) :
    ∃ pages', pages.Revoiced pages' ∧ d' = { d with trees := .cons r pages' detached } := by
  have hscore := h.score
  have hrest := h.rest
  rw [withScore, hd.rest] at hrest
  rw [hd.score, Forest.tree] at hscore
  generalize d'.score = score at hscore hrest
  have hroot : r.tag ≠ .measure := by
    rw [hd.root_tag]
    decide
  cases hscore with
  | cons _ hpages hnil =>
    cases hnil
    exact ⟨_, hpages, hrest⟩
  | measure hm => exact absurd hm hroot

theorem Shape.revoiced (hd : d.Shape D r pages detached) (h : d.Revoiced d') :
    ∃ pages', pages.Revoiced pages' ∧ d'.Shape D r pages' detached := by
  obtain ⟨pages', hpages, rfl⟩ := h.exists_pages hd
  refine ⟨pages', hpages, ?_, hd.definition, rfl⟩
  have hlinks : ((Forest.cons r pages' detached).links none).Perm (d.trees.links none) := by
    rw [hd.trees]
    exact ((hpages.links_perm (some r)).append_right _).cons _
  have hlist : (Forest.cons r pages' detached).toList.Perm d.trees.toList := by
    rw [← Forest.map_snd_links none d.trees, ← Forest.map_snd_links none (.cons r pages' detached)]
    exact hlinks.map _
  refine ⟨⟨r, pages', detached, rfl, hd.root_handle, hd.root_tag⟩, ?_, ?_, fun a b hl => ?_,
    fun n hn => ?_⟩
  · exact (hlist.map Node.id).nodup_iff.2 hd.wellFormed.ids
  · exact ((hlist.map Node.handle).append_right d.freed).trans hd.wellFormed.arena
  · exact hd.wellFormed.accepts a b (hlinks.mem_iff.1 hl)
  · exact hd.wellFormed.reserved n (hlist.mem_iff.1 hn)

theorem Revoiced.symm (h : d.Revoiced d') (hd : d.WellFormed) : d'.Revoiced d := by
  obtain ⟨r, pages, hshape⟩ := hd.exists_shape
  obtain ⟨pages', -, rfl⟩ := h.exists_pages hshape
  refine ⟨h.score.symm, ?_⟩
  rw [withScore, hshape.score]
  exact congrArg (fun trees => { d with trees }) hshape.trees

/-- Staves and layers in another order in the place of the score. -/
theorem Revoiced.of_score (hd : d.WellFormed) (score : Forest (Node α))
    (h : d.score.Revoiced score) : d.Revoiced (d.withScore score) := by
  obtain ⟨r, pages, hshape⟩ := hd.exists_shape
  have hscore : (d.withScore score).score = score := by
    rw [hshape.score, Forest.tree] at h
    generalize hg : score = g at h
    cases h with
    | cons _ _ hnil =>
      cases hnil
      rfl
    | measure _ _ _ hnil =>
      cases hnil
      rfl
  exact ⟨hscore.symm ▸ h, by rw [hscore]⟩

/-- What stands in the systems of the score. -/
theorem Revoiced.content (h : d.Revoiced d') (hd : d.Shape D r pages detached) :
    d.content.Revoiced d'.content := by
  obtain ⟨pages', hpages, hshape'⟩ := hd.revoiced h
  rw [hd.content_eq, hshape'.content_eq]
  have hsystems := hpages.branches fun n hn ht => by
    rw [hd.tag_of_mem_pages hn] at ht
    cases ht
  exact hsystems.branches fun n hn ht => by
    rw [hd.tag_of_mem_systems hn] at ht
    cases ht

end Revoiced

variable [Scalar α]

/-- Two documents, of which one has voices in another order, after preparation. -/
theorem Revoiced.prepare {d d' : Document α} (h : d.Revoiced d') (hd : d.WellFormed)
    (hfree : Unreserved d.trees.rest) :
    ∃ r page page' system system' content content',
      d.prepare.document.Shape d.definition r (.tree page (.tree system content)) d.trees.rest ∧
      d'.prepare.document.Shape d.definition r (.tree page' (.tree system' content')) d.trees.rest ∧
      d.prepare.fault = none ∧ d'.prepare.fault = none ∧
      d.prepare.document.stage = .prepared ∧ d'.prepare.document.stage = .prepared ∧
      content.Revoiced content' := by
  obtain ⟨r, pages, hshape⟩ := hd.exists_shape
  obtain ⟨pages', hpages, hshape'⟩ := hshape.revoiced h
  obtain ⟨page, system, d₁, hok, hd₁, hpage, hsystem, hids⟩ := hshape.unbreak?
  obtain ⟨page', system', d₁', hok', hd₁', hpage', hsystem', hids'⟩ := hshape'.unbreak?
  obtain ⟨hpageId, hsystemId⟩ := hids hfree
  obtain ⟨hpageId', hsystemId'⟩ := hids' hfree
  have hcontent := h.content hshape
  have hanchor := hd₁.anchor?_congr hd₁' (.refl r) (hpageId'.trans hpageId.symm)
    (hsystemId'.trans hsystemId.symm)
    (fun n hn => ⟨n, hcontent.toList_perm.mem_iff.2 hn, .refl n⟩)
    fun n hn => ⟨n, hcontent.toList_perm.mem_iff.1 hn, .refl n⟩
  rw [prepare_eq hok, prepare_eq hok']
  refine ⟨_, _, _, _, _, _, _, hd₁.prepared .prepared, hd₁'.prepared .prepared, rfl, rfl, rfl, rfl, ?_⟩
  have hanchored : d₁'.reset.anchored = d₁.reset.anchored :=
    funext fun above => funext fun n =>
      anchored_congr rfl fun c _ => congrArg Except.toOption (hanchor _ _ c)
  have habove : (d'.content.map Node.reset).mapLinked d₁.reset.anchored (some system'.reset) =
      (d'.content.map Node.reset).mapLinked d₁.reset.anchored (some system.reset) :=
    Forest.mapLinked_above_congr fun n _ => by
      refine anchored_congr ?_ fun _ _ => rfl
      simp [inMeasure, hsystem, hsystem']
  rw [hanchored, habove]
  refine (Forest.Revoiced.map (fun n => ⟨n.tag_reset, fun e he => ?_⟩) hcontent).mapLinked
    (fun above n => ?_) _
  · rw [Node.reset] at he
    cases hk : n.kind <;> rw [hk] at he <;> first | exact he | cases he
  · have hkind : (d₁.reset.anchored above n).kind = n.kind := by
      rw [anchored]
      cases n.kind.control? with
      | none => rfl
      | some c =>
        obtain ⟨layout, heq⟩ := d₁.reset.anchorNode_eq [] above n c
        dsimp only
        rw [heq]
    exact ⟨congrArg NodeKind.tag hkind, fun e he => hkind ▸ he⟩

omit [Scalar α] in
/-- What a walk over unbroken content relies on. -/
theorem Shape.walkable {d : Document α} {D : ScoreDefinition} {r page system : Node α}
    {content detached : Forest (Node α)}
    (hd : d.Shape D r (.tree page (.tree system content)) detached) {c : AlignContext α}
    (hc : c.document = d) :
    AlignState.Walkable c (.start d.definition) content ∧
      ∀ n ∈ content.roots, AlignState.IsOuter n := by
  have hscore : Forest.HasTree system content d.score := by
    rw [hd.score]
    exact .deeper _ (.deeper _ (.here _))
  have hsublist : content.toList.Sublist d.score.toList := by
    rw [hd.score, Forest.toList_tree, Forest.toList_tree, Forest.toList_tree]
    exact ((List.sublist_cons_self _ _).trans (List.sublist_cons_self _ _)).trans
      (List.sublist_cons_self _ _)
  obtain ⟨htakes, hnested⟩ := hd.wellFormed.nested_score.of_hasTree hscore
  have hsystem : system.tag = .system := hd.tag_of_mem_systems List.mem_cons_self
  refine ⟨⟨hnested, hd.wellFormed.nodup_score_ids.sublist (hsublist.map _), ?_, ?_, fun _ _ => rfl⟩,
    ?_⟩
  · exact hd.wellFormed.nodup_handles.sublist ((hsublist.trans (score_sublist d)).map _)
  · exact fun n below h => hd.wellFormed.handlesBelow hc n below (hscore.trans h)
  · refine AlignState.isOuter_of_accepts ?_ ?_ htakes
    · rw [AlignState.IsOuter, hsystem]
      decide
    · rw [hsystem]
      decide

/-- Two prepared documents with the same voices are aligned alike. -/
theorem Shape.alike_align {d d' : Document α} {D : ScoreDefinition}
    {r page page' system system' : Node α} {content content' detached : Forest (Node α)}
    (hd : d.Shape D r (.tree page (.tree system content)) detached)
    (hd' : d'.Shape D r (.tree page' (.tree system' content')) detached)
    (hs : d.stage = .prepared) (hs' : d'.stage = .prepared) (hcontent : content.Revoiced content')
    {metrics : GlyphMetrics α} {unit : α} (hok : (d.align metrics unit).fault = none) :
    (d'.align metrics unit).fault = none ∧
      (d.align metrics unit).document.score.MeasuresAlike (d'.align metrics unit).document.score := by
  obtain ⟨hwalk, hroots⟩ := hd.walkable (c := ⟨metrics, unit, d⟩) rfl
  obtain ⟨hwalk', -⟩ := hd'.walkable (c := ⟨metrics, unit, d'⟩) rfl
  have hst : (AlignState.start d.definition : AlignState α).Abreast (.start d'.definition) :=
    ⟨by rw [hd.definition, hd'.definition], ⟨rfl, rfl⟩, rfl, rfl⟩
  obtain ⟨s, content₁, v, hran⟩ : ∃ s f v, content.runWithin (alignPass ⟨metrics, unit, d⟩) none
    (fun f => .tree r (.tree page (.tree system f))) (.start d.definition) = (s, f, v) :=
      ⟨_, _, _, rfl⟩
  obtain ⟨s', content₁', v', hran'⟩ : ∃ s f v, content'.runWithin (alignPass ⟨metrics, unit, d'⟩) none
    (fun f => .tree r (.tree page' (.tree system' f))) (.start d'.definition) = (s, f, v) :=
      ⟨_, _, _, rfl⟩
  have hlines : (⟨metrics, unit, d'⟩ : AlignContext α).linesOf =
      (⟨metrics, unit, d⟩ : AlignContext α).linesOf :=
    funext fun staff => by rw [AlignContext.linesOf, hd'.definition, ← hd.definition]; rfl
  have hretold := AlignState.retold_score hcontent hlines hroots hst hwalk hwalk' none none
    (fun f => .tree r (.tree page (.tree system f))) fun f => .tree r (.tree page' (.tree system' f))
  obtain ⟨w, hrun⟩ := hd.run_alignPass ⟨metrics, unit, d⟩ none hran
  obtain ⟨w', hrun'⟩ := hd'.run_alignPass ⟨metrics, unit, d'⟩ none hran'
  obtain ⟨hfault, -, hscore, -⟩ := align_of_run (by rw [hs]; decide) hrun
  obtain ⟨hfault', -, hscore', -⟩ := align_of_run (by rw [hs']; decide) hrun'
  have hgo : v ≠ .stop := by
    rintro rfl
    have hstop := Forest.runWithin_of_stop (p := alignPass ⟨metrics, unit, d⟩)
      (P := fun s => s.fault.isSome) (fun s _ _ => AlignState.isSome_fault_of_enter_stop _ s)
      (fun s _ _ _ => AlignState.isSome_fault_of_leave_stop _ s) content none
      (fun f => .tree r (.tree page (.tree system f))) (.start d.definition) (by rw [hran])
    rw [hran, ← hfault, hok] at hstop
    cases hstop
  rw [hran, hran'] at hretold
  obtain ⟨-, hst', hfinds, halike⟩ := hretold hgo
  rw [hscore, hscore']
  refine ⟨hfault'.trans hst'.right.2, Forest.MeasuresAlike.applyGraceSlots ?_ fun i _ => ?_⟩
  · refine .deeper ?_ (.deeper ?_ (.deeper ?_ halike))
    · rw [hd.root_tag]
      decide
    · rw [hd.tag_of_mem_pages List.mem_cons_self]
      decide
    · rw [hd.tag_of_mem_systems List.mem_cons_self]
      decide
  · by_cases hi : i ∈ content.toList.map Node.handle
    · exact hfinds.found i hi
    · exact (hfinds.right i hi).trans (hfinds.left i hi).symm

/-- Whatever a caller comes to, alignment comes to the same slots and times in whatever order the
staves of a measure, and the layers of its staves, stand. -/
theorem Reachable.voice_order {d d' : Document α} (h : d.Reachable)
    (hfree : Unreserved d.trees.rest) (hd' : d.Revoiced d') (e : Engine α) :
    ((e.runAll d [.prepare, .align]).fault = none ↔
      (e.runAll d' [.prepare, .align]).fault = none) ∧
    ((e.runAll d [.prepare, .align]).fault = none →
      (e.runAll d [.prepare, .align]).document.score.MeasuresAlike
        (e.runAll d' [.prepare, .align]).document.score) := by
  obtain ⟨r, page, page', system, system', content, content', hshape, hshape', hok, hok', hstage,
    hstage', hcontent⟩ := hd'.prepare h.wellFormed hfree
  have hrun {d : Document α} (hok : d.prepare.fault = none) :
      (e.runAll d [.prepare, .align]).fault =
        (d.prepare.document.align e.metrics e.options.scaledUnit).fault ∧
      (e.runAll d [.prepare, .align]).document =
        (d.prepare.document.align e.metrics e.options.scaledUnit).document := by
    rw [Engine.runAll_cons, Engine.run, Outcome.andThen, hok]
    exact ⟨rfl, rfl⟩
  rw [(hrun hok).1, (hrun hok').1, (hrun hok).2, (hrun hok').2]
  refine ⟨⟨fun hfault => ?_, fun hfault => ?_⟩, fun hfault => ?_⟩
  · exact (hshape.alike_align hshape' hstage hstage' hcontent hfault).1
  · exact (hshape'.alike_align hshape hstage' hstage hcontent.symm hfault).1
  · exact (hshape.alike_align hshape' hstage hstage' hcontent hfault).2

/-- A measure of two staves, of which the first has two layers, and a dynamic at the second beat. In
the other document the second staff and the second layer come first. -/
theorem Reachable.voice_order_of_staves : ∃ d d' : Document ℚ, d.Reachable ∧
    Unreserved d.trees.rest ∧ d.Revoiced d' ∧
    (((Engine.default.runAll d [.prepare, .align]).fault = none ↔
        (Engine.default.runAll d' [.prepare, .align]).fault = none) ∧
      ((Engine.default.runAll d [.prepare, .align]).fault = none →
        (Engine.default.runAll d [.prepare, .align]).document.score.MeasuresAlike
          (Engine.default.runAll d' [.prepare, .align]).document.score)) ∧
    d'.score.toList.map Node.handle ≠ d.score.toList.map Node.handle ∧
    (Engine.default.runAll d [.prepare, .align]).fault = none := by
  have hswap {measure staff staff' layer layer' control : Node ℚ}
      {notes notes' layers : Forest (Node ℚ)} (hn : measure.tag = .measure)
      (hplain : (Forest.cons staff (.cons layer notes (.tree layer' notes')) (.cons staff' layers
        (.tree control .nil))).toList.all
          (fun n => (n.kind.element?.bind Element.change?).isNone) = true) :
      (Forest.tree measure (.cons staff (.cons layer notes (.tree layer' notes'))
        (.cons staff' layers (.tree control .nil)))).Revoiced
          (.tree measure (.cons control .nil (.cons staff' layers
            (.tree staff (.cons layer' notes' (.tree layer notes)))))) := by
    have hlayers : Forest.Shuffled 1 (.cons layer notes (.tree layer' notes'))
        (.cons layer' notes' (.tree layer notes)) :=
      ⟨[(layer, notes), (layer', notes')], .cons ⟨rfl, rfl⟩ (.cons ⟨rfl, rfl⟩ .nil), .swap _ _ _⟩
    have hbelow := Forest.Shuffled.refl 1 (β := Node ℚ)
    refine .measure hn (fun b hb meter hk => ?_)
      ⟨[(staff, .cons layer' notes' (.tree layer notes)), (staff', layers), (control, .nil)],
        .cons ⟨rfl, hlayers⟩ (.cons ⟨rfl, hbelow layers⟩ (.cons ⟨rfl, hbelow .nil⟩ .nil)),
        (List.reverse_perm _).symm⟩ .nil
    have hnone := List.all_eq_true.1 hplain b hb
    rw [hk] at hnone
    cases hnone
  have hmeasure := (Reachable.ofDefinition (α := ℚ) default).contentSystem.add 2
    (.measure (.ofNumber 1))
  have hd := ((((((((hmeasure.add 3 (.staff ⟨1, false⟩)).add 4 (.layer 1)).add 5
    (.element (.note ⟨.ofValue .quarter, ⟨.c, 4, none⟩, none, false⟩))).add 4 (.layer 2)).add 7
    (.element (.note ⟨.ofValue .eighth, ⟨.d, 4, none⟩, none, false⟩))).add 3
    (.staff ⟨2, false⟩)).add 9 (.layer 1)).add 10
    (.element (.note ⟨.ofValue .half, ⟨.c, 3, none⟩, none, false⟩))).add 3
    (.control (.dynamic (.atBeat 2 1) "f"))
  have hrevoiced := Revoiced.of_score hd.wellFormed _
    (.cons _ (.cons _ (.cons _ (hswap rfl (by decide +kernel)) .nil) .nil) .nil)
  refine ⟨_, _, hd, ?free, hrevoiced, hd.voice_order ?free hrevoiced .default, ?_, ?_⟩
  · intro n hn
    cases hn
  · decide +kernel
  · decide +kernel

end Document

end ScoreLayout
