import ScoreLayout.Proofs.Layout.Passes
import ScoreLayout.Proofs.Layout.SoundGrids
import ScoreLayout.Proofs.Layout.Spacing

/-!
# Engines with options within their ranges

Where all engines have options within their ranges, a score with ideal positions has no measure of
negative width: spacing gives it none, and neither does any later pass.

## Main definitions

* `Document.ReachableInRange` — the documents that a caller comes to with such engines.

## Main results

* `Document.WellFormed.soundOnceSpaced_run`, `Document.WellFormed.soundOnceSpaced_layout` — single
  passes and whole layouts.
* `Document.ReachableInRange.sound` — what a caller comes to.
-/

namespace ScoreLayout

open Scalar

variable {α : Type} [Scalar α]

namespace Document

/-! ### Passes that walk -/

theorem Sound.withScore {d : Document α} (h : d.Sound) {score : Forest (Node α)}
    (hf : Forest.Forall₂ Node.StaysSound d.score score) : (d.withScore score).Sound :=
  h.of_forall₂ ((score_withScore hf).symm ▸ hf)

theorem Sound.stackStaves {d : Document α} (h : d.Sound) (options : LayoutOptions α)
    (metrics : GlyphMetrics α) : (d.stackStaves options metrics).document.Sound := by
  have hrun (c : StackingContext α) : Forest.Forall₂ Node.StaysSound d.score
      (d.score.run (stackingPass c) .start).2.1 := by
    refine Forest.forall₂_run Node.StaysSound.refl (fun _ _ _ => Node.StaysSound.trans) ?_ ?_ _ _
    · intro s parent n
      rw [stackingPass]
      dsimp only
      split
      all_goals exact .refl n
    · intro s _ n below
      have hstay : Forest.Forall₂ Node.StaysSound below below := .refl fun n _ => .refl n
      rw [stackingPass]
      dsimp only
      split
      · refine ⟨?_, hstay⟩
        simp only [Stacking.leaveSystem]
        split
        · exact .mapSystem n _
        · exact .refl n
      · exact ⟨.refl n, hstay⟩
  rw [Document.stackStaves, Outcome.guarded]
  split
  · exact h
  · dsimp only
    split
    · exact h.withScore (hrun _)
    · exact h.withScore (hrun _)

theorem WellFormed.sound_place {d : Document α} (hd : d.WellFormed) (h : d.Sound)
    (options : LayoutOptions α) (metrics : GlyphMetrics α) :
    (d.place options metrics).document.Sound := by
  obtain ⟨score, stage, hsame, heq⟩ := hd.exists_place options metrics
  rw [heq]
  exact h.withScore (hsame.mono fun _ _ hb => .of_sameKind hb.toSameKind)

/-! ### Passes that look nodes up -/

section Filling

variable [Scalar.Ordered α] {options : LayoutOptions α} {available : α}

theorem Sound.fillMeasures : {measures : List (Handle × Measure α)} → {d d' : Document α} →
    {x x' : α} → {gaps : List (Gap α)} → d.Sound → (∀ g ∈ gaps, g.Sound) →
      d.fillMeasures x gaps measures = .ok (x', d') → d'.Sound
  | [], _, _, _, _, _, h, _, hok => by
      rw [Document.fillMeasures, Except.ok.injEq, Prod.mk.injEq] at hok
      exact hok.2 ▸ h
  | (i, m) :: measures, d, _, x, _, gaps, h, hgaps, hok => by
      rw [Document.fillMeasures] at hok
      dsimp only at hok
      split at hok
      · rename_i grid hgrid
        have hsound := MeasureGrid.sound_applyGaps
          (fun g hg => hgaps g (List.mem_of_mem_take hg)) hgrid
        refine Sound.fillMeasures (h.modify i fun n _ m' hm' => ?_)
          (fun g hg => hgaps g (List.mem_of_mem_drop hg)) hok
        rw [← NodeKind.measure.inj hm']
        exact hsound
      · exact absurd hok (by simp)

theorem WellFormed.sound_fillSystem {d d' : Document α} (hd : d.WellFormed) (h : d.Sound)
    {isLast : Bool} {n : Node α} (hl : d.isLive n.handle)
    (hok : d.fillSystem options available isLast n = .ok d') : d'.Sound := by
  rw [fillSystem] at hok
  split at hok
  · exact Except.ok.inj hok ▸ h
  · dsimp only at hok
    split at hok
    · exact Except.ok.inj hok ▸ h
    · split at hok
      · exact Except.ok.inj hok ▸ h
      · obtain ⟨⟨x, d₁⟩, h₁, hmodified⟩ := except_bind_eq_ok.1 hok
        rw [← Except.ok.inj hmodified]
        have hgaps : ∀ g ∈ (d.measuresOf n.handle).flatMap fun p => p.2.grid.gaps, g.Sound := by
          intro g hg
          obtain ⟨⟨i, m⟩, hm, hg⟩ := List.mem_flatMap.1 hg
          obtain ⟨hi, hkind⟩ := hd.mem_measuresOf hl hm
          obtain ⟨n', hn', hh⟩ := (isLive_iff d i).1 hi
          exact (h n' hn' m (hkind n' ((score_sublist d).subset hn') hh)).gaps g hg
        exact (h.fillMeasures (Gap.Sound.distribute hgaps _) h₁).modify n.handle fun n hn =>
          (Node.StaysSound.mapSystem n _).sound hn

theorem WellFormed.sound_fillSystems : {systems : List (Node α)} → {d d' : Document α} →
    d.WellFormed → d.Sound → (∀ n ∈ systems, d.isLive n.handle) →
      d.fillSystems options available systems = .ok d' → d'.Sound
  | [], _, _, _, h, _, hok => Except.ok.inj hok ▸ h
  | n :: systems, d, _, hd, h, hlive, hok => by
      obtain ⟨d₁, h₁, hok⟩ := except_bind_eq_ok.1 hok
      have hstep := hd.sameTree_fillSystem (hlive n List.mem_cons_self) h₁
      refine sound_fillSystems (hstep.wellFormed hd)
        (hd.sound_fillSystem h (hlive n List.mem_cons_self) h₁) (fun m hm => ?_) hok
      exact hstep.isLive (hlive m (List.mem_cons_of_mem n hm))

theorem WellFormed.sound_fillLines {d : Document α} (hd : d.WellFormed) (h : d.Sound)
    (options : LayoutOptions α) : (d.fillLines options).document.Sound := by
  rw [fillLines, Outcome.guarded]
  split
  · exact h
  · split
    · exact h
    · rename_i available _
      split
      · cases hok : d.fillSystems options available d.systems with
        | error f => exact h
        | ok d' => exact hd.sound_fillSystems h (fun n hn => hd.isLive_of_mem_systems hn) hok
      · exact h

end Filling

theorem Sound.spreadSystems (options : LayoutOptions α) (share : α) : (systems : List (Node α)) →
    {d : Document α} → (first : Bool) → (shift : α) → d.Sound →
      (Document.spreadSystems options share first shift systems d).2.Sound
  | [], _, _, _, h => h
  | n :: systems, _, _, _, h =>
      Sound.spreadSystems options share systems false _
        (h.modify n.handle fun n hn => (Node.StaysSound.mapSystem n _).sound hn)

theorem Sound.fillPage {d : Document α} (h : d.Sound) (options : LayoutOptions α) (available : α)
    (isLast : Bool) (n : Node α) : (d.fillPage options available isLast n).Sound := by
  rw [Document.fillPage]
  split
  · exact h
  · dsimp only
    split
    · exact h
    · split
      · exact h
      · split
        · exact h
        · exact (h.spreadSystems options _ _ true 0).modify n.handle fun n hn =>
            (Node.StaysSound.mapPage n _).sound hn

theorem Sound.spreadPages {options : LayoutOptions α} {available : α} :
    (pages : List (Node α)) → {d : Document α} → d.Sound →
      (d.spreadPages options available pages).Sound
  | [], _, h => h
  | n :: pages, _, h => Sound.spreadPages pages (h.fillPage options available pages.isEmpty n)

theorem Sound.fillPages {d : Document α} (h : d.Sound) (options : LayoutOptions α) :
    (d.fillPages options).document.Sound := by
  rw [Document.fillPages, Outcome.guarded]
  split
  · exact h
  · dsimp only
    split
    · exact h.spreadPages d.pages
    · exact h

/-! ### Documents with ideal positions -/

/-- Once a document has ideal positions it is sound. -/
def SoundOnceSpaced (d : Document α) : Prop := .spaced ≤ d.stage → d.Sound

theorem SoundOnceSpaced.of_stage {d : Document α} (h : ¬ .spaced ≤ d.stage) : d.SoundOnceSpaced :=
  fun hs => absurd hs h

omit [Scalar α] in
/-- A step that needs ideal positions changes nothing without them. -/
theorem document_guarded {step : Step} (hstep : .spaced ≤ step.required) {d : Document α}
    (hs : ¬ .spaced ≤ d.stage) (run : Document α → Outcome α) :
    (Outcome.guarded step d run).document = d := by
  have hearly : ¬ step.required ≤ d.stage := fun h => hs (Nat.le_trans hstep h)
  rw [Outcome.guarded, Step.fault?, if_neg hearly]
  rfl

section Run

variable [Scalar.Ordered α] {d : Document α}

/-- Giving ideal positions. -/
theorem WellFormed.sound_space (hd : d.WellFormed) {options : LayoutOptions α}
    (hok : (d.space options.normalized).fault = none) :
    (d.space options.normalized).document.Sound := by
  obtain ⟨heq, hgrids⟩ := hd.space_eq hok
  rw [heq]
  have hscore := score_withScore (d := d) (R := fun _ _ => True)
    (Forest.Forall₂.map_right (Node.spaced (options.normalized.spacing d.longest))
      fun _ _ => trivial)
  show ∀ n ∈ (d.withScore _).score.toList, n.Sound
  rw [hscore, Forest.toList_map]
  refine List.forall_mem_map.2 fun n hn m hm => ?_
  cases hk : n.kind with
  | measure m' =>
    obtain ⟨grid, hgrid⟩ := hgrids n hn m' hk
    rw [Node.spaced, hk] at hm
    dsimp only at hm
    rw [hgrid] at hm
    rw [← NodeKind.measure.inj hm]
    exact MeasureGrid.sound_space (options.inRange_spacing _) hgrid
  | _ =>
    rw [Node.spaced_of_tag_ne (by simp [Node.tag, hk, NodeKind.tag]), hk] at hm
    exact absurd hm (by simp)

omit [Ordered α] in
theorem stage_prepare (h : d.SoundOnceSpaced) : d.prepare.document.SoundOnceSpaced ∧
    (d.prepare.fault = none → d.prepare.document.stage = .prepared) := by
  rw [prepare]
  split
  · exact ⟨h, fun hok => absurd hok (by simp [Outcome.failed])⟩
  · exact ⟨.of_stage fun hs => absurd hs (by show ¬ Stage.spaced ≤ .prepared; decide), fun _ => rfl⟩

omit [Ordered α] in
theorem stage_align (d : Document α) (metrics : GlyphMetrics α) (unit : α) :
    ((d.align metrics unit).fault = none ∧ (d.align metrics unit).document.stage = .aligned) ∨
      ((d.align metrics unit).fault ≠ none ∧ (d.align metrics unit).document.stage = d.stage) := by
  rw [align, Outcome.guarded]
  split
  · exact .inr ⟨by simp [Outcome.failed], rfl⟩
  · dsimp only
    split
    · exact .inr ⟨by simp [Outcome.failed], rfl⟩
    · exact .inl ⟨rfl, rfl⟩

omit [Ordered α] in
theorem stage_space (d : Document α) (options : LayoutOptions α) :
    ((d.space options).fault = none ∧ (d.space options).document.stage = .spaced) ∨
      ((d.space options).fault ≠ none ∧ (d.space options).document.stage = d.stage) := by
  rw [space, Outcome.guarded]
  split
  · exact .inr ⟨by simp [Outcome.failed], rfl⟩
  · dsimp only
    split
    · exact .inr ⟨by simp [Outcome.failed], rfl⟩
    · exact .inl ⟨rfl, rfl⟩

/-- A pass behind spacing. -/
theorem WellFormed.sound_run (hd : d.WellFormed) (h : d.Sound) (e : Engine α) {pass : LayoutPass}
    (hpass : pass ∈ LayoutPass.all.drop 3) : (e.run d pass).document.Sound := by
  cases pass with
  | prepare | align | space => exact absurd hpass (by decide)
  | breakSystems => exact hd.sound_breakSystems h _ _
  | stackStaves => exact h.stackStaves _ _
  | breakPages => exact hd.sound_breakPages h _
  | fillLines => exact hd.sound_fillLines h _
  | fillPages => exact h.fillPages _
  | place => exact hd.sound_place h _ _

/-- A single pass, which meets no fault where it makes new grids. -/
theorem WellFormed.soundOnceSpaced_run (hd : d.WellFormed) (h : d.SoundOnceSpaced)
    (options : LayoutOptions α) (metrics : GlyphMetrics α) (pass : LayoutPass)
    (hok : pass = .align ∨ pass = .space →
      ((Engine.ofOptions options metrics).run d pass).fault = none) :
    ((Engine.ofOptions options metrics).run d pass).document.SoundOnceSpaced := by
  have hguarded {step : Step} (hstep : .spaced ≤ step.required) {run : Document α → Outcome α}
      (hrun : d.Sound → (Outcome.guarded step d run).document.Sound) :
      (Outcome.guarded step d run).document.SoundOnceSpaced := by
    by_cases hs : .spaced ≤ d.stage
    · exact fun _ => hrun (h hs)
    · rw [document_guarded hstep hs]
      exact h
  cases pass with
  | prepare => exact (stage_prepare h).1
  | align =>
    obtain ⟨-, hs⟩ | ⟨hfault, -⟩ := d.stage_align metrics options.normalized.scaledUnit
    · exact .of_stage (by rw [Engine.run]; exact fun h => absurd (hs ▸ h) (by decide))
    · exact absurd (hok (.inl rfl)) hfault
  | space => exact fun _ => hd.sound_space (hok (.inr rfl))
  | breakSystems => exact hguarded (by decide) fun h => hd.sound_breakSystems h _ _
  | stackStaves => exact hguarded (by decide) fun h => h.stackStaves _ _
  | breakPages => exact hguarded (by decide) fun h => hd.sound_breakPages h _
  | fillLines => exact hguarded (by decide) fun h => hd.sound_fillLines h _
  | fillPages => exact hguarded (by decide) fun h => h.fillPages _
  | place => exact hguarded (by decide) fun h => hd.sound_place h _ _

/-- A whole layout, which may end in a fault: while new grids are made, there are no ideal
positions. -/
theorem WellFormed.soundOnceSpaced_layout (hd : d.WellFormed) (h : d.SoundOnceSpaced)
    (options : LayoutOptions α) (metrics : GlyphMetrics α) :
    ((Engine.ofOptions options metrics).layout d).document.SoundOnceSpaced := by
  generalize he : Engine.ofOptions options metrics = e
  have hstep {o : Outcome α} {stage stage' : Stage} (pass : LayoutPass)
      (ho : o.document.WellFormed ∧ o.document.SoundOnceSpaced ∧
        (o.fault = none → o.document.stage = stage))
      (hrun : ∀ d : Document α, d.WellFormed → d.SoundOnceSpaced → d.stage = stage →
        (e.run d pass).document.SoundOnceSpaced ∧
          ((e.run d pass).fault = none → (e.run d pass).document.stage = stage')) :
      (o.andThen fun d => e.run d pass).document.WellFormed ∧
        (o.andThen fun d => e.run d pass).document.SoundOnceSpaced ∧
        ((o.andThen fun d => e.run d pass).fault = none →
          (o.andThen fun d => e.run d pass).document.stage = stage') := by
    rw [Outcome.andThen]
    cases hf : o.fault with
    | some f => exact ⟨ho.1, ho.2.1, fun hok => absurd (hf.symm.trans hok) (by simp)⟩
    | none => exact ⟨ho.1.run e pass, hrun o.document ho.1 ho.2.1 (ho.2.2 hf)⟩
  have h₁ := hstep (o := .done d []) .prepare ⟨hd, h, fun _ => rfl⟩ fun _ _ h _ => stage_prepare h
  have h₂ := hstep .align h₁ fun d _ _ hs => by
    obtain ⟨-, hs'⟩ | ⟨hfault, hs'⟩ := d.stage_align e.metrics e.options.scaledUnit
    · exact ⟨fun h => absurd (hs' ▸ h) (by decide), fun _ => hs'⟩
    · exact ⟨fun h => absurd (hs'.trans hs ▸ h) (by decide), fun hok => absurd hok hfault⟩
  have h₃ := hstep .space h₂ fun d hd _ hs => by
    obtain ⟨hok, hs'⟩ | ⟨hfault, hs'⟩ := d.stage_space e.options
    · subst he
      exact ⟨fun _ => hd.sound_space hok, fun _ => hs'⟩
    · exact ⟨fun h => absurd (hs'.trans hs ▸ h) (by decide), fun hok => absurd hok hfault⟩
  refine (of_runAll_append (P := fun d => d.WellFormed ∧ d.SoundOnceSpaced)
    (LayoutPass.all.take 3) (LayoutPass.all.drop 3) ⟨h₃.1, h₃.2.1⟩ fun d hd pass hpass => ?_).2
  subst he
  refine ⟨hd.1.run _ pass, hd.1.soundOnceSpaced_run hd.2 options metrics pass ?_⟩
  rintro (rfl | rfl) <;> exact absurd hpass (by decide)

end Run

/-! ### What a caller comes to -/

theorem stage_contentSystem (d : Document α) : d.contentSystem.2.stage = d.stage := by
  have hinsert (d : Document α) (parent : Handle) (base : String) (kind : NodeKind α) :
      (d.insert parent base kind).2.stage = d.stage := allocate_stage d
  unfold Document.contentSystem
  cases d.findLive? contentSystemId with
  | some system => rfl
  | none =>
    dsimp only
    rw [hinsert]
    cases d.findLive? contentPageId with
    | some page => rfl
    | none => exact hinsert ..

/-- The documents that a caller comes to who keeps off the identifiers of the unbroken content, and
whose engines have options within their ranges. -/
inductive ReachableInRange : Document α → Prop
  | ofDefinition (definition : ScoreDefinition) : ReachableInRange (ofDefinition definition)
  | contentSystem {d : Document α} (h : ReachableInRange d) : ReachableInRange d.contentSystem.2
  | add {d : Document α} (h : ReachableInRange d) (parent : Handle) (kind : NodeKind α) :
      ReachableInRange (d.add parent kind).2
  | addNamed {d d' : Document α} (h : ReachableInRange d) {parent child : Handle} {id : String}
      {kind : NodeKind α} (hid : id ≠ contentPageId ∧ id ≠ contentSystemId)
      (hok : d.addNamed parent id kind = .ok (child, d')) : ReachableInRange d'
  | remove {d d' : Document α} (h : ReachableInRange d) {parent child : Handle}
      (hok : d.remove parent child = .ok d') : ReachableInRange d'
  | detach {d d' : Document α} (h : ReachableInRange d) {node : Handle}
      (hok : d.detach node = .ok d') : ReachableInRange d'
  | collect {d : Document α} (h : ReachableInRange d) : ReachableInRange d.collect.2
  | layout {d : Document α} (h : ReachableInRange d) (options : LayoutOptions α)
      (metrics : GlyphMetrics α) :
      ReachableInRange ((Engine.ofOptions options metrics).layout d).document
  | pass {d : Document α} (h : ReachableInRange d) (options : LayoutOptions α)
      (metrics : GlyphMetrics α) (pass : LayoutPass)
      (hok : ((Engine.ofOptions options metrics).run d pass).fault = none) :
      ReachableInRange ((Engine.ofOptions options metrics).run d pass).document

namespace ReachableInRange

variable {d : Document α}

theorem reachable (h : d.ReachableInRange) : d.Reachable := by
  induction h with
  | ofDefinition definition => exact .ofDefinition definition
  | contentSystem _ hd => exact hd.contentSystem
  | add _ parent kind hd => exact hd.add parent kind
  | addNamed _ hid hok hd => exact hd.addNamed hid hok
  | remove _ hok hd => exact hd.remove hok
  | detach _ hok hd => exact hd.detach hok
  | collect _ hd => exact hd.collect
  | layout _ options metrics hd => exact hd.layout _
  | pass _ options metrics pass hok hd => exact hd.pass _ pass hok

variable [Scalar.Ordered α]

/-- Once it has ideal positions, no measure of such a document has a negative width. -/
theorem sound (h : d.ReachableInRange) : d.SoundOnceSpaced := by
  have hbuilt {d : Document α} (hs : d.stage = .built) : d.SoundOnceSpaced :=
    .of_stage (by rw [hs]; decide)
  induction h with
  | ofDefinition definition => exact hbuilt rfl
  | @contentSystem d h hd =>
    intro hs
    rw [stage_contentSystem] at hs
    have hd' := h.reachable.wellFormed
    obtain ⟨S, hS, -⟩ := (hd'.soundWithin_isLive (hd hs)).contentSystem hd'
    exact hd'.contentSystem.1.sound_of_within hS
  | @add d h parent kind hd =>
    rw [Document.add]
    dsimp only
    split
    · rename_i hok
      exact hbuilt (stage_addNamed hok)
    · exact hd
  | addNamed _ _ hok => exact hbuilt (stage_addNamed hok)
  | remove _ hok => exact hbuilt (stage_remove hok)
  | detach _ hok hd =>
    rw [Document.detach] at hok
    split_ifs at hok
    split at hok
    · exact hbuilt (stage_remove hok)
    · exact Except.ok.inj hok ▸ hd
  | @collect d h hd =>
    have hscore : d.collect.2.score = d.score := by
      rw [collect_eq, score, score]
      cases d.trees <;> rfl
    intro hs
    rw [collect_eq] at hs
    rw [Sound, hscore]
    exact hd hs
  | layout h options metrics hd => exact h.reachable.wellFormed.soundOnceSpaced_layout hd _ _
  | pass h options metrics pass hok hd =>
    exact h.reachable.wellFormed.soundOnceSpaced_run hd _ _ pass fun _ => hok

end ReachableInRange

end Document

end ScoreLayout
