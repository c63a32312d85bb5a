import ScoreLayout.Proofs.Layout.FramedGrids
import ScoreLayout.Proofs.Layout.WalkedSymbols

/-!
# Groups without slots

Beams and tuplets hold other symbols and are drawn with them. Alignment gives them no slot, and the
books on grace notes never name them, so that they have none from preparation on, also where a walk
has broken down.

## Main definitions

* `Node.IsGroup`, `Node.IsTimed` — beams and tuplets, and the symbols with a duration.

## Main results

* `Document.WellFormed.ungroups_align` — alignment gives no group a slot.
* `Document.Reachable.ungrouped` — nor does anything else.
-/

namespace ScoreLayout

variable {α : Type}

/-- A beam or a tuplet. -/
def Node.IsGroup (n : Node α) : Prop :=
  n.kind = .element .beam ∨ ∃ num base, n.kind = .element (.tuplet num base)

/-- A symbol with a duration. -/
def Node.IsTimed (n : Node α) : Prop := ∃ e, n.kind = .element e ∧ e.duration?.isSome

theorem Node.IsGroup.not_isTimed {n : Node α} (h : n.IsGroup) : ¬ n.IsTimed := by
  rintro ⟨e, he, htime⟩
  rcases h with h | ⟨num, base, h⟩
  all_goals
    rw [h, NodeKind.element.injEq] at he
    subst he
    cases htime

namespace Forest

variable {f : Forest (Node α)}

/-- Nothing stands below the notes of a chord. -/
theorem Nested.toList_of_notes : {f : Forest (Node α)} → f.Nested →
    (∀ b ∈ f.roots, ∃ note, b.kind = .element (.note note)) → f.toList = f.roots
  | .nil, _, _ => rfl
  | .cons b below siblings, hf, hnotes => by
      rw [roots, List.forall_mem_cons] at hnotes
      obtain ⟨note, hb⟩ := hnotes.1
      rw [Symbolic.eq_nil_of_note hb hf.1, toList, roots, hf.2.2.toList_of_notes hnotes.2]
      rfl

/-- What stands below a grace note or a grace chord has a duration. -/
theorem Nested.isTimed_of_isGrace (hf : f.Nested) {n : Node α} {below : Forest (Node α)}
    (hn : HasTree n below f) (hgrace : n.isGrace) : ∀ m ∈ below.toList, m.IsTimed := by
  obtain ⟨htakes, hbelow⟩ := hf.of_hasTree hn
  obtain ⟨e, he⟩ := Node.exists_element (Node.tag_of_isGrace hgrace)
  rw [Node.isGrace, he] at hgrace
  cases e with
  | note note =>
    rw [Symbolic.eq_nil_of_note he htakes]
    exact fun m hm => absurd hm List.not_mem_nil
  | chord d =>
    have hnotes : ∀ b ∈ below.roots, ∃ note, b.kind = .element (.note note) := fun b hb =>
      NodeKind.exists_note_of_chord (he ▸ htakes b hb)
    rw [hbelow.toList_of_notes hnotes]
    exact fun m hm => (hnotes m hm).elim fun note hm => ⟨_, hm, rfl⟩
  | rest | space =>
    cases below with
    | nil => exact fun m hm => absurd hm List.not_mem_nil
    | cons b _ _ =>
      have := htakes b List.mem_cons_self
      rw [he] at this
      cases hb : b.kind <;> simp [hb, NodeKind.accepts, Element.accepts] at this
  | measureRest | multiRest | beam | tuplet | clef | key | meter | barLine => cases hgrace

end Forest

variable [Scalar α]

/-- The symbol of a node is part of its music. -/
theorem Node.SameMusic.element {n n' : Node α} (h : n.SameMusic n') {e : Element} :
    n'.kind = .element e ↔ n.kind = .element e := by
  have hkind := h.kind
  cases hk : n.kind <;> cases hk' : n'.kind <;> simp_all [NodeKind.bare]

theorem Node.SameMusic.isGroup {n n' : Node α} (h : n.SameMusic n') : n'.IsGroup ↔ n.IsGroup := by
  simp only [Node.IsGroup, h.element]

theorem Node.SameMusic.isTimed {n n' : Node α} (h : n.SameMusic n') : n'.IsTimed ↔ n.IsTimed := by
  simp only [Node.IsTimed, h.element]

namespace AlignState

variable {c : AlignContext α} {s : AlignState α} {n n' : Node α} {e : Element}

/-- Two states of one node, which has the same slot if it is a group. -/
structure Ungroups (n n' : Node α) : Prop extends Keeps n n' where
  slot : n.IsGroup → n'.layout.slot = n.layout.slot

theorem Ungroups.refl (n : Node α) : Ungroups n n := ⟨.refl n, fun _ => rfl⟩

theorem Ungroups.trans {a b c : Node α} (h : Ungroups a b) (h' : Ungroups b c) : Ungroups a c :=
  ⟨h.toKeeps.trans h'.toKeeps, fun ha =>
    (h'.slot (h.isGroup.2 ha)).trans (h.slot ha)⟩

/-- A node that is no group. -/
theorem Ungroups.of_tag (h : Keeps n n') (hn : n.tag ≠ .element) : Ungroups n n' :=
  ⟨h, fun hgroup => absurd (by
    rcases hgroup with h | ⟨_, _, h⟩ <;> rw [Node.tag, h] <;> rfl) hn⟩

/-- A group keeps its slot when it is entered. -/
theorem ungroups_enterElement (c : AlignContext α) (s : AlignState α) (above : Option (Node α))
    (n : Node α) (hn : n.kind = .element e) : Ungroups n (s.enterElement c above n e).2 where
  toKeeps := (writes_enterElement c s n above e).keeps
  slot hgroup := by
    rcases hgroup with h | ⟨num, base, h⟩
    all_goals
      obtain rfl := NodeKind.element.inj (hn.symm.trans h)
      rw [enterElement_of_ne_note c s above n (by simp), enterSymbol]
      rfl

/-- What the books may name below a node: handles of symbols with a duration. -/
def Names (c : AlignContext α) (timed : Handle → Prop) (n : Node α) : Prop :=
  n.IsTimed → timed n.handle ∧ (n.isGrace → ∀ h ∈ c.symbolsBelow n.handle, timed h)

/-- What entering a node does to groups, and what the books name then. -/
theorem ungroups_enter {timed : Handle → Prop} (hs : s.ledger.Within timed)
    (hn : Names c timed n) (above : Option (Node α)) :
    Ungroups n (s.enter c above n).2.1 ∧ (s.enter c above n).1.ledger.Within timed := by
  have hkeeps := keeps_enter c s n above
  cases hk : n.kind with
  | element e =>
    have hwaits : e.isGrace → ∀ h ∈ n.handle :: c.symbolsBelow n.handle, timed h := by
      intro hgrace
      have htimed : n.IsTimed := ⟨e, hk, by
        cases hd : e.duration? <;> simp [Element.isGrace, hd] at hgrace ⊢⟩
      obtain ⟨hself, hbelow⟩ := hn htimed
      exact List.forall_mem_cons.2 ⟨hself, hbelow (by rw [Node.isGrace, hk]; exact hgrace)⟩
    have hledger : (s.reach e).ledger = s.ledger := by
      obtain ⟨fault, heq⟩ := s.exists_reach e
      rw [heq]
      rfl
    rw [enter, hk]
    dsimp only
    split_ifs
    · exact ⟨ungroups_enterElement c (s.reach e) above n hk,
        kept_enterElement (GraceLedger.kept_within timed) (hledger ▸ hs) above trivial hwaits⟩
    · exact ⟨.refl n, hs⟩
  | measure m =>
    refine ⟨.of_tag hkeeps (by rw [Node.tag, hk]; simp [NodeKind.tag]), ?_⟩
    rw [enter, hk]
    dsimp only
    rw [enterMeasure]
    dsimp only
    split <;> exact hs
  | layer k =>
    refine ⟨.of_tag hkeeps (by rw [Node.tag, hk]; simp [NodeKind.tag]), ?_⟩
    rw [enter, hk]
    exact ⟨fun g hg => absurd hg List.not_mem_nil, hs.found⟩
  | document | page | system | staff | control | change | systemBreak | pageBreak =>
    refine ⟨.of_tag hkeeps (by rw [Node.tag, hk]; simp [NodeKind.tag]), ?_⟩
    rw [enter, hk]
    exact hs

/-- Time-stamps are read off control elements only. -/
theorem same_placeControls (beat last : Fraction) : (f : Forest (Node α)) → (s : AlignState α) →
    Forest.Forall₂ (fun n n' => n'.tag ≠ .control → n' = n) f (placeControls beat last s f).2
  | .nil, _ => .nil
  | .cons n _ siblings, s => .cons (collects_placeControl beat last s n).2.2
      (.refl fun _ _ _ => rfl) (same_placeControls beat last siblings _)

/-- What leaving a node does to groups, and what the books name then. -/
theorem ungroups_leave {timed : Handle → Prop} (hs : s.ledger.Within timed) (n : Node α)
    (below : Forest (Node α)) :
    Ungroups n (s.leave c n below).2.1 ∧
      Forest.Forall₂ Ungroups below (s.leave c n below).2.2.1 ∧
        (s.leave c n below).1.ledger.Within timed := by
  obtain ⟨hkeeps, hbelow⟩ := keeps_leave c s n below
  have hsame (f : Forest (Node α)) : Forest.Forall₂ Ungroups f f := .refl fun m _ => .refl m
  cases hk : n.kind with
  | measure m =>
    refine ⟨.of_tag hkeeps (by rw [Node.tag, hk]; simp [NodeKind.tag]), ?_⟩
    rw [leave, hk] at hbelow ⊢
    dsimp only at hbelow ⊢
    have hplaced := same_placeControls s.signatures.meter.beatDuration
      (s.grids.headD m.grid).maxTime below s
    have hlayer := (layer_leaveMeasure c s n m below).1
    have hfound := (collects_placeControls s.signatures.meter.beatDuration
      (s.grids.headD m.grid).maxTime below s).2.1
    obtain ⟨hforest, hslots⟩ : (s.leaveMeasure c n m below).2.2 =
        (placeControls s.signatures.meter.beatDuration (s.grids.headD m.grid).maxTime s below).2 ∧
        (s.leaveMeasure c n m below).1.graceSlots = s.graceSlots := by
      rw [leaveMeasure]
      dsimp only
      split <;> exact ⟨rfl, hfound⟩
    refine ⟨(hbelow.and (hforest ▸ hplaced)).mono fun a b h => ⟨h.1, fun hgroup => ?_⟩, ?_⟩
    · rw [h.2]
      rintro htag
      have := h.1.isGroup.2 hgroup
      rcases this with h | ⟨_, _, h⟩ <;> rw [Node.tag, h] at htag <;> cases htag
    · rwa [ledger, hlayer, hslots]
  | layer k =>
    rw [leave, hk] at hkeeps ⊢
    exact ⟨.refl n, hsame below, kept_leaveLayer (GraceLedger.kept_within timed) hs⟩
  | element e =>
    rw [leave, hk] at hkeeps ⊢
    refine ⟨⟨hkeeps, fun _ => (s.sameSlot_leaveElement n e).slot⟩, hsame below, ?_⟩
    dsimp only
    rwa [ledger_leaveElement]
  | document | page | system | staff | control | change | systemBreak | pageBreak =>
    rw [leave, hk]
    exact ⟨.refl n, hsame below, hs⟩

end AlignState

namespace Document

variable {d : Document α}

/-- The handles of symbols with a duration. -/
def TimedHandle (d : Document α) (h : Handle) : Prop :=
  ∃ n ∈ d.score.toList, n.handle = h ∧ n.IsTimed

/-- The walk of alignment, also where it breaks down: groups keep their slots, and the books name
symbols with a duration only. -/
theorem WellFormed.ungroups_walk (hd : d.WellFormed) (metrics : GlyphMetrics α) (unit : α) :
    Forest.Forall₂ AlignState.Ungroups d.score
        (d.score.run (alignPass ⟨metrics, unit, d⟩) (.start d.definition)).2.1 ∧
      (d.score.run (alignPass ⟨metrics, unit, d⟩) (.start d.definition)).1.ledger.Within
        d.TimedHandle := by
  have hstart : (AlignState.start d.definition : AlignState α).ledger.Within d.TimedHandle :=
    ⟨fun g hg => absurd hg List.not_mem_nil, fun e he => absurd he List.not_mem_nil⟩
  refine Forest.forall₂_runWithin (p := alignPass ⟨metrics, unit, d⟩)
    (I := fun s : AlignState α => s.ledger.Within d.TimedHandle)
    (P := AlignState.Names ⟨metrics, unit, d⟩ d.TimedHandle) AlignState.Ungroups.refl
    (fun _ _ _ => AlignState.Ungroups.trans) (fun n n' h hn htimed => ?_)
    (fun s above n hs hn => AlignState.ungroups_enter hs hn above)
    (fun s _ n below hs _ => AlignState.ungroups_leave hs n below)
    d.score (fun n hn htimed => ⟨⟨n, hn, rfl, htimed⟩, fun hgrace h hh => ?_⟩) none id _ hstart
  · have hsame := h.toSameMusic
    obtain ⟨hself, hbelow⟩ := hn (hsame.isTimed.1 htimed)
    rw [hsame.handle]
    refine ⟨hself, fun hgrace => hbelow ?_⟩
    obtain ⟨e, he⟩ := Node.exists_element (Node.tag_of_isGrace hgrace)
    rw [Node.isGrace, he] at hgrace
    rw [Node.isGrace, hsame.element.1 he]
    exact hgrace
  · obtain ⟨below, htree⟩ := Forest.exists_hasTree hn
    rw [hd.handlesBelow rfl n below htree (Node.tag_of_isGrace hgrace)] at hh
    obtain ⟨m, hm, rfl⟩ := List.mem_map.1 hh
    exact ⟨m, htree.mem_of_mem hm, rfl, hd.nested_score.isTimed_of_isGrace htree hgrace m hm⟩

/-- No slot has been found for a group, or for a symbol without a duration. -/
theorem WellFormed.lookup_eq_none (hd : d.WellFormed) (metrics : GlyphMetrics α) (unit : α)
    {n n' : Node α} (hn : n ∈ d.score.toList) (hnn : n.SameMusic n') (hn' : ¬ n'.IsTimed) :
    (d.score.run (alignPass ⟨metrics, unit, d⟩) (.start d.definition)).1.graceSlots.lookup
      n'.handle = none := by
  refine (hd.ungroups_walk metrics unit).2.lookup_eq_none ?_
  rintro ⟨m, hm, hhandle, htimed⟩
  have hnodup := hd.nodup_handles.sublist ((score_sublist d).map Node.handle)
  obtain rfl := List.inj_on_of_nodup_map hnodup hm hn (hhandle.trans hnn.handle)
  exact hn' (hnn.isTimed.2 htimed)

/-- Alignment gives no group a slot, also where it breaks down. -/
theorem WellFormed.ungroups_align (hd : d.WellFormed) (metrics : GlyphMetrics α) (unit : α) :
    Forest.Forall₂ AlignState.Ungroups d.score (d.align metrics unit).document.score := by
  have hfill : Forest.Forall₂ AlignState.Ungroups d.score (d.fillGrids metrics unit).2.score := by
    have hwalk := (hd.ungroups_walk metrics unit).1.mem
    rw [fillGrids]
    refine (fun h => score_withScore h ▸ h) ?_
    refine hwalk.trans (.map_right (R := fun n n' => n' = AlignState.applyGraceSlots _ n) _
      fun _ _ => rfl) ?_
    rintro n n₁ _ ⟨hnn, hn, -⟩ rfl
    refine hnn.trans ⟨AlignState.keeps_applyGraceSlots n₁ _, fun hgroup => ?_⟩
    rw [AlignState.applyGraceSlots,
      hd.lookup_eq_none metrics unit hn hnn.toSameMusic hgroup.not_isTimed]
  rw [align, Outcome.guarded]
  split
  · exact .refl fun n _ => .refl n
  · dsimp only
    split
    · exact hfill
    · exact hfill

/-- No group of the content has a slot. -/
def Ungrouped (d : Document α) : Prop := ∀ n ∈ d.content.toList, n.IsGroup → n.layout.slot = none

theorem promise_ungrouped : Promise (α := α) fun d => .prepared ≤ d.stage → d.Ungrouped where
  of_content hstage hcontent h hs := by
    rw [Ungrouped, hcontent]
    exact h (hstage ▸ hs)
  built hbuilt hs := by
    rw [hbuilt] at hs
    exact absurd hs (by decide)
  run {d} hd hsettled h e pass _ hs := by
    by_cases hrequired : pass.required ≤ d.stage
    · by_cases hprepare : pass = .prepare
      · subst hprepare
        exact fun n hn _ => hd.slot_prepare n ((content_sublist_score _).subset hn)
      · have hprepared : .prepared ≤ d.stage := by
          cases pass <;> first | contradiction | exact Nat.le_trans (by decide) hrequired
        intro n' hn' hgroup
        by_cases halign : pass = .align
        · subst halign
          have hscore := hd.ungroups_align e.metrics e.options.scaledUnit
          obtain ⟨n, hn, hnn⟩ :=
            exists_mem_of_forall₂ hscore.branches.branches.branches.toList hn'
          have hgroup₀ := hnn.isGroup.1 hgroup
          rw [hnn.slot hgroup₀, h hprepared n hn hgroup₀]
        · obtain ⟨n, hn, hnn⟩ :=
            exists_mem_of_forall₂ (hd.staysPut_run hsettled e hprepare halign).toList hn'
          have hgroup₀ := hnn.isGroup.1 hgroup
          have htag : n.tag = .element := by
            rcases hgroup₀ with h | ⟨_, _, h⟩ <;> rw [Node.tag, h] <;> rfl
          rw [hnn.layout htag, h hprepared n hn hgroup₀]
    · obtain ⟨step, -, hrun⟩ := run_of_not_required e hrequired
      rw [hrun] at hs ⊢
      exact h hs

/-- From preparation on no beam and no tuplet has a slot, whatever a caller comes to. -/
theorem Reachable.ungrouped (h : d.Reachable) (hs : .prepared ≤ d.stage) : d.Ungrouped :=
  promise_ungrouped.of_reachable h hs

end Document

end ScoreLayout
