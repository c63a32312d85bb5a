import ScoreLayout.Proofs.Forest.Walk
import ScoreLayout.Proofs.Onsets

/-!
# Where placement puts symbols

Placement walks a score with the system and the measure that it stands in. A symbol comes to stand
where its measure begins, moved by the position of its slot in the time grid of the measure.

## Main definitions

* `Forest.SlotsPlaced` — all symbols of a forest stand at their slots.

## Main results

* `Document.WellFormed.slotsPlaced_place` — placement puts all symbols of a score at their slots.
-/

namespace ScoreLayout

variable {α : Type} [Scalar α]

/-- All symbols of a forest stand at the slots of their measures. -/
def Forest.SlotsPlaced (f : Forest (Node α)) : Prop :=
  ∀ n below m, HasTree n below f → n.kind = .measure m → ∀ e ∈ below.toList, e.tag = .element →
    e.box.x = n.box.x + (e.layout.slot.bind m.grid.xOf?).getD 0

namespace Forest.SlotsPlaced

variable {n : Node α} {f f' below siblings : Forest (Node α)}

theorem cons (hn : n.tag ≠ .measure) (hbelow : below.SlotsPlaced)
    (hsiblings : siblings.SlotsPlaced) : (Forest.cons n below siblings).SlotsPlaced := by
  intro k under m htree hk
  cases htree with
  | here => exact absurd (by rw [Node.tag, hk]; rfl) hn
  | deeper _ h => exact hbelow k under m h hk
  | beside _ _ h => exact hsiblings k under m h hk

/-- What moves control elements only leaves symbols where they stand. -/
theorem of_reanchored (hf : f.SlotsPlaced) (h : Forest.Forall₂ Node.Reanchored f f') :
    f'.SlotsPlaced := by
  have hsame {n n' : Node α} (hn : n.Reanchored n') (ht : n'.tag ≠ .control) : n' = n :=
    hn.same (by rwa [Node.tag, ← hn.kind])
  intro n' below' m htree hk e' he' htag
  obtain ⟨n, below, hn, hnn, hbelow⟩ := h.flip.hasTree htree
  obtain ⟨e, he, hee⟩ := exists_mem_of_forall₂ hbelow.flip.toList he'
  obtain rfl := hsame hnn (by rw [Node.tag, hk]; simp [NodeKind.tag])
  obtain rfl := hsame hee (by rw [htag]; decide)
  exact hf n' below m hn hk e' he htag

end Forest.SlotsPlaced

namespace Placing

variable {c : PlacingContext α} {s s₁ s₂ : Placing α} {n n₁ n₂ : Node α}

theorem enterStaff_spec (s : Placing α) (n : Node α) (staff : Staff) :
    (s.enterStaff n staff).1.measure = s.measure ∧ (s.enterStaff n staff).1.system = s.system ∧
      (s.enterStaff n staff).2.tag = n.tag := by
  unfold enterStaff
  split <;> exact ⟨rfl, rfl, rfl⟩

theorem enterControl_spec (s : Placing α) (above : Option (Node α)) (n : Node α)
    (control : Control α) : (s.enterControl c above n control).1.measure = s.measure ∧
      (s.enterControl c above n control).1.system = s.system ∧
      (s.enterControl c above n control).2.tag = n.tag := by
  unfold enterControl
  dsimp only
  repeat' split
  all_goals exact ⟨rfl, rfl, rfl⟩

/-- What entering a node inside a measure comes to. -/
theorem enter_of_frame {frame : MeasureFrame α} (hs : s.measure = some frame)
    (hn : n.tag = .staff ∨ n.tag = .layer ∨ n.tag = .control ∨ n.tag = .element)
    {above : Option (Node α)} {v : Visit} (h : (placingPass c).enter s above n = (s₁, n₁, v)) :
    s₁.measure = some frame ∧ s₁.system = s.system ∧ n₁.tag = n.tag ∧
      (n.tag = .element → n₁.box.x = frame.xOf n₁.layout.slot) ∧
      (v = .skipChildren → n.tag = .control) := by
  dsimp only [placingPass] at h
  rw [Node.tag] at hn
  cases hk : n.kind with
  | staff staff =>
    rw [hk] at h
    simp only [Prod.mk.injEq] at h
    obtain ⟨rfl, rfl, rfl⟩ := h
    obtain ⟨hmeasure, hsystem, htag⟩ := s.enterStaff_spec n staff
    exact ⟨hmeasure.trans hs, hsystem, htag, by simp [Node.tag, hk, NodeKind.tag],
      fun hv => by cases hv⟩
  | control control =>
    rw [hk] at h
    simp only [Prod.mk.injEq] at h
    obtain ⟨rfl, rfl, -⟩ := h
    obtain ⟨hmeasure, hsystem, htag⟩ := s.enterControl_spec (c := c) above n control
    exact ⟨hmeasure.trans hs, hsystem, htag, by simp [Node.tag, hk, NodeKind.tag],
      fun _ => by rw [Node.tag, hk]; rfl⟩
  | element e =>
    rw [hk, enterElement, hs] at h
    simp only [Prod.mk.injEq] at h
    obtain ⟨rfl, rfl, rfl⟩ := h
    refine ⟨hs, rfl, rfl, fun _ => ?_, fun hv => by cases hv⟩
    dsimp only
    split <;> rfl
  | layer k =>
    rw [hk] at h
    simp only [Prod.mk.injEq] at h
    obtain ⟨rfl, rfl, rfl⟩ := h
    exact ⟨hs, rfl, rfl, by simp [Node.tag, hk, NodeKind.tag],
      fun hv => by cases hv⟩
  | document | page | system | measure | systemBreak | pageBreak | change =>
    simp [hk, NodeKind.tag] at hn

/-- What leaving a node inside a measure comes to. -/
theorem leave_of_frame {frame : MeasureFrame α} (hs : s.measure = some frame)
    (hn : n.tag = .staff ∨ n.tag = .layer ∨ n.tag = .control ∨ n.tag = .element)
    {whole : Node α → Forest (Node α) → Forest (Node α)} {below below' : Forest (Node α)} {v : Visit}
    (h : (placingPass c).leave s whole n below = (s₁, n₁, below', v)) :
    s₁.measure = some frame ∧ s₁.system = s.system ∧ n₁.tag = n.tag ∧ n₁.box.x = n.box.x ∧ n₁.layout = n.layout ∧
      below' = below := by
  dsimp only [placingPass] at h
  rw [Node.tag] at hn
  cases hk : n.kind with
  | element e =>
    rw [hk] at h
    simp only [Prod.mk.injEq] at h
    obtain ⟨rfl, rfl, rfl, -⟩ := h
    rw [leaveElement]
    split <;> exact ⟨hs, rfl, rfl, rfl, rfl, rfl⟩
  | staff | layer | control =>
    rw [hk] at h
    simp only [Prod.mk.injEq] at h
    obtain ⟨rfl, rfl, rfl, -⟩ := h
    exact ⟨hs, rfl, rfl, rfl, rfl, rfl⟩
  | document | page | system | measure | systemBreak | pageBreak | change =>
    simp [hk, NodeKind.tag] at hn

/-- Inside a measure all symbols come to stand at their slots. -/
theorem placed_staves {s : Placing α} {above : Option (Node α)} {f : Forest (Node α)}
    {s' : Placing α} {f' : Forest (Node α)}
    (h : Forest.Completes (placingPass c) above s f s' f') (hf : f.Nested)
    (hroots : ∀ n ∈ f.roots, n.tag = .staff ∨ n.tag = .layer ∨ n.tag = .control ∨ n.tag = .element)
    {frame : MeasureFrame α} (hs : s.measure = some frame) :
    s'.system = s.system ∧ s'.measure = some frame ∧ ∀ n' ∈ f'.toList, n'.tag ≠ .measure ∧
      (n'.tag = .element → n'.box.x = frame.xOf n'.layout.slot) := by
  induction h with
  | nil => exact ⟨rfl, hs, fun n hn => absurd hn List.not_mem_nil⟩
  | @skip above s s₁ s₂ b b₁ children siblings siblings' henter _ ih =>
    rw [Forest.roots, List.forall_mem_cons] at hroots
    obtain ⟨hs₁, hsystem₁, htag₁, -, hskip⟩ := enter_of_frame hs hroots.1 henter
    obtain ⟨k, hb⟩ := Node.exists_control (hskip rfl)
    have hnil : children = .nil := by
      cases children with
      | nil => rfl
      | cons n _ _ =>
        have htakes := hf.1 n List.mem_cons_self
        rw [hb] at htakes
        cases n.kind <;> cases htakes
    obtain ⟨hsystem₂, hs₂, hrest⟩ := ih hf.2.2 hroots.2 hs₁
    refine ⟨hsystem₂.trans hsystem₁, hs₂, ?_⟩
    rw [Forest.toList, hnil, Forest.toList, List.nil_append, List.forall_mem_cons]
    rw [htag₁, hskip rfl]
    exact ⟨⟨by decide, fun ht => by cases ht⟩, hrest⟩
  | @walk above s s₁ s₂ s₃ s₄ b b₁ b₂ children siblings children₁ children₂ siblings' whole v henter
      _ hleave _ _ ihbelow ihbeside =>
    rw [Forest.roots, List.forall_mem_cons] at hroots
    obtain ⟨hs₁, hsystem₁, htag₁, hx₁, -⟩ := enter_of_frame hs hroots.1 henter
    have hchildren : ∀ n ∈ children.roots,
        n.tag = .staff ∨ n.tag = .layer ∨ n.tag = .control ∨ n.tag = .element := by
      intro n hn
      have htakes := hf.1 n hn
      have hb := hroots.1
      rw [Node.tag] at hb ⊢
      cases hk : b.kind <;> cases hk' : n.kind <;>
        simp [hk, hk', NodeKind.accepts, NodeKind.tag] at htakes hb ⊢
    obtain ⟨hsystem₂, hs₂, hdeep⟩ := ihbelow hf.2.1 hchildren hs₁
    obtain ⟨hs₃, hsystem₃, htag₂, hx₂, hlayout, rfl⟩ := leave_of_frame hs₂ (htag₁ ▸ hroots.1) hleave
    obtain ⟨hsystem₄, hs₄, hrest⟩ := ihbeside hf.2.2 hroots.2 hs₃
    refine ⟨hsystem₄.trans (hsystem₃.trans (hsystem₂.trans hsystem₁)), hs₄, ?_⟩
    rw [Forest.toList, List.forall_mem_cons, List.forall_mem_append]
    rw [hx₂, hlayout, htag₂, htag₁]
    refine ⟨⟨?_, hx₁⟩, hdeep, hrest⟩
    rcases hroots.1 with ht | ht | ht | ht <;> rw [ht] <;> decide

/-- What entering a node right inside a system comes to. -/
theorem enter_of_content {frame : SystemFrame α} (hs : s.system = some frame)
    (hn : n.tag = .measure ∨ n.tag = .systemBreak ∨ n.tag = .pageBreak ∨ n.tag = .change ∨
      n.tag = .control)
    {above : Option (Node α)} {v : Visit} (h : (placingPass c).enter s above n = (s₁, n₁, v)) :
    s₁.system = some frame ∧ n₁.tag = n.tag ∧ (v = .skipChildren → n.tag = .control) ∧
      ∀ m, n.kind = .measure m → s₁.measure = some ⟨n.handle, m, n₁.box.x⟩ ∧ n₁.kind = n.kind := by
  dsimp only [placingPass] at h
  rw [Node.tag] at hn
  cases hk : n.kind with
  | measure m =>
    rw [hk] at h
    unfold enterMeasure at h
    rw [hs] at h
    simp only [Prod.mk.injEq] at h
    obtain ⟨rfl, rfl, rfl⟩ := h
    refine ⟨rfl, rfl, (fun hv => by cases hv), fun m' hm' => ⟨?_, hk⟩⟩
    rw [← NodeKind.measure.inj hm']
  | control control =>
    rw [hk] at h
    simp only [Prod.mk.injEq] at h
    obtain ⟨rfl, rfl, -⟩ := h
    obtain ⟨-, hsystem, htag⟩ := s.enterControl_spec (c := c) above n control
    exact ⟨hsystem.trans hs, htag, fun _ => by rw [Node.tag, hk]; rfl, fun m hm => by cases hm⟩
  | systemBreak | pageBreak | change =>
    rw [hk] at h
    simp only [Prod.mk.injEq] at h
    obtain ⟨rfl, rfl, rfl⟩ := h
    exact ⟨hs, rfl, (fun hv => by cases hv), fun m hm => by cases hm⟩
  | document | page | system | staff | layer | element => simp [hk, NodeKind.tag] at hn

/-- What leaving a node right inside a system comes to. -/
theorem leave_of_content (hn : n.tag = .measure ∨ n.tag = .systemBreak ∨ n.tag = .pageBreak ∨
      n.tag = .change ∨ n.tag = .control)
    {whole : Node α → Forest (Node α) → Forest (Node α)} {below below' : Forest (Node α)} {v : Visit}
    (h : (placingPass c).leave s whole n below = (s₁, n₁, below', v)) :
    s₁.system = s.system ∧ n₁ = n ∧ below' = below := by
  dsimp only [placingPass] at h
  rw [Node.tag] at hn
  cases hk : n.kind with
  | measure | systemBreak | pageBreak | change | control =>
    rw [hk] at h
    simp only [Prod.mk.injEq] at h
    obtain ⟨rfl, rfl, rfl, -⟩ := h
    exact ⟨rfl, rfl, rfl⟩
  | document | page | system | staff | layer | element => simp [hk, NodeKind.tag] at hn

/-- Inside a system all symbols come to stand at their slots. -/
theorem placed_content {s : Placing α} {above : Option (Node α)} {f : Forest (Node α)}
    {s' : Placing α} {f' : Forest (Node α)}
    (h : Forest.Completes (placingPass c) above s f s' f') (hf : f.Nested)
    (hroots : ∀ n ∈ f.roots, n.tag = .measure ∨ n.tag = .systemBreak ∨ n.tag = .pageBreak ∨
      n.tag = .change ∨ n.tag = .control)
    {frame : SystemFrame α} (hs : s.system = some frame) :
    s'.system = some frame ∧ f'.SlotsPlaced := by
  induction h with
  | nil => exact ⟨hs, fun _ _ _ h => by cases h⟩
  | @skip above s s₁ s₂ b b₁ children siblings siblings' henter _ ih =>
    rw [Forest.roots, List.forall_mem_cons] at hroots
    obtain ⟨hs₁, htag₁, hskip, -⟩ := enter_of_content hs hroots.1 henter
    obtain ⟨k, hb⟩ := Node.exists_control (hskip rfl)
    have hnil : children = .nil := by
      cases children with
      | nil => rfl
      | cons n _ _ =>
        have htakes := hf.1 n List.mem_cons_self
        rw [hb] at htakes
        cases n.kind <;> cases htakes
    obtain ⟨hs₂, hrest⟩ := ih hf.2.2 hroots.2 hs₁
    refine ⟨hs₂, .cons (by rw [htag₁, hskip rfl]; decide) ?_ hrest⟩
    rw [hnil]
    exact fun _ _ _ h => by cases h
  | @walk above s s₁ s₂ s₃ s₄ b b₁ b₂ children siblings children₁ children₂ siblings' whole v henter
      hbelow hleave _ _ _ ihbeside =>
    rw [Forest.roots, List.forall_mem_cons] at hroots
    obtain ⟨hs₁, htag₁, -, hframe⟩ := enter_of_content hs hroots.1 henter
    have hleft := leave_of_content (htag₁ ▸ hroots.1) hleave
    by_cases hm : b.tag = .measure
    · obtain ⟨m, hb⟩ := NodeKind.exists_of_measure hm
      obtain ⟨hmeasure, hkind⟩ := hframe m hb
      have hstaves : ∀ n ∈ children.roots,
          n.tag = .staff ∨ n.tag = .layer ∨ n.tag = .control ∨ n.tag = .element := by
        intro n hn
        have htakes := hf.1 n hn
        rw [hb] at htakes
        rw [Node.tag]
        cases hk : n.kind <;> simp [hk, NodeKind.accepts, NodeKind.tag] at htakes ⊢
      obtain ⟨hs₂, -, hplaced⟩ := placed_staves hbelow hf.2.1 hstaves hmeasure
      obtain ⟨hs₃, rfl, rfl⟩ := hleft
      obtain ⟨hs₄, hrest⟩ := ihbeside hf.2.2 hroots.2 (hs₃.trans (hs₂.trans hs₁))
      refine ⟨hs₄, fun n under k htree hk e he htag => ?_⟩
      cases htree with
      | here =>
        obtain rfl := NodeKind.measure.inj (hb.symm.trans (hkind.symm.trans hk))
        exact (hplaced e he).2 htag
      | deeper _ h => exact absurd (by rw [Node.tag, hk]; rfl) (hplaced n h.mem).1
      | beside _ _ h => exact hrest n under k h hk e he htag
    · have hnil : children = .nil := by
        cases children with
        | nil => rfl
        | cons n _ _ =>
          have htakes := hf.1 n List.mem_cons_self
          have hb := hroots.1
          rw [Node.tag] at hb hm
          cases hk : b.kind <;> cases hk' : n.kind <;>
            simp [hk, hk', NodeKind.accepts, NodeKind.tag] at htakes hb hm
      subst hnil
      cases hbelow
      obtain ⟨hs₃, rfl, rfl⟩ := hleft
      obtain ⟨hs₄, hrest⟩ := ihbeside hf.2.2 hroots.2 (hs₃.trans hs₁)
      exact ⟨hs₄, .cons (htag₁ ▸ hm) (fun _ _ _ h => by cases h) hrest⟩

/-- What entering a node above systems, or a system, comes to. -/
theorem enter_of_upper (hn : n.tag = .document ∨ n.tag = .page ∨ n.tag = .system)
    {above : Option (Node α)} {v : Visit} (h : (placingPass c).enter s above n = (s₁, n₁, v)) :
    v = .proceed ∧ n₁.tag = n.tag ∧ (n.tag = .system → ∃ frame, s₁.system = some frame) := by
  dsimp only [placingPass] at h
  rw [Node.tag] at hn
  cases hk : n.kind with
  | document | page =>
    rw [hk] at h
    simp only [Prod.mk.injEq] at h
    obtain ⟨rfl, rfl, rfl⟩ := h
    exact ⟨rfl, rfl, by simp [Node.tag, hk, NodeKind.tag]⟩
  | system system =>
    rw [hk] at h
    simp only [Prod.mk.injEq] at h
    obtain ⟨rfl, rfl, rfl⟩ := h
    exact ⟨rfl, rfl, fun _ => ⟨_, rfl⟩⟩
  | measure | staff | layer | element | control | change | systemBreak | pageBreak =>
    simp [hk, NodeKind.tag] at hn

/-- What leaving a node above systems, or a system, comes to. -/
theorem leave_of_upper (hn : n.tag = .document ∨ n.tag = .page ∨ n.tag = .system)
    {whole : Node α → Forest (Node α) → Forest (Node α)} {below below' : Forest (Node α)} {v : Visit}
    (h : (placingPass c).leave s whole n below = (s₁, n₁, below', v)) :
    n₁ = n ∧ below' = below := by
  dsimp only [placingPass] at h
  rw [Node.tag] at hn
  cases hk : n.kind with
  | document | page | system =>
    rw [hk] at h
    simp only [Prod.mk.injEq] at h
    exact ⟨h.2.1.symm, h.2.2.1.symm⟩
  | measure | staff | layer | element | control | change | systemBreak | pageBreak =>
    simp [hk, NodeKind.tag] at hn

/-- In a whole score all symbols come to stand at their slots. -/
theorem placed_score {s : Placing α} {above : Option (Node α)} {f : Forest (Node α)}
    {s' : Placing α} {f' : Forest (Node α)}
    (h : Forest.Completes (placingPass c) above s f s' f') (hf : f.Nested)
    (hroots : ∀ n ∈ f.roots, n.tag = .document ∨ n.tag = .page ∨ n.tag = .system) :
    f'.SlotsPlaced := by
  induction h with
  | nil => exact fun _ _ _ h => by cases h
  | @skip above s s₁ s₂ b b₁ children siblings siblings' henter _ _ =>
    rw [Forest.roots, List.forall_mem_cons] at hroots
    cases (enter_of_upper hroots.1 henter).1
  | @walk above s s₁ s₂ s₃ s₄ b b₁ b₂ children siblings children₁ children₂ siblings' whole v henter
      hbelow hleave _ _ ihbelow ihbeside =>
    rw [Forest.roots, List.forall_mem_cons] at hroots
    obtain ⟨-, htag, hframe⟩ := enter_of_upper hroots.1 henter
    obtain ⟨rfl, rfl⟩ := leave_of_upper (htag ▸ hroots.1) hleave
    have hrest := ihbeside hf.2.2 hroots.2
    have hne : b₂.tag ≠ .measure := by
      rw [htag]
      rcases hroots.1 with ht | ht | ht <;> rw [ht] <;> decide
    refine .cons hne ?_ hrest
    by_cases hsystem : b.tag = .system
    · obtain ⟨frame, hframe⟩ := hframe hsystem
      refine (placed_content hbelow hf.2.1 (fun n hn => ?_) hframe).2
      have htakes := hf.1 n hn
      rw [Node.tag] at hsystem ⊢
      cases hk : b.kind <;> cases hk' : n.kind <;>
        simp [hk, hk', NodeKind.accepts, NodeKind.tag] at htakes hsystem ⊢
    · refine ihbelow hf.2.1 fun n hn => ?_
      have htakes := hf.1 n hn
      have hb := hroots.1
      rw [Node.tag] at hsystem hb ⊢
      cases hk : b.kind <;> cases hk' : n.kind <;>
        simp [hk, hk', NodeKind.accepts, NodeKind.tag] at htakes hsystem hb ⊢

/-- Only a fault stops placement. -/
theorem fault_of_stop (f : Forest (Node α)) (above : Option (Node α))
    (around : Forest (Node α) → Forest (Node α)) (s : Placing α)
    (hstop : (f.runWithin (placingPass c) above around s).2.2 = .stop) :
    (f.runWithin (placingPass c) above around s).1.fault.isSome := by
  refine Forest.runWithin_of_stop (P := fun s : Placing α => s.fault.isSome)
    (fun s a n hs => ?_) (fun s _ n f hs => ?_) f above around s hstop
  · dsimp only [placingPass] at hs
    split at hs <;> simp at hs
  · dsimp only [placingPass] at hs ⊢
    split at hs <;> first | (simp at hs; done) | skip
    split at hs
    · assumption
    · simp at hs

theorem completes_place {f : Forest (Node α)}
    (h : (f.run (placingPass c) .start).1.fault = none) :
    Forest.Completes (placingPass c) none .start f (f.run (placingPass c) .start).1
      (f.run (placingPass c) .start).2.1 :=
  Forest.completes_runWithin (placingPass c) f none id .start fun hstop => by
    have hfault := fault_of_stop f none id .start hstop
    rw [← Forest.run, h] at hfault
    cases hfault

end Placing

namespace Document

/-- Placement that meets no fault is a walk of the score that comes to its end, after which control
elements that have waited are put in their places. -/
theorem WellFormed.exists_walk_place {d : Document α} (hd : d.WellFormed)
    {options : LayoutOptions α} {metrics : GlyphMetrics α}
    (hok : (d.place options metrics).fault = none) :
    ∃ s score, Forest.Completes (placingPass ⟨metrics, options.scaledUnit, options.marginLeft,
          options.marginTop, d⟩) none .start d.score s score ∧
      Forest.Forall₂ Node.Boxed d.score score ∧
      Forest.Forall₂ Node.Reanchored score (d.place options metrics).document.score := by
  obtain ⟨hsame, hlatest⟩ := hd.reanchored_latest
    (c := ⟨metrics, options.scaledUnit, options.marginLeft, options.marginTop, d⟩) rfl
  rw [place, Outcome.guarded] at hok ⊢
  split at hok
  · exact absurd hok (by simp [Outcome.failed])
  have hcompletes := Placing.completes_place
    (c := ⟨metrics, options.scaledUnit, options.marginLeft, options.marginTop, d⟩) (f := d.score)
  dsimp only at hok ⊢
  generalize d.score.run (placingPass
    ⟨metrics, options.scaledUnit, options.marginLeft, options.marginTop, d⟩) .start = ran
    at hsame hlatest hok hcompletes ⊢
  obtain ⟨s, score, v⟩ := ran
  dsimp only at hsame hlatest hok hcompletes ⊢
  have hmapped := Forest.Forall₂.map_right s.latest hlatest
  have hwhole := hsame.trans hmapped fun _ _ _ h h' => h.trans h'.boxed
  cases hfault : s.fault with
  | some f =>
    rw [hfault] at hok
    exact absurd hok (by simp [Outcome.failed])
  | none =>
    refine ⟨s, score, hcompletes hfault, hsame, ?_⟩
    have hscore : (Outcome.done { d.withScore (score.map s.latest) with stage := .finalized }
        []).document.score = score.map s.latest := score_withScore hwhole
    rw [hscore]
    exact hmapped

omit [Scalar α] in
/-- The roots of a score. -/
theorem WellFormed.tag_roots {d : Document α} (hd : d.WellFormed) :
    ∀ n ∈ d.score.roots, n.tag = .document ∨ n.tag = .page ∨ n.tag = .system := by
  obtain ⟨r, below, detached, htrees, -, hr⟩ := hd.root
  rw [Document.score, htrees, Forest.first, Forest.tree, Forest.roots, Forest.roots]
  exact List.forall_mem_singleton.2 (.inl (by rw [hr]))

/-- Placement that meets no fault puts all symbols at their slots. -/
theorem WellFormed.slotsPlaced_place {d : Document α} (hd : d.WellFormed)
    {options : LayoutOptions α} {metrics : GlyphMetrics α}
    (hok : (d.place options metrics).fault = none) :
    (d.place options metrics).document.score.SlotsPlaced := by
  obtain ⟨s, score, hwalk, -, hlater⟩ := hd.exists_walk_place hok
  exact (Placing.placed_score hwalk hd.nested_score hd.tag_roots).of_reanchored hlater

end Document

end ScoreLayout
