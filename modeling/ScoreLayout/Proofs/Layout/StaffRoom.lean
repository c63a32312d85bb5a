import ScoreLayout.Proofs.StackedStaves
import ScoreLayout.Proofs.Layout.StaffNumbers

/-!
# Room for everything on a staff

While the measures of a system are visited, its stack only grows: no staff loses room that it once
had. So at the end of the system every staff has a place, with room for each of its symbols, and
stacking places them apart.

## Main definitions

* `StaffStack.Holds` — a stack with room for what stands in a system.
* `Forest.Stacked` — all systems of a forest hold their content, with their staves apart.

## Main results

* `Stacking.holds_content` — what visiting the content of a system collects.
* `Document.WellFormed.stacked_stackStaves` — the systems after the stacking of their staves.
-/

namespace ScoreLayout

/-! ### Walks in any arithmetic -/

/-- No staff is around a system. -/
theorem Forest.Staffed.of_system {α : Type} {f below : Forest (Node α)} {n : Node α}
    (h : f.Staffed none) (hf : f.Nested) (htree : HasTree n below f) (hn : n.tag = .system) :
    below.Staffed none := by
  induction htree with
  | here =>
    have hbelow := (cons_iff.1 h).2.1
    rwa [AlignState.staffBelow_of_tag (by rw [hn]; decide)] at hbelow
  | @deeper m children siblings htree ih =>
    have hm : m.tag ≠ .staff := fun hm => by
      have hdepth := hf.2.1.depth_le (k := m.tag.depth + 1) (fun k hk =>
        NodeKind.depth_lt_of_accepts (hf.1 k hk) (by rw [← Node.tag, hm]; decide)) n htree.mem
      rw [hm, hn] at hdepth
      exact absurd hdepth (by decide)
    have hbelow := (cons_iff.1 h).2.1
    rw [AlignState.staffBelow_of_tag hm] at hbelow
    exact ih hbelow hf.2.1
  | beside _ _ _ ih => exact ih (cons_iff.1 h).2.2 hf.2.2

namespace Stacking

section Walks

variable {α : Type} [Scalar α] {c : StackingContext α} {s s₁ : Stacking α} {n n' : Node α}
  {f f' : Forest (Node α)}

/-- Leaving a node inside a system changes nothing. -/
theorem leave_of_content (hn : n.tag ≠ .system)
    {whole : Node α → Forest (Node α) → Forest (Node α)} {v : Visit}
    (h : (stackingPass c).leave s whole n f = (s₁, n', f', v)) : s₁ = s ∧ n' = n ∧ f' = f := by
  dsimp only [stackingPass] at h
  rw [Node.tag] at hn
  cases hk : n.kind with
  | system => simp [hk, NodeKind.tag] at hn
  | _ =>
    rw [hk] at h
    simp only [Prod.mk.injEq] at h
    exact ⟨h.1.symm, h.2.1.symm, h.2.2.1.symm⟩

/-- Entering or leaving a node above systems changes no node. -/
theorem unchanged_of_upper (hn : n.tag = .document ∨ n.tag = .page) :
    (∀ {s₁ n' above v}, (stackingPass c).enter s above n = (s₁, n', v) → n' = n ∧ v = .proceed) ∧
      ∀ {s₁ n' whole f f' v}, (stackingPass c).leave s whole n f = (s₁, n', f', v) →
        n' = n ∧ f' = f := by
  rw [Node.tag] at hn
  cases hk : n.kind with
  | document | page =>
    constructor
    · intro s₁ n' above v h
      dsimp only [stackingPass] at h
      rw [hk] at h
      simp only [Prod.mk.injEq] at h
      exact ⟨h.2.1.symm, h.2.2.symm⟩
    · intro s₁ n' whole f f' v h
      dsimp only [stackingPass] at h
      rw [hk] at h
      simp only [Prod.mk.injEq] at h
      exact ⟨h.2.1.symm, h.2.2.1.symm⟩
  | _ => simp [hk, NodeKind.tag] at hn

/-- A walk that meets no fault comes to its end. -/
theorem completes_stackStaves {f : Forest (Node α)}
    (h : (f.run (stackingPass c) .start).1.fault = none) :
    Forest.Completes (stackingPass c) none .start f (f.run (stackingPass c) .start).1
      (f.run (stackingPass c) .start).2.1 := by
  refine Forest.completes_runWithin (stackingPass c) f none id .start fun hstop => ?_
  have hfault := Forest.runWithin_of_stop (P := fun s : Stacking α => s.fault.isSome)
    (fun s a n hs => ?_) (fun s _ n f hs => ?_) f none id .start hstop
  · rw [Forest.run] at h
    rw [h] at hfault
    cases hfault
  · dsimp only [stackingPass] at hs ⊢
    split at hs <;> first | (simp at hs; done) | skip
    split at hs
    · assumption
    · simp at hs
  · dsimp only [stackingPass] at hs
    split at hs <;> simp at hs

/-- A walk of what stands in a system changes no node. -/
theorem eq_of_content {above : Option (Node α)} {s' : Stacking α}
    (h : Forest.Completes (stackingPass c) above s f s' f') (hno : ∀ n ∈ f.toList, n.tag ≠ .system) :
    f' = f := by
  have hsame {s s₁ : Stacking α} {above : Option (Node α)} {n n₁ : Node α} {v : Visit}
      (h : (stackingPass c).enter s above n = (s₁, n₁, v)) : n₁ = n := by
    dsimp only [stackingPass] at h
    split at h <;> exact (congrArg (·.2.1) h).symm
  induction h with
  | nil => rfl
  | skip henter _ ih =>
    rw [Forest.toList, List.forall_mem_cons, List.forall_mem_append] at hno
    rw [hsame henter, ih hno.2.2]
  | walk henter _ hleave _ _ ihbelow ihbeside =>
    rw [Forest.toList, List.forall_mem_cons, List.forall_mem_append] at hno
    obtain rfl := hsame henter
    obtain ⟨-, rfl, rfl⟩ := leave_of_content hno.1 hleave
    rw [ihbelow hno.2.1, ihbeside hno.2.2]

/-- Below every system of some pages a walk has been made, which collected the staves of the
system. -/
theorem exists_walk_of_system {above : Option (Node α)} {s' : Stacking α}
    (h : Forest.Completes (stackingPass c) above s f s' f') (hf : f.Nested)
    (hroots : ∀ n ∈ f.roots, n.tag = .document ∨ n.tag = .page ∨ n.tag = .system) :
    ∀ n below system, Forest.HasTree n below f' → n.kind = .system system →
      ∃ (n₀ : Node α) (s₀ s₁ : Stacking α), Forest.HasTree n₀ below f ∧ n₀.tag = .system ∧
        (∀ k ∈ below.toList, k.tag ≠ .system) ∧
        Forest.Completes (stackingPass c) (some n₀) (enterSystem c s₀) below s₁ below ∧
        ∀ stack outer, s₁.systems = stack :: outer →
          system.stack = (hideUnseen stack s₁.shown).stack c.spacing := by
  induction h with
  | nil => exact fun _ _ _ h => by cases h
  | @skip above s s₁ s₂ n n₁ children siblings siblings' henter _ _ =>
    rw [Forest.roots, List.forall_mem_cons] at hroots
    obtain ht | ht | ht := hroots.1
    · cases ((unchanged_of_upper (.inl ht)).1 henter).2
    · cases ((unchanged_of_upper (.inr ht)).1 henter).2
    · obtain ⟨system, hn⟩ := Node.exists_system ht
      simp [stackingPass, hn] at henter
  | @walk above s s₁ s₂ s₃ s₄ n n₁ n₂ children siblings children₁ children₂ siblings' whole v henter
      hbelow hleave _ _ ihbelow ihbeside =>
    rw [Forest.roots, List.forall_mem_cons] at hroots
    intro k below system htree hk
    by_cases ht : n.tag = .system
    · obtain ⟨system₀, hn⟩ := Node.exists_system ht
      dsimp only [stackingPass] at henter hleave
      rw [hn] at henter
      simp only [Prod.mk.injEq] at henter
      obtain ⟨rfl, rfl, -⟩ := henter
      have hdepth := hf.2.1.depth_le (k := n.tag.depth + 1) fun k hk =>
        NodeKind.depth_lt_of_accepts (hf.1 k hk) (by rw [← Node.tag, ht]; decide)
      have hno : ∀ k ∈ children.toList, k.tag ≠ .system := fun k hk hsystem => by
        have hle := hdepth k hk
        rw [ht, hsystem] at hle
        exact absurd hle (by decide)
      obtain rfl := eq_of_content hbelow hno
      rw [hn] at hleave
      simp only [Prod.mk.injEq] at hleave
      obtain ⟨-, rfl, rfl, -⟩ := hleave
      cases htree with
      | here =>
        refine ⟨n, s, s₂, .here _, ht, hno, hbelow, fun stack outer hsystems => ?_⟩
        simp only [leaveSystem, hsystems, Node.mapKind, hn] at hk
        exact NodeKind.system.inj hk ▸ rfl
      | deeper _ h => exact absurd (by rw [Node.tag, hk]; rfl) (hno k h.mem)
      | beside _ _ h =>
        obtain ⟨n₀, s₀, s₁, hbefore, hwalk⟩ := ihbeside hf.2.2 hroots.2 k below system h hk
        exact ⟨n₀, s₀, s₁, .beside _ _ hbefore, hwalk⟩
    · have hupper := hroots.1.imp_right (·.resolve_right ht)
      obtain ⟨rfl, -⟩ := (unchanged_of_upper hupper).1 henter
      obtain ⟨rfl, rfl⟩ := (unchanged_of_upper hupper).2 hleave
      have hupper : ∀ k ∈ children.roots,
          k.tag = .document ∨ k.tag = .page ∨ k.tag = .system := fun k hk => by
        have htakes := NodeKind.tag_of_accepts (hf.1 k hk)
        exact .inr (hupper.imp htakes.1 htakes.2)
      cases htree with
      | here => exact absurd (by rw [Node.tag, hk]; rfl) ht
      | deeper _ h =>
        obtain ⟨n₀, s₀, s₁, hbefore, hwalk⟩ := ihbelow hf.2.1 hupper k below system h hk
        exact ⟨n₀, s₀, s₁, .deeper _ hbefore, hwalk⟩
      | beside _ _ h =>
        obtain ⟨n₀, s₀, s₁, hbefore, hwalk⟩ := ihbeside hf.2.2 hroots.2 k below system h hk
        exact ⟨n₀, s₀, s₁, .beside _ _ hbefore, hwalk⟩

end Walks

end Stacking

namespace Document

variable {α : Type} [Scalar α] {d : Document α} {options : LayoutOptions α} {metrics : GlyphMetrics α}

/-- What stacking the staves of a document works with. -/
def stackingContext (d : Document α) (options : LayoutOptions α) (metrics : GlyphMetrics α) :
    StackingContext α :=
  ⟨d, metrics, options.scaledUnit, options.spacingStaff * options.scaledUnit⟩

/-- Stacking that meets no fault walks the whole score. -/
theorem exists_walk_stackStaves (hok : (d.stackStaves options metrics).fault = none) :
    (d.stackStaves options metrics).document.definition = d.definition ∧
      ∃ s, Forest.Completes (stackingPass (d.stackingContext options metrics)) none .start d.score s
        (d.stackStaves options metrics).document.score := by
  rw [stackStaves, Outcome.guarded] at hok ⊢
  split at hok
  · exact absurd hok (by simp [Outcome.failed])
  dsimp only at hok ⊢
  rw [stackingContext]
  generalize (⟨d, metrics, options.scaledUnit, options.spacingStaff * options.scaledUnit⟩ :
    StackingContext α) = c at hok ⊢
  have hcompletes := Stacking.completes_stackStaves (c := c) (f := d.score)
  generalize d.score.run (stackingPass c) .start = ran at hok hcompletes ⊢
  obtain ⟨s, score, v⟩ := ran
  dsimp only at hok hcompletes ⊢
  cases hfault : s.fault with
  | some f =>
    rw [hfault] at hok
    exact absurd hok (by simp [Outcome.failed])
  | none =>
    have hshape := (hcompletes hfault).forall₂ (R := fun _ _ => True) (fun _ => trivial)
      (fun _ _ _ _ _ => trivial) (fun _ _ _ => trivial) fun s _ n below => ⟨trivial, ?_⟩
    · refine ⟨rfl, s, ?_⟩
      have hscore : (d.withScore score).score = score := score_withScore hshape
      change Forest.Completes (stackingPass c) none .start d.score s (d.withScore score).score
      rw [hscore]
      exact hcompletes hfault
    · dsimp only [stackingPass]
      split <;> exact .refl fun _ _ => trivial

end Document

/-! ### Room on staves -/

variable {K : Type} [ExactField K]

/-- A stack with a place for all staves of a forest, and with room for its symbols. -/
structure StaffStack.Holds (stack : StaffStack K) (f : Forest (Node K)) : Prop where
  staves : ∀ n ∈ f.toList, ∀ staff, n.kind = .staff staff → (stack.get? staff.n).isSome
  symbols : ∀ n ∈ f.toList, n.tag = .element → ∀ k top bottom,
    n.extent? = some (k, top, bottom) → stack.HasRoom k top bottom

/-- All systems of a forest hold what stands in them, with their visible staves apart. -/
def Forest.Stacked (spacing : K) (f : Forest (Node K)) : Prop :=
  ∀ n below system, HasTree n below f → n.kind = .system system →
    system.stack.Apart spacing ∧ system.stack.Holds below

theorem StaffStack.Holds.grows {stack stack' : StaffStack K} {f : Forest (Node K)}
    (h : stack.Holds f) (hgrows : stack.Grows stack') : stack'.Holds f where
  staves n hn staff hk := hgrows.isSome (h.staves n hn staff hk)
  symbols n hn ht k top bottom hextent := (h.symbols n hn ht k top bottom hextent).grows hgrows

theorem staffHeight_nonneg (lines : UInt8) {unit : K} (hunit : 0 ≤ unit) :
    0 ≤ staffHeight lines unit := by
  have hnat (n : ℕ) : (0 : K) ≤ Scalar.ofNat n := (Nat.cast_nonneg n).trans_eq
    (Int.cast_natCast n).symm
  exact mul_nonneg (mul_nonneg (hnat _) (hnat 2)) hunit

namespace Stacking

variable {c : StackingContext K} {s s₁ s' : Stacking K} {stack stack' : StaffStack K}
  {outer : List (StaffStack K)} {n n' : Node K} {f f' : Forest (Node K)}

/-- A state that collects for a stack. -/
structure Collects (s : Stacking K) (stack : StaffStack K) (outer : List (StaffStack K)) :
    Prop where
  collecting : s.collecting
  systems : s.systems = stack :: outer
  proper : stack.Proper

namespace Collects

theorem stack?_eq (h : s.Collects stack outer) : s.stack? = some stack := by
  rw [stack?, if_pos h.collecting, h.systems]
  rfl

/-- The innermost stack replaced by one that has grown. -/
theorem withStack (h : s.Collects stack outer) (hproper : stack'.Proper) :
    (s.withStack stack').Collects stack' outer :=
  ⟨h.collecting, congrArg (stack' :: ·) (congrArg List.tail h.systems), hproper⟩

/-- Reserving makes the room that it is asked for, if there is the staff. -/
theorem reserve (h : s.Collects stack outer) (k : UInt32) (top bottom : K) :
    ∃ stack', (s.reserve k top bottom).Collects stack' outer ∧ stack.Grows stack' ∧
      ((stack.get? k).isSome → stack'.HasRoom k top bottom) := by
  have hgrows := stack.forall₂_modify k fun slot => slot.grows_addExtent top bottom
  rw [Stacking.reserve, h.stack?_eq]
  refine ⟨_, h.withStack (h.proper.of_forall₂ hgrows), .of_forall₂ hgrows, fun hk => ?_⟩
  obtain ⟨slot, hslot⟩ := Option.isSome_iff_exists.1 hk
  exact StaffStack.hasRoom_modify hslot top bottom

/-- A control element takes no room away. -/
theorem enterControl (h : s.Collects stack outer) (c : StackingContext K) (n : Node K)
    (control : Control K) :
    ∃ stack', (s.enterControl c n control).Collects stack' outer ∧ stack.Grows stack' := by
  rw [Stacking.enterControl]
  split_ifs
  · exact ⟨stack, h, .refl stack⟩
  · have hreserve : ∀ s₁, s.reserveControl c control n.layout = .ok s₁ →
        s₁ = s ∨ ∃ k top bottom, s₁ = s.reserve k top bottom := by
      intro s₁ hs₁
      rw [reserveControl] at hs₁
      obtain ⟨staff, -, hs₁⟩ := except_bind_eq_ok.1 hs₁
      split at hs₁
      · obtain ⟨symbols, -, hs₁⟩ := except_bind_eq_ok.1 hs₁
        exact .inr ⟨_, _, _, (Except.ok.inj hs₁).symm⟩
      · exact .inl (Except.ok.inj hs₁).symm
    cases hcontrol : s.reserveControl c control n.layout with
    | error e => exact ⟨stack, ⟨h.collecting, h.systems, h.proper⟩, .refl stack⟩
    | ok s₁ =>
      obtain rfl | ⟨k, top, bottom, rfl⟩ := hreserve s₁ hcontrol
      · exact ⟨stack, h, .refl stack⟩
      · obtain ⟨stack', hcollects, hgrows, -⟩ := h.reserve k top bottom
        exact ⟨stack', hcollects, hgrows⟩

end Collects

/-- What entering a node inside a system comes to. -/
theorem collects_of_enter (hs : s.Collects stack outer) (hunit : 0 ≤ c.unit)
    (hn : n.tag ≠ .system) {above : Option (Node K)} {v : Visit}
    (h : (stackingPass c).enter s above n = (s₁, n', v)) :
    n' = n ∧ (v = .skipChildren → n.tag = .control) ∧
      ∃ stack', s₁.Collects stack' outer ∧ stack.Grows stack' ∧
        (∀ staff, n.kind = .staff staff → (stack'.get? staff.n).isSome) ∧
        ∀ k top bottom, n.tag = .element → n.extent? = some (k, top, bottom) →
          (stack.get? k).isSome → stack'.HasRoom k top bottom := by
  dsimp only [stackingPass] at h
  rw [Node.tag] at hn ⊢
  cases hk : n.kind with
  | system => simp [hk, NodeKind.tag] at hn
  | staff staff =>
    rw [hk] at h
    simp only [enterStaff, hs.stack?_eq, Prod.mk.injEq] at h
    obtain ⟨rfl, rfl, rfl⟩ := h
    have hproper := hs.proper.ensure staff.n
      (staffHeight_nonneg (c.document.definition.linesOf staff.n) hunit) false
    have hcollects := hs.withStack hproper
    refine ⟨rfl, fun hv => (by cases hv), _, ⟨hcollects.collecting, hcollects.systems, hproper⟩,
      stack.grows_ensure _ _ _, fun staff' h => ?_, fun _ _ _ h => (by cases h)⟩
    obtain rfl := NodeKind.staff.inj h
    exact stack.isSome_ensure ..
  | element e =>
    rw [hk] at h
    simp only [enterElement, Prod.mk.injEq] at h
    obtain ⟨rfl, rfl, rfl⟩ := h
    refine ⟨rfl, fun hv => (by cases hv), ?_⟩
    cases hextent : n.extent? with
    | none => exact ⟨stack, hs, .refl stack, fun _ h => (by cases h), fun _ _ _ _ h => (by cases h)⟩
    | some extent =>
      obtain ⟨k, top, bottom⟩ := extent
      obtain ⟨stack', hcollects, hgrows, hroom⟩ := hs.reserve k top bottom
      refine ⟨stack', hcollects, hgrows, fun _ h => (by cases h), fun k' top' bottom' _ h hk' => ?_⟩
      cases h
      exact hroom hk'
  | control control =>
    rw [hk] at h
    simp only [Prod.mk.injEq] at h
    obtain ⟨rfl, rfl, -⟩ := h
    obtain ⟨stack', hcollects, hgrows⟩ := hs.enterControl c n control
    exact ⟨rfl, fun _ => rfl, stack', hcollects, hgrows, fun _ h => (by cases h),
      fun _ _ _ h => (by cases h)⟩
  | document | page | measure | layer | change | systemBreak | pageBreak =>
    rw [hk] at h
    simp only [Prod.mk.injEq] at h
    obtain ⟨rfl, rfl, rfl⟩ := h
    exact ⟨rfl, fun hv => (by cases hv), stack, hs, .refl stack, fun _ h => (by cases h),
      fun _ _ _ h => (by cases h)⟩

/-- Visiting the content of a system only adds room, for all of it. -/
theorem holds_content {above : Option (Node K)}
    (h : Forest.Completes (stackingPass c) above s f s' f') (hf : f.Nested)
    (hno : ∀ n ∈ f.toList, n.tag ≠ .system) {staff : Option UInt32} (hstaffed : f.Staffed staff)
    (hstaff : ∀ k, staff = some k → (stack.get? k).isSome) (hs : s.Collects stack outer)
    (hunit : 0 ≤ c.unit) :
    f' = f ∧ ∃ stack', s'.Collects stack' outer ∧ stack.Grows stack' ∧ stack'.Holds f := by
  induction h generalizing stack staff with
  | nil =>
    exact ⟨rfl, stack, hs, .refl stack, fun _ h => absurd h List.not_mem_nil,
      fun _ h => absurd h List.not_mem_nil⟩
  | @skip above s s₁ s₂ n n₁ children siblings siblings' henter _ ih =>
    rw [Forest.toList, List.forall_mem_cons, List.forall_mem_append] at hno
    obtain ⟨-, -, hsiblings⟩ := Forest.Staffed.cons_iff.1 hstaffed
    obtain ⟨rfl, hskip, stack₁, hs₁, hgrows₁, -⟩ := collects_of_enter hs hunit hno.1 henter
    obtain ⟨k, hn⟩ := Node.exists_control (hskip rfl)
    obtain rfl := AlignState.eq_nil_of_control hn hf.1
    obtain ⟨rfl, stack₂, hs₂, hgrows₂, hholds⟩ := ih hf.2.2 hno.2.2 hsiblings
      (fun k hk => hgrows₁.isSome (hstaff k hk)) hs₁
    refine ⟨rfl, stack₂, hs₂, hgrows₁.trans hgrows₂, ?_, ?_⟩
    all_goals rw [Forest.toList, Forest.toList, List.nil_append, List.forall_mem_cons]
    · exact ⟨fun staff h => (by cases hn.symm.trans h), hholds.staves⟩
    · exact ⟨fun ht => (by cases (hskip rfl).symm.trans ht), hholds.symbols⟩
  | @walk above s s₁ s₂ s₃ s₄ n n₁ n₂ children siblings children₁ children₂ siblings' whole v henter
      _ hleave _ _ ihbelow ihbeside =>
    rw [Forest.toList, List.forall_mem_cons, List.forall_mem_append] at hno
    obtain ⟨hfirst, hbelow, hsiblings⟩ := Forest.Staffed.cons_iff.1 hstaffed
    obtain ⟨rfl, -, stack₁, hs₁, hgrows₁, hplaced, hroom⟩ :=
      collects_of_enter hs hunit hno.1 henter
    -- below a staff, the staff has a place
    have hstaff₁ : ∀ k, n₁.staffBelow staff = some k → (stack₁.get? k).isSome := by
      intro k hk
      by_cases ht : n₁.tag = .staff
      · obtain ⟨st, hn⟩ := Node.exists_staff ht
        rw [Node.staffBelow, hn] at hk
        exact Option.some.inj hk ▸ hplaced st hn
      · rw [AlignState.staffBelow_of_tag ht] at hk
        exact hgrows₁.isSome (hstaff k hk)
    obtain ⟨rfl, stack₂, hs₂, hgrows₂, hchildren⟩ := ihbelow hf.2.1 hno.2.1 hbelow hstaff₁ hs₁
    obtain ⟨rfl, rfl, rfl⟩ := leave_of_content hno.1 hleave
    obtain ⟨rfl, stack₄, hs₄, hgrows₄, hrest⟩ := ihbeside hf.2.2 hno.2.2 hsiblings
      (fun k hk => hgrows₂.isSome (hgrows₁.isSome (hstaff k hk))) hs₂
    have hlater := hgrows₂.trans hgrows₄
    have hchildren := hchildren.grows hgrows₄
    refine ⟨rfl, stack₄, hs₄, hgrows₁.trans hlater, ?_, ?_⟩
    all_goals rw [Forest.toList, List.forall_mem_cons, List.forall_mem_append]
    · exact ⟨fun st hn => hlater.isSome (hplaced st hn), hchildren.staves, hrest.staves⟩
    · refine ⟨fun ht k top bottom hextent => ?_, hchildren.symbols, hrest.symbols⟩
      have hk : staff = some k := by
        rw [← hfirst ht]
        obtain ⟨rect, -, hextent⟩ := Option.bind_eq_some_iff.1 hextent
        obtain ⟨k', hk', hextent⟩ := Option.bind_eq_some_iff.1 hextent
        cases hextent
        exact hk'
      exact (hroom k top bottom ht hextent (hstaff k hk)).grows hlater

/-! ### Systems -/

theorem proper_definedStaves (definition : ScoreDefinition) {unit : K} (hunit : 0 ≤ unit) :
    (definedStaves definition unit).Proper := by
  have hfold (staves : List StaffDefinition) (stack : StaffStack K) (hstack : stack.Proper) :
      (staves.foldl (fun stack s => stack.ensure s.n (staffHeight s.lines unit) s.hidden)
        stack).Proper := by
    induction staves generalizing stack with
    | nil => exact hstack
    | cons s staves ih => exact ih _ (hstack.ensure s.n (staffHeight_nonneg s.lines hunit) s.hidden)
  exact hfold definition.staves .empty StaffStack.proper_empty

/-- Hiding staves takes no room from any. -/
theorem grows_hideUnseen (shown : List (UInt32 × Bool)) (stack : StaffStack K) (h : stack.Proper) :
    (hideUnseen stack shown).Proper ∧ stack.Grows (hideUnseen stack shown) := by
  induction shown generalizing stack with
  | nil => exact ⟨h, .refl stack⟩
  | cons x shown ih =>
    have hgrows := stack.forall₂_modify x.1
      (f := fun slot => { slot with hidden := slot.hidden || !x.2 })
      fun slot => ⟨rfl, rfl, le_rfl, le_rfl, fun hidden => by simp [hidden]⟩
    obtain ⟨hproper, hrest⟩ := ih _ (h.of_forall₂ hgrows)
    exact ⟨hproper, (StaffStack.Grows.of_forall₂ hgrows).trans hrest⟩

/-- The systems of a score hold their content. -/
theorem stacked_score {above : Option (Node K)}
    (h : Forest.Completes (stackingPass c) above s f s' f') (hf : f.Nested)
    (hroots : ∀ n ∈ f.roots, n.tag = .document ∨ n.tag = .page ∨ n.tag = .system)
    (hstaffed : f.Staffed none)
    (hunit : 0 ≤ c.unit) (hspacing : 0 ≤ c.spacing) : f'.Stacked c.spacing := by
  intro n below system htree hn
  obtain ⟨n₀, s₀, s₁, hbefore, ht, hno, hwalk, hplaced⟩ :=
    exists_walk_of_system h hf hroots n below system htree hn
  obtain ⟨-, stack, hs₁, -, hholds⟩ := holds_content hwalk (hf.of_hasTree hbefore).2 hno
    (hstaffed.of_system hf hbefore ht) (fun k hk => by cases hk)
    ⟨rfl, rfl, proper_definedStaves c.document.definition hunit⟩ hunit
  obtain ⟨hproper, hgrows⟩ := grows_hideUnseen s₁.shown stack hs₁.proper
  rw [hplaced stack _ hs₁.systems]
  exact ⟨hproper.apart_stack hspacing,
    hholds.grows (hgrows.trans (.of_forall₂ (StaffStack.grows_stack ..)))⟩

end Stacking

/-! ### Documents -/

namespace Document

variable {d : Document K} {options : LayoutOptions K} {metrics : GlyphMetrics K}

/-- Stacking that meets no fault makes the systems hold their content. -/
theorem WellFormed.stacked_stackStaves (hd : d.WellFormed) (hstaffed : d.score.Staffed none)
    (hok : (d.stackStaves options metrics).fault = none) (hunit : 0 ≤ options.scaledUnit)
    (hspacing : 0 ≤ options.spacingStaff) :
    (d.stackStaves options metrics).document.score.Stacked
      (options.spacingStaff * options.scaledUnit) := by
  obtain ⟨-, s, hwalk⟩ := exists_walk_stackStaves hok
  exact Stacking.stacked_score hwalk hd.nested_score hd.tag_roots hstaffed hunit
    (mul_nonneg hspacing hunit)

end Document

end ScoreLayout
