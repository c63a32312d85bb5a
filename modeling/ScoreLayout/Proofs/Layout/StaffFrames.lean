import ScoreLayout.Proofs.Layout.Frames

/-!
# Staves on the page

Placement gives a staff of a measure its top line from its place in the stack of the system, and a box
unless it is hidden there. The layers of the staff are walked from this line, and nothing in them is
drawn on a hidden staff.

## Main definitions

* `SystemFrame.staffBox` — the box of a staff of a measure.
* `Forest.StavesFramed` — all staves of a forest have these boxes, and hidden ones are blank.

## Main results

* `Placing.exists_walk_of_staff` — what is walked below a staff.
* `Document.WellFormed.stavesFramed_place` — the staves of a score after placement.
-/

namespace ScoreLayout

variable {α : Type} [Scalar α]

/-- The box of a staff of a measure that begins at `x`; a hidden staff draws nothing. -/
def SystemFrame.staffBox (frame : SystemFrame α) (slot : StaffSlot α) (x width : α) : Box α :=
  ⟨x, frame.y + slot.y,
    if slot.hidden then none else some (Rect.ofCorners 0 0 width slot.height)⟩

/-- All staves of a forest have the boxes that placement gives them, and no symbol on a hidden one
draws anything. -/
def Forest.StavesFramed (c : PlacingContext α) (f : Forest (Node α)) : Prop :=
  ∀ n below system, HasTree n below f → n.kind = .system system →
    ∀ b under m, HasTree b under below → b.kind = .measure m →
      ∀ k layers staff, HasTree k layers under → k.kind = .staff staff →
        ∃ slot, system.stack.get? staff.n = some slot ∧
          k.box = (c.frame system).staffBox slot b.box.x m.width ∧
          (slot.hidden → ∀ e ∈ layers.toList, e.tag = .element → e.box.rect = none)

/-- What moves control elements only leaves staves and symbols where they stand. -/
theorem Forest.StavesFramed.of_reanchored {c : PlacingContext α} {f f' : Forest (Node α)}
    (hf : f.StavesFramed c) (h : Forest.Forall₂ Node.Reanchored f f') : f'.StavesFramed c := by
  have hsame {n n' : Node α} (hn : n.Reanchored n') (ht : n'.tag ≠ .control) : n' = n :=
    hn.same (by rwa [Node.tag, ← hn.kind])
  intro n' below' system htree hn' b' under' m hunder hb' k' layers' staff hlayers hk'
  obtain ⟨n, below, hn, hnn, hbelow⟩ := h.flip.hasTree htree
  obtain ⟨b, under, hb, hbb, hunder⟩ := hbelow.hasTree hunder
  obtain ⟨k, layers, hk, hkk, hlayers⟩ := hunder.hasTree hlayers
  obtain rfl := hsame hbb (by rw [Node.tag, hb']; simp [NodeKind.tag])
  obtain rfl := hsame hkk (by rw [Node.tag, hk']; simp [NodeKind.tag])
  obtain ⟨slot, hslot, hbox, hblank⟩ :=
    hf n below system hn (hnn.kind ▸ hn') b' under m hb hb' k' layers staff hk hk'
  refine ⟨slot, hslot, hbox, fun hhidden e' he' ht => ?_⟩
  obtain ⟨e, he, hee⟩ := exists_mem_of_forall₂ hlayers.flip.toList he'
  obtain rfl := hsame hee (by rw [ht]; decide)
  exact hblank hhidden e' he ht

namespace Placing

variable {c : PlacingContext α} {s s₁ s' : Placing α} {n n₁ : Node α} {f f' : Forest (Node α)}
  {frame : SystemFrame α} {slot : StaffSlot α}

/-- A state inside a staff of a system. -/
structure AtStaff (s : Placing α) (frame : SystemFrame α) (slot : StaffSlot α) : Prop where
  measure : s.measure.isSome
  staffY : s.staffY = frame.y + slot.y
  hidden : s.staffHidden = slot.hidden
  placed : s.placed = []

/-! ### Inside a staff -/

/-- What entering an element comes to. -/
theorem enter_of_element (ht : n.tag = .element) {above : Option (Node α)} {v : Visit}
    (h : (placingPass c).enter s above n = (s₁, n₁, v)) :
    s₁ = s ∧ n₁ = s.enterElement n ∧ v = .proceed ∧ n₁.kind = n.kind := by
  obtain ⟨-, hkind⟩ := placed_enter (c := c) s above n
  rw [h] at hkind
  obtain ⟨e, hn⟩ := Node.exists_element ht
  dsimp only [placingPass] at h
  rw [hn, Prod.mk.injEq, Prod.mk.injEq] at h
  exact ⟨h.1.symm, h.2.1.symm, h.2.2.symm, hkind⟩

/-- What holds of every symbol once it is entered, and of one that is left if it holds of all below
it, holds of all symbols of a layer, or of a group in it. -/
theorem forall_symbols {P Q : Node α → Prop} {above : Option (Node α)}
    (h : Forest.Completes (placingPass c) above s f s' f') (hf : f.Symbolic) (hs : s.placed = [])
    (henter : ∀ n, P n → Q (s.enterElement n))
    (hleave : ∀ n below, Q n → (∀ k ∈ below, Q k) → Q (leaveElement n below))
    (hP : ∀ n ∈ f.toList, P n) : s' = s ∧ ∀ e ∈ f'.toList, Q e := by
  induction h with
  | nil => exact ⟨rfl, fun e he => absurd he List.not_mem_nil⟩
  | skip hentered _ _ => cases (enter_of_element hf.1 hentered).2.2.1
  | @walk above s s₁ s₂ s₃ s₄ n n₁ n₂ children siblings children₁ children₂ siblings' whole v hentered
      _ hleft _ _ ihbelow ihbeside =>
    obtain ⟨htag, -, hchildren, hsiblings⟩ := hf
    rw [Forest.toList, List.forall_mem_cons, List.forall_mem_append] at hP
    obtain ⟨rfl, rfl, -, hkind⟩ := enter_of_element htag hentered
    obtain ⟨rfl, hbelow⟩ := ihbelow hchildren hs henter hP.2.1
    obtain ⟨e, hn⟩ := Node.exists_element htag
    dsimp only [placingPass] at hleft
    rw [hkind, hn] at hleft
    simp only [Prod.mk.injEq] at hleft
    obtain ⟨rfl, rfl, rfl, -⟩ := hleft
    obtain ⟨rfl, hbeside⟩ := ihbeside hsiblings hs henter hP.2.2
    have hlatest : children₁.roots.map s₄.latest = children₁.roots :=
      List.map_id'' (fun k => by rw [latest, hs]; rfl) _
    rw [Forest.toList, List.forall_mem_cons, List.forall_mem_append, hlatest]
    exact ⟨rfl, hleave _ _ (henter n hP.1)
      fun k hk => hbelow k (Forest.mem_toList_of_mem_roots hk), hbelow, hbeside⟩

/-- The same of the layers of a staff. -/
theorem forall_layers {P Q : Node α → Prop} {above : Option (Node α)}
    (h : Forest.Completes (placingPass c) above s f s' f') (hf : f.Nested)
    (hroots : ∀ n ∈ f.roots, n.tag = .layer) (hs : s.placed = [])
    (henter : ∀ n, P n → Q (s.enterElement n))
    (hleave : ∀ n below, Q n → (∀ k ∈ below, Q k) → Q (leaveElement n below))
    (hP : ∀ n ∈ f.toList, n.tag = .element → P n) :
    s' = s ∧ ∀ e ∈ f'.toList, e.tag = .element → Q e := by
  induction h with
  | nil => exact ⟨rfl, fun e he => absurd he List.not_mem_nil⟩
  | skip hentered _ _ =>
    obtain ⟨k, hn⟩ := Node.exists_layer (hroots _ List.mem_cons_self)
    simp [placingPass, hn] at hentered
  | @walk above s s₁ s₂ s₃ s₄ n n₁ n₂ children siblings children₁ children₂ siblings' whole v hentered
      hbelow hleft _ _ _ ihbeside =>
    rw [Forest.roots, List.forall_mem_cons] at hroots
    rw [Forest.toList, List.forall_mem_cons, List.forall_mem_append] at hP
    obtain ⟨htakes, hchildren, hsiblings⟩ := hf
    obtain ⟨k, hn⟩ := Node.exists_layer hroots.1
    simp only [placingPass, hn, Prod.mk.injEq] at hentered
    obtain ⟨rfl, rfl, -⟩ := hentered
    have hsymbolic := hchildren.symbolic fun b hb => NodeKind.tag_of_layer hroots.1 (htakes b hb)
    obtain ⟨rfl, hdeep⟩ := forall_symbols hbelow hsymbolic hs henter hleave fun k hk =>
      hP.2.1 k hk (hsymbolic.tag k hk)
    simp only [placingPass, hn, Prod.mk.injEq] at hleft
    obtain ⟨rfl, rfl, rfl, -⟩ := hleft
    obtain ⟨rfl, hbeside⟩ := ihbeside hsiblings hroots.2 hs henter hP.2.2
    rw [Forest.toList, List.forall_mem_cons, List.forall_mem_append]
    refine ⟨rfl, fun ht => ?_, fun e he _ => hdeep e he, hbeside⟩
    cases hroots.1.symm.trans ht

/-- A symbol on a hidden staff draws nothing. -/
theorem blank_enterElement (hs : s.AtStaff frame slot) (hhidden : slot.hidden) (n : Node α) :
    (s.enterElement n).box.rect = none := by
  obtain ⟨mf, hmf⟩ := Option.isSome_iff_exists.1 hs.measure
  rw [enterElement, hmf]
  dsimp only
  rw [if_pos (hs.hidden.trans hhidden)]
  rfl

/-- A symbol around others that draw nothing draws nothing itself. -/
theorem blank_leaveElement (hn : n.box.rect = none) {below : List (Node α)}
    (hbelow : ∀ k ∈ below, k.box.rect = none) : (leaveElement n below).box.rect = none := by
  have hnone : contentBounds below = none := by
    rw [contentBounds, List.filter_eq_nil_iff.2 fun k hk => ?_]
    · rfl
    · simp [Box.HasContent, hbelow k hk]
  rw [leaveElement, hnone]
  split <;> simp_all

/-! ### Staves -/

/-- A walk of placement that makes `below` of what stood below a staff. -/
structure WalksStaff (c : PlacingContext α) (frame : SystemFrame α) (slot : StaffSlot α) (x width : α)
    (n : Node α) (before below : Forest (Node α)) : Prop where
  box : n.box = frame.staffBox slot x width
  walk : ∃ s s', s.AtStaff frame slot ∧ Forest.Completes (placingPass c) (some n) s before s' below

/-- What entering a staff comes to. -/
theorem enter_of_staff {staff : Staff} (hn : n.kind = .staff staff) (hsystem : s.system = some frame)
    {mf : MeasureFrame α} (hmeasure : s.measure = some mf) (hplaced : s.placed = [])
    (hslot : frame.system.stack.get? staff.n = some slot) {above : Option (Node α)} {v : Visit}
    (h : (placingPass c).enter s above n = (s₁, n₁, v)) :
    s₁.AtStaff frame slot ∧ s₁.system = some frame ∧ s₁.measure = some mf ∧
      n₁.kind = .staff staff ∧ n₁.box = frame.staffBox slot mf.x mf.measure.width := by
  have hstaff : s.staff? staff.n = some (slot, frame.y + slot.y) := by
    rw [staff?, hsystem, Option.bind_eq_bind, Option.bind_some, hslot]
    rfl
  dsimp only [placingPass] at h
  rw [hn] at h
  simp only [enterStaff, hmeasure, hstaff, Prod.mk.injEq] at h
  obtain ⟨rfl, rfl, rfl⟩ := h
  exact ⟨⟨rfl, rfl, rfl, hplaced⟩, hsystem, rfl, hn, rfl⟩

/-- Below every staff of a measure a walk from its place in the system has been made. -/
theorem exists_walk_of_staff {above : Option (Node α)}
    (h : Forest.Completes (placingPass c) above s f s' f') (hf : f.Nested) (hf' : f'.Nested)
    (hroots : ∀ n ∈ f.roots, n.tag = .staff ∨ n.tag = .control) (hsystem : s.system = some frame)
    {mf : MeasureFrame α} (hmeasure : s.measure = some mf) (hplaced : s.placed = [])
    (hseats : ∀ n ∈ f.toList, ∀ staff, n.kind = .staff staff →
      ∃ slot, frame.system.stack.get? staff.n = some slot) :
    ∀ n below staff, Forest.HasTree n below f' → n.kind = .staff staff →
      ∃ n₀ before slot, Forest.HasTree n₀ before f ∧ n₀.kind = n.kind ∧
        frame.system.stack.get? staff.n = some slot ∧
        WalksStaff c frame slot mf.x mf.measure.width n before below := by
  induction h with
  | nil => exact fun _ _ _ h => by cases h
  | @skip above s s₁ s₂ b b₁ children siblings siblings' henter _ ih =>
    rw [Forest.roots, List.forall_mem_cons] at hroots
    obtain ⟨hplaced₁, -⟩ := placed_enter (c := c) s above b
    rw [henter, hplaced] at hplaced₁
    obtain ⟨hmeasure₁, hsystem₁, htag₁, -, hskip⟩ := enter_of_frame hmeasure
      (hroots.1.imp_right fun ht => .inr (.inl ht)) henter
    obtain ⟨k, hb⟩ := Node.exists_control (hskip rfl)
    obtain rfl := AlignState.eq_nil_of_control hb hf.1
    intro n below staff htree hn
    cases htree with
    | here =>
      rw [hskip rfl, Node.tag, hn] at htag₁
      cases htag₁
    | deeper _ h => cases h
    | beside _ _ h =>
      obtain ⟨n₀, before, slot, hbefore, hwalk⟩ :=
        ih hf.2.2 hf'.2.2 hroots.2 (hsystem₁.trans hsystem) hmeasure₁ hplaced₁
          (fun k hk => hseats k (List.mem_cons_of_mem _ hk)) n below staff h hn
      exact ⟨n₀, before, slot, .beside _ _ hbefore, hwalk⟩
  | @walk above s s₁ s₂ s₃ s₄ b b₁ b₂ children siblings children₁ children₂ siblings' whole v henter
      hbelow hleave _ _ _ ihbeside =>
    rw [Forest.roots, List.forall_mem_cons] at hroots
    obtain ⟨htakes, hchildren, hsiblings⟩ := hf
    obtain ht | ht := hroots.1
    · obtain ⟨staff, hb⟩ := Node.exists_staff ht
      obtain ⟨slot, hslot⟩ := hseats b List.mem_cons_self staff hb
      obtain ⟨hs₁, hsystem₁, hmeasure₁, hkind₁, hbox₁⟩ :=
        enter_of_staff hb hsystem hmeasure hplaced hslot henter
      -- the walk of the layers leaves the state as it is
      obtain ⟨rfl, -⟩ := forall_layers (P := fun _ => True) (Q := fun _ => True) hbelow hchildren
        (fun k hk => tag_of_accepts_staff hb (htakes k hk)) hs₁.placed (fun _ _ => trivial) (fun _ _ _ _ => trivial) fun _ _ _ => trivial
      dsimp only [placingPass] at hleave
      rw [hkind₁] at hleave
      simp only [Prod.mk.injEq] at hleave
      obtain ⟨rfl, rfl, rfl, -⟩ := hleave
      intro n below staff' htree hn
      cases htree with
      | here =>
        obtain rfl := NodeKind.staff.inj (hkind₁.symm.trans hn)
        exact ⟨b, children, slot, .here _, hb.trans hn.symm, hslot, hbox₁, s₂, s₂, hs₁, hbelow⟩
      | deeper _ h =>
        have hdepth := hf'.2.1.depth_le (fun k hk => NodeKind.depth_lt_of_accepts (hf'.1 k hk)
          (by rw [hkind₁]; simp [NodeKind.tag])) n h.mem
        rw [hkind₁, Node.tag, hn] at hdepth
        exact absurd hdepth (by simp [NodeKind.tag, NodeTag.depth])
      | beside _ _ h =>
        obtain ⟨n₀, before, slot', hbefore, hwalk⟩ :=
          ihbeside hsiblings hf'.2.2 hroots.2 hsystem₁ hmeasure₁ hs₁.placed
            (fun k hk => hseats k (List.mem_cons_of_mem _ (List.mem_append_right _ hk))) n below
            staff' h hn
        exact ⟨n₀, before, slot', .beside _ _ hbefore, hwalk⟩
    · obtain ⟨k, hb⟩ := Node.exists_control ht
      simp [placingPass, hb] at henter

end Placing

namespace Document

variable {d : Document α} {options : LayoutOptions α} {metrics : GlyphMetrics α}

/-- Placement that meets no fault walks the layers of every staff from its place in the system, where
the systems have a place for each of their staves. -/
theorem WellFormed.exists_walks_staff (hd : d.WellFormed) {c : PlacingContext α}
    {score : Forest (Node α)} (hboxed : Forest.Forall₂ Node.Boxed d.score score)
    (hwalks : ∀ n below system, Forest.HasTree n below score → n.kind = .system system →
      ∃ n₀ before, Forest.HasTree n₀ before d.score ∧ n₀.kind = n.kind ∧
        Placing.WalksSystem c (c.frame system) n before below)
    (hseats : ∀ n below system, Forest.HasTree n below d.score → n.kind = .system system →
      ∀ k ∈ below.toList, ∀ staff, k.kind = .staff staff →
        ∃ slot, system.stack.get? staff.n = some slot)
    {n b k : Node α} {below under layers : Forest (Node α)} {system : ScoreSystem α} {m : Measure α}
    {staff : Staff} (htree : Forest.HasTree n below score) (hn : n.kind = .system system)
    (hunder : Forest.HasTree b under below) (hb : b.kind = .measure m)
    (hlayers : Forest.HasTree k layers under) (hk : k.kind = .staff staff) :
    ∃ n₀ content k₀ before slot, Forest.HasTree n₀ content d.score ∧ n₀.kind = .system system ∧
      Forest.HasTree k₀ before content ∧ k₀.kind = .staff staff ∧
      system.stack.get? staff.n = some slot ∧
      Placing.WalksStaff c (c.frame system) slot b.box.x m.width k before layers := by
  have hnested := hd.nested_score.of_kind (hboxed.mono fun _ _ h => h.kind)
  obtain ⟨n₀, content, hcontent, hkind, -, s₁, s₂, hs₁, hplaced, hbelow⟩ :=
    hwalks n below system htree hn
  obtain ⟨haccepts, hnested₀⟩ := hd.nested_score.of_hasTree hcontent
  have hnestedBelow := (hnested.of_hasTree htree).2
  obtain ⟨b₀, inside, hinside, hkind₀, -, s₃, s₄, hs₃, hmeasure, hplaced₃, hwalk⟩ :=
    Placing.exists_walk_of_measure hbelow hnested₀ hnestedBelow
      (fun k hk => Placing.isContent_of_accepts (hkind.trans hn) (haccepts k hk)) hs₁ hplaced b under
      m hunder hb
  obtain ⟨haccepts₀, hnestedInside⟩ := hnested₀.of_hasTree hinside
  have htag₀ : b₀.tag = .measure := by rw [Node.tag, hkind₀, hb]; rfl
  obtain ⟨k₀, before, slot, hbefore, hkind₁, hslot, hstaff⟩ :=
    Placing.exists_walk_of_staff hwalk hnestedInside (hnestedBelow.of_hasTree hunder).2
      (fun k hk => AlignState.tag_of_accepts_measure htag₀ (haccepts₀ k hk)) hs₃ hmeasure hplaced₃
      (fun k hk => hseats n₀ content system hcontent (hkind.trans hn) k (hinside.mem_of_mem hk)) k
      layers staff hlayers hk
  exact ⟨n₀, content, k₀, before, slot, hcontent, hkind.trans hn, hinside.trans hbefore,
    hkind₁.trans hk, hslot, hstaff⟩

/-- Placement that meets no fault gives the staves their boxes, and draws nothing on hidden ones. -/
theorem WellFormed.stavesFramed_place (hd : d.WellFormed)
    (hok : (d.place options metrics).fault = none)
    (hseats : ∀ n below system, Forest.HasTree n below d.score → n.kind = .system system →
      ∀ k ∈ below.toList, ∀ staff, k.kind = .staff staff →
        ∃ slot, system.stack.get? staff.n = some slot) :
    (d.place options metrics).document.score.StavesFramed
      ⟨metrics, options.scaledUnit, options.marginLeft, options.marginTop, d⟩ := by
  obtain ⟨score, hboxed, hwalks, hlater⟩ := hd.exists_walks_place hok rfl
  refine Forest.StavesFramed.of_reanchored
    (fun n below system htree hn b under m hunder hb k layers staff hlayers hk => ?_) hlater
  obtain ⟨n₀, content, k₀, before, slot, hcontent, -, hbefore, hkind, hslot, hbox, s, s', hs, hwalk⟩ :=
    hd.exists_walks_staff hboxed hwalks hseats htree hn hunder hb hlayers hk
  obtain ⟨haccepts, hnested⟩ := (hd.nested_score.of_hasTree hcontent).2.of_hasTree hbefore
  refine ⟨slot, hslot, hbox, fun hhidden => ?_⟩
  exact (Placing.forall_layers (P := fun _ => True) hwalk hnested
    (fun b hb => Placing.tag_of_accepts_staff hkind (haccepts b hb)) hs.placed
    (fun n _ => Placing.blank_enterElement hs hhidden n)
    (fun _ _ hn hbelow => Placing.blank_leaveElement hn hbelow) fun _ _ _ => trivial).2

end Document

end ScoreLayout
