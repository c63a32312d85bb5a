import ScoreLayout.Proofs.Layout.Positions

/-!
# The boxes of systems and measures

Placement gives a system the box that its width and its staves take, from its place on the page on. A
measure begins at its distance from the content of its system, and is as high as this. What stands
below is walked with the system, or the measure, as the innermost one.

## Main definitions

* `SystemFrame.box`, `SystemFrame.measureBox` — the boxes of a system and of a measure in it.
* `Forest.Framed` — all systems and measures of a forest have these boxes.

## Main results

* `Placing.exists_walk_of_system`, `Placing.exists_walk_of_measure` — what is walked below a system
  and below a measure.
* `Document.WellFormed.framed_place` — the boxes after placement.
-/

namespace ScoreLayout

variable {α : Type} [Scalar α]

namespace Forest.Nested

variable {f f' : Forest (Node α)}

omit [Scalar α] in
/-- What stands below nodes stands no higher in the order of the kinds. -/
theorem depth_le (hf : f.Nested) {k : Nat} (hroots : ∀ n ∈ f.roots, k ≤ n.tag.depth) :
    ∀ n ∈ f.toList, k ≤ n.tag.depth := by
  induction f with
  | nil => exact fun n hn => absurd hn List.not_mem_nil
  | cons b below siblings ihbelow ihsiblings =>
    rw [roots, List.forall_mem_cons] at hroots
    rw [toList, List.forall_mem_cons, List.forall_mem_append]
    exact ⟨hroots.1, ihbelow hf.2.1 fun n hn =>
      hroots.1.trans (NodeKind.depth_le_of_accepts (hf.1 n hn)), ihsiblings hf.2.2 hroots.2⟩

omit [Scalar α] in
/-- The document node does not stand below other nodes. -/
theorem ne_document (hf : f.Nested) (hroots : ∀ n ∈ f.roots, n.tag ≠ .document) :
    ∀ n ∈ f.toList, n.tag ≠ .document := by
  have hdepth (tag : NodeTag) : 1 ≤ tag.depth ↔ tag ≠ .document := by
    cases tag <;> simp [NodeTag.depth]
  intro n hn
  rw [← hdepth]
  exact hf.depth_le (fun k hk => (hdepth k.tag).2 (hroots k hk)) n hn

omit [Scalar α] in
/-- Trees of the kind of the roots stand side by side. -/
theorem mem_trees {n : Node α} {below : Forest (Node α)} (h : HasTree n below f) (hf : f.Nested)
    (hroots : ∀ k ∈ f.roots, k.tag = n.tag) (hn : n.tag ≠ .element) : (n, below) ∈ f.trees := by
  induction h with
  | here => exact List.mem_cons_self
  | @deeper k children _ h _ =>
    have hk : k.tag = n.tag := hroots k List.mem_cons_self
    have hdepth := hf.2.1.depth_le (fun b hb => NodeKind.depth_lt_of_accepts (hf.1 b hb)
      (by rw [← Node.tag, hk]; exact hn)) n h.mem
    rw [← Node.tag, hk] at hdepth
    exact absurd hdepth (Nat.lt_irrefl _)
  | beside k children _ ih =>
    exact List.mem_cons_of_mem _ (ih hf.2.2 fun b hb => hroots b (List.mem_cons_of_mem _ hb))

omit [Scalar α] in
/-- Below a node that is no symbol there is none of its kind. -/
theorem tag_ne_below {n : Node α} {below : Forest (Node α)} (hf : f.Nested)
    (h : HasTree n below f) (hn : n.tag ≠ .element) : ∀ k ∈ below.toList, k.tag ≠ n.tag := by
  obtain ⟨htakes, hbelow⟩ := hf.of_hasTree h
  intro k hk htag
  have hle := hbelow.depth_le (fun b hb => NodeKind.depth_lt_of_accepts (htakes b hb) hn) k hk
  rw [htag] at hle
  exact absurd hle (Nat.lt_irrefl _)

omit [Scalar α] in
theorem append (hf : f.Nested) (hf' : f'.Nested) : (f ++ f').Nested := by
  induction f with
  | nil => exact hf'
  | cons b below siblings _ ih => exact ⟨hf.1, hf.2.1, ih hf.2.2⟩

omit [Scalar α] in
theorem branches (hf : f.Nested) : f.branches.Nested := by
  induction f with
  | nil => exact hf
  | cons b below siblings _ ih => exact hf.2.1.append (ih hf.2.2)

omit [Scalar α] in
theorem of_kind (h : Forall₂ (fun n n' : Node α => n'.kind = n.kind) f f') (hf : f.Nested) :
    f'.Nested := by
  induction h with
  | nil => exact hf
  | @cons b b' _ _ _ _ hb hbelow _ ihbelow ihbeside =>
    refine ⟨fun n' hn' => ?_, ihbelow hf.2.1, ihbeside hf.2.2⟩
    obtain ⟨n, hn, hnn⟩ := exists_mem_of_forall₂ hbelow.roots hn'
    rw [hb, hnn]
    exact hf.1 n hn

end Forest.Nested

omit [Scalar α] in
/-- The content of a node that is a system. -/
theorem Node.exists_system {n : Node α} (hn : n.tag = .system) :
    ∃ system, n.kind = .system system := by
  rw [tag] at hn
  cases hk : n.kind <;> simp_all [NodeKind.tag]

/-- The frame of a system on its page. -/
def PlacingContext.frame (c : PlacingContext α) (system : ScoreSystem α) : SystemFrame α :=
  ⟨system, c.marginLeft, c.marginTop + system.y⟩

namespace SystemFrame

/-- The box of the system. -/
def box (frame : SystemFrame α) : Box α :=
  ⟨frame.x, frame.y, some (Rect.ofCorners 0 0 frame.system.width frame.system.stack.height)⟩

/-- The box of a measure of the system. -/
def measureBox (frame : SystemFrame α) (m : Measure α) : Box α :=
  ⟨frame.x + frame.system.definitionWidth + m.x, frame.y,
    some (Rect.ofCorners 0 0 m.width frame.system.stack.height)⟩

end SystemFrame

/-- Systems and measures of a forest have the boxes that placement gives them. -/
def Forest.Framed (c : PlacingContext α) (f : Forest (Node α)) : Prop :=
  ∀ n below system, HasTree n below f → n.kind = .system system → n.box = (c.frame system).box ∧
    ∀ k ∈ below.toList, ∀ m, k.kind = .measure m → k.box = (c.frame system).measureBox m

/-- What moves control elements only leaves systems and measures where they stand. -/
theorem Forest.Framed.of_reanchored {c : PlacingContext α} {f f' : Forest (Node α)}
    (hf : f.Framed c) (h : Forest.Forall₂ Node.Reanchored f f') : f'.Framed c := by
  have hsame {n n' : Node α} (hn : n.Reanchored n') (ht : n'.tag ≠ .control) : n' = n :=
    hn.same (by rwa [Node.tag, ← hn.kind])
  intro n' below' system htree hk
  obtain ⟨n, below, hn, hnn, hbelow⟩ := h.flip.hasTree htree
  obtain rfl := hsame hnn (by rw [Node.tag, hk]; simp [NodeKind.tag])
  obtain ⟨hbox, hmeasures⟩ := hf n' below system hn hk
  refine ⟨hbox, fun k' hk' m hm => ?_⟩
  obtain ⟨k, hmem, hkk⟩ := exists_mem_of_forall₂ hbelow.flip.toList hk'
  obtain rfl := hsame hkk (by rw [Node.tag, hm]; simp [NodeKind.tag])
  exact hmeasures k' hmem m hm

namespace Placing

variable {c : PlacingContext α} {s s₁ s₂ : Placing α} {n n₁ n₂ : Node α}

/-- What stands right inside a system. -/
def IsContent (n : Node α) : Prop :=
  n.tag = .measure ∨ n.tag = .systemBreak ∨ n.tag = .pageBreak ∨ n.tag = .change ∨ n.tag = .control

/-- What stands inside a measure. -/
def IsPart (n : Node α) : Prop :=
  n.tag = .staff ∨ n.tag = .layer ∨ n.tag = .control ∨ n.tag = .element

omit [Scalar α] in
theorem isContent_of_accepts {k : Node α} {system : ScoreSystem α} (hn : n.kind = .system system)
    (h : n.kind.accepts k.kind) : IsContent k := by
  rw [hn] at h
  rw [IsContent, Node.tag]
  cases hk : k.kind <;> simp [hk, NodeKind.accepts, NodeKind.tag] at h ⊢

omit [Scalar α] in
theorem IsContent.ne_document (h : IsContent n) : n.tag ≠ .document := by
  rintro ht
  simp [IsContent, ht] at h

omit [Scalar α] in
theorem isPart_of_accepts {k : Node α} {m : Measure α} (hn : n.kind = .measure m)
    (h : n.kind.accepts k.kind) : IsPart k := by
  rw [hn] at h
  rw [IsPart, Node.tag]
  cases hk : k.kind <;> simp [hk, NodeKind.accepts, NodeKind.tag] at h ⊢

omit [Scalar α] in
theorem tag_of_accepts_staff {k : Node α} {staff : Staff} (hn : n.kind = .staff staff)
    (h : n.kind.accepts k.kind) : k.tag = .layer := by
  rw [hn] at h
  rw [Node.tag]
  cases hk : k.kind <;> simp [hk, NodeKind.accepts, NodeKind.tag] at h ⊢

/-- A walk of placement that makes `below` of what stood below a system. -/
structure WalksSystem (c : PlacingContext α) (frame : SystemFrame α) (n : Node α)
    (before below : Forest (Node α)) : Prop where
  box : n.box = frame.box
  walk : ∃ s s', s.system = some frame ∧ s.placed = [] ∧
    Forest.Completes (placingPass c) (some n) s before s' below

/-- A walk of placement that makes `below` of what stood below a measure. -/
structure WalksMeasure (c : PlacingContext α) (frame : SystemFrame α) (m : Measure α) (n : Node α)
    (before below : Forest (Node α)) : Prop where
  box : n.box = frame.measureBox m
  walk : ∃ s s', s.system = some frame ∧ s.measure = some ⟨n.handle, m, n.box.x⟩ ∧ s.placed = [] ∧
    Forest.Completes (placingPass c) (some n) s before s' below

/-- Entering a node places no control element that waits, and leaves the kind of the node. -/
theorem placed_enter (s : Placing α) (above : Option (Node α)) (n : Node α) :
    ((placingPass c).enter s above n).1.placed = s.placed ∧
      ((placingPass c).enter s above n).2.1.kind = n.kind := by
  dsimp only [placingPass]
  split
  · exact ⟨rfl, rfl⟩
  · rw [enterMeasure]
    split <;> exact ⟨rfl, rfl⟩
  · rw [enterStaff]
    split <;> exact ⟨rfl, rfl⟩
  · rw [enterElement]
    split <;> exact ⟨rfl, rfl⟩
  · rw [enterControl]
    repeat' split
    all_goals exact ⟨rfl, rfl⟩
  · exact ⟨rfl, rfl⟩

/-- Control elements that wait are placed only when the document node is left. -/
theorem placed_leave (s : Placing α) (whole : Node α → Forest (Node α) → Forest (Node α))
    (hn : n.tag ≠ .document) (below : Forest (Node α)) :
    ((placingPass c).leave s whole n below).1.placed = s.placed := by
  dsimp only [placingPass]
  split
  · rename_i hk
    exact absurd (by rw [Node.tag, hk]; rfl) hn
  all_goals rfl

theorem placed_eq {s : Placing α} {above : Option (Node α)} {f : Forest (Node α)} {s' : Placing α}
    {f' : Forest (Node α)} (h : Forest.Completes (placingPass c) above s f s' f')
    (hf : ∀ n ∈ f.toList, n.tag ≠ .document) : s'.placed = s.placed := by
  induction h with
  | nil => rfl
  | @skip above s s₁ s₂ b b₁ _ _ _ henter _ ih =>
    rw [Forest.toList, List.forall_mem_cons, List.forall_mem_append] at hf
    obtain ⟨hplaced, -⟩ := placed_enter (c := c) s above b
    rw [henter] at hplaced
    exact (ih hf.2.2).trans hplaced
  | @walk above s s₁ s₂ s₃ s₄ b b₁ b₂ children siblings children₁ children₂ siblings' whole v henter
      _ hleave _ _ ihbelow ihbeside =>
    rw [Forest.toList, List.forall_mem_cons, List.forall_mem_append] at hf
    obtain ⟨hplaced, hkind⟩ := placed_enter (c := c) s above b
    rw [henter] at hplaced hkind
    have hleft := placed_leave (c := c) s₂ whole (n := b₁)
      (by rw [Node.tag, show b₁.kind = b.kind from hkind]; exact hf.1) children₁
    rw [hleave] at hleft
    exact (ihbeside hf.2.2).trans (hleft.trans ((ihbelow hf.2.1).trans hplaced))

/-- What entering a system comes to. -/
theorem enter_of_system {system : ScoreSystem α} (hn : n.kind = .system system)
    {above : Option (Node α)} {v : Visit} (h : (placingPass c).enter s above n = (s₁, n₁, v)) :
    s₁.system = some (c.frame system) ∧ n₁.kind = .system system ∧
      n₁.box = (c.frame system).box := by
  dsimp only [placingPass] at h
  rw [hn] at h
  simp only [Prod.mk.injEq] at h
  obtain ⟨rfl, rfl, rfl⟩ := h
  exact ⟨rfl, hn, rfl⟩

/-- What entering a measure comes to. -/
theorem enter_of_measure {m : Measure α} (hn : n.kind = .measure m) {frame : SystemFrame α}
    (hs : s.system = some frame) {above : Option (Node α)} {v : Visit}
    (h : (placingPass c).enter s above n = (s₁, n₁, v)) :
    n₁.kind = .measure m ∧ n₁.handle = n.handle ∧ n₁.box = frame.measureBox m := by
  dsimp only [placingPass] at h
  rw [hn] at h
  unfold enterMeasure at h
  rw [hs] at h
  simp only [Prod.mk.injEq] at h
  obtain ⟨rfl, rfl, rfl⟩ := h
  exact ⟨hn, rfl, rfl⟩

/-- Below every system of some pages a walk with its frame has been made. -/
theorem exists_walk_of_system {s : Placing α} {above : Option (Node α)} {f : Forest (Node α)}
    {s' : Placing α} {f' : Forest (Node α)}
    (h : Forest.Completes (placingPass c) above s f s' f') (hf : f.Nested) (hf' : f'.Nested)
    (hroots : ∀ n ∈ f.roots, n.tag = .page ∨ n.tag = .system) (hs : s.placed = []) :
    ∀ n below system, Forest.HasTree n below f' → n.kind = .system system →
      ∃ n₀ before, Forest.HasTree n₀ before f ∧ n₀.kind = n.kind ∧
        WalksSystem c (c.frame system) n before below := by
  induction h with
  | nil => exact fun _ _ _ h => by cases h
  | @skip above s s₁ s₂ b b₁ children siblings siblings' henter _ _ =>
    rw [Forest.roots, List.forall_mem_cons] at hroots
    cases (enter_of_upper (.inr hroots.1) henter).1
  | @walk above s s₁ s₂ s₃ s₄ b b₁ b₂ children siblings children₁ children₂ siblings' whole v henter
      hbelow hleave _ _ ihbelow ihbeside =>
    have hno := hf.ne_document fun n hn ht => by simpa [ht] using hroots n hn
    rw [Forest.roots, List.forall_mem_cons] at hroots
    rw [Forest.toList, List.forall_mem_cons, List.forall_mem_append] at hno
    obtain ⟨-, htag, -⟩ := enter_of_upper (.inr hroots.1) henter
    obtain ⟨hs₁, -⟩ := placed_enter (c := c) s above b
    rw [henter, hs] at hs₁
    have hs₃ := placed_leave (c := c) s₂ whole (htag ▸ hno.1) children₁
    rw [hleave, placed_eq hbelow hno.2.1, hs₁] at hs₃
    obtain ⟨rfl, rfl⟩ := leave_of_upper (htag ▸ .inr hroots.1) hleave
    have hrest := ihbeside hf.2.2 hf'.2.2 hroots.2 hs₃
    intro n below system htree hn
    cases htree with
    | beside _ _ h =>
      obtain ⟨n₀, before, hbefore, hwalk⟩ := hrest n below system h hn
      exact ⟨n₀, before, .beside _ _ hbefore, hwalk⟩
    | here =>
      have hsystem : b.tag = .system := htag ▸ (congrArg NodeKind.tag hn : _)
      obtain ⟨system₀, hb⟩ := Node.exists_system hsystem
      obtain ⟨hframe, hkind, hbox⟩ := enter_of_system hb henter
      obtain rfl := NodeKind.system.inj (hkind.symm.trans hn)
      exact ⟨b, children, .here _, hb.trans hn.symm, hbox, s₁, s₂, hframe, hs₁, hbelow⟩
    | deeper _ h =>
      by_cases hsystem : b.tag = .system
      · have hdepth := hf'.2.1.depth_le (fun k hk => NodeKind.depth_lt_of_accepts (hf'.1 k hk)
          (by rw [← Node.tag, htag, hsystem]; decide)) n h.mem
        rw [← Node.tag, htag, hsystem, Node.tag, hn] at hdepth
        exact absurd hdepth (by simp [NodeKind.tag, NodeTag.depth])
      · have hupper : ∀ k ∈ children.roots, k.tag = .page ∨ k.tag = .system := fun k hk =>
          .inr ((NodeKind.tag_of_accepts (hf.1 k hk)).2 (hroots.1.resolve_right hsystem))
        obtain ⟨n₀, before, hbefore, hwalk⟩ :=
          ihbelow hf.2.1 hf'.2.1 hupper hs₁ n below system h hn
        exact ⟨n₀, before, .deeper _ hbefore, hwalk⟩

/-- Below every system of a score a walk with its frame has been made. -/
theorem exists_walk_of_score {r : Node α} {pages f' : Forest (Node α)} {s' : Placing α}
    (h : Forest.Completes (placingPass c) none .start (.tree r pages) s' f')
    (htag : r.tag = .document) (hf : (Forest.tree r pages).Nested) (hf' : f'.Nested) :
    ∀ n below system, Forest.HasTree n below f' → n.kind = .system system →
      ∃ n₀ before, Forest.HasTree n₀ before (.tree r pages) ∧ n₀.kind = n.kind ∧
        WalksSystem c (c.frame system) n before below := by
  rw [Forest.tree] at h hf ⊢
  cases h with
  | skip henter _ => cases (enter_of_upper (.inl htag) henter).1
  | walk henter hbelow hleave _ hbeside =>
    cases hbeside
    obtain ⟨-, htag₁, -⟩ := enter_of_upper (.inl htag) henter
    obtain ⟨hs₁, -⟩ := placed_enter (c := c) .start none r
    rw [henter] at hs₁
    obtain ⟨rfl, rfl⟩ := leave_of_upper (.inl (htag₁.trans htag)) hleave
    have hpages : ∀ k ∈ pages.roots, k.tag = .page := fun k hk =>
      (NodeKind.tag_of_accepts (hf.1 k hk)).1 htag
    intro n below system htree hn
    cases htree with
    | here =>
      rw [htag, Node.tag, hn] at htag₁
      cases htag₁
    | deeper _ h =>
      obtain ⟨n₀, before, hbefore, hwalk⟩ := exists_walk_of_system hbelow hf.2.1 hf'.2.1
        (fun k hk => .inl (hpages k hk)) hs₁ n below system h hn
      exact ⟨n₀, before, .deeper _ hbefore, hwalk⟩
    | beside _ _ h => cases h

/-- Below every measure of a system a walk with its frame has been made. -/
theorem exists_walk_of_measure {s : Placing α} {above : Option (Node α)} {f : Forest (Node α)}
    {s' : Placing α} {f' : Forest (Node α)}
    (h : Forest.Completes (placingPass c) above s f s' f') (hf : f.Nested) (hf' : f'.Nested)
    (hroots : ∀ n ∈ f.roots, IsContent n) {frame : SystemFrame α} (hs : s.system = some frame)
    (hplaced : s.placed = []) :
    ∀ n below m, Forest.HasTree n below f' → n.kind = .measure m →
      ∃ n₀ before, Forest.HasTree n₀ before f ∧ n₀.kind = n.kind ∧
        WalksMeasure c frame m n before below := by
  induction h with
  | nil => exact fun _ _ _ h => by cases h
  | @skip above s s₁ s₂ b b₁ children siblings siblings' henter _ ih =>
    rw [Forest.roots, List.forall_mem_cons] at hroots
    obtain ⟨hs₁, htag₁, hskip, -⟩ := enter_of_content hs hroots.1 henter
    obtain ⟨hplaced₁, -⟩ := placed_enter (c := c) s above b
    rw [henter, hplaced] at hplaced₁
    obtain ⟨k, hb⟩ := Node.exists_control (hskip rfl)
    obtain rfl := AlignState.eq_nil_of_control hb hf.1
    intro n below m htree hn
    cases htree with
    | here =>
      rw [hskip rfl, Node.tag, hn] at htag₁
      cases htag₁
    | deeper _ h => cases h
    | beside _ _ h =>
      obtain ⟨n₀, before, hbefore, hwalk⟩ :=
        ih hf.2.2 hf'.2.2 hroots.2 hs₁ hplaced₁ n below m h hn
      exact ⟨n₀, before, .beside _ _ hbefore, hwalk⟩
  | @walk above s s₁ s₂ s₃ s₄ b b₁ b₂ children siblings children₁ children₂ siblings' whole v henter
      hbelow hleave _ _ _ ihbeside =>
    have hno := hf.ne_document fun n hn => (hroots n hn).ne_document
    rw [Forest.toList, List.forall_mem_cons, List.forall_mem_append] at hno
    rw [Forest.roots, List.forall_mem_cons] at hroots
    obtain ⟨hs₁, htag₁, -, hframe⟩ := enter_of_content hs hroots.1 henter
    obtain ⟨hplaced₁, -⟩ := placed_enter (c := c) s above b
    rw [henter, hplaced] at hplaced₁
    have hs₃ := placed_leave (c := c) s₂ whole (htag₁ ▸ hno.1) children₁
    rw [hleave, placed_eq hbelow hno.2.1, hplaced₁] at hs₃
    obtain ⟨hsystem₃, rfl, rfl⟩ := leave_of_content (htag₁ ▸ hroots.1) hleave
    intro n below m htree hn
    by_cases hm : b.tag = .measure
    · obtain ⟨m₀, hb⟩ := NodeKind.exists_of_measure hm
      obtain ⟨hmeasure, -⟩ := hframe m₀ hb
      obtain ⟨hkind, hhandle, hbox⟩ := enter_of_measure hb hs henter
      obtain ⟨hsystem₂, -, -⟩ := placed_staves hbelow hf.2.1
        (fun k hk => isPart_of_accepts hb (hf.1 k hk)) hmeasure
      cases htree with
      | here =>
        obtain rfl := NodeKind.measure.inj (hkind.symm.trans hn)
        exact ⟨b, children, .here _, hb.trans hn.symm, hbox, s₁, s₂, hs₁, hhandle ▸ hmeasure,
          hplaced₁, hbelow⟩
      | deeper _ h =>
        have hdepth := hf'.2.1.depth_le (fun k hk => NodeKind.depth_lt_of_accepts (hf'.1 k hk)
          (by rw [hkind]; simp [NodeKind.tag])) n h.mem
        rw [hkind, Node.tag, hn] at hdepth
        exact absurd hdepth (by simp [NodeKind.tag, NodeTag.depth])
      | beside _ _ h =>
        obtain ⟨n₀, before, hbefore, hwalk⟩ := ihbeside hf.2.2 hf'.2.2 hroots.2
          (hsystem₃.trans (hsystem₂.trans hs₁)) hs₃ n below m h hn
        exact ⟨n₀, before, .beside _ _ hbefore, hwalk⟩
    · have hnil : children = .nil := by
        cases children with
        | nil => rfl
        | cons k _ _ =>
          have htakes := hf.1 k List.mem_cons_self
          have hb := hroots.1
          rw [IsContent, Node.tag] at hb
          rw [Node.tag] at hm
          cases hk : b.kind <;> cases hk' : k.kind <;>
            simp [hk, hk', NodeKind.accepts, NodeKind.tag] at htakes hb hm
      subst hnil
      cases hbelow
      cases htree with
      | here => exact absurd (by rw [← htag₁, Node.tag, hn]; rfl) hm
      | deeper _ h => cases h
      | beside _ _ h =>
        obtain ⟨n₀, before, hbefore, hwalk⟩ :=
          ihbeside hf.2.2 hf'.2.2 hroots.2 (hsystem₃.trans hs₁) hs₃ n below m h hn
        exact ⟨n₀, before, .beside _ _ hbefore, hwalk⟩

end Placing

namespace Document

/-- Placement that meets no fault walks what stands below every system with the frame of this, after
which control elements that have waited are put in their places. -/
theorem WellFormed.exists_walks_place {d : Document α} (hd : d.WellFormed)
    {options : LayoutOptions α} {metrics : GlyphMetrics α}
    (hok : (d.place options metrics).fault = none) {c : PlacingContext α}
    (hc : c = ⟨metrics, options.scaledUnit, options.marginLeft, options.marginTop, d⟩) :
    ∃ score, Forest.Forall₂ Node.Boxed d.score score ∧
      (∀ n below system, Forest.HasTree n below score → n.kind = .system system →
        ∃ n₀ before, Forest.HasTree n₀ before d.score ∧ n₀.kind = n.kind ∧
          Placing.WalksSystem c (c.frame system) n before below) ∧
      Forest.Forall₂ Node.Reanchored score (d.place options metrics).document.score := by
  obtain ⟨s, score, hwalk, hboxed, hlater⟩ := hd.exists_walk_place hok
  obtain ⟨r, pages, detached, htrees, -, hr⟩ := hd.root
  have hscore : d.score = .tree r pages := by rw [Document.score, htrees, Forest.first]
  have hnested := hd.nested_score
  refine ⟨score, hboxed, ?_, hlater⟩
  rw [← hc] at hwalk
  rw [hscore] at hwalk hnested hboxed ⊢
  exact Placing.exists_walk_of_score hwalk hr hnested
    (hnested.of_kind (hboxed.mono fun _ _ h => h.kind))

/-- Placement that meets no fault gives systems and measures their boxes. -/
theorem WellFormed.framed_place {d : Document α} (hd : d.WellFormed) {options : LayoutOptions α}
    {metrics : GlyphMetrics α} (hok : (d.place options metrics).fault = none) :
    (d.place options metrics).document.score.Framed
      ⟨metrics, options.scaledUnit, options.marginLeft, options.marginTop, d⟩ := by
  obtain ⟨score, hboxed, hwalks, hlater⟩ := hd.exists_walks_place hok rfl
  have hnested := hd.nested_score.of_kind (hboxed.mono fun _ _ h => h.kind)
  refine Forest.Framed.of_reanchored (fun n below system htree hn => ?_) hlater
  obtain ⟨n₀, before, hbefore, hkind, hbox, s₁, s₂, hs₁, hplaced, hbelow⟩ :=
    hwalks n below system htree hn
  obtain ⟨haccepts, hnested₀⟩ := hd.nested_score.of_hasTree hbefore
  refine ⟨hbox, fun k hk m hm => ?_⟩
  obtain ⟨under, hunder⟩ := Forest.exists_hasTree hk
  obtain ⟨_, _, -, -, hwalk⟩ := Placing.exists_walk_of_measure hbelow hnested₀
    (hnested.of_hasTree htree).2
    (fun k hk => Placing.isContent_of_accepts (hkind.trans hn) (haccepts k hk)) hs₁ hplaced k under m
    hunder hm
  exact hwalk.box

end Document

end ScoreLayout
