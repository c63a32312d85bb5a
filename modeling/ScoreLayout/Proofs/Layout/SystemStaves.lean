import ScoreLayout.Proofs.Layout.StackedPages
import ScoreLayout.Proofs.StaffLists

/-!
# A place for every staff

Stacking gives a place in the stack of a system to every staff of the score definition and to every
staff that stands in the system, and hides those that the definition hides, or that all measures hide.
Breaking into pages moves systems with their stacks, and filling changes distances alone, so no later
pass takes a place away or shows a staff again. This holds in any arithmetic and of any score.

## Main definitions

* `Forest.staves` — the staves of a forest.
* `Node.Seats` — a system with a place for each of its staves, hidden where the staff is.
* `Document.Seated` — a score all of whose systems are such.
* `Document.Stacked` — a score whose systems are stacked at a distance.

## Main results

* `Document.WellFormed.seats_stackStaves` — the score after the stacking of its staves.
* `Document.fillLines_induction`, `Document.fillPages_induction` — what each change of the filling
  passes keeps, the passes keep.
* `Document.WellFormed.stacked_runAll` — the score until its pages are filled.
* `Document.WellFormed.seated_runAll` — the score from then on.
-/

namespace ScoreLayout

variable {α : Type}

/-! ### Systems -/

/-- The staff of a node that is one. -/
def Node.staff? (n : Node α) : Option Staff :=
  match n.kind with
  | .staff staff => some staff
  | _ => none

theorem Node.staff?_eq_some_iff {n : Node α} {staff : Staff} :
    n.staff? = some staff ↔ n.kind = .staff staff := by
  rw [Node.staff?]
  cases n.kind <;> simp

theorem Node.staff?_of_tag_ne {n : Node α} (hn : n.tag ≠ .staff) : n.staff? = none := by
  rw [Node.tag] at hn
  rw [Node.staff?]
  cases hk : n.kind <;> first | rfl | exact absurd (by rw [hk]; rfl) hn

/-- The staves of a forest in document order. -/
def Forest.staves (f : Forest (Node α)) : List Staff := f.toList.filterMap Node.staff?

theorem Forest.staves_cons (n : Node α) (below siblings : Forest (Node α)) :
    (Forest.cons n below siblings).staves = n.staff?.toList ++ (below.staves ++ siblings.staves) := by
  rw [staves, toList, List.filterMap_cons, List.filterMap_append]
  cases n.staff? <;> rfl

theorem Forest.mem_staves_iff {f : Forest (Node α)} {staff : Staff} :
    staff ∈ f.staves ↔ ∃ n ∈ f.toList, n.kind = .staff staff := by
  simp only [Forest.staves, List.mem_filterMap, Node.staff?_eq_some_iff]

/-- A system with a place for each staff of the score definition and of a forest. -/
def Node.Seats (D : ScoreDefinition) (n : Node α) (f : Forest (Node α)) : Prop :=
  ∀ system, n.kind = .system system → system.stack.Lists D f.staves

/-- A node whose staves are stacked at a distance, if it is a system. -/
def Node.IsStacked [Scalar α] (spacing : α) (n : Node α) : Prop :=
  ∀ system, n.kind = .system system → system.stack.stack spacing = system.stack

/-- Two states of one node, where a system lists the same staves. -/
def Node.KeepsOutline (n n' : Node α) : Prop :=
  ∀ s', n'.kind = .system s' → ∃ s, n.kind = .system s ∧ s'.stack.outline = s.stack.outline

/-- Two states of one node, where a system has the same stack. -/
def Node.SameStack (n n' : Node α) : Prop :=
  ∀ s', n'.kind = .system s' → ∃ s, n.kind = .system s ∧ s'.stack = s.stack

theorem Node.SameStack.trans {a b c : Node α} (h : a.SameStack b) (h' : b.SameStack c) :
    a.SameStack c := by
  intro s hs
  obtain ⟨s₁, hs₁, heq₁⟩ := h' s hs
  obtain ⟨s₂, hs₂, heq₂⟩ := h s₁ hs₁
  exact ⟨s₂, hs₂, heq₁.trans heq₂⟩

theorem Node.SameStack.refl (n : Node α) : n.SameStack n := fun s h => ⟨s, h, rfl⟩

theorem Node.SameStack.keepsOutline {n n' : Node α} (h : n.SameStack n') : n.KeepsOutline n' :=
  fun s' hs' => (h s' hs').imp fun _ hs => ⟨hs.1, by rw [hs.2]⟩

theorem Node.IsStacked.of_sameStack [Scalar α] {spacing : α} {n n' : Node α} (h : n.IsStacked spacing)
    (hn : n.SameStack n') : n'.IsStacked spacing := by
  intro s' hs'
  obtain ⟨s, hs, heq⟩ := hn s' hs'
  rw [heq]
  exact h s hs

/-- Two states of one node, which is the same staff in both, or a system that lists the same
staves. -/
structure Node.KeepsSeats (n n' : Node α) : Prop where
  staff : n'.staff? = n.staff?
  system : n.KeepsOutline n'

theorem Node.KeepsOutline.trans {a b c : Node α} (h : a.KeepsOutline b) (h' : b.KeepsOutline c) :
    a.KeepsOutline c := by
  intro s hs
  obtain ⟨s₁, hs₁, heq₁⟩ := h' s hs
  obtain ⟨s₂, hs₂, heq₂⟩ := h s₁ hs₁
  exact ⟨s₂, hs₂, heq₁.trans heq₂⟩

theorem Node.KeepsOutline.refl (n : Node α) : n.KeepsOutline n := fun s h => ⟨s, h, rfl⟩

theorem Node.KeepsSeats.of_kind {n n' : Node α} (h : n'.kind = n.kind) : n.KeepsSeats n' :=
  ⟨by rw [Node.staff?, Node.staff?, h], fun s hs => ⟨s, h ▸ hs, rfl⟩⟩

theorem Node.Seats.of_keepsSeats {D : ScoreDefinition} {n n' : Node α} {f f' : Forest (Node α)}
    (h : n.Seats D f) (hn : n.KeepsSeats n') (hf : Forest.Forall₂ Node.KeepsSeats f f') :
    n'.Seats D f' := by
  intro s' hs'
  obtain ⟨s, hs, houtline⟩ := hn.system s' hs'
  rw [show f'.staves = f.staves from
    (filterMap_eq_of_forall₂ (fun _ _ h => h.staff.symm) hf.toList).symm]
  exact (h s hs).congr houtline

theorem Node.KeepsStack.keepsSeats {n n' : Node α} (h : n.KeepsStack n') : n.KeepsSeats n' where
  staff := by
    by_cases ht : n.tag = .staff
    · rw [h.same (.inr ht)]
    · rw [Node.staff?_of_tag_ne ht, Node.staff?_of_tag_ne (h.tag ▸ ht)]
  system := Node.SameStack.keepsOutline h.system

variable [Scalar α]

theorem Node.SameMusic.staff? {n n' : Node α} (h : n.SameMusic n') : n'.staff? = n.staff? := by
  have hkind := h.kind
  rw [Node.staff?, Node.staff?]
  cases hn : n.kind <;> cases hn' : n'.kind <;> simp_all [NodeKind.bare]

/-- The systems of emitted pages have the staves that they had. -/
theorem PagesOf.keepsStack {used : List String} {k : Nat} {plans : List (PagePlan α)}
    {systems pages : Forest (Node α)} (h : PagesOf used k plans systems pages) :
    Forest.Forall₂ Node.KeepsStack systems pages.branches := by
  induction h with
  | nil => exact .nil
  | cons _ _ _ _ ih => exact (keepsStack_placeTops _ _).append ih

/-! ### Stacking -/

namespace Stacking

variable {c : StackingContext α} {s s₁ s' : Stacking α} {n n' : Node α} {f f' : Forest (Node α)}
  {met : List Staff}

omit [Scalar α] in
/-- A state that has met some staves of the system that it collects for. -/
structure Met (D : ScoreDefinition) (met : List Staff) (s : Stacking α) : Prop where
  stack : ∃ stack, s.stack? = some stack ∧ stack.outline = outlineOf D met
  shown : s.shown = shownIn met

omit [Scalar α] in
theorem stack?_withStack {stack : StaffStack α} (h : s.stack? = some stack)
    (stack' : StaffStack α) : (s.withStack stack').stack? = some stack' := by
  rw [stack?] at h
  split_ifs at h with hs
  exact if_pos hs

omit [Scalar α] in
/-- A change of places that keeps the staves. -/
theorem Met.withStack {D : ScoreDefinition} (h : s.Met D met) {stack stack' : StaffStack α}
    (hstack : s.stack? = some stack) (heq : stack'.outline = stack.outline) :
    (s.withStack stack').Met D met := by
  obtain ⟨stack₀, hstack₀, houtline⟩ := h.stack
  obtain rfl := Option.some.inj (hstack₀.symm.trans hstack)
  exact ⟨⟨stack', stack?_withStack hstack stack', heq.trans houtline⟩, h.shown⟩

theorem Met.reserve {D : ScoreDefinition} (h : s.Met D met) (k : UInt32) (top bottom : α) :
    (s.reserve k top bottom).Met D met := by
  obtain ⟨stack, hstack, -⟩ := h.stack
  have hkeeps : (stack.modify k fun slot => slot.addExtent top bottom).outline = stack.outline := by
    rw [stack.outline_modify k id fun slot => ?_]
    · exact List.map_id'' (fun x => by simp) _
    · rw [StaffSlot.addExtent]
      split_ifs <;> exact ⟨rfl, rfl⟩
  rw [Stacking.reserve, hstack]
  exact h.withStack hstack hkeeps

theorem Met.enterControl {D : ScoreDefinition} (h : s.Met D met) (c : StackingContext α)
    (n : Node α) (control : Control α) : (s.enterControl c n control).Met D met := by
  rw [Stacking.enterControl]
  split_ifs
  · exact h
  · split
    · rename_i s₁ hs₁
      rw [reserveControl] at hs₁
      obtain ⟨staff, -, hs₁⟩ := except_bind_eq_ok.1 hs₁
      split at hs₁
      · obtain ⟨symbols, -, hs₁⟩ := except_bind_eq_ok.1 hs₁
        exact Except.ok.inj hs₁ ▸ h.reserve ..
      · exact Except.ok.inj hs₁ ▸ h
    · exact ⟨h.stack, h.shown⟩

/-- What entering a node inside a system comes to. -/
theorem met_of_enter (hs : s.Met c.document.definition met) (hn : n.tag ≠ .system)
    {above : Option (Node α)} {v : Visit} (h : (stackingPass c).enter s above n = (s₁, n', v)) :
    n' = n ∧ (v = .skipChildren → n.tag = .control) ∧
      s₁.Met c.document.definition (met ++ n.staff?.toList) := by
  dsimp only [stackingPass] at h
  rw [Node.tag] at hn ⊢
  rw [Node.staff?]
  cases hk : n.kind with
  | system => simp [hk, NodeKind.tag] at hn
  | staff staff =>
    obtain ⟨stack, hstack, houtline⟩ := hs.stack
    rw [hk] at h
    simp only [enterStaff, hstack, Prod.mk.injEq] at h
    obtain ⟨rfl, rfl, rfl⟩ := h
    refine ⟨rfl, (fun hv => by cases hv), ⟨_, stack?_withStack hstack _, ?_⟩, ?_⟩
    · rw [StaffStack.outline_ensure, houtline, Option.toList, outlineOf_concat]
    · rw [Option.toList, shownIn_concat, ← hs.shown]
  | element e =>
    rw [hk] at h
    simp only [enterElement, Prod.mk.injEq] at h
    obtain ⟨rfl, rfl, rfl⟩ := h
    refine ⟨rfl, (fun hv => by cases hv), ?_⟩
    rw [Option.toList, List.append_nil]
    cases n.extent? with
    | none => exact hs
    | some extent => exact hs.reserve ..
  | control control =>
    rw [hk] at h
    simp only [Prod.mk.injEq] at h
    obtain ⟨rfl, rfl, -⟩ := h
    rw [Option.toList, List.append_nil]
    exact ⟨rfl, fun _ => rfl, hs.enterControl c n control⟩
  | document | page | measure | layer | change | systemBreak | pageBreak =>
    rw [hk] at h
    simp only [Prod.mk.injEq] at h
    obtain ⟨rfl, rfl, rfl⟩ := h
    rw [Option.toList, List.append_nil]
    exact ⟨rfl, (fun hv => by cases hv), hs⟩

theorem outline_definedStaves (D : ScoreDefinition) (unit : α) :
    (definedStaves D unit).outline = outlineOf D [] := by
  have hfold : (definitions : List StaffDefinition) → (stack : StaffStack α) →
      (definitions.foldl (fun stack s => stack.ensure s.n (staffHeight s.lines unit) s.hidden)
        stack).outline =
          (definitions.map fun s => (s.n, s.hidden)).foldl listStaff stack.outline := by
    intro definitions
    induction definitions with
    | nil => exact fun _ => rfl
    | cons s definitions ih =>
      intro stack
      rw [List.foldl_cons, ih, StaffStack.outline_ensure, List.map_cons, List.foldl_cons]
  rw [definedStaves, hfold, outlineOf, List.map_nil, List.append_nil]
  rfl

/-- Visiting the content of a system meets all of its staves. -/
theorem met_content {above : Option (Node α)}
    (h : Forest.Completes (stackingPass c) above s f s' f') (hf : f.Nested)
    (hno : ∀ n ∈ f.toList, n.tag ≠ .system) (hs : s.Met c.document.definition met) :
    f' = f ∧ s'.Met c.document.definition (met ++ f.staves) := by
  induction h generalizing met with
  | nil => exact ⟨rfl, by rwa [Forest.staves, Forest.toList, List.filterMap_nil, List.append_nil]⟩
  | @skip above s s₁ s₂ n n₁ children siblings siblings' henter _ ih =>
    rw [Forest.toList, List.forall_mem_cons, List.forall_mem_append] at hno
    obtain ⟨rfl, hskip, hs₁⟩ := met_of_enter hs hno.1 henter
    obtain ⟨k, hn⟩ := Node.exists_control (hskip rfl)
    obtain rfl := AlignState.eq_nil_of_control hn hf.1
    obtain ⟨rfl, hs'⟩ := ih hf.2.2 hno.2.2 hs₁
    rw [List.append_assoc] at hs'
    rw [Forest.staves_cons]
    exact ⟨rfl, hs'⟩
  | @walk above s s₁ s₂ s₃ s₄ n n₁ n₂ children siblings children₁ children₂ siblings' whole v henter
      _ hleave _ _ ihbelow ihbeside =>
    rw [Forest.toList, List.forall_mem_cons, List.forall_mem_append] at hno
    obtain ⟨rfl, -, hs₁⟩ := met_of_enter hs hno.1 henter
    obtain ⟨rfl, hs₂⟩ := ihbelow hf.2.1 hno.2.1 hs₁
    obtain ⟨rfl, rfl, rfl⟩ := leave_of_content hno.1 hleave
    obtain ⟨rfl, hs₄⟩ := ihbeside hf.2.2 hno.2.2 hs₂
    rw [List.append_assoc, List.append_assoc] at hs₄
    rw [Forest.staves_cons]
    exact ⟨rfl, hs₄⟩

/-- Every system is stacked, with a place for each staff of the score definition and of its own. -/
theorem seats_score {above : Option (Node α)}
    (h : Forest.Completes (stackingPass c) above s f s' f') (hf : f.Nested)
    (hroots : ∀ n ∈ f.roots, n.tag = .document ∨ n.tag = .page ∨ n.tag = .system) :
    ∀ n below system, Forest.HasTree n below f' → n.kind = .system system →
      system.stack.Lists c.document.definition below.staves ∧
        system.stack.stack c.spacing = system.stack := by
  intro n below system htree hn
  obtain ⟨n₀, s₀, s₁, hbefore, -, hno, hwalk, hplaced⟩ :=
    exists_walk_of_system h hf hroots n below system htree hn
  -- the system begins with the staves of the definition, and meets those of its measures
  obtain ⟨-, ⟨stack, hstack, houtline⟩, hshown⟩ := met_content hwalk (hf.of_hasTree hbefore).2 hno
    (show Met _ [] _ from ⟨⟨_, rfl, outline_definedStaves ..⟩, rfl⟩)
  have hsystems : ∃ outer, s₁.systems = stack :: outer := by
    rw [stack?] at hstack
    split_ifs at hstack
    exact List.head?_eq_some_iff.1 hstack
  obtain ⟨outer, hsystems⟩ := hsystems
  rw [hplaced stack outer hsystems]
  refine ⟨StaffStack.lists_of_outline ?_, StaffStack.stack_stack ..⟩
  rw [StaffStack.outline_stack, StaffStack.outline_hideUnseen, houtline, hshown, List.nil_append]

end Stacking

/-! ### Documents -/

namespace Document

/-- A document whose systems have a place for every staff in them. -/
def Seated (d : Document α) : Prop :=
  ∀ n below, Forest.HasTree n below d.score → n.Seats d.definition below

variable {d d' : Document α} {options : LayoutOptions α} {metrics : GlyphMetrics α}

omit [Scalar α] in
theorem Seated.of_forall₂ (h : d.Seated) (hdefinition : d'.definition = d.definition)
    (hscore : Forest.Forall₂ Node.KeepsSeats d.score d'.score) : d'.Seated := by
  intro n' below' htree
  obtain ⟨n, below, htree, hn, hbelow⟩ := hscore.flip.hasTree htree
  exact hdefinition ▸ (h n below htree).of_keepsSeats hn hbelow.flip

/-- Filling changes no music, so it is enough that systems list the same staves. -/
theorem Seated.of_sameTree (h : d.Seated) (hsame : d.SameTree d')
    (houtline : Forest.Forall₂ Node.KeepsOutline d.score d'.score) : d'.Seated :=
  h.of_forall₂ hsame.definition ((hsame.trees.first.and houtline).mono fun _ _ hn =>
    ⟨hn.1.staff?, hn.2⟩)

omit [Scalar α] in
/-- A system stands right below a page. -/
theorem Shape.mem_trees_of_system {D : ScoreDefinition} {r : Node α}
    {pages detached : Forest (Node α)} (hd : d.Shape D r pages detached) {n : Node α}
    {below : Forest (Node α)} (htree : Forest.HasTree n below d.score) (ht : n.tag = .system) :
    (n, below) ∈ pages.branches.trees := by
  have hnested := hd.wellFormed.nested_score
  rw [hd.score] at htree hnested
  cases htree with
  | here => cases hd.root_tag.symm.trans ht
  | beside _ _ h => cases h
  | deeper _ htree =>
    rcases htree.mem_roots_or_branches with hroot | htree
    · cases (hd.tag_of_mem_pages hroot).symm.trans ht
    · refine Forest.Nested.mem_trees htree hnested.2.1.branches (fun k hk => ?_) ?_
      · rw [ht, hd.tag_of_mem_systems hk]
      · rw [ht]
        decide

omit [Scalar α] in
/-- Only the systems count. -/
theorem Shape.seated_iff {D : ScoreDefinition} {r : Node α} {pages detached : Forest (Node α)}
    (hd : d.Shape D r pages detached) :
    d.Seated ↔ ∀ t ∈ pages.branches.trees, t.1.Seats D t.2 := by
  constructor
  · intro h t ht
    exact hd.definition ▸ h t.1 t.2
      (hd.score ▸ .deeper _ (Forest.hasTree_of_mem_trees ht).of_branches)
  · intro h n below htree system hn
    rw [hd.definition]
    exact h _ (hd.mem_trees_of_system htree (by rw [Node.tag, hn]; rfl)) system hn

/-- Stacking that meets no fault stacks every system, with a place for each of its staves. -/
theorem WellFormed.seats_stackStaves (hd : d.WellFormed)
    (hok : (d.stackStaves options metrics).fault = none) :
    ∀ n below, Forest.HasTree n below (d.stackStaves options metrics).document.score →
      n.Seats (d.stackStaves options metrics).document.definition below ∧
        n.IsStacked (options.spacingStaff * options.scaledUnit) := by
  obtain ⟨hdefinition, s, hwalk⟩ := exists_walk_stackStaves hok
  have hseats := Stacking.seats_score hwalk hd.nested_score hd.tag_roots
  intro n below htree
  exact ⟨fun system hn => hdefinition ▸ (hseats n below system htree hn).1,
    fun system hn => (hseats n below system htree hn).2⟩

/-! ### Filling -/

section Filling

variable {P : Document α → Prop}

/-- What every change of filling lines keeps, is kept by the whole. -/
theorem fillLines_induction (hd : P d)
    (hmeasure : ∀ (d : Document α) (h : Handle) (m : Measure α), P d →
      P (d.modify h fun n => { n with kind := .measure m }))
    (hsystem : ∀ (d : Document α) (h : Handle) (x : α), P d →
      P (d.modify h fun n => n.mapKind (.mapSystem fun s => { s with measuresWidth := x }))) :
    P (d.fillLines options).document := by
  have hmeasures : (measures : List (Handle × Measure α)) → (d : Document α) → (x : α) →
      (gaps : List (Gap α)) → P d → ∀ r, d.fillMeasures x gaps measures = .ok r → P r.2 := by
    intro measures
    induction measures with
    | nil => exact fun d x gaps hd r hok => Except.ok.inj hok ▸ hd
    | cons p measures ih =>
      intro d x gaps hd r hok
      rw [fillMeasures] at hok
      dsimp only at hok
      split at hok
      · exact ih _ _ _ (hmeasure d p.1 _ hd) r hok
      · cases hok
  have hsystems (available : α) : (systems : List (Node α)) → (d : Document α) → P d → ∀ d',
      d.fillSystems options available systems = .ok d' → P d' := by
    intro systems
    induction systems with
    | nil => exact fun d hd d' hok => Except.ok.inj hok ▸ hd
    | cons n systems ih =>
      intro d hd d' hok
      obtain ⟨d₁, hfirst, hok⟩ := except_bind_eq_ok.1 hok
      refine ih d₁ ?_ d' hok
      rw [fillSystem] at hfirst
      split at hfirst
      · exact Except.ok.inj hfirst ▸ hd
      dsimp only at hfirst
      split_ifs at hfirst
      · exact Except.ok.inj hfirst ▸ hd
      · exact Except.ok.inj hfirst ▸ hd
      · obtain ⟨r, hfill, hfirst⟩ := except_bind_eq_ok.1 hfirst
        exact Except.ok.inj hfirst ▸ hsystem _ _ _ (hmeasures _ _ _ _ hd r hfill)
  rw [fillLines, Outcome.guarded]
  split
  · exact hd
  split
  · exact hd
  split_ifs
  · cases hok : d.fillSystems options _ d.systems with
    | ok d' => exact hsystems _ d.systems d hd d' hok
    | error f => exact hd
  · exact hd

/-- What every change of filling pages keeps, is kept by the whole. -/
theorem fillPages_induction (hd : P d)
    (hsystem : ∀ (d : Document α) (h : Handle) (shift free total : α), ¬ free ≤ 0 → ¬ total ≤ 0 →
      P d → P (d.modify h fun n => n.mapKind (.mapSystem fun s =>
        { s with
          y := s.y + shift
          stack := s.stack.justify (free / total * options.staffWeight) })))
    (hpage : ∀ (d : Document α) (h : Handle) (shift : α), P d →
      P (d.modify h fun n => n.mapKind (.mapPage fun p =>
        { p with contentHeight := p.contentHeight + shift })))
    (hstage : ∀ (d : Document α) (stage : Stage), P d → P { d with stage }) :
    P (d.fillPages options).document := by
  have hsystems {free total : α} (hfree : ¬ free ≤ 0) (htotal : ¬ total ≤ 0) :
      (systems : List (Node α)) → (d : Document α) → (first : Bool) → (shift : α) → P d →
        P (spreadSystems options (free / total) first shift systems d).2 := by
    intro systems
    induction systems with
    | nil => exact fun _ _ _ hd => hd
    | cons n systems ih => exact fun d _ _ hd => ih _ _ _ (hsystem d n.handle _ _ _ hfree htotal hd)
  have hfill (available : α) (isLast : Bool) (n : Node α) (d : Document α) (hd : P d) :
      P (d.fillPage options available isLast n) := by
    rw [fillPage]
    split
    · exact hd
    dsimp only
    split_ifs with hfree _ htotal
    · exact hd
    · exact hd
    · exact hd
    · exact hpage _ _ _ (hsystems (mt .inl hfree) htotal _ d true 0 hd)
  have hpages (available : α) : (pages : List (Node α)) → (d : Document α) → P d →
      P (d.spreadPages options available pages) := by
    intro pages
    induction pages with
    | nil => exact fun _ hd => hd
    | cons n pages ih => exact fun d hd => ih _ (hfill available pages.isEmpty n d hd)
  rw [fillPages, Outcome.guarded]
  split
  · exact hd
  dsimp only
  split_ifs
  · exact hstage _ _ (hpages _ d.pages d hd)
  · exact hstage _ _ hd

end Filling

/-! ### Later passes -/

omit [Scalar α] in
theorem forall₂_keepsOutline_modify {f : Node α → Node α}
    (h : Forest.Forall₂ Node.KeepsOutline d.score d'.score) (i : Handle)
    (hf : ∀ n : Node α, n.KeepsOutline (f n)) :
    Forest.Forall₂ Node.KeepsOutline d.score (d'.modify i f).score :=
  h.trans (forall₂_modify Node.KeepsOutline.refl d' i fun n _ _ => hf n).first fun _ _ _ => .trans

omit [Scalar α] in
theorem keepsOutline_mapSystem (n : Node α) {f : ScoreSystem α → ScoreSystem α}
    (hf : ∀ s, (f s).stack.outline = s.stack.outline) :
    n.KeepsOutline (n.mapKind (.mapSystem f)) := by
  intro s' hs'
  rw [Node.mapKind] at hs'
  cases hk : n.kind with
  | system s =>
    rw [hk] at hs'
    exact ⟨s, rfl, NodeKind.system.inj hs' ▸ hf s⟩
  | _ =>
    rw [hk] at hs'
    cases hs'

omit [Scalar α] in
theorem keepsOutline_mapPage (n : Node α) (f : Page α → Page α) :
    n.KeepsOutline (n.mapKind (.mapPage f)) := by
  obtain ⟨handle, id, kind, box, dirty, layout⟩ := n
  cases kind with
  | page p => exact fun s h => by cases h
  | _ => exact .refl _

/-- Filling lines changes no stack. -/
theorem sameStack_fillLines (d : Document α) (options : LayoutOptions α) :
    Forest.Forall₂ Node.SameStack d.score (d.fillLines options).document.score := by
  have hmodify {d' : Document α} (h : Forest.Forall₂ Node.SameStack d.score d'.score) (i : Handle)
      {f : Node α → Node α} (hf : ∀ n : Node α, n.SameStack (f n)) :
      Forest.Forall₂ Node.SameStack d.score (d'.modify i f).score :=
    h.trans (forall₂_modify Node.SameStack.refl d' i fun n _ _ => hf n).first fun _ _ _ => .trans
  exact fillLines_induction (P := fun d' => Forest.Forall₂ Node.SameStack d.score d'.score)
    (.refl fun n _ => .refl n) (fun _ i _ hd => hmodify hd i fun _ _ h => by cases h)
    fun _ i x hd => hmodify hd i fun n =>
      (Node.KeepsStack.mapSystem n (f := fun s => { s with measuresWidth := x }) fun _ => rfl).system

theorem WellFormed.seated_fillLines (hd : d.WellFormed) (h : d.Seated) :
    (d.fillLines options).document.Seated :=
  h.of_sameTree (hd.sameTree_fillLines options)
    ((sameStack_fillLines d options).mono fun _ _ hn => hn.keepsOutline)

theorem WellFormed.seated_fillPages (hd : d.WellFormed) (h : d.Seated) :
    (d.fillPages options).document.Seated :=
  h.of_sameTree (hd.sameTree_fillPages options) <|
    fillPages_induction (P := fun d' => Forest.Forall₂ Node.KeepsOutline d.score d'.score)
      (.refl fun n _ => .refl n)
      (fun _ i _ free total _ _ hd => forall₂_keepsOutline_modify hd i fun n =>
        keepsOutline_mapSystem n fun s => s.stack.outline_justify (free / total * options.staffWeight))
      (fun _ i _ hd => forall₂_keepsOutline_modify hd i fun n => keepsOutline_mapPage n _)
      fun _ _ hd => hd

theorem WellFormed.seated_breakPages (hd : d.WellFormed) (hs : d.Settled) (h : d.Seated) :
    (d.breakPages options).document.Seated := by
  rw [Document.breakPages, Outcome.guarded]
  split
  · exact h
  rename_i hstep
  split
  · rename_i i hf
    obtain ⟨r, pages, hshape⟩ := hd.exists_shape
    obtain ⟨front, page, systems, rfl, rfl, -⟩ :=
      hshape.exists_of_findLive? hs (Step.ne_built hstep) hf
    obtain ⟨made, d', hok, hd', -, hmade⟩ := hshape.paginate options
    rw [hok]
    rw [hshape.seated_iff, Forest.branches_append, Forest.trees_append] at h
    refine hd'.seated_iff.2 ?_
    rw [Forest.branches_append, Forest.trees_append]
    intro t' ht'
    rcases List.mem_append.1 ht' with ht' | ht'
    · exact h t' (List.mem_append_left _ ht')
    · obtain ⟨t, ht, hnode, hbelow⟩ := exists_mem_of_forall₂ hmade.keepsStack.trees ht'
      have htree : t ∈ (Forest.tree page systems).branches.trees := by
        rwa [Forest.tree, Forest.branches, Forest.branches, Forest.append_nil]
      exact (h t (List.mem_append_right _ htree)).of_keepsSeats hnode.keepsSeats
        (hbelow.mono fun _ _ hk => hk.keepsSeats)
  · exact h

theorem WellFormed.seated_place (hd : d.WellFormed) (h : d.Seated) :
    (d.place options metrics).document.Seated := by
  obtain ⟨score, stage, hsame, heq⟩ := hd.exists_place options metrics
  rw [heq]
  exact h.of_forall₂ rfl
    ((score_withScore hsame).symm ▸ hsame.mono fun n n' hn => .of_kind hn.kind)

/-! ### Stacked systems -/

/-- A document whose systems are stacked at a distance. -/
def Stacked (d : Document α) (spacing : α) : Prop := ∀ n ∈ d.systems, n.IsStacked spacing

theorem WellFormed.isStacked_stackStaves (hd : d.WellFormed)
    (hok : (d.stackStaves options metrics).fault = none) :
    (d.stackStaves options metrics).document.Stacked (options.spacingStaff * options.scaledUnit) := by
  intro n hn
  obtain ⟨r, pages, hshape⟩ := ((d.sameTree_stackStaves options metrics).wellFormed hd).exists_shape
  rw [hshape.systems_eq] at hn
  obtain ⟨below, hbranch⟩ := Forest.exists_hasTree (Forest.mem_toList_of_mem_roots hn)
  exact (hd.seats_stackStaves hok n below (hshape.score ▸ .deeper .nil hbranch.of_branches)).2

theorem WellFormed.stacked_fillLines (hd : d.WellFormed) {spacing : α} (h : d.Stacked spacing) :
    (d.fillLines options).document.Stacked spacing := by
  obtain ⟨r, pages, hshape⟩ := hd.exists_shape
  obtain ⟨r', pages', hshape'⟩ := ((hd.sameTree_fillLines options).wellFormed hd).exists_shape
  have hsame := sameStack_fillLines d options
  rw [hshape.score, hshape'.score] at hsame
  rw [Stacked, hshape.systems_eq] at h
  rw [Stacked, hshape'.systems_eq]
  intro n' hn'
  cases hsame with
  | cons _ hpages _ =>
    obtain ⟨n, hn, hnn⟩ := exists_mem_of_forall₂ hpages.branches.roots hn'
    exact (h n hn).of_sameStack hnn

theorem WellFormed.stacked_breakPages (hd : d.WellFormed) (hs : d.Settled) {spacing : α}
    (h : d.Stacked spacing) : (d.breakPages options).document.Stacked spacing := by
  rw [Document.breakPages, Outcome.guarded]
  split
  · exact h
  rename_i hstep
  split
  · rename_i i hf
    obtain ⟨r, pages, hshape⟩ := hd.exists_shape
    obtain ⟨front, page, systems, rfl, rfl, -⟩ :=
      hshape.exists_of_findLive? hs (Step.ne_built hstep) hf
    obtain ⟨made, d', hok, hd', -, hmade⟩ := hshape.paginate options
    rw [hok]
    rw [Stacked, hshape.systems_eq, Forest.branches_append, Forest.roots_append] at h
    rw [Stacked]
    dsimp only [Outcome.done]
    rw [hd'.systems_eq, Forest.branches_append, Forest.roots_append]
    intro n' hn'
    rcases List.mem_append.1 hn' with hn' | hn'
    · exact h n' (List.mem_append_left _ hn')
    · obtain ⟨n, hn, hnn⟩ := exists_mem_of_forall₂ hmade.keepsStack.roots hn'
      have hroot : n ∈ (Forest.tree page systems).branches.roots := by
        rwa [Forest.tree, Forest.branches, Forest.branches, Forest.append_nil]
      exact (h n (List.mem_append_right _ hroot)).of_sameStack hnn.system
  · exact h

/-- From stacking until pages are filled, systems are stacked. -/
theorem WellFormed.stacked_runAll (hd : d.WellFormed) (hs : d.Settled) {e : Engine α}
    (later : List LayoutPass) (hlater : ∀ pass ∈ later, pass = .breakPages ∨ pass = .fillLines)
    (hok : (e.runAll d (LayoutPass.all.take 5)).fault = none) :
    (e.runAll d (LayoutPass.all.take 5 ++ later)).document.Stacked
      (e.options.spacingStaff * e.options.scaledUnit) := by
  obtain ⟨-, hstack, hdocument⟩ := Engine.of_runAll_take (k := 4) rfl hok
  have hstacked := (hd.settled_runAll hs e (LayoutPass.all.take 4)).1.isStacked_stackStaves hstack
  have hkept := of_runAll_append (e := e) (d := d) (P := fun d' => (d'.WellFormed ∧ d'.Settled) ∧
      d'.Stacked (e.options.spacingStaff * e.options.scaledUnit)) (LayoutPass.all.take 5) later
    ⟨hd.settled_runAll hs e _, hdocument ▸ hstacked⟩ fun d' hd' pass hpass => by
      obtain ⟨⟨hd', hs'⟩, hstacked⟩ := hd'
      refine ⟨⟨hd'.run e pass, hd'.settled_run hs' e pass⟩, ?_⟩
      obtain rfl | rfl := hlater pass hpass
      · exact hd'.stacked_breakPages hs' hstacked
      · exact hd'.stacked_fillLines hstacked
  exact hkept.2

/-! ### Layouts -/

/-- From stacking on every staff has a place in its system. -/
theorem WellFormed.seated_runAll (hd : d.WellFormed) (hs : d.Settled) {e : Engine α}
    (later : List LayoutPass) (hlater : ∀ pass ∈ later, pass ∈ LayoutPass.all.drop 5)
    (hok : (e.runAll d (LayoutPass.all.take 5)).fault = none) :
    (e.runAll d (LayoutPass.all.take 5 ++ later)).document.Seated := by
  obtain ⟨-, hstack, hdocument⟩ := Engine.of_runAll_take (k := 4) rfl hok
  have hstacked : (e.run (e.runAll d (LayoutPass.all.take 4)).document
      .stackStaves).document.Seated := fun n below htree =>
    ((hd.settled_runAll hs e (LayoutPass.all.take 4)).1.seats_stackStaves hstack n below htree).1
  have hkept := of_runAll_append (e := e) (d := d)
    (P := fun d' => (d'.WellFormed ∧ d'.Settled) ∧ d'.Seated) (LayoutPass.all.take 5) later
    ⟨hd.settled_runAll hs e _, hdocument ▸ hstacked⟩ fun d' hd' pass hpass => by
      obtain ⟨⟨hd', hs'⟩, hseated⟩ := hd'
      refine ⟨⟨hd'.run e pass, hd'.settled_run hs' e pass⟩, ?_⟩
      have hpass : pass ∈ [LayoutPass.breakPages, .fillLines, .fillPages, .place] :=
        hlater pass hpass
      simp only [List.mem_cons, List.not_mem_nil, or_false] at hpass
      obtain rfl | rfl | rfl | rfl := hpass
      · exact hd'.seated_breakPages hs' hseated
      · exact hd'.seated_fillLines hseated
      · exact hd'.seated_fillPages hseated
      · exact hd'.seated_place hseated
  exact hkept.2

omit [Scalar α] in
/-- A staff that stands in a system has a place there. -/
theorem Seated.exists_slot (h : d.Seated) {n : Node α} {below : Forest (Node α)}
    {system : ScoreSystem α} (htree : Forest.HasTree n below d.score) (hn : n.kind = .system system)
    {k : Node α} (hk : k ∈ below.toList) {staff : Staff} (hstaff : k.kind = .staff staff) :
    ∃ slot, system.stack.get? staff.n = some slot :=
  StaffStack.mem_numbers_iff.1 (((h n below htree system hn).mem_iff staff.n).2
    (.inr ⟨staff, Forest.mem_staves_iff.2 ⟨k, hk, hstaff⟩, rfl⟩))

end Document

end ScoreLayout
