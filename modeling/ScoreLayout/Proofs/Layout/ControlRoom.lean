import ScoreLayout.Proofs.Layout.StaffBands
import ScoreLayout.Proofs.Layout.SystemStaves
import ScoreLayout.Proofs.Layout.WaitingControls

/-!
# Room for control elements

Stacking makes room for a control element beside the symbols that it is tied to, on the staff that it
is placed against, if this staff has a place by then. The staves of the score definition have one from
the start, and any other staff from its first measure on. No later pass takes room away: breaking into
pages and filling lines leave the stacks alone, and filling pages only moves staves apart.

## Main definitions

* `StaffStack.Reserves` — a stack with the room that stacking makes for a control element.
* `Node.Widens`, `Document.Widened` — systems that have the room they had, around the same symbols.
* `Node.SetDown` — a symbol in its place on a staff.

## Main results

* `Stacking.reserves_score` — the systems after the stacking of their staves.
* `Document.WellFormed.widened_runAll` — the systems until their pages are filled.
* `Document.WellFormed.symbols_place` — the symbols on a visible staff after placement.
-/

namespace ScoreLayout

variable {K : Type} [ExactField K]

/-! ### Room on a stack -/

/-- The room that a control element asks for beside some symbols of a staff. -/
def Stacking.requested (c : StackingContext K) (symbols : List (Node K)) (control : Control K)
    (k : UInt32) (height : K) : K × K :=
  control.reserved c.metrics c.unit (cleared symbols k height).1 (cleared symbols k height).2

/-- A stack with the room on a staff that stacking makes for a control element. -/
def StaffStack.Reserves (c : StackingContext K) (stack : StaffStack K) (n : Node K)
    (control : Control K) (k : UInt32) : Prop :=
  ∃ slot symbols, stack.get? k = some slot ∧ slot.Proper ∧
    (Stacking.anchors n.layout).mapM (Stacking.existing c.document) = .ok symbols ∧
    slot.HasRoom (Stacking.requested c symbols control k slot.height).1
      (Stacking.requested c symbols control k slot.height).2

theorem StaffStack.Reserves.grows {c : StackingContext K} {stack stack' : StaffStack K} {n : Node K}
    {control : Control K} {k : UInt32} (h : stack.Reserves c n control k)
    (hgrows : stack.Grows stack') : stack'.Reserves c n control k := by
  obtain ⟨slot, symbols, hslot, hproper, hsymbols, hroom⟩ := h
  obtain ⟨slot', hslot', hgrows⟩ := hgrows k slot hslot
  refine ⟨slot', symbols, hslot', hgrows.proper hproper, hsymbols, ?_⟩
  rw [hgrows.height]
  exact hroom.grows hgrows

namespace Stacking

variable {c : StackingContext K} {s s₁ s' : Stacking K} {stack stack' : StaffStack K}
  {outer : List (StaffStack K)} {n n' : Node K} {f f' : Forest (Node K)}

theorem Collects.unique (h : s.Collects stack outer) (h' : s.Collects stack' outer) :
    stack = stack' := (List.cons.inj (h.systems.symm.trans h'.systems)).1

/-- Entering a control element makes the room for it, if there is its staff. -/
theorem Collects.reserves_enterControl (h : s.Collects stack outer) {control : Control K}
    {k : UInt32} (hk : (stack.get? k).isSome) (hkept : ¬ n.layout.omitted)
    (hstaff : controlStaff? c.document n.layout = .ok (some k))
    (hfault : (s.enterControl c n control).fault = none)
    (hs : (s.enterControl c n control).Collects stack' outer) : stack'.Reserves c n control k := by
  obtain ⟨slot, hslot⟩ := Option.isSome_iff_exists.1 hk
  obtain rfl : slot.staff = k := by simpa using List.find?_some hslot
  have hfound : (do (← s.stack?).get? (← some slot.staff)) = some slot := by
    rw [h.stack?_eq]
    exact hslot
  rw [Stacking.enterControl, if_neg (by simp [h.stack?_eq, hkept])] at hfault hs
  cases hcontrol : s.reserveControl c control n.layout with
  | error e =>
    rw [hcontrol] at hfault
    cases hfault
  | ok s₁ =>
    rw [hcontrol] at hs
    rw [reserveControl] at hcontrol
    obtain ⟨staff, hstaff', hcontrol⟩ := except_bind_eq_ok.1 hcontrol
    obtain rfl := Except.ok.inj (hstaff.symm.trans hstaff')
    rw [hfound] at hcontrol
    obtain ⟨symbols, hsymbols, hcontrol⟩ := except_bind_eq_ok.1 hcontrol
    obtain rfl := Except.ok.inj hcontrol
    obtain ⟨stack₁, hcollects, hgrows, hroom⟩ := h.reserve slot.staff
      (requested c symbols control slot.staff slot.height).1
      (requested c symbols control slot.staff slot.height).2
    obtain rfl := hcollects.unique hs
    obtain ⟨slot₁, hslot₁, hroom⟩ := hroom hk
    obtain ⟨slot₂, hslot₂, hsame⟩ := hgrows slot.staff slot hslot
    obtain rfl := Option.some.inj (hslot₁.symm.trans hslot₂)
    refine ⟨slot₁, symbols, hslot₁, hcollects.proper.slots _ (List.mem_of_find?_eq_some hslot₁),
      hsymbols, ?_⟩
    rwa [hsame.height]

/-- Visiting the content of a system gives each staff a place, and makes room for each control element
against a staff that has a place before it. -/
theorem reserves_content {above : Option (Node K)}
    (h : Forest.Completes (stackingPass c) above s f s' f') (hf : f.Nested)
    (hno : ∀ n ∈ f.toList, n.tag ≠ .system) (hs : s.Collects stack outer) (hunit : 0 ≤ c.unit) :
    ∃ stack', s'.Collects stack' outer ∧ stack.Grows stack' ∧
      (∀ staff ∈ f.staves, (stack'.get? staff.n).isSome) ∧
      ∀ before x after control k, f.toList = before ++ x :: after → x.kind = .control control →
        ¬ x.layout.omitted → controlStaff? c.document x.layout = .ok (some k) →
          ((stack.get? k).isSome ∨ ∃ staff ∈ before.filterMap Node.staff?, staff.n = k) →
            stack'.Reserves c x control k := by
  induction h generalizing stack with
  | nil =>
    exact ⟨stack, hs, .refl stack, fun _ h => absurd h List.not_mem_nil,
      fun before x after _ _ heq => by simp [Forest.toList] at heq⟩
  | @skip above s s₁ s₂ n n₁ children siblings siblings' henter _ ih =>
    rw [Forest.toList, List.forall_mem_cons, List.forall_mem_append] at hno
    obtain ⟨rfl, hskip, stack₁, hs₁, hgrows₁, -⟩ := collects_of_enter hs hunit hno.1 henter
    obtain ⟨control₁, hn⟩ := Node.exists_control (hskip rfl)
    obtain rfl := AlignState.eq_nil_of_control hn hf.1
    obtain ⟨stack₂, hs₂, hgrows₂, hstaves, hreserves⟩ := ih hf.2.2 hno.2.2 hs₁
    have hnone : n₁.staff? = none := Node.staff?_of_tag_ne (by rw [hskip rfl]; decide)
    rw [Forest.staves_cons, hnone]
    refine ⟨stack₂, hs₂, hgrows₁.trans hgrows₂, hstaves, ?_⟩
    intro before x after control k heq hx hkept hstaff hk
    rw [Forest.toList, Forest.toList, List.nil_append] at heq
    cases before with
    | nil =>
      obtain ⟨rfl, rfl⟩ := List.cons.inj heq
      obtain rfl := NodeKind.control.inj (hn.symm.trans hx)
      dsimp only [stackingPass] at henter
      rw [hn] at henter
      simp only [Prod.mk.injEq] at henter
      obtain ⟨rfl, -, hvisit⟩ := henter
      have hfault : (s.enterControl c n₁ control₁).fault = none := by
        split_ifs at hvisit with hfault
        simpa using hfault
      refine (hs.reserves_enterControl (hk.resolve_right ?_) hkept hstaff hfault hs₁).grows hgrows₂
      rintro ⟨staff, hmem, -⟩
      exact absurd hmem List.not_mem_nil
    | cons b before =>
      obtain ⟨rfl, hsiblings⟩ := List.cons.inj heq
      refine hreserves before x after control k hsiblings hx hkept hstaff (hk.imp hgrows₁.isSome ?_)
      rw [List.filterMap_cons, hnone]
      exact id
  | @walk above s s₁ s₂ s₃ s₄ n n₁ n₂ children siblings children₁ children₂ siblings' whole v henter
      _ hleave _ _ ihbelow ihbeside =>
    rw [Forest.toList, List.forall_mem_cons, List.forall_mem_append] at hno
    obtain ⟨rfl, -, stack₁, hs₁, hgrows₁, hplaced, -⟩ := collects_of_enter hs hunit hno.1 henter
    have hown : ∀ staff ∈ n₁.staff?.toList, (stack₁.get? staff.n).isSome := fun staff h =>
      hplaced staff (Node.staff?_eq_some_iff.1 (Option.mem_toList.1 h))
    obtain ⟨stack₂, hs₂, hgrows₂, hstaves₂, hbelow⟩ := ihbelow hf.2.1 hno.2.1 hs₁
    obtain ⟨rfl, -, rfl⟩ := leave_of_content hno.1 hleave
    obtain ⟨stack₄, hs₄, hgrows₄, hstaves₄, hbeside⟩ := ihbeside hf.2.2 hno.2.2 hs₂
    refine ⟨stack₄, hs₄, hgrows₁.trans (hgrows₂.trans hgrows₄), ?_, ?_⟩
    · rw [Forest.staves_cons, List.forall_mem_append, List.forall_mem_append]
      exact ⟨fun staff h => hgrows₄.isSome (hgrows₂.isSome (hown staff h)),
        fun staff h => hgrows₄.isSome (hstaves₂ staff h), hstaves₄⟩
    intro before x after control k heq hx hkept hstaff hk
    rw [Forest.toList] at heq
    cases before with
    | nil =>
      obtain ⟨rfl, -⟩ := List.cons.inj heq
      dsimp only [stackingPass] at henter
      rw [hx] at henter
      obtain ⟨-, henter⟩ := Prod.mk.inj henter
      obtain ⟨-, hvisit⟩ := Prod.mk.inj henter
      split_ifs at hvisit
    | cons b before =>
      obtain ⟨rfl, hbeyond⟩ := List.cons.inj heq
      have hk₁ : (stack₁.get? k).isSome ∨ ∃ staff ∈ before.filterMap Node.staff?, staff.n = k := by
        obtain hk | ⟨staff, hmem, rfl⟩ := hk
        · exact .inl (hgrows₁.isSome hk)
        · rw [← List.singleton_append, List.filterMap_append, List.mem_append] at hmem
          refine hmem.imp (fun h => hown staff ?_) fun h => ⟨staff, h, rfl⟩
          obtain ⟨m, hm, h⟩ := List.mem_filterMap.1 h
          rw [List.mem_singleton] at hm
          exact Option.mem_toList.2 (hm ▸ h)
      -- the control element stands behind the children, or among them
      have hlater (l : List (Node K)) (hl : before = children.toList ++ l)
          (hsiblings : siblings.toList = l ++ x :: after) : stack₄.Reserves c x control k := by
        refine hbeside l x after control k hsiblings hx hkept hstaff ?_
        obtain hk | ⟨staff, hmem, rfl⟩ := hk₁
        · exact .inl (hgrows₂.isSome hk)
        · rw [hl, List.filterMap_append, List.mem_append] at hmem
          exact hmem.imp (hstaves₂ staff) fun h => ⟨staff, h, rfl⟩
      obtain ⟨l, hl, hsiblings⟩ | ⟨l, hchildren, hl⟩ := List.append_eq_append_iff.1 hbeyond
      · exact hlater l hl hsiblings
      · cases l with
        | nil => exact hlater [] (by simpa using hchildren.symm) (by simpa using hl.symm)
        | cons y l =>
          obtain ⟨rfl, rfl⟩ := List.cons.inj hl
          exact (hbelow before x l control k hchildren hx hkept hstaff hk₁).grows hgrows₄

/-- The staves of the score definition have a place from the start. -/
theorem isSome_definedStaves {D : ScoreDefinition} {k : UInt32} (h : ∃ s, D.staff? k = some s)
    (unit : K) : ((definedStaves D unit).get? k).isSome := by
  obtain ⟨s, hs⟩ := h
  have hlisted : (k, s.hidden) ∈ (definedStaves D unit).outline :=
    outline_definedStaves D unit ▸ mem_outlineOf.2 (.inl ⟨s, hs, rfl⟩)
  rw [Option.isSome_iff_exists, ← StaffStack.mem_numbers_iff, ← StaffStack.map_fst_outline]
  exact List.mem_map_of_mem hlisted

/-- The systems of a score have room for their control elements. -/
theorem reserves_score {above : Option (Node K)}
    (h : Forest.Completes (stackingPass c) above s f s' f') (hf : f.Nested)
    (hroots : ∀ n ∈ f.roots, n.tag = .document ∨ n.tag = .page ∨ n.tag = .system)
    (hunit : 0 ≤ c.unit) :
    ∀ n below system, Forest.HasTree n below f' → n.kind = .system system →
      (∃ n₀, Forest.HasTree n₀ below f) ∧
        ∀ before x after control k, below.toList = before ++ x :: after →
          x.kind = .control control → ¬ x.layout.omitted →
            controlStaff? c.document x.layout = .ok (some k) →
              c.document.definition.HasStaff (before.filterMap Node.staff?) k →
                system.stack.Reserves c x control k := by
  intro n below system htree hn
  obtain ⟨n₀, s₀, s₁, hbefore, -, hno, hwalk, hplaced⟩ :=
    exists_walk_of_system h hf hroots n below system htree hn
  obtain ⟨stack, hs₁, -, -, hreserves⟩ := reserves_content hwalk (hf.of_hasTree hbefore).2 hno
    ⟨rfl, rfl, proper_definedStaves c.document.definition hunit⟩ hunit
  refine ⟨⟨n₀, hbefore⟩, fun before x after control k heq hx hkept hstaff hk => ?_⟩
  have hroom := hreserves before x after control k heq hx hkept hstaff
    (hk.imp_left fun hk => isSome_definedStaves hk c.unit)
  rw [hplaced stack _ hs₁.systems]
  exact hroom.grows ((grows_hideUnseen s₁.shown stack hs₁.proper).2.trans
    (.of_forall₂ (StaffStack.grows_stack ..)))

end Stacking

/-! ### Later passes -/

/-- Two states of one node, which is the same symbol, staff or control element, or a system that has
the room it had. -/
structure Node.Widens (spacing : K) (n n' : Node K) : Prop where
  handle : n'.handle = n.handle
  same : n'.tag = .element ∨ n'.tag = .staff ∨ n'.tag = .control → n' = n
  system : ∀ s', n'.kind = .system s' → ∃ s, n.kind = .system s ∧
    s.stack.Grows s'.stack ∧ (s.stack.Apart spacing → s'.stack.Apart spacing)

namespace Node.Widens

variable {spacing : K} {a b c : Node K}

theorem refl (n : Node K) : n.Widens spacing n :=
  ⟨rfl, fun _ => rfl, fun s h => ⟨s, h, .refl s.stack, fun h => h⟩⟩

theorem trans (h : a.Widens spacing b) (h' : b.Widens spacing c) : a.Widens spacing c where
  handle := h'.handle.trans h.handle
  same ht := by
    obtain rfl := h'.same ht
    exact h.same ht
  system s hs := by
    obtain ⟨s₁, hs₁, hgrows₁, hapart₁⟩ := h'.system s hs
    obtain ⟨s₂, hs₂, hgrows₂, hapart₂⟩ := h.system s₁ hs₁
    exact ⟨s₂, hs₂, hgrows₂.trans hgrows₁, hapart₁ ∘ hapart₂⟩

/-- What is neither a symbol, a staff, a control element nor a system may change. -/
theorem of_tag (hhandle : b.handle = a.handle)
    (htag : b.tag = .document ∨ b.tag = .page ∨ b.tag = .measure) : a.Widens spacing b where
  handle := hhandle
  same h := by
    rcases htag with ht | ht | ht <;> simp [ht] at h
  system s hs := by
    rw [Node.tag, hs] at htag
    simp [NodeKind.tag] at htag

theorem mapSystem (n : Node K) {f : ScoreSystem K → ScoreSystem K}
    (hgrows : ∀ s : ScoreSystem K, s.stack.Grows (f s).stack)
    (hapart : ∀ s : ScoreSystem K, s.stack.Apart spacing → (f s).stack.Apart spacing) :
    n.Widens spacing (n.mapKind (.mapSystem f)) := by
  obtain ⟨handle, id, kind, box, dirty, layout⟩ := n
  cases kind with
  | system s =>
    refine ⟨rfl, fun h => by simp [Node.mapKind, NodeKind.mapSystem, Node.tag, NodeKind.tag] at h, ?_⟩
    intro s' hs'
    obtain rfl := NodeKind.system.inj hs'
    exact ⟨s, rfl, hgrows s, hapart s⟩
  | _ => exact .refl _

theorem sameStack (n : Node K) {f : ScoreSystem K → ScoreSystem K} (hf : ∀ s, (f s).stack = s.stack) :
    n.Widens spacing (n.mapKind (.mapSystem f)) :=
  mapSystem n (fun s => (hf s).symm ▸ StaffStack.Grows.refl s.stack) fun s h => (hf s).symm ▸ h

theorem mapPage (n : Node K) (f : Page K → Page K) : n.Widens spacing (n.mapKind (.mapPage f)) := by
  obtain ⟨handle, id, kind, box, dirty, layout⟩ := n
  cases kind with
  | page p => exact .of_tag rfl (.inr (.inl rfl))
  | _ => exact .refl _

theorem placeTops : (ys : List K) → (f : Forest (Node K)) →
    Forest.Forall₂ (Node.Widens spacing) f (ScoreLayout.placeTops ys f)
  | y :: ys, .cons n below siblings =>
      .cons (.sameStack n fun _ => rfl) (.refl fun m _ => .refl m) (placeTops ys siblings)
  | [], f => by
      rw [ScoreLayout.placeTops]
      · exact .refl fun m _ => .refl m
      · simp
  | _ :: _, .nil => .nil

theorem pages {used : List String} {k : Nat} {plans : List (PagePlan K)}
    {systems pages : Forest (Node K)} (h : PagesOf used k plans systems pages) :
    Forest.Forall₂ (Node.Widens spacing) systems pages.branches := by
  induction h with
  | nil => exact .nil
  | cons _ _ _ _ ih => exact (placeTops _ _).append ih

end Node.Widens

namespace Document

variable {d d' d₁ : Document K} {options : LayoutOptions K} {metrics : GlyphMetrics K} {spacing : K}

/-- Two states of one document, in which the systems have the room they had, around the same
symbols. -/
structure Widened (spacing : K) (d d' : Document K) : Prop where
  definition : d'.definition = d.definition
  systems : ∀ n' below', Forest.HasTree n' below' d'.score → n'.tag = .system →
    ∃ n below, Forest.HasTree n below d.score ∧ n.Widens spacing n' ∧
      Forest.Forall₂ (Node.Widens spacing) below below'

namespace Widened

theorem refl (d : Document K) : d.Widened spacing d where
  definition := rfl
  systems n below htree _ := ⟨n, below, htree, .refl n, .refl fun m _ => .refl m⟩

theorem trans (h : d.Widened spacing d₁) (h' : d₁.Widened spacing d') : d.Widened spacing d' where
  definition := h'.definition.trans h.definition
  systems n' below' htree ht := by
    obtain ⟨n₁, below₁, htree₁, hn₁, hbelow₁⟩ := h'.systems n' below' htree ht
    obtain ⟨s', hs'⟩ := Node.exists_system ht
    obtain ⟨s₁, hs₁, -⟩ := hn₁.system s' hs'
    obtain ⟨n, below, htree₀, hn, hbelow⟩ := h.systems n₁ below₁ htree₁ (by rw [Node.tag, hs₁]; rfl)
    exact ⟨n, below, htree₀, hn.trans hn₁, hbelow.trans hbelow₁ fun _ _ _ => .trans⟩

theorem of_score (hdefinition : d'.definition = d.definition)
    (h : Forest.Forall₂ (Node.Widens spacing) d.score d'.score) : d.Widened spacing d' where
  definition := hdefinition
  systems _ _ htree _ := by
    obtain ⟨n, below, hn, hnn, hbelow⟩ := h.flip.hasTree htree
    exact ⟨n, below, hn, hnn, hbelow.flip⟩

/-- Systems that hold what stands in them still do. -/
theorem stacked (h : d.Widened spacing d') (hd : d.score.Stacked spacing) :
    d'.score.Stacked spacing := by
  intro n' below' system htree hn'
  obtain ⟨n, below, htree₀, hn, hbelow⟩ := h.systems n' below' htree (by rw [Node.tag, hn']; rfl)
  obtain ⟨system₀, hn₀, hgrows, hapart⟩ := hn.system system hn'
  obtain ⟨hbefore, hholds⟩ := hd n below system₀ htree₀ hn₀
  have hmem {k : Node K} (hk : k ∈ below'.toList) (ht : k.tag = .element ∨ k.tag = .staff) :
      k ∈ below.toList := by
    obtain ⟨k₀, hk₀, hkk⟩ := exists_mem_of_forall₂ hbelow.toList hk
    exact hkk.same (ht.imp_right .inl) ▸ hk₀
  have hgrown := hholds.grows hgrows
  exact ⟨hapart hbefore,
    fun k hk staff hstaff => hgrown.staves k (hmem hk (.inr (by rw [Node.tag, hstaff]; rfl))) staff hstaff,
    fun k hk ht => hgrown.symbols k (hmem hk (.inl ht)) ht⟩

end Widened

/-! ### Passes -/

theorem forall₂_widens_modify (h : Forest.Forall₂ (Node.Widens spacing) d.score d'.score) (i : Handle)
    {f : Node K → Node K} (hf : ∀ n : Node K, n.Widens spacing (f n)) :
    Forest.Forall₂ (Node.Widens spacing) d.score (d'.modify i f).score :=
  h.trans (forall₂_modify Node.Widens.refl d' i fun n _ _ => hf n).first fun _ _ _ => .trans

theorem WellFormed.widened_fillLines (hd : d.WellFormed) (options : LayoutOptions K) :
    d.Widened spacing (d.fillLines options).document :=
  .of_score (hd.sameTree_fillLines options).definition <| fillLines_induction
    (P := fun d' => Forest.Forall₂ (Node.Widens spacing) d.score d'.score) (.refl fun n _ => .refl n)
    (fun _ i _ hd => forall₂_widens_modify hd i fun _ => .of_tag rfl (.inr (.inr rfl)))
    fun _ i _ hd => forall₂_widens_modify hd i fun n => .sameStack n fun _ => rfl

theorem WellFormed.widened_fillPages (hd : d.WellFormed) {options : LayoutOptions K}
    (hweight : 0 ≤ options.staffWeight) : d.Widened spacing (d.fillPages options).document := by
  refine .of_score (hd.sameTree_fillPages options).definition <| fillPages_induction
    (P := fun d' => Forest.Forall₂ (Node.Widens spacing) d.score d'.score) (.refl fun n _ => .refl n)
    (fun _ i shift free total hfree htotal hd => forall₂_widens_modify hd i fun n => ?_)
    (fun _ i _ hd => forall₂_widens_modify hd i fun n => .mapPage n _) fun _ _ hd => hd
  rw [ExactField.zero_eq, not_le] at hfree htotal
  have hgap : 0 ≤ free / total * options.staffWeight :=
    mul_nonneg (div_pos hfree htotal).le hweight
  exact .mapSystem n (fun s => .of_forall₂ (s.stack.grows_justify _)) fun s h => h.justify hgap

theorem WellFormed.widened_breakPages (hd : d.WellFormed) (hs : d.Settled) :
    d.Widened spacing (d.breakPages options).document := by
  rw [Document.breakPages, Outcome.guarded]
  split
  · exact .refl d
  rename_i hstep
  split
  · rename_i i hf
    obtain ⟨r, pages, hshape⟩ := hd.exists_shape
    obtain ⟨front, page, systems, rfl, rfl, -⟩ :=
      hshape.exists_of_findLive? hs (Step.ne_built hstep) hf
    obtain ⟨made, d', hok, hd', -, hmade⟩ := hshape.paginate options
    rw [hok]
    refine ⟨hd'.definition, fun n' below' htree ht => ?_⟩
    have hold {n : Node K} {below : Forest (Node K)}
        (h : (n, below) ∈ (front ++ Forest.tree page systems).branches.trees) :
        Forest.HasTree n below d.score :=
      hshape.score ▸ .deeper .nil (Forest.hasTree_of_mem_trees h).of_branches
    have hmem := hd'.mem_trees_of_system htree ht
    rw [Forest.branches_append, Forest.trees_append, List.mem_append] at hmem
    rcases hmem with hmem | hmem
    · refine ⟨n', below', hold ?_, .refl n', .refl fun m _ => .refl m⟩
      rw [Forest.branches_append, Forest.trees_append]
      exact List.mem_append_left _ hmem
    · have hpages : Forest.Forall₂ (Node.Widens spacing) _ made.branches :=
        Node.Widens.pages hmade
      obtain ⟨t, ht, hnode, hbelow⟩ := exists_mem_of_forall₂ hpages.trees hmem
      refine ⟨t.1, t.2, hold ?_, hnode, hbelow⟩
      rw [Forest.branches_append, Forest.trees_append, Forest.tree, Forest.branches, Forest.branches,
        Forest.append_nil]
      exact List.mem_append_right _ ht
  · exact ⟨rfl, (Widened.refl d).systems⟩

/-- From stacking until pages are filled, systems have the room they had. -/
theorem WellFormed.widened_runAll (hd : d.WellFormed) (hs : d.Settled) {e : Engine K}
    (hweight : 0 ≤ e.options.staffWeight) :
    (e.runAll d (LayoutPass.all.take 5)).document.Widened spacing
      (e.runAll d (LayoutPass.all.take 8)).document := by
  have hkept := of_runAll_append (e := e) (d := d) (P := fun d' => (d'.WellFormed ∧ d'.Settled) ∧
      (e.runAll d (LayoutPass.all.take 5)).document.Widened spacing d') (LayoutPass.all.take 5)
    [.breakPages, .fillLines, .fillPages] ⟨hd.settled_runAll hs e _, .refl _⟩
    fun d' hd' pass hpass => by
      obtain ⟨⟨hd', hs'⟩, hwidened⟩ := hd'
      refine ⟨⟨hd'.run e pass, hd'.settled_run hs' e pass⟩, hwidened.trans ?_⟩
      simp only [List.mem_cons, List.not_mem_nil, or_false] at hpass
      obtain rfl | rfl | rfl := hpass
      · exact hd'.widened_breakPages hs'
      · exact hd'.widened_fillLines e.options
      · exact hd'.widened_fillPages hweight
  exact hkept.2

end Document

/-! ### Symbols in their places -/

/-- A symbol in its place below a top line. One that groups no others is drawn as it was. -/
def Node.SetDown (top : K) (n n' : Node K) : Prop :=
  ∃ x rect, n' = { n with box := ⟨x, top + n.layout.y, rect⟩ } ∧
    (n.kind.isContainer = false → rect = n.box.rect)

namespace Placing

variable {s : Placing K} {n n' : Node K} {frame : SystemFrame K} {slot : StaffSlot K}

theorem setDown_enterElement (hs : s.AtStaff frame slot) (hshown : ¬ slot.hidden) (n : Node K) :
    n.SetDown (frame.y + slot.y) (s.enterElement n) := by
  obtain ⟨mf, hmf⟩ := Option.isSome_iff_exists.1 hs.measure
  refine ⟨mf.xOf n.layout.slot, n.box.rect, ?_, fun _ => rfl⟩
  rw [enterElement, hmf]
  dsimp only
  rw [if_neg (by rw [hs.hidden]; exact hshown), hs.staffY, Box.setAnchor]

theorem setDown_leaveElement {top : K} (hn : n.SetDown top n') (below : List (Node K)) :
    n.SetDown top (leaveElement n' below) := by
  obtain ⟨x, rect, rfl, hrect⟩ := hn
  rw [leaveElement]
  split
  · rename_i hcontainer _
    exact ⟨x, _, rfl, fun h => by simp [h] at hcontainer⟩
  · exact ⟨x, rect, rfl, hrect⟩

end Placing

/-- Placement that meets no fault puts the symbols of a visible staff in their places. -/
theorem Document.WellFormed.symbols_place {d : Document K} {options : LayoutOptions K}
    {metrics : GlyphMetrics K} (hd : d.WellFormed) (hok : (d.place options metrics).fault = none)
    (hseats : ∀ n below system, Forest.HasTree n below d.score → n.kind = .system system →
      ∀ k ∈ below.toList, ∀ staff, k.kind = .staff staff →
        ∃ slot, system.stack.get? staff.n = some slot)
    {n m k y : Node K} {below under layers : Forest (Node K)} {system : ScoreSystem K} {staff : Staff}
    (htree : Forest.HasTree n below (d.place options metrics).document.score)
    (hn : n.kind = .system system) (hunder : Forest.HasTree m under below) (hm : m.tag = .measure)
    (hlayers : Forest.HasTree k layers under) (hk : k.kind = .staff staff)
    {slot : StaffSlot K} (hslot : system.stack.get? staff.n = some slot) (hshown : ¬ slot.hidden)
    (hy : y ∈ layers.toList) (ht : y.tag = .element) :
    ∃ y₀ ∈ d.score.toList, y₀.SetDown (options.marginTop + system.y + slot.y) y := by
  obtain ⟨score, hboxed, hwalks, hlater⟩ :=
    hd.exists_walks_place hok (c := d.placingContext options metrics) rfl
  obtain ⟨n₁, below₁, htree₁, hnn, hbelow⟩ := hlater.flip.hasTree htree
  obtain ⟨m₁, under₁, hunder₁, hmm, hunder⟩ := hbelow.hasTree hunder
  obtain ⟨k₁, layers₁, hlayers₁, hkk, hlayers⟩ := hunder.hasTree hlayers
  obtain ⟨y₁, hy₁, hyy⟩ := exists_mem_of_forall₂ hlayers.flip.toList hy
  obtain rfl : y = y₁ := hyy.same (by rw [Node.tag, ← hyy.kind, ← Node.tag, ht]; decide)
  obtain ⟨measure, hmeasure⟩ := NodeKind.exists_of_measure (k := m₁.kind)
    (by rw [← hmm.kind]; exact hm)
  obtain ⟨n₀, content, k₀, before, slot₀, hcontent, -, hbefore, hk₀, hslot₀, -, s, s', hs, hwalk⟩ :=
    hd.exists_walks_staff hboxed hwalks hseats htree₁ (hnn.kind ▸ hn) hunder₁ hmeasure hlayers₁
      (hkk.kind ▸ hk)
  obtain rfl := Option.some.inj (hslot.symm.trans hslot₀)
  obtain ⟨haccepts, hnested⟩ := (hd.nested_score.of_hasTree hcontent).2.of_hasTree hbefore
  refine (Placing.forall_layers (P := fun n => n ∈ d.score.toList) (Q := fun y => ∃ y₀ ∈ d.score.toList,
      y₀.SetDown (options.marginTop + system.y + slot.y) y) hwalk hnested
    (fun b hb => Placing.tag_of_accepts_staff hk₀ (haccepts b hb)) hs.placed
    (fun n hn => ⟨n, hn, Placing.setDown_enterElement hs hshown n⟩) ?_ ?_).2 y hy₁ ht
  · rintro _ below ⟨y₀, hy₀, hset⟩ -
    exact ⟨y₀, hy₀, Placing.setDown_leaveElement hset below⟩
  · exact fun b hb _ => hcontent.mem_of_mem (hbefore.mem_of_mem hb)

end ScoreLayout
