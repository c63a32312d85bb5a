import ScoreLayout.Proofs.Layout.PageStarts
import ScoreLayout.Proofs.Layout.TwinLayouts
import ScoreLayout.Proofs.Safety

/-!
# Display lists and queries

A display list is collected on one walk, which adds everything to the page, the system and the
measure that it has met last. The queries look nodes up by their identifiers, or by their place among
the children of others. Both tell the same: symbols, measures, systems and control elements appear in
document order, each where it stands in the score, and each at the place that a query gives.

## Main definitions

* `Forest.Holds` — every node takes those directly below it.
* `DisplayList.systemsIn`, `DisplayList.measuresIn`, `DisplayList.elementsIn`,
  `DisplayList.controlsIn` — what is drawn for the nodes of a forest.
* `Document.TellsSame` — a display list agrees with the queries.

## Main results

* `DisplayList.visit_pages` — what the walk collects.
* `Document.Reachable.omitsControls` — only control elements are left out.
* `Document.Reachable.tells_same` — the display list of every finished document.
-/

namespace ScoreLayout

variable {α : Type}

/-- Every node takes those directly below it, also the one above the forest. -/
def Forest.Holds (above : Node α) (f : Forest (Node α)) : Prop :=
  ∀ a b, (some a, b) ∈ f.links (some above) → a.kind.accepts b.kind

namespace Forest.Holds

variable {above n : Node α} {f g : Forest (Node α)}

theorem label (h : Holds above (.cons n f g)) : above.kind.accepts n.kind :=
  h above n List.mem_cons_self

theorem below (h : Holds above (.cons n f g)) : f.Holds n := fun a b hl =>
  h a b (List.mem_cons_of_mem _ (List.mem_append_left _ hl))

theorem siblings (h : Holds above (.cons n f g)) : g.Holds above := fun a b hl =>
  h a b (List.mem_cons_of_mem _ (List.mem_append_right _ hl))

/-- Below a node that takes nothing there is nothing. -/
theorem eq_nil (h : f.Holds above) (hno : ∀ k, ¬ above.kind.accepts k) :
    f = .nil := by
  cases f with
  | nil => rfl
  | cons n below siblings => exact absurd h.label (hno n.kind)

end Forest.Holds

theorem NodeKind.not_accepts_of_tag {k : NodeKind α}
    (hk : k.tag = .control ∨ k.tag = .change ∨ k.tag = .systemBreak ∨ k.tag = .pageBreak)
    (child : NodeKind α) : ¬ k.accepts child := by
  cases k <;> simp_all [tag, accepts]

/-- What a node of the content takes belongs to the content, and is no measure. -/
theorem NodeKind.depth_of_accepts {a b : NodeKind α} (h : a.accepts b) (ha : 3 ≤ a.tag.depth) :
    3 ≤ b.tag.depth ∧ b.tag ≠ .measure := by
  cases a <;> cases b <;> simp_all [accepts, tag, NodeTag.depth]

/-- What a system takes is a measure, or takes nothing itself. -/
theorem NodeKind.tag_of_system {a b : NodeKind α} (h : a.accepts b) (ha : a.tag = .system) :
    3 ≤ b.tag.depth ∧ (b.tag = .measure ∨ b.tag = .control ∨ b.tag = .change ∨
      b.tag = .systemBreak ∨ b.tag = .pageBreak) := by
  cases a <;> cases b <;> simp_all [accepts, tag, NodeTag.depth]

/-! ### Changing the last item -/

section ModifyLast

variable {β : Type}

@[simp] theorem modifyLast_append_singleton (f : β → β) (l : List β) (b : β) :
    modifyLast f (l ++ [b]) = l ++ [f b] := by
  induction l with
  | nil => rfl
  | cons a l ih =>
    rw [List.cons_append, modifyLast, ih, List.cons_append]
    simp

theorem modifyLast_modifyLast (f g : β → β) (l : List β) :
    modifyLast g (modifyLast f l) = modifyLast (g ∘ f) l := by
  rcases List.eq_nil_or_concat l with rfl | ⟨l, b, rfl⟩
  · rfl
  · simp

theorem modifyLast_eq_self {f : β → β} (hf : ∀ b, f b = b) (l : List β) : modifyLast f l = l := by
  rcases List.eq_nil_or_concat l with rfl | ⟨l, b, rfl⟩
  · rfl
  · simp [hf]

end ModifyLast

namespace DisplaySystem

/-- A system with further symbols in its last measure, and further control elements. -/
def fill (s : DisplaySystem α) (elements : List (DisplayElement α))
    (controls : List (DisplayControl α)) : DisplaySystem α :=
  { s with
    measures := modifyLast (fun m => { m with elements := m.elements ++ elements }) s.measures
    controls := s.controls ++ controls }

/-- A system with further measures and further control elements. -/
def extend (s : DisplaySystem α) (measures : List (DisplayMeasure α))
    (controls : List (DisplayControl α)) : DisplaySystem α :=
  { s with measures := s.measures ++ measures, controls := s.controls ++ controls }

variable (s : DisplaySystem α)

@[simp] theorem fill_nil : s.fill [] [] = s := by
  rw [fill, modifyLast_eq_self fun m => by rw [List.append_nil], List.append_nil]

@[simp] theorem extend_nil : s.extend [] [] = s := by
  rw [extend, List.append_nil, List.append_nil]

theorem fill_fill (e e' : List (DisplayElement α)) (c c' : List (DisplayControl α)) :
    (s.fill e c).fill e' c' = s.fill (e ++ e') (c ++ c') := by
  simp [fill, modifyLast_modifyLast, Function.comp_def, List.append_assoc]

theorem extend_extend (m m' : List (DisplayMeasure α)) (c c' : List (DisplayControl α)) :
    (s.extend m c).extend m' c' = s.extend (m ++ m') (c ++ c') := by
  simp [extend, List.append_assoc]

/-- What is added after a measure goes into it. -/
theorem fill_extend (m : DisplayMeasure α) (e : List (DisplayElement α))
    (c : List (DisplayControl α)) :
    (s.extend [m] []).fill e c = s.extend [{ m with elements := m.elements ++ e }] c := by
  simp [extend, fill]

end DisplaySystem

namespace DisplayList

theorem onSystem_onSystem (l : DisplayList α) (f g : DisplaySystem α → DisplaySystem α) :
    (l.onSystem f).onSystem g = l.onSystem fun s => g (f s) := by
  simp only [onSystem, onPage, modifyLast_modifyLast]
  congr 2
  funext p
  simp only [Function.comp_def, modifyLast_modifyLast]

theorem onSystem_eq_self (l : DisplayList α) {f : DisplaySystem α → DisplaySystem α}
    (hf : ∀ s, f s = s) : l.onSystem f = l := by
  simp only [onSystem, onPage]
  rw [modifyLast_eq_self fun p => by rw [modifyLast_eq_self hf]]

variable [Scalar α]

/-! ### What is drawn -/

/-- What is drawn for a node that is a symbol. -/
def drawnElement? (n : Node α) : Option (DisplayElement α) := n.kind.element?.map (ofElement n)

/-- What is drawn for a node that is a control element. -/
def drawnControl? (n : Node α) : Option (DisplayControl α) :=
  if n.layout.omitted ∨ ¬ n.box.HasContent then none
  else n.kind.control?.map fun c => ⟨n.id, c.name, n.layout.staff, n.box.bounds⟩

/-- The symbols of a forest in document order. -/
def elementsIn (f : Forest (Node α)) : List (DisplayElement α) := f.toList.filterMap drawnElement?

/-- The control elements of a forest that are drawn, in document order. -/
def controlsIn (f : Forest (Node α)) : List (DisplayControl α) := f.toList.filterMap drawnControl?

/-- A measure with the symbols below it. -/
def drawnMeasure? (t : Node α × Forest (Node α)) : Option (DisplayMeasure α) :=
  t.1.kind.measure?.map fun m => ⟨t.1.id, m.n, t.1.box.bounds, elementsIn t.2⟩

/-- The measures among the trees of a forest. -/
def measuresIn (f : Forest (Node α)) : List (DisplayMeasure α) := f.trees.filterMap drawnMeasure?

/-- A system with what stands below it. -/
def drawnSystem (index : Nat) (t : Node α × Forest (Node α)) : DisplaySystem α :=
  let s := t.1.kind.system?.getD .empty
  ⟨index, t.1.id, t.1.box.bounds, s.definitionWidth, stavesOf t.1 s, measuresIn t.2,
    controlsIn t.2⟩

/-- The trees of a forest as systems, numbered from `start` on. -/
def systemsIn (start : Nat) (f : Forest (Node α)) : List (DisplaySystem α) :=
  f.trees.mapIdx fun k t => drawnSystem (start + k) t

/-- The trees of a forest as pages; `page` pages with `start` systems come before them. -/
def pagesIn (options : LayoutOptions α) : (page start : Nat) → Forest (Node α) →
    List (DisplayPage α)
  | _, _, .nil => []
  | page, start, .cons n below siblings =>
    ⟨page, n.id, options.pageWidth, options.pageHeight, systemsIn start below⟩ ::
      pagesIn options (page + 1) (start + below.roots.length) siblings

theorem elementsIn_cons (n : Node α) (below siblings : Forest (Node α)) :
    elementsIn (.cons n below siblings) =
      (drawnElement? n).toList ++ (elementsIn below ++ elementsIn siblings) := by
  rw [elementsIn, Forest.toList, List.filterMap_cons, List.filterMap_append]
  cases drawnElement? n <;> rfl

theorem controlsIn_cons (n : Node α) (below siblings : Forest (Node α)) :
    controlsIn (.cons n below siblings) =
      (drawnControl? n).toList ++ (controlsIn below ++ controlsIn siblings) := by
  rw [controlsIn, Forest.toList, List.filterMap_cons, List.filterMap_append]
  cases drawnControl? n <;> rfl

theorem measuresIn_cons (n : Node α) (below siblings : Forest (Node α)) :
    measuresIn (.cons n below siblings) = (drawnMeasure? (n, below)).toList ++
      measuresIn siblings := by
  rw [measuresIn, Forest.trees, List.filterMap_cons]
  cases drawnMeasure? (n, below) <;> rfl

theorem systemsIn_cons (start : Nat) (n : Node α) (below siblings : Forest (Node α)) :
    systemsIn start (.cons n below siblings) =
      drawnSystem start (n, below) :: systemsIn (start + 1) siblings := by
  rw [systemsIn, Forest.trees, List.mapIdx_cons, systemsIn]
  congr 1
  refine congrArg (fun f => siblings.trees.mapIdx f) (funext fun k => ?_)
  rw [Nat.add_assoc, Nat.add_comm 1 k]

theorem systemsIn_append (start : Nat) (f g : Forest (Node α)) :
    systemsIn start (f ++ g) = systemsIn start f ++ systemsIn (start + f.roots.length) g := by
  induction f generalizing start with
  | nil => rfl
  | cons n below siblings _ ih =>
    rw [Forest.cons_append, systemsIn_cons, systemsIn_cons, ih, Forest.roots, List.length_cons,
      List.cons_append, Nat.add_assoc, Nat.add_comm 1]

theorem flatMap_pagesIn (options : LayoutOptions α) (page start : Nat) (f : Forest (Node α)) :
    (pagesIn options page start f).flatMap DisplayPage.systems = systemsIn start f.branches := by
  induction f generalizing page start with
  | nil => rfl
  | cons n below siblings _ ih =>
    rw [pagesIn, List.flatMap_cons, ih, Forest.branches, systemsIn_append]

/-! ### What the walk collects -/

variable {options : LayoutOptions α} {above : Node α} {f : Forest (Node α)}

private theorem visit_cons {n : Node α} {below siblings : Forest (Node α)} {s s₁ s₂ : Collecting α}
    (hn : n.tag ≠ .control) (henter : ((collector options).enter s n).1 = s₁)
    (hbelow : below.visit (collector options) s₁ = (s₂, .proceed)) :
    (Forest.cons n below siblings).visit (collector options) s =
      siblings.visit (collector options) s₂ := by
  have hv : (collector options).enter s n = (s₁, .proceed) := by
    rw [← henter]
    simp only [collector, hn, if_false]
  rw [Forest.visit, hv]
  dsimp only
  rw [hbelow]
  rfl

theorem drawnControl?_of_tag_ne {n : Node α} (hn : n.tag ≠ .control) : drawnControl? n = none := by
  rw [Node.tag] at hn
  rw [drawnControl?]
  split
  · rfl
  · cases hk : n.kind <;> first | rfl | exact absurd (by rw [hk]; rfl) hn

theorem drawnElement?_of_tag_ne {n : Node α} (hn : n.tag ≠ .element) : drawnElement? n = none := by
  rw [Node.tag] at hn
  rw [drawnElement?]
  cases hk : n.kind <;> first | rfl | exact absurd (by rw [hk]; rfl) hn

/-- A control element goes into the last system, and nothing stands below it. -/
private theorem visit_control {n : Node α} {siblings : Forest (Node α)} (s : Collecting α)
    (hn : n.tag = .control) :
    (Forest.cons n .nil siblings).visit (collector options) s =
      siblings.visit (collector options)
        ⟨s.list.onSystem fun y => y.extend [] (drawnControl? n).toList, s.systems⟩ := by
  obtain ⟨c, hk⟩ := NodeKind.exists_of_control hn
  have hadd : s.list.add options s.systems n =
      s.list.onSystem fun y => y.extend [] (drawnControl? n).toList := by
    rw [add, hk, drawnControl?, hk]
    by_cases hdrawn : n.layout.omitted ∨ ¬ n.box.HasContent
    · simp only [if_pos hdrawn, Option.toList_none]
      rw [onSystem_eq_self _ fun y => y.extend_nil]
    · simp only [if_neg hdrawn, NodeKind.control?, Option.map_some, Option.toList_some,
        DisplaySystem.extend, List.append_nil]
  have henter : (collector options).enter s n =
      (⟨s.list.onSystem fun y => y.extend [] (drawnControl? n).toList, s.systems⟩,
        .skipChildren) := by
    rw [← hadd]
    simp only [collector, hk, hn, if_true]
  rw [Forest.visit, henter]

/-- A symbol goes into the last measure; staves, layers, changes and breaks leave nothing. -/
private theorem enter_plain {n : Node α} (hn : 3 ≤ n.tag.depth) (hmeasure : n.tag ≠ .measure)
    (hcontrol : n.tag ≠ .control) (s : Collecting α) :
    ((collector options).enter s n).1 =
      ⟨s.list.onSystem fun y => y.fill (drawnElement? n).toList [], s.systems⟩ := by
  rw [Node.tag] at hn hmeasure hcontrol
  cases hk : n.kind with
  | document | page _ | system _ => simp [hk, NodeKind.tag, NodeTag.depth] at hn
  | measure _ => exact absurd (by rw [hk]; rfl) hmeasure
  | control _ => exact absurd (by rw [hk]; rfl) hcontrol
  | element e =>
    simp only [collector, add, hk, drawnElement?, NodeKind.element?, Option.map_some,
      Option.toList_some, onMeasure, DisplaySystem.fill, List.append_nil]
  | staff _ | layer _ | change _ | systemBreak | pageBreak =>
    simp only [collector, add, hk, drawnElement?, NodeKind.element?, Option.map_none,
      Option.toList_none, onSystem_eq_self _ DisplaySystem.fill_nil]

/-- What stands below a measure: symbols go into the last measure, and control elements into the last
system. -/
theorem visit_measure (hf : f.Holds above) (ha : 3 ≤ above.tag.depth) (s : Collecting α) :
    f.visit (collector options) s =
      (⟨s.list.onSystem fun y => y.fill (elementsIn f) (controlsIn f), s.systems⟩, .proceed) := by
  induction f generalizing above s with
  | nil => rw [Forest.visit, elementsIn, controlsIn, Forest.toList, List.filterMap_nil,
      List.filterMap_nil, onSystem_eq_self _ DisplaySystem.fill_nil]
  | cons n below siblings ihb ihs =>
    have hn : 3 ≤ n.tag.depth ∧ n.tag ≠ .measure := NodeKind.depth_of_accepts hf.label ha
    rw [elementsIn_cons, controlsIn_cons]
    by_cases hcontrol : n.tag = .control
    · obtain rfl := hf.below.eq_nil (NodeKind.not_accepts_of_tag (.inl hcontrol))
      rw [visit_control s hcontrol, ihs hf.siblings ha, onSystem_onSystem,
        drawnElement?_of_tag_ne (by rw [hcontrol]; decide)]
      simp [DisplaySystem.extend, DisplaySystem.fill, elementsIn, controlsIn, Forest.toList]
    · rw [visit_cons hcontrol (enter_plain hn.1 hn.2 hcontrol s) (ihb hf.below hn.1 _),
        ihs hf.siblings ha, onSystem_onSystem, onSystem_onSystem,
        drawnControl?_of_tag_ne hcontrol]
      simp [DisplaySystem.fill_fill]

/-- What stands below a system goes into the last system. -/
theorem visit_system (hf : f.Holds above) (ha : above.tag = .system) (s : Collecting α) :
    f.visit (collector options) s =
      (⟨s.list.onSystem fun y => y.extend (measuresIn f) (controlsIn f), s.systems⟩, .proceed) := by
  induction f generalizing s with
  | nil => rw [Forest.visit, measuresIn, controlsIn, Forest.toList, Forest.trees,
      List.filterMap_nil, List.filterMap_nil, onSystem_eq_self _ DisplaySystem.extend_nil]
  | cons n below siblings _ ihs =>
    have hn : 3 ≤ n.tag.depth ∧ (n.tag = .measure ∨ n.tag = .control ∨ n.tag = .change ∨
        n.tag = .systemBreak ∨ n.tag = .pageBreak) := NodeKind.tag_of_system hf.label ha
    rw [measuresIn_cons, controlsIn_cons]
    by_cases hmeasure : n.tag = .measure
    · obtain ⟨m, hk⟩ := NodeKind.exists_of_measure hmeasure
      have henter : ((collector options).enter s n).1 = ⟨s.list.onSystem fun y =>
          y.extend [⟨n.id, m.n, n.box.bounds, []⟩] [], s.systems⟩ := by
        simp [collector, add, hk, DisplaySystem.extend]
      rw [visit_cons (by rw [hmeasure]; decide) henter (visit_measure hf.below hn.1 _),
        ihs hf.siblings, onSystem_onSystem, onSystem_onSystem,
        drawnControl?_of_tag_ne (by rw [hmeasure]; decide)]
      simp [DisplaySystem.fill_extend, DisplaySystem.extend_extend, drawnMeasure?, hk,
        NodeKind.measure?]
    · have hleaf := hn.2.resolve_left hmeasure
      obtain rfl := hf.below.eq_nil (NodeKind.not_accepts_of_tag hleaf)
      have hnone : drawnMeasure? (n, Forest.nil) = none := by
        rw [drawnMeasure?]
        rw [Node.tag] at hmeasure
        cases hk : n.kind <;> first | rfl | exact absurd (by rw [hk]; rfl) hmeasure
      by_cases hcontrol : n.tag = .control
      · rw [visit_control s hcontrol, ihs hf.siblings, onSystem_onSystem, hnone]
        simp [DisplaySystem.extend_extend, controlsIn, Forest.toList]
      · have hother : n.tag ≠ .element := by rcases hleaf with h | h | h | h <;> rw [h] <;> decide
        rw [visit_cons hcontrol (enter_plain hn.1 hmeasure hcontrol s)
          (show Forest.nil.visit (collector options) _ = _ from rfl), ihs hf.siblings,
          onSystem_onSystem, hnone, drawnControl?_of_tag_ne hcontrol,
          drawnElement?_of_tag_ne hother]
        simp [controlsIn, Forest.toList]

/-- What stands below a page: each system with what stands below it. -/
theorem visit_page (hf : f.Holds above) (ha : above.tag = .page) (s : Collecting α) :
    f.visit (collector options) s =
      (⟨s.list.onPage fun p => { p with systems := p.systems ++ systemsIn s.systems f },
        s.systems + f.roots.length⟩, .proceed) := by
  induction f generalizing s with
  | nil =>
    rw [Forest.visit, systemsIn, Forest.trees, List.mapIdx_nil, onPage,
      modifyLast_eq_self fun p => by rw [List.append_nil]]
    rfl
  | cons n below siblings _ ihs =>
    have hn := (NodeKind.tag_of_accepts hf.label).2 ha
    obtain ⟨y, hk⟩ : ∃ y, n.kind = .system y := by
      cases hk : n.kind <;> simp_all [NodeKind.tag]
    have henter : ((collector options).enter s n).1 = ⟨s.list.onPage fun p => { p with systems :=
        p.systems ++ [⟨s.systems, n.id, n.box.bounds, y.definitionWidth, stavesOf n y, [], []⟩] },
          s.systems + 1⟩ := by
      simp [collector, add, hk]
    rw [visit_cons (by rw [Node.tag, hn]; decide) henter (visit_system hf.below hn _),
      ihs hf.siblings, systemsIn_cons, Forest.roots, List.length_cons]
    simp [onPage, onSystem, modifyLast_modifyLast, Function.comp_def, DisplaySystem.extend,
      drawnSystem, hk, NodeKind.system?, List.append_assoc, Nat.add_assoc, Nat.add_comm 1]

/-- What stands below the root: each page with its systems, which are numbered over all pages. -/
theorem visit_pages (hf : f.Holds above) (ha : above.tag = .document) (s : Collecting α) :
    f.visit (collector options) s =
      (⟨⟨s.list.pages ++ pagesIn options s.list.pages.length s.systems f⟩,
        s.systems + f.branches.roots.length⟩, .proceed) := by
  induction f generalizing s with
  | nil => rw [Forest.visit, pagesIn, List.append_nil]; rfl
  | cons n below siblings _ ihs =>
    have hn := (NodeKind.tag_of_accepts hf.label).1 ha
    obtain ⟨p, hk⟩ : ∃ p, n.kind = .page p := by
      cases hk : n.kind <;> simp_all [NodeKind.tag]
    have henter : ((collector options).enter s n).1 = ⟨⟨s.list.pages ++
        [⟨s.list.pages.length, n.id, options.pageWidth, options.pageHeight, []⟩]⟩, s.systems⟩ := by
      simp [collector, add, hk]
    rw [visit_cons (by rw [Node.tag, hn]; decide) henter (visit_page hf.below hn _),
      ihs hf.siblings, pagesIn, Forest.branches, Forest.roots_append, List.length_append]
    simp [onPage, List.append_assoc, Nat.add_assoc]

/-! ### Reading the list -/

theorem flatMap_measuresIn (hf : f.Holds above) (ha : above.tag = .system) :
    (measuresIn f).flatMap DisplayMeasure.elements = elementsIn f := by
  induction f with
  | nil => rfl
  | cons n below siblings _ ihs =>
    have hn := NodeKind.tag_of_system hf.label ha
    have hother : n.tag ≠ .element := by
      rcases hn.2 with h | h | h | h | h <;> rw [Node.tag, h] <;> decide
    rw [measuresIn_cons, List.flatMap_append, ihs hf.siblings, elementsIn_cons,
      drawnElement?_of_tag_ne hother, Option.toList_none, List.nil_append]
    congr 1
    by_cases hmeasure : n.tag = .measure
    · obtain ⟨m, hk⟩ := NodeKind.exists_of_measure hmeasure
      simp [drawnMeasure?, hk, NodeKind.measure?]
    · obtain rfl := hf.below.eq_nil (NodeKind.not_accepts_of_tag (hn.2.resolve_left hmeasure))
      cases hk : n.kind <;> simp_all [drawnMeasure?, NodeKind.measure?, elementsIn, Forest.toList]

theorem flatMap_systemsIn (hf : f.Holds above) (ha : above.tag = .page) (start : Nat) :
    (systemsIn start f).flatMap (fun s => s.measures.flatMap DisplayMeasure.elements) =
      elementsIn f := by
  induction f generalizing start with
  | nil => rfl
  | cons n below siblings _ ihs =>
    have hn : n.tag = .system := (NodeKind.tag_of_accepts hf.label).2 ha
    rw [systemsIn_cons, List.flatMap_cons, ihs hf.siblings, elementsIn_cons,
      drawnElement?_of_tag_ne (by rw [hn]; decide), Option.toList_none, List.nil_append,
      ← flatMap_measuresIn hf.below hn]
    rfl

/-- All symbols below the root, page by page. -/
theorem elements_pagesIn (hf : f.Holds above) (ha : above.tag = .document) (page start : Nat) :
    (DisplayList.mk (pagesIn options page start f)).elements = elementsIn f := by
  induction f generalizing page start with
  | nil => rfl
  | cons n below siblings _ ihs =>
    have hn : n.tag = .page := (NodeKind.tag_of_accepts hf.label).1 ha
    have hrest := ihs hf.siblings (page + 1) (start + below.roots.length)
    rw [elements, systems, List.flatMap_assoc] at hrest ⊢
    rw [pagesIn, List.flatMap_cons, hrest, elementsIn_cons,
      drawnElement?_of_tag_ne (by rw [hn]; decide), Option.toList_none, List.nil_append,
      flatMap_systemsIn hf.below hn]

theorem map_id_filterMap_drawnElement? (l : List (Node α)) :
    (l.filterMap drawnElement?).map DisplayElement.id =
      (l.filter fun n => n.tag = .element).map Node.id := by
  induction l with
  | nil => rfl
  | cons n l ih =>
    rw [List.filterMap_cons, List.filter_cons, drawnElement?, Node.tag]
    cases n.kind <;> simp [NodeKind.element?, NodeKind.tag, ofElement, ih]

theorem map_id_filterMap_drawnControl? (l : List (Node α)) :
    (l.filterMap drawnControl?).map DisplayControl.id =
      (l.filter fun n => n.tag = .control ∧ ¬ n.layout.omitted ∧ n.box.HasContent).map Node.id := by
  induction l with
  | nil => rfl
  | cons n l ih =>
    rw [List.filterMap_cons, List.filter_cons, drawnControl?, Node.tag]
    by_cases hdrawn : n.layout.omitted ∨ ¬ n.box.HasContent
    · have hno : ¬ (¬ n.layout.omitted ∧ n.box.HasContent) := by tauto
      rw [if_pos hdrawn, if_neg (by simp only [decide_eq_true_eq]; exact fun h => hno h.2)]
      exact ih
    · have hyes : ¬ n.layout.omitted ∧ n.box.HasContent := by tauto
      rw [if_neg hdrawn]
      cases n.kind <;> simp_all [NodeKind.control?, NodeKind.tag]

theorem map_id_filterMap_drawnMeasure? (l : List (Node α × Forest (Node α))) :
    (l.filterMap drawnMeasure?).map DisplayMeasure.id =
      ((l.map Prod.fst).filter fun n => n.tag = .measure).map Node.id := by
  induction l with
  | nil => rfl
  | cons t l ih =>
    rw [List.filterMap_cons, List.map_cons, List.filter_cons, drawnMeasure?, Node.tag]
    cases t.1.kind <;> simp [NodeKind.measure?, NodeKind.tag, ih]

end DisplayList

namespace Document

variable [Scalar α] {d : Document α}

/-- The display list of a finished document. -/
theorem Shape.displayList_eq {D : ScoreDefinition} {r : Node α} {pages detached : Forest (Node α)}
    (hd : d.Shape D r pages detached) (hs : d.stage = .finalized) (options : LayoutOptions α) :
    d.displayList options = .ok ⟨DisplayList.pagesIn options 0 0 pages⟩ := by
  have hholds : pages.Holds r := fun a b hl => hd.accepts hl
  have hdoc : r.kind = .document := NodeKind.eq_document hd.root_tag
  have hfault : Step.display.fault? d.stage = none := by rw [hs]; rfl
  have henter : (DisplayList.collector options).enter ⟨.empty, 0⟩ r = (⟨.empty, 0⟩, .proceed) := by
    simp [DisplayList.collector, DisplayList.add, hdoc, Node.tag, NodeKind.tag]
  rw [displayList, hfault, hd.score, Forest.tree, Forest.visit, henter]
  dsimp only
  rw [DisplayList.visit_pages hholds hd.root_tag]
  rfl

/-! ### Only control elements are left out -/

/-- Nothing but control elements is left out of the layout. -/
def OmitsControls (d : Document α) : Prop :=
  ∀ n ∈ d.content.toList, n.layout.omitted → n.tag = .control

omit [Scalar α] in
theorem OmitsControls.of_forall₂ {d' : Document α} {R : Node α → Node α → Prop}
    (hR : ∀ n n', R n n' → n'.tag = n.tag ∧ (n'.layout.omitted → n.layout.omitted ∨ n.tag = .control))
    (h : Forest.Forall₂ R d.content d'.content) (hd : d.OmitsControls) : d'.OmitsControls := by
  intro n' hn' homitted
  obtain ⟨n, hn, hnn⟩ := exists_mem_of_forall₂ h.toList hn'
  obtain ⟨htag, hkept⟩ := hR n n' hnn
  rw [htag]
  exact (hkept homitted).elim (hd n hn) id

theorem WellFormed.omitsControls_prepare (hd : d.WellFormed) : d.prepare.document.OmitsControls := by
  obtain ⟨r, pages, hshape⟩ := hd.exists_shape
  obtain ⟨page, system, d₁, hok, hd₁, -⟩ := hshape.unbreak?
  have hscore : d₁.reset.score = d₁.score.map Node.reset :=
    score_withScore (R := fun _ _ => True) (Forest.Forall₂.map_right _ fun _ _ => trivial)
  have hnone : d₁.reset.OmitsControls := by
    intro n hn
    have hn := d₁.reset.content_sublist_score.subset hn
    rw [hscore, Forest.toList_map] at hn
    obtain ⟨m, -, rfl⟩ := List.mem_map.1 hn
    exact fun h => absurd h Bool.false_ne_true
  have hrun := Forest.forall₂_run (p := d₁.reset.anchorPass)
    (R := fun n n' : Node α => n'.tag = n.tag ∧
      (n'.layout.omitted → n.layout.omitted ∨ n.tag = .control))
    (fun _ => ⟨rfl, .inl⟩)
    (fun a b c h h' => ⟨h'.1.trans h.1, fun hc => (h'.2 hc).elim h.2 fun hb => .inr (h.1 ▸ hb)⟩)
    (fun marks parent n => ?_)
    (fun _ _ n below => ⟨⟨rfl, .inl⟩, .refl fun m _ => ⟨rfl, .inl⟩⟩) [] d₁.reset.score
  · rw [prepare_eq hok]
    exact hnone.of_forall₂ (fun _ _ h => h) (score_withScore hrun ▸ hrun).branches.branches.branches
  · rw [anchorPass]
    dsimp only
    split
    · rename_i c hk
      obtain ⟨layout, heq⟩ := d₁.reset.anchorNode_eq marks parent n c
      rw [heq]
      exact ⟨rfl, fun _ => .inr (congrArg NodeKind.tag hk)⟩
    all_goals exact ⟨rfl, .inl⟩

theorem WellFormed.omitsControls_run (hd : d.WellFormed) (hsettled : d.Settled)
    (h : .prepared ≤ d.stage → d.OmitsControls) (e : Engine α) (pass : LayoutPass) :
    .prepared ≤ (e.run d pass).document.stage → (e.run d pass).document.OmitsControls := by
  by_cases hs : pass.required ≤ d.stage
  · intro _
    by_cases hprepare : pass = .prepare
    · subst hprepare
      exact hd.omitsControls_prepare
    · have hbefore : d.OmitsControls := h (by
        cases pass <;> first | contradiction | exact Nat.le_trans (by decide) hs)
      exact hbefore.of_forall₂ (R := AlignState.Keeps) (fun n n' hn =>
        ⟨hn.tag, fun ho => .inl (LayoutState.omitted_eq_of_ties hn.ties ▸ ho)⟩)
        (hd.keeps_run hsettled e hprepare)
  · obtain ⟨step, -, hrun⟩ := run_of_not_required e hs
    rw [hrun]
    exact h

/-- Once a document that a caller comes to is prepared, only control elements are left out. -/
theorem Reachable.omitsControls (h : d.Reachable) : .prepared ≤ d.stage → d.OmitsControls := by
  have hbuilt {d : Document α} (hs : d.stage = .built) : .prepared ≤ d.stage → d.OmitsControls :=
    fun hle => absurd (hs ▸ hle) (by decide)
  have hsame {d d' : Document α} (hd : .prepared ≤ d.stage → d.OmitsControls)
      (hs : d'.stage = d.stage) (hc : d'.content = d.content) :
      .prepared ≤ d'.stage → d'.OmitsControls := fun hle => by
    rw [OmitsControls, hc]
    exact hd (hs ▸ hle)
  induction h with
  | ofDefinition definition => exact hbuilt rfl
  | contentSystem h hd => exact hsame hd (stage_contentSystem _) h.wellFormed.content_contentSystem
  | add h parent kind hd =>
    rw [Document.add]
    dsimp only
    split
    · rename_i hok
      exact hbuilt (stage_addNamed hok)
    · exact hsame hd rfl rfl
  | addNamed _ _ hok => exact hbuilt (stage_addNamed hok)
  | remove _ hok => exact hbuilt (stage_remove hok)
  | detach _ hok hd =>
    rw [Document.detach] at hok
    split_ifs at hok
    split at hok
    · exact hbuilt (stage_remove hok)
    · exact Except.ok.inj hok ▸ hd
  | @collect d h hd =>
    refine hsame hd (by rw [collect_eq]) ?_
    rw [collect_eq, content, content, score, score]
    cases d.trees <;> rfl
  | @layout d h e hd =>
    rw [Engine.layout, Engine.runAll]
    refine (foldl_run LayoutPass.all (P := fun d => d.WellFormed ∧ d.Settled ∧
      (.prepared ≤ d.stage → d.OmitsControls)) (fun d hd pass _ => ?_)
      ⟨h.wellFormed, h.settled, hd⟩).2.2
    exact ⟨hd.1.run e pass, hd.1.settled_run hd.2.1 e pass,
      hd.1.omitsControls_run hd.2.1 hd.2.2 e pass⟩
  | pass h e pass hok hd => exact h.wellFormed.omitsControls_run h.settled hd e pass

/-! ### The list and the queries -/

/-- A display list tells what the queries tell. -/
structure TellsSame (d : Document α) (l : DisplayList α) : Prop where
  /-- Every symbol of the score is listed, in document order. -/
  listed : l.elements.map DisplayElement.id = (d.nodesOfKind .element).map Node.id
  /-- No symbol is listed twice. -/
  once : (l.elements.map DisplayElement.id).Nodup
  /-- A symbol is listed where the query finds it. -/
  placed : ∀ n ∈ d.nodesOfKind .element, ∃ e p, l.element? n.id = some e ∧
    d.position? n.id = some p ∧ e.x = p.x ∧ e.y = p.y ∧
      e.bounds = if n.box.HasContent then some p.bounds else none
  /-- Systems are numbered over all pages. -/
  numbered : l.systems.map DisplaySystem.index = List.range d.systemCount
  /-- The systems of the score are listed in order. -/
  systems : l.systems.map DisplaySystem.id = d.systems.map Node.id
  /-- A system holds its measures. -/
  measures : ∀ s ∈ l.systems,
    s.measures.map DisplayMeasure.id = (d.measuresInSystem s.index).map Node.id
  /-- A system holds the control elements below it that are drawn, in document order. -/
  controls : ∀ s ∈ l.systems, ∃ n, d.systems[s.index]? = some n ∧
    s.controls.map DisplayControl.id = ((d.descendants n.handle).filter fun c =>
      c.tag = .control ∧ ¬ c.layout.omitted ∧ c.box.HasContent).map Node.id

/-- A symbol of a document that leaves out control elements only is found by its identifier. -/
theorem WellFormed.position?_of_symbol (hd : d.WellFormed) (homits : d.OmitsControls)
    (hs : d.stage = .finalized) {n : Node α} (hn : n ∈ d.score.toList) (ht : n.tag = .element) :
    d.position? n.id = some ⟨n.box.x, n.box.y, n.box.bounds⟩ := by
  have hids : (d.score.toList.map Node.id).Nodup := hd.ids.sublist ((score_sublist d).map _)
  have hlive : d.liveNode? n.id = some n := by
    rw [hd.liveNode?_eq, Forest.find?_eq_find?_toList]
    exact (find?_key_eq_some_iff hids).2 ⟨hn, rfl⟩
  have hshown : ¬ n.layout.omitted := fun homitted => by
    have hcontrol := homits n (hd.mem_content hn (by rw [ht]; decide)) homitted
    rw [ht] at hcontrol
    cases hcontrol
  rw [position?, if_pos (hs ▸ Nat.le_refl _), hlive, Option.filter_some, if_pos (by simpa using hshown)]
  rfl

/-- The display list of a finished document and the queries tell the same. -/
theorem Reachable.tells_same (h : d.Reachable) (hs : d.stage = .finalized)
    (options : LayoutOptions α) : ∃ l, d.displayList options = .ok l ∧ d.TellsSame l := by
  obtain ⟨r, pages, hd⟩ := h.wellFormed.exists_shape
  have hholds : pages.Holds r := fun a b hl => hd.accepts hl
  have hscore : pages.toList.Sublist d.score.toList := by
    rw [hd.score, Forest.toList_tree]
    exact List.sublist_cons_self _ _
  have hids : (d.score.toList.map Node.id).Nodup :=
    h.wellFormed.ids.sublist ((score_sublist d).map _)
  set l : DisplayList α := ⟨DisplayList.pagesIn options 0 0 pages⟩ with hl
  have helements : l.elements = DisplayList.elementsIn pages :=
    DisplayList.elements_pagesIn hholds hd.root_tag 0 0
  have hlisted : l.elements.map DisplayElement.id = (d.nodesOfKind .element).map Node.id := by
    rw [helements, DisplayList.elementsIn, DisplayList.map_id_filterMap_drawnElement?,
      hd.nodesOfKind_eq]
  have honce : (l.elements.map DisplayElement.id).Nodup := by
    rw [hlisted, hd.nodesOfKind_eq]
    exact hids.sublist (((List.filter_sublist).trans hscore).map _)
  have hsystems : l.systems = pages.branches.trees.mapIdx DisplayList.drawnSystem := by
    rw [DisplayList.systems, hl, DisplayList.flatMap_pagesIn, DisplayList.systemsIn]
    simp only [Nat.zero_add]
  -- What a listed system is drawn from.
  have hfrom {s : DisplaySystem α} (hmem : s ∈ l.systems) : ∃ t : Node α × Forest (Node α),
      Forest.HasTree t.1 t.2 pages ∧ d.systems[s.index]? = some t.1 ∧
        s = DisplayList.drawnSystem s.index t := by
    rw [hsystems] at hmem
    obtain ⟨i, hi, rfl⟩ := List.mem_mapIdx.1 hmem
    refine ⟨pages.branches.trees[i],
      (Forest.hasTree_of_mem_trees (List.getElem_mem hi)).of_branches, ?_, rfl⟩
    rw [hd.systems_eq, ← Forest.map_fst_trees, List.getElem?_map]
    exact congrArg (Option.map Prod.fst) (List.getElem?_eq_getElem hi)
  refine ⟨l, hd.displayList_eq hs options, hlisted, honce, fun n hn => ?_, ?_, ?_,
    fun s hmem => ?_, fun s hmem => ?_⟩
  · rw [hd.nodesOfKind_eq, List.mem_filter, decide_eq_true_iff] at hn
    obtain ⟨e, hk⟩ := NodeKind.exists_of_element hn.2
    have hdrawn : DisplayList.drawnElement? n = some (DisplayList.ofElement n e) := by
      rw [DisplayList.drawnElement?, hk]
      rfl
    refine ⟨DisplayList.ofElement n e, _, (find?_key_eq_some_iff honce).2 ⟨?_, rfl⟩,
      h.wellFormed.position?_of_symbol (h.omitsControls (hs ▸ by decide)) hs (hscore.subset hn.1)
        hn.2, rfl, rfl, rfl⟩
    rw [helements]
    exact List.mem_filterMap.2 ⟨n, hn.1, hdrawn⟩
  · rw [hsystems, systemCount, if_pos (hs ▸ by decide), hd.systems_eq, ← Forest.map_fst_trees,
      List.length_map]
    exact List.ext_getElem (by simp) (by simp [DisplayList.drawnSystem])
  · rw [hsystems, hd.systems_eq, ← Forest.map_fst_trees]
    exact List.ext_getElem (by simp) (by simp [DisplayList.drawnSystem])
  · obtain ⟨t, htree, hnth, heq⟩ := hfrom hmem
    rw [measuresInSystem, hnth, heq]
    dsimp only
    rw [childNodes, hd.below_eq htree, ← Forest.map_fst_trees]
    exact DisplayList.map_id_filterMap_drawnMeasure? t.2.trees
  · obtain ⟨t, htree, hnth, heq⟩ := hfrom hmem
    refine ⟨t.1, hnth, ?_⟩
    rw [heq, descendants, Forest.unwind_eq_toList, hd.below_eq htree]
    exact DisplayList.map_id_filterMap_drawnControl? t.2.toList

/-- A slur over two notes, laid out: the notes and the slur are listed where they are found. -/
theorem Reachable.tells_same_of_slur : ∃ d : Document ℚ, d.Reachable ∧ d.stage = .finalized ∧
    (d.nodesOfKind .element).map Node.handle = [6, 7] ∧
      ∃ l, d.displayList .default = .ok l ∧ d.TellsSame l := by
  have hlayer := (((Reachable.ofDefinition (α := ℚ) default).contentSystem.add 2
    (.measure (.ofNumber 1))).add 3 (.staff ⟨1, false⟩)).add 4 (.layer 1)
  have hnotes := (hlayer.addNamed (by decide) (show Document.addNamed _ 5 "a"
    (.element (.note ⟨.ofValue .quarter, ⟨.c, 4, none⟩, none, false⟩)) = _ from rfl)).addNamed
    (by decide) (show Document.addNamed _ 5 "b"
    (.element (.note ⟨.ofValue .quarter, ⟨.d, 4, none⟩, none, false⟩)) = _ from rfl)
  have hd := (hnotes.add 3 (.control (.slur (.between "a" "b") none))).layout .default
  exact ⟨_, hd, by decide +kernel, by decide +kernel, hd.tells_same (by decide +kernel) _⟩

end Document

end ScoreLayout
