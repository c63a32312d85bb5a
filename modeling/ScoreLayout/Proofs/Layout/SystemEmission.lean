import ScoreLayout.Proofs.Layout.SystemPlans
import ScoreLayout.Proofs.Layout.Unbreaking

/-!
# Systems made from plans

Planned systems are made one after another at the end of the page of the content. Each takes its
nodes from the front of the content, so the content stays a partition: what is in the new systems,
in order, and then what is still to come.

## Main definitions

* `placeRoots` — measures among neighbours placed one after another.
* `SystemsOf` — the systems that plans make of a content.
* `Document.labels` — handles with identifiers.

## Main results

* `Document.Shape.emitSystems` — the systems that breaking makes.
* `Document.Shape.breakContent` — the shape of a document broken into systems.
* `SystemsOf.branches`, `SystemsOf.noLeaf` — the systems hold the content, and none is empty.
-/

namespace ScoreLayout

variable {α : Type}

/-! ### Handles with identifiers -/

namespace Document

/-- The handles of all nodes with their identifiers. -/
def labels (d : Document α) : List (Handle × String) :=
  d.trees.toList.map fun n => (n.handle, n.id)

theorem ids_perm_of_labels {d d' : Document α} {h : Handle} {id : String}
    (hl : d'.labels.Perm ((h, id) :: d.labels)) : d'.ids.Perm (id :: d.ids) := by
  have := hl.map Prod.snd
  simp only [labels, List.map_cons, List.map_map] at this
  exact this

variable [Scalar α]

theorem labels_of_forall₂ {d d' : Document α}
    (h : Forest.Forall₂ Node.SameMusic d.trees d'.trees) : d'.labels = d.labels := by
  have hmap := h.map_eq (u := fun n => (n.handle, n.id)) (v := fun n => (n.handle, n.id))
    fun a b hab => by rw [hab.handle, hab.id]
  rw [labels, labels, ← Forest.toList_map, ← Forest.toList_map, hmap]

theorem labels_insert {d : Document α} (hd : d.WellFormed) {p : Node α}
    (hp : p ∈ d.trees.toList) (base : String) (kind : NodeKind α) :
    (d.insert p.handle base kind).2.labels.Perm
      (((d.insert p.handle base kind).1, freeId d.ids base) :: d.labels) := by
  rw [insert_eq, suffixedId_eq]
  exact (toList_insertAs hd.nodup_handles hp _ kind).map _

omit [Scalar α] in
theorem labels_reparentAll? {d d' : Document α} (hd : d.WellFormed) {nodes : List Handle}
    {parent : Handle} (hp : ¬ d.IsA parent .element) (hok : d.reparentAll? nodes parent = .ok d') :
    d'.labels.Perm d.labels :=
  (WellFormed.reparentAll? hd hp hok).2.map _

omit [Scalar α] in
theorem overflowMark_of_mem {d : Document α} (hd : d.WellFormed) {h : Handle} {id : String}
    (hl : (h, id) ∈ d.labels) :
    d.overflowMark h = .warning id .measureOverflow
      ("measure '" ++ id ++ "' does not fit the page width and overflows its system") := by
  obtain ⟨n, hn, heq⟩ := List.mem_map.1 hl
  obtain ⟨rfl, rfl⟩ := Prod.mk.inj heq
  rw [overflowMark, hd.node?_handle hn]
  rfl

end Document

/-! ### The systems that plans make -/

variable [Scalar α]

/-- Measures among neighbours placed one after another from `x` on. -/
def placeRoots : (x : α) → Forest (Node α) → Forest (Node α)
  | _, .nil => .nil
  | x, .cons n below siblings =>
    match n.kind.measure? with
    | some m =>
      .cons (n.mapKind (.mapMeasure fun m => { m with x })) below
        (placeRoots (x + m.width) siblings)
    | none => .cons n below (placeRoots x siblings)

/-- The kind of node that a plan makes. -/
def SystemPlan.kind (r : BreakRules α) (p : SystemPlan α) : NodeKind α :=
  .system { ScoreSystem.empty with
    definitionWidth := p.definitionWidth, measuresWidth := p.measuresWidth
    overflow := r.overflows p }

/-- The identifier of the system of number `k`, where others are in use. -/
def systemId (used : List String) (k : Nat) : String :=
  Document.freeId used ("system-" ++ toString k)

/-- The systems that plans, numbered from `k` on, make of a content. A plan without nodes makes
none. -/
inductive SystemsOf (r : BreakRules α) : (used : List String) → (k : Nat) →
    List (SystemPlan α) → (content systems : Forest (Node α)) → Prop
  | nil (used : List String) (k : Nat) : SystemsOf r used k [] .nil .nil
  | skip {used : List String} {k : Nat} {p : SystemPlan α} {plans : List (SystemPlan α)}
      {content systems : Forest (Node α)} (hp : p.nodes = [])
      (rest : SystemsOf r used (k + 1) plans content systems) :
      SystemsOf r used k (p :: plans) content systems
  | cons {used : List String} {k : Nat} {p : SystemPlan α} {plans : List (SystemPlan α)}
      {taken content systems : Forest (Node α)} (h : Handle) (hp : p.nodes ≠ [])
      (htaken : taken.roots.map Node.handle = p.nodes)
      (rest : SystemsOf r (systemId used k :: used) (k + 1) plans content systems) :
      SystemsOf r used k (p :: plans) (taken ++ content)
        (.cons (.new h (systemId used k) (p.kind r)) (placeRoots 0 taken) systems)

theorem sameMusic_placeRoots : (x : α) → (f : Forest (Node α)) →
    Forest.Forall₂ Node.SameMusic f (placeRoots x f)
  | _, .nil => .nil
  | x, .cons n below siblings => by
      rw [placeRoots]
      split
      · refine .cons ⟨rfl, rfl, ?_⟩ (.refl fun m _ => .refl m) (sameMusic_placeRoots _ siblings)
        rw [Node.mapKind]
        cases n.kind <;> rfl
      · exact .cons (.refl n) (.refl fun m _ => .refl m) (sameMusic_placeRoots x siblings)

namespace SystemsOf

variable {r : BreakRules α} {used : List String} {k : Nat} {plans : List (SystemPlan α)}
  {content systems : Forest (Node α)}

/-- The systems hold the content in its order. -/
theorem branches (h : SystemsOf r used k plans content systems) :
    Forest.Forall₂ Node.SameMusic content systems.branches := by
  induction h with
  | nil => exact .nil
  | skip _ _ ih => exact ih
  | cons _ _ _ _ ih => exact (sameMusic_placeRoots 0 _).append ih

/-- No system is empty. -/
theorem noLeaf (h : SystemsOf r used k plans content systems) : systems.NoLeaf := by
  induction h with
  | nil => exact trivial
  | skip _ _ ih => exact ih
  | @cons _ _ p _ taken _ _ _ hp htaken _ ih =>
    refine ⟨fun hnil => hp ?_, ih⟩
    rw [← htaken, ((sameMusic_placeRoots 0 taken).eq_nil_iff).2 hnil]
    rfl

theorem length_le (h : SystemsOf r used k plans content systems) :
    systems.roots.length ≤ plans.length := by
  induction h with
  | nil => exact Nat.le_refl _
  | skip _ _ ih => exact Nat.le_succ_of_le ih
  | cons _ _ _ _ ih => exact Nat.succ_le_succ ih

/-- Only the set of identifiers in use matters. -/
theorem perm {used' : List String} (h : SystemsOf r used k plans content systems)
    (hp : used.Perm used') : SystemsOf r used' k plans content systems := by
  induction h generalizing used' with
  | nil => exact .nil _ _
  | skip hne _ ih => exact .skip hne (ih hp)
  | cons i hne htaken _ ih =>
    have hid := Document.freeId_perm hp
    simp only [systemId, hid] at ih ⊢
    exact .cons i hne htaken (ih (hp.cons _))

end SystemsOf

/-- The marks on a planned system that overflows. -/
def overflowMarks (r : BreakRules α) (d : Document α) (p : SystemPlan α) : List Mark :=
  if p.nodes.isEmpty then [] else if r.overflows p then p.measures.map d.overflowMark else []

omit [Scalar α] in
/-- The front of a forest whose roots have given keys. -/
theorem exists_append_of_roots {β : Type} (key : Node α → β) : {f : Forest (Node α)} →
    {front back : List β} → f.roots.map key = front ++ back →
      ∃ g g', f = g ++ g' ∧ g.roots.map key = front ∧ g'.roots.map key = back
  | f, [], back, h => ⟨.nil, f, rfl, rfl, h⟩
  | .nil, k :: front, back, h => by simp [Forest.roots] at h
  | .cons n below siblings, k :: front, back, h => by
      rw [Forest.roots, List.map_cons, List.cons_append, List.cons.injEq] at h
      obtain ⟨g, g', rfl, hg, hg'⟩ := exists_append_of_roots key h.2
      exact ⟨.cons n below g, g', rfl, by rw [Forest.roots, List.map_cons, h.1, hg], hg'⟩

namespace Document

namespace Shape

variable {D : ScoreDefinition} {r page system : Node α} {detached : Forest (Node α)}

/-- Neighbouring measures placed one after another; `place` is the score around them. -/
theorem placeMeasures (place : Forest (Node α) → Forest (Node α))
    (hplace : ∀ {b c f g}, Forest.Changed b c f g → Forest.Changed b c (place f) (place g)) :
    (f done : Forest (Node α)) → {d : Document α} → (x : α) →
      d.Shape D r (place (done ++ f)) detached →
        (d.placeMeasures x (f.roots.map Node.handle)).Shape D r (place (done ++ placeRoots x f))
          detached
  | .nil, _, _, _, hd => hd
  | .cons n below siblings, done, d, x, hd => by
      have hchanged (m : Node α) : Forest.Changed n m (place (done ++ .cons n below siblings))
          (place (done ++ .cons m below siblings)) :=
        hplace ((Forest.Changed.here below siblings).append_right done)
      have hn : d.node? n.handle = some n :=
        hd.wellFormed.node?_handle (hd.mem (hchanged n).mem)
      rw [Forest.roots, List.map_cons, Document.placeMeasures, hn, Option.bind_some, placeRoots]
      cases n.kind.measure? with
      | some m =>
        have hstep := hd.modify (f := fun n => n.mapKind (.mapMeasure fun m => { m with x }))
          (hchanged _) ⟨rfl, rfl, by cases hk : n.kind <;> rw [Node.mapKind, hk] <;> rfl⟩
        have hrest := placeMeasures place hplace siblings
          (done ++ .tree (n.mapKind (.mapMeasure fun m => { m with x })) below)
          (x + m.width) (by rw [Forest.append_assoc]; exact hstep)
        rw [Forest.append_assoc] at hrest
        exact hrest
      | none =>
        have hrest := placeMeasures place hplace siblings (done ++ .tree n below) x
          (by rw [Forest.append_assoc]; exact hd)
        rw [Forest.append_assoc] at hrest
        exact hrest

/-- A planned system takes its nodes from the front of the content. -/
theorem emitSystem {taken content systems : Forest (Node α)} {d : Document α}
    (hd : d.Shape D r (.tree page (.cons system (taken ++ content) systems)) detached)
    (hpage : page.tag = .page)
    (hacc : ∀ n ∈ taken.roots, ∀ s : Node α, s.tag = .system → s.kind.accepts n.kind) (k : Nat)
    (rules : BreakRules α) {p : SystemPlan α} (htaken : taken.roots.map Node.handle = p.nodes) :
    ∃ d', d.emitSystem page.handle k (rules.overflows p) p = .ok d' ∧
      d'.Shape D r (.tree page (.cons system content (systems ++
        .tree (.new d.allocate.1 (systemId d.ids k) (p.kind rules)) (placeRoots 0 taken))))
          detached ∧
      d'.labels.Perm ((d.allocate.1, systemId d.ids k) :: d.labels) := by
  have hpageMem : page ∈ d.trees.toList := hd.mem List.mem_cons_self
  have hins := hd.insert (p := page) ("system-" ++ toString k) (p.kind rules)
    (.deeper detached (.here _ .nil)) (NodeKind.accepts_of_page hpage rfl)
    (.inl (endsInDigit_base "system-" k))
  have hlabels := labels_insert hd.wellFormed hpageMem ("system-" ++ toString k) (p.kind rules)
  rw [← systemId] at hins hlabels
  generalize hnew : (.new d.allocate.1 (systemId d.ids k) (p.kind rules) : Node α) = new at hins
  have hnewHandle : (d.insert page.handle ("system-" ++ toString k) (p.kind rules)).1 =
      new.handle := by rw [← hnew]; rfl
  have hnewTag : new.tag = .system := by rw [← hnew]; rfl
  obtain ⟨d₁, h₁, hd₁⟩ := reparentRoots (p := new) (by rw [hnewTag]; decide)
    (fun f moved => .tree page (.cons system (f ++ content) (systems ++ .tree new moved)))
    (fun _ => detached) (fun n below siblings moved =>
      ⟨_, .deeper detached (.deeper .nil (.deeper _ (.here (siblings ++ content)))),
        .deeper detached (.deeper .nil (.beside system _
          ((Forest.With.here moved .nil).append_right systems)))⟩)
    hins fun n hn => hacc n hn new hnewTag
  have hnewIs : IsA _ new.handle .system :=
    ⟨new, hins.mem (by simp [Forest.tree, Forest.toList]), rfl, hnewTag⟩
  have hlabels₁ := labels_reparentAll? hins.wellFormed
    (hins.wellFormed.not_isA hnewIs (by decide)) h₁
  have hplaced := placeMeasures
    (fun f => .tree page (.cons system content (systems ++ .tree new f)))
    (fun h => .deeper .nil (.beside system content
      ((Forest.Changed.deeper .nil h).append_right systems))) taken .nil 0 hd₁
  obtain ⟨hsame, -, -⟩ := forall₂_placeMeasures 0 p.nodes d₁
  refine ⟨d₁.placeMeasures 0 p.nodes, ?_, ?_, ?_⟩
  · rw [Document.emitSystem]
    dsimp only
    rw [← SystemPlan.kind, hnewHandle, ← htaken, h₁]
    rfl
  · rw [← htaken]
    exact hplaced
  · rw [labels_of_forall₂ hsame]
    exact hlabels₁.trans hlabels

omit [Scalar α] in
/-- What is taken from a content that every system takes. -/
theorem label_of_mem_roots {f : Forest (Node α)} {d : Document α}
    (hf : ∀ n ∈ f.toList, n ∈ d.trees.toList) {h : Handle}
    (hh : h ∈ f.roots.map Node.handle) : ∃ id, (h, id) ∈ d.labels := by
  obtain ⟨n, hn, rfl⟩ := List.mem_map.1 hh
  exact ⟨n.id, List.mem_map_of_mem (f := fun n => (n.handle, n.id))
    (hf n (Forest.mem_toList_of_mem_roots hn))⟩

/-- Planned systems take their nodes one after another from the front of the content. -/
theorem emitSystems (rules : BreakRules α) (hpage : page.tag = .page) :
    {plans : List (SystemPlan α)} → {content rest systems : Forest (Node α)} → {d : Document α} →
      (k : Nat) → (marks : List Mark) →
      d.Shape D r (.tree page (.cons system (content ++ rest) systems)) detached →
      (∀ n ∈ content.roots, ∀ s : Node α, s.tag = .system → s.kind.accepts n.kind) →
      plans.flatMap SystemPlan.nodes = content.roots.map Node.handle →
      (∀ p ∈ plans, p.measures ⊆ p.nodes) →
        ∃ made d', emitSystems rules page.handle k marks d plans =
            .ok (marks ++ plans.flatMap (overflowMarks rules d), d') ∧
          d'.Shape D r (.tree page (.cons system rest (systems ++ made))) detached ∧
          SystemsOf rules d.ids k plans content made
  | [], content, rest, systems, d, k, marks, hd, _, hnodes, _ => by
      have hnil : content = .nil := by
        rw [List.flatMap_nil, eq_comm, List.map_eq_nil_iff, Forest.roots_eq_nil] at hnodes
        exact hnodes
      subst hnil
      refine ⟨.nil, d, ?_, ?_, .nil _ _⟩
      · rw [ScoreLayout.Document.emitSystems, List.flatMap_nil, List.append_nil]
      · rwa [Forest.append_nil]
  | p :: plans, content, rest, systems, d, k, marks, hd, hacc, hnodes, hmeasures => by
      have hmeasures' : ∀ q ∈ plans, q.measures ⊆ q.nodes := fun q hq =>
        hmeasures q (List.mem_cons_of_mem p hq)
      rw [ScoreLayout.Document.emitSystems, List.flatMap_cons]
      by_cases hne : p.nodes = []
      · rw [List.flatMap_cons, hne, List.nil_append] at hnodes
        obtain ⟨made, d', hok, hd', hmade⟩ :=
          emitSystems rules hpage (k + 1) marks hd hacc hnodes hmeasures'
        refine ⟨made, d', ?_, hd', .skip hne hmade⟩
        rw [if_pos (by rw [hne]; rfl), hok, overflowMarks, if_pos (by rw [hne]; rfl),
          List.nil_append]
      · rw [List.flatMap_cons] at hnodes
        obtain ⟨taken, content, rfl, htaken, hrest⟩ := exists_append_of_roots Node.handle hnodes.symm
        rw [Forest.append_assoc] at hd
        have hmem : ∀ n ∈ content.toList, n ∈ d.trees.toList := fun n hn => hd.mem (by
          simp [Forest.tree, Forest.toList, hn])
        rw [Forest.roots_append] at hacc
        obtain ⟨d₁, h₁, hd₁, hlabels⟩ := hd.emitSystem hpage
          (fun n hn => hacc n (List.mem_append_left _ hn)) k rules htaken
        obtain ⟨made, d', hok, hd', hmade⟩ :=
          emitSystems rules hpage (k + 1) (marks ++ overflowMarks rules d p) hd₁
            (fun n hn => hacc n (List.mem_append_right _ hn)) hrest.symm hmeasures'
        -- what overflows later is marked alike before and after this system is made
        have hmarks : plans.flatMap (overflowMarks rules d₁) =
            plans.flatMap (overflowMarks rules d) := by
          refine List.flatMap_congr fun q hq => ?_
          have hsub : ∀ m ∈ q.measures, m ∈ content.roots.map Node.handle := fun m hm =>
            hrest ▸ List.mem_flatMap.2 ⟨q, hq, hmeasures' q hq hm⟩
          rw [overflowMarks, overflowMarks]
          congr 2
          refine List.map_congr_left fun m hm => ?_
          obtain ⟨id, hlabel⟩ := label_of_mem_roots hmem (hsub m hm)
          rw [overflowMark_of_mem hd.wellFormed hlabel, overflowMark_of_mem hd₁.wellFormed
            (hlabels.mem_iff.2 (List.mem_cons_of_mem _ hlabel))]
        refine ⟨.cons (.new d.allocate.1 (systemId d.ids k) (p.kind rules)) (placeRoots 0 taken)
          made, d', ?_, ?_, .cons _ hne htaken (hmade.perm (ids_perm_of_labels hlabels))⟩
        · have hnonempty : ¬ p.nodes.isEmpty := by simpa using hne
          rw [if_neg hnonempty, ← List.append_assoc, ← hmarks, ← hok]
          dsimp only
          rw [h₁, overflowMarks, if_neg hnonempty]
          split
          · rfl
          · rw [List.append_nil]
            rfl
        · rw [Forest.append_assoc] at hd'
          exact hd'

/-- The identifiers in use when systems are made: those of the page and the system of the content,
and all others that are no page and no system of the score. -/
def usedBeforeSystems (r : Node α) (content detached : Forest (Node α)) : List String :=
  r.id :: contentPageId :: contentSystemId ::
    (content.toList.map Node.id ++ detached.toList.map Node.id)

/-- The plans for a content. -/
def systemPlans (definition : ScoreDefinition) (options : LayoutOptions α)
    (metrics : GlyphMetrics α) (content : Forest (Node α)) : List (SystemPlan α) :=
  planSystems options.breakRules
    (content.roots.map (BreakItem.ofNode definition metrics options.scaledUnit))

/-- The plans hold the content in its order. -/
theorem flatMap_nodes_systemPlans (definition : ScoreDefinition) (options : LayoutOptions α)
    (metrics : GlyphMetrics α) (content : Forest (Node α)) :
    (systemPlans definition options metrics content).flatMap SystemPlan.nodes =
      content.roots.map Node.handle := by
  rw [systemPlans, flatMap_nodes_planSystems, List.map_map]
  exact List.map_congr_left fun n _ => BreakItem.handle_ofNode ..

omit [Scalar α] in
/-- The system of unbroken content is found again. -/
theorem contentSystem_of_unbroken [Scalar α] {content : Forest (Node α)} {d : Document α}
    (hd : d.Shape D r (.tree page (.tree system content)) detached)
    (hid : system.id = contentSystemId) : d.contentSystem = (system.handle, d) := by
  have hmem : system ∈ d.score.toList := by
    rw [hd.score]
    simp [Forest.tree, Forest.toList]
  rw [contentSystem_eq, hd.wellFormed.findLive?_eq_some_iff.2 ⟨system, hmem, hid, rfl⟩]

/-- Breaking into systems, once the content has been put in the system kept for it, is the making of
the planned systems. -/
theorem breakContent_eq {content : Forest (Node α)} {d d₁ : Document α}
    (hok : d.unbreak? = .ok d₁) (hd₁ : d₁.Shape D r (.tree page (.tree system content)) detached)
    (hid : system.id = contentSystemId) (options : LayoutOptions α) (metrics : GlyphMetrics α) :
    d.breakContent options metrics = (do
      let (marks, d₂) ← Document.emitSystems options.breakRules page.handle 1 [] d₁
        (systemPlans D options metrics content)
      return (marks, { d₂.destroy system.handle with stage := .systems })) := by
  have hchildren : d₁.childNodes system.handle = content.roots := by
    rw [childNodes, hd₁.below_eq (.deeper .nil (.here .nil))]
  have hparent : d₁.parent? system.handle = some page.handle := by
    refine hd₁.wellFormed.parent?_eq_some_iff.2 ⟨page, system, ?_, rfl, rfl⟩
    rw [hd₁.trees]
    simp [Forest.tree, Forest.links]
  rw [Document.breakContent, hok]
  dsimp only [bind, Except.bind]
  rw [hd₁.contentSystem_of_unbroken hid]
  dsimp only
  rw [hchildren, hparent, Option.getD_some, hd₁.definition, ← systemPlans]

omit [Scalar α] in
/-- The systems that have been made stay when the system of unbroken content is taken away. -/
theorem destroy_content {made : Forest (Node α)} {d : Document α}
    (hd : d.Shape D r (.tree page (.cons system .nil made)) detached) :
    Shape { d.destroy system.handle with stage := .systems } D r (.tree page made) detached := by
  have hdestroyed := hd.destroy (.deeper .nil (.here made))
  rw [Forest.append_nil] at hdestroyed
  exact ⟨hdestroyed.wellFormed.of_eq rfl rfl rfl, hdestroyed.definition, hdestroyed.trees⟩

omit [Scalar α] in
theorem accepts_of_mem_unbroken {content : Forest (Node α)} {d : Document α}
    (hd : d.Shape D r (.tree page (.tree system content)) detached) :
    ∀ n ∈ content.roots, ∀ s : Node α, s.tag = .system → s.kind.accepts n.kind :=
  fun n hn _ hs => hd.accepts_of_mem_content (by simpa [Forest.tree, Forest.branches] using hn) hs

/-- Breaking into systems, once the content has been put in the system kept for it, leaves one page
with the systems that the plans make of the content. It meets no fault. -/
theorem breakContent_of_unbreak? {content : Forest (Node α)} {d d₁ : Document α}
    (hok : d.unbreak? = .ok d₁) (hd₁ : d₁.Shape D r (.tree page (.tree system content)) detached)
    (hid : system.id = contentSystemId) (options : LayoutOptions α) (metrics : GlyphMetrics α) :
    ∃ systems d', d.breakContent options metrics =
        .ok ((systemPlans D options metrics content).flatMap
          (overflowMarks options.breakRules d₁), d') ∧
      d'.Shape D r (.tree page systems) detached ∧ d'.stage = .systems ∧
      SystemsOf options.breakRules d₁.ids 1 (systemPlans D options metrics content) content
        systems := by
  have hpage : page.tag = .page := hd₁.tag_of_mem_pages List.mem_cons_self
  have hall : d₁.Shape D r (.tree page (.cons system (content ++ .nil) .nil)) detached := by
    rw [Forest.append_nil]
    exact hd₁
  obtain ⟨made, d₂, hmade, hd₂, hsystems⟩ := emitSystems options.breakRules hpage 1 [] hall
    hd₁.accepts_of_mem_unbroken (flatMap_nodes_systemPlans D options metrics content)
    (measures_subset_planSystems _ _)
  refine ⟨made, { d₂.destroy system.handle with stage := .systems }, ?_, hd₂.destroy_content, rfl,
    hsystems⟩
  rw [breakContent_eq hok hd₁ hid, hmade]
  rfl

/-- Breaking into systems leaves one page, under the identifier for unbroken content, with the
systems that the plans make of the content. It meets no fault. -/
theorem breakContent {pages : Forest (Node α)} {d : Document α}
    (hd : d.Shape D r pages detached) (hfree : Unreserved detached) (options : LayoutOptions α)
    (metrics : GlyphMetrics α) :
    ∃ page systems d₁ d', d.breakContent options metrics =
        .ok ((systemPlans D options metrics d.content).flatMap
          (overflowMarks options.breakRules d₁), d') ∧
      d'.Shape D r (.tree page systems) detached ∧ d'.stage = .systems ∧
      SystemsOf options.breakRules (usedBeforeSystems r d.content detached) 1
        (systemPlans D options metrics d.content) d.content systems ∧
      page.tag = .page ∧ page.id = contentPageId ∧ d₁.WellFormed ∧
      ∀ n ∈ d.content.toList, (n.handle, n.id) ∈ d₁.labels := by
  obtain ⟨page, system, d₁, hok, hd₁, hpage, -, hids⟩ := hd.unbreak?
  obtain ⟨hpageId, hsystemId⟩ := hids hfree
  obtain ⟨systems, d', hbroken, hd', hstage, hsystems⟩ :=
    breakContent_of_unbreak? hok hd₁ hsystemId options metrics
  refine ⟨page, systems, d₁, d', hbroken, hd', hstage, hsystems.perm ?_, hpage, hpageId,
    hd₁.wellFormed, fun n hn => ?_⟩
  · rw [ids, hd₁.trees, usedBeforeSystems]
    simp [Forest.tree, Forest.toList, hpageId, hsystemId]
  · refine List.mem_map_of_mem (f := fun n => (n.handle, n.id)) (hd₁.mem ?_)
    simp [Forest.tree, Forest.toList, hn]

end Shape

end Document

end ScoreLayout
