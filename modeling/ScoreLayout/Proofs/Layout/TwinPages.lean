import ScoreLayout.Proofs.Layout.Passes
import ScoreLayout.Proofs.Layout.StaffRoom
import ScoreLayout.Proofs.Layout.Twins

/-!
# Stacking and breaking into pages two documents side by side

Twins whose systems are on the page for unbroken content get the same staves at the same distances,
and their systems are distributed alike over pages: stacking looks at staves, symbols and what the
control elements are tied to, and breaking into pages at heights and page breaks only.

## Main results

* `Document.TwinSystems.stackStaves` — two documents after stacking.
* `planPages_of_forall₂` — plans for systems of the same heights.
* `Document.TwinSystems.breakPages` — two documents after breaking into pages.
-/

namespace ScoreLayout

variable {α : Type} [Scalar α] {T : Comparison α}

/-! ### Walks below frames -/

namespace Forest

variable {σ β : Type}

/-- A walk over a single tree of which the root is passed over. -/
theorem runWithin_tree_of_passed {p : Pass σ β} {b : β}
    (henter : ∀ s a, p.enter s a b = (s, b, .proceed))
    (hleave : ∀ s w f, p.leave s w b f = (s, b, f, .proceed)) (f : Forest β) (a : Option β)
    (around : Forest β → Forest β) (s : σ) :
    (tree b f).runWithin p a around s =
      match f.runWithin p (some b) (fun f => around (tree b f)) s with
      | (s, f, .stop) => (s, tree b f, .stop)
      | (s, f, _) => (s, tree b f, .proceed) := by
  simp only [tree]
  rw [runWithin, henter]
  dsimp only
  generalize f.runWithin p (some b) (fun f => around (cons b f nil)) s = walked
  obtain ⟨s, f, v⟩ := walked
  cases v with
  | stop => rfl
  | skipChildren | proceed =>
    dsimp only
    rw [hleave]
    rfl

end Forest

/-! ### Stacking -/

namespace Stacking

variable {d d' : Document α}

/-- The room for a control element follows from the symbols that it is tied to. -/
theorem reserveControl_eq {c c' : StackingContext α} (hc : c' = { c with document := c'.document })
    {l l' : LayoutState α} (hl : l' = { l with staff := l'.staff })
    (hstaff : l.startAnchor = none → l'.staff = l.staff)
    (hsymbols : ∀ a ∈ anchors l, ∃ n n', c.document.node? a = some n ∧
      c'.document.node? a = some n' ∧ n.Near T n' ∧ n.tag = .element)
    (s : Stacking α) (control : Control α) :
    s.reserveControl c' control l' = s.reserveControl c control l := by
  have hanchors : anchors l' = anchors l := by
    rw [hl]
    rfl
  have hstaff : controlStaff? c'.document l' = controlStaff? c.document l := by
    rw [controlStaff?, controlStaff?, hanchors]
    cases hl' : anchors l with
    | nil =>
      rw [anchors] at hl'
      rw [hstaff (by simpa using (List.append_eq_nil_iff.1 hl').1), hl]
    | cons a rest =>
      obtain ⟨n, n', hn, hn', hnear, ht⟩ := hsymbols a (hl' ▸ List.mem_cons_self)
      dsimp only
      rw [existing, existing, hn, hn']
      exact congrArg (fun l => Except.ok l.staff) (hnear.layout_eq (.inl (by rw [ht]; decide)))
  have hextents : (handles : List Handle) → (∀ a ∈ handles, a ∈ anchors l) →
      ∃ nodes nodes', handles.mapM (existing c.document) = .ok nodes ∧
        handles.mapM (existing c'.document) = .ok nodes' ∧
        nodes'.filterMap Node.extent? = nodes.filterMap Node.extent? := by
    intro handles
    induction handles with
    | nil => exact fun _ => ⟨[], [], rfl, rfl, rfl⟩
    | cons a handles ih =>
      intro ha
      rw [List.forall_mem_cons] at ha
      obtain ⟨n, n', hn, hn', hnear, ht⟩ := hsymbols a ha.1
      obtain ⟨nodes, nodes', hok, hok', heq⟩ := ih ha.2
      have hfirst : existing c.document a = .ok n := by rw [existing, hn]
      have hfirst' : existing c'.document a = .ok n' := by rw [existing, hn']
      refine ⟨n :: nodes, n' :: nodes', ?_, ?_, ?_⟩
      · rw [List.mapM_cons, hfirst, hok]
        rfl
      · rw [List.mapM_cons, hfirst', hok']
        rfl
      · rw [List.filterMap_cons, List.filterMap_cons, hnear.extent? ht, heq]
  obtain ⟨nodes, nodes', hok, hok', heq⟩ := hextents (anchors l) fun _ h => h
  have hcleared : (cleared nodes' : UInt32 → α → α × α) = cleared nodes := by
    funext staff height
    rw [cleared, cleared, heq]
  rw [reserveControl, reserveControl, hstaff, hanchors, hok, hok', hc]
  dsimp only [bind, Except.bind]
  rw [hcleared]

/-- Stacking does not tell near nodes apart. -/
theorem parallel {c c' : StackingContext α} (hc : c' = { c with document := c'.document })
    (hdefinition : c'.document.definition = c.document.definition)
    (hsymbols : ∀ a, T.symbol a → ∃ n n', c.document.node? a = some n ∧
      c'.document.node? a = some n' ∧ n.Near T n' ∧ n.tag = .element) :
    Forest.Parallel (Node.IsSpare T) (Node.Near T) (Node.Near T) (Node.Near T)
      (fun s t => t = s ∧ s.fault = none) (fun s t => t = s ∧ s.fault.isSome) (fun _ _ => True)
      (fun _ _ => True) (stackingPass c) (stackingPass c') where
  parent _ := trivial
  enter {s t a a' n n' f g} hs _ hn _ hbelow := by
    obtain ⟨rfl, hfault⟩ := hs
    have hmetrics : c'.metrics = c.metrics := by rw [hc]
    have hunit : c'.unit = c.unit := by rw [hc]
    cases hk : n.kind with
    | system system =>
      refine ⟨t.enterSystem c, _, n, n', .proceed, ?_, ?_, ⟨rfl, hfault⟩, hn⟩
      · simp only [stackingPass, hk]
      · simp only [stackingPass, hn.kind, hk, enterSystem, hdefinition, hunit]
    | staff staff =>
      refine ⟨t.enterStaff c staff, _, n, n', .proceed, ?_, ?_, ⟨rfl, ?_⟩, hn⟩
      · simp only [stackingPass, hk]
      · simp only [stackingPass, hn.kind, hk, enterStaff, hdefinition, hunit]
      · rw [enterStaff]
        split <;> exact hfault
    | element e =>
      refine ⟨t.enterElement n, _, n, n', .proceed, ?_, ?_, ⟨rfl, ?_⟩, hn⟩
      · simp only [stackingPass, hk]
      · simp only [stackingPass, hn.kind, hk, enterElement, hn.extent? (by rw [Node.tag, hk]; rfl)]
      · rw [enterElement]
        split
        · rw [reserve]
          split <;> exact hfault
        · exact hfault
    | control control =>
      have ht : n.tag = .control := by rw [Node.tag, hk]; rfl
      have hreserve : t.enterControl c' n' control = t.enterControl c n control := by
        rw [enterControl, enterControl, hn.omitted, reserveControl_eq (T := T) hc hn.layout
          (fun h => hn.staff (.inr h)) fun a ha => hsymbols a (hn.tied ht a ha)]
      cases hs : (t.enterControl c n control).fault with
      | some f =>
        refine ⟨t.enterControl c n control, _, n, n', .stop, ?_, ?_, rfl, by rw [hs]; rfl⟩
        · simp [stackingPass, hk, hs]
        · simp [stackingPass, hn.kind, hk, hreserve, hs]
      | none =>
        refine ⟨t.enterControl c n control, _, n, n', .skipChildren, ?_, ?_, ⟨rfl, hs⟩, hn, hbelow⟩
        · simp [stackingPass, hk, hs]
        · simp [stackingPass, hn.kind, hk, hreserve, hs]
    | _ =>
      refine ⟨t, t, n, n', .proceed, ?_, ?_, ⟨rfl, hfault⟩, hn⟩
      · simp only [stackingPass, hk]
      · simp only [stackingPass, hn.kind, hk]
  leaf {s t a' n} hs hn := by
    obtain ⟨rfl, hfault⟩ := hs
    refine ⟨t, n, ?_, hn, rfl, hfault⟩
    obtain ⟨control, hk⟩ := NodeKind.exists_of_control hn.tag
    simp [stackingPass, hk, enterControl, hn.omitted, hfault]
  leave {s t} w w' {n n' f g} hs hn hbelow := by
    obtain ⟨rfl, hfault⟩ := hs
    have hspacing : c'.spacing = c.spacing := by rw [hc]
    cases hk : n.kind with
    | system system =>
      cases hsystems : t.systems with
      | nil =>
        refine ⟨t, t, n, n', f, g, .proceed, ?_, ?_, ⟨rfl, hfault⟩, hn, hbelow⟩
        · simp only [stackingPass, hk, leaveSystem, hsystems]
        · simp only [stackingPass, hn.kind, hk, leaveSystem, hsystems]
      | cons stack outer =>
        refine ⟨{ t with systems := outer, collecting := false, shown := [] }, _,
          n.mapKind (.mapSystem fun system =>
            { system with stack := (hideUnseen stack t.shown).stack c.spacing }),
          n'.mapKind (.mapSystem fun system =>
            { system with stack := (hideUnseen stack t.shown).stack c.spacing }),
          f, g, .proceed, ?_, ?_, ⟨rfl, hfault⟩, hn.mapKind fun k => by cases k <;> rfl, hbelow⟩
        · simp only [stackingPass, hk, leaveSystem, hsystems]
        · simp only [stackingPass, hn.kind, hk, leaveSystem, hsystems, hspacing]
    | _ =>
      refine ⟨t, t, n, n', f, g, .proceed, ?_, ?_, ⟨rfl, hfault⟩, hn, hbelow⟩
      · simp only [stackingPass, hk]
      · simp only [stackingPass, hn.kind, hk]

end Stacking

/-- Stacking passes over the root and over pages. -/
theorem stackingPass_enter (c : StackingContext α) {n : Node α}
    (hn : n.tag = .document ∨ n.tag = .page) (s : Stacking α) (a : Option (Node α)) :
    (stackingPass c).enter s a n = (s, n, .proceed) := by
  rw [Node.tag] at hn
  cases hk : n.kind <;> rw [hk] at hn <;> simp_all [stackingPass, NodeKind.tag]

theorem stackingPass_leave (c : StackingContext α) {n : Node α}
    (hn : n.tag = .document ∨ n.tag = .page) (s : Stacking α)
    (w : Node α → Forest (Node α) → Forest (Node α)) (below : Forest (Node α)) :
    (stackingPass c).leave s w n below = (s, n, below, .proceed) := by
  rw [Node.tag] at hn
  cases hk : n.kind <;> rw [hk] at hn <;> simp_all [stackingPass, NodeKind.tag]

namespace Document

/-- What stacking leaves behind follows from its walk. -/
theorem stackStaves_of_run {d : Document α} (hs : Step.stacking.required ≤ d.stage)
    {options : LayoutOptions α} {metrics : GlyphMetrics α} {s : Stacking α} {r : Node α}
    {below : Forest (Node α)} {v : Visit}
    (hrun : d.score.run (stackingPass (d.stackingContext options metrics)) .start =
      (s, .tree r below, v)) : (d.stackStaves options metrics).fault = s.fault ∧
      (d.stackStaves options metrics).marks = [] ∧
      (d.stackStaves options metrics).document.score = .tree r below ∧
      (s.fault = none → (d.stackStaves options metrics).document.stage = .stacked) := by
  rw [stackingContext] at hrun
  rw [Document.stackStaves, Outcome.guarded_of_le hs]
  dsimp only
  rw [hrun]
  cases hfault : s.fault with
  | some f => exact ⟨rfl, rfl, rfl, fun hnone => by cases hnone⟩
  | none => exact ⟨rfl, rfl, rfl, fun _ => rfl⟩

/-- A document of which a pass has changed the nodes only. -/
theorem Shape.of_score {d d₁ : Document α} {D : ScoreDefinition} {r r₁ : Node α}
    {pages pages₁ detached : Forest (Node α)} (hd : d.Shape D r pages detached)
    (h : d.SameTree d₁) (hscore : d₁.score = .tree r₁ pages₁) :
    d₁.Shape D r₁ pages₁ detached := by
  refine ⟨h.wellFormed hd.wellFormed, h.definition.trans hd.definition, ?_⟩
  rw [← first_append_rest d₁.trees, ← Document.score, hscore, h.rest, hd.rest]
  rfl

omit [Scalar α] in
theorem Shape.roots_score {d : Document α} {D : ScoreDefinition} {r : Node α}
    {pages detached : Forest (Node α)} (hd : d.Shape D r pages detached) : d.score.roots = [r] := by
  rw [hd.score]
  rfl

/-- The walk of stacking over a score whose systems are on one page. -/
theorem Shape.run_stackingPass {d : Document α} {D : ScoreDefinition} {r page : Node α}
    {systems detached : Forest (Node α)} (hd : d.Shape D r (.tree page systems) detached)
    (c : StackingContext α) {s : Stacking α} {systems₁ : Forest (Node α)} {v : Visit}
    (hwalk : systems.runWithin (stackingPass c) (some page) (fun f => .tree r (.tree page f)) .start =
      (s, systems₁, v)) : ∃ v', d.score.run (stackingPass c) .start =
        (s, .tree r (.tree page systems₁), v') := by
  have hpage : page.tag = .page := hd.tag_of_mem_pages List.mem_cons_self
  rw [hd.score, Forest.run, Forest.runWithin_tree_of_passed
    (stackingPass_enter c (.inl hd.root_tag)) (stackingPass_leave c (.inl hd.root_tag)),
    Forest.runWithin_tree_of_passed (stackingPass_enter c (.inr hpage))
      (stackingPass_leave c (.inr hpage))]
  dsimp only [id] at hwalk ⊢
  rw [hwalk]
  cases v <;> exact ⟨_, rfl⟩

namespace TwinSystems

variable {d d' : Document α} {systems systems' : Forest (Node α)}

omit [Scalar α] in
theorem content (h : d.TwinSystems T d' systems systems') :
    Forest.Padded (Node.IsSpare T) (Node.Near T) d.content d'.content := by
  obtain ⟨_, _, _, _, hd, -⟩ := h.left
  obtain ⟨_, _, _, _, hd', -⟩ := h.right
  rw [hd.content_eq, hd'.content_eq, Forest.branches_tree, Forest.branches_tree]
  exact h.systems.branches

omit [Scalar α] in
/-- The symbols that control elements are tied to. -/
theorem node? (h : d.TwinSystems T d' systems systems') {a : Handle} (ha : T.symbol a) :
    ∃ n n', d.node? a = some n ∧ d'.node? a = some n' ∧ n.Near T n' ∧ n.tag = .element := by
  obtain ⟨_, _, _, _, hd, -⟩ := h.left
  obtain ⟨_, _, _, _, hd', -⟩ := h.right
  obtain ⟨n, n', hn, hn', hnear, ht, -⟩ := near_node? hd.wellFormed hd'.wellFormed h.content
    (fun _ _ hn ht => hn.handle (Node.not_isFrame (by rw [ht]; decide))) (h.symbols a ha)
  exact ⟨n, n', hn, hn', hnear, ht⟩

/-- Two documents of which a pass has changed the systems only. -/
theorem of_sameTree (h : d.TwinSystems T d' systems systems') {d₁ d₁' : Document α}
    (hd : d.SameTree d₁) (hd' : d'.SameTree d₁') {systems₁ systems₁' : Forest (Node α)}
    (hscore : ∀ r page, d.score = .tree r (.tree page systems) →
      d₁.score = .tree r (.tree page systems₁))
    (hscore' : ∀ r page, d'.score = .tree r (.tree page systems') →
      d₁'.score = .tree r (.tree page systems₁'))
    (hsystems : Forest.Padded (Node.IsSpare T) (Node.Near T) systems₁ systems₁')
    (hstage : d₁'.stage = d₁.stage) : d₁.TwinSystems T d₁' systems₁ systems₁' := by
  obtain ⟨D, r, page, detached, hshape, hid⟩ := h.left
  obtain ⟨D', r', page', detached', hshape', hid'⟩ := h.right
  have hr := hscore r page hshape.score
  have hr' := hscore' r' page' hshape'.score
  exact {
    left := ⟨D, r, page, detached, hshape.of_score hd hr, hid⟩
    right := ⟨D', r', page', detached', hshape'.of_score hd' hr', hid'⟩
    systems := hsystems
    root := by
      have hroot := h.root
      rw [hshape.score, hshape'.score] at hroot
      rw [hr, hr']
      exact hroot
    ids := by
      rw [hd.sameContent.musicIds_eq, hd'.sameContent.musicIds_eq]
      exact h.ids
    definition := hd'.definition.trans (h.definition.trans hd.definition.symm)
    stage := hstage
    symbols := fun a ha => (h.symbols a ha).of_sameMusic hd.sameContent.content }

/-- Two documents after stacking. -/
theorem stackStaves (h : d.TwinSystems T d' systems systems') {options : LayoutOptions α}
    {metrics : GlyphMetrics α} (hok : (d.stackStaves options metrics).fault = none) :
    (d'.stackStaves options metrics).fault = none ∧
      (d'.stackStaves options metrics).marks = (d.stackStaves options metrics).marks ∧
      ∃ systems₁ systems₁', (d.stackStaves options metrics).document.TwinSystems T
        (d'.stackStaves options metrics).document systems₁ systems₁' := by
  have hs := Outcome.required_le_of_guarded hok
  obtain ⟨D, r, page, detached, hshape, -⟩ := h.left
  obtain ⟨D', r', page', detached', hshape', -⟩ := h.right
  obtain ⟨s, t, systems₁, systems₁', v, hwalk, hwalk', hv⟩ := (Stacking.parallel (T := T)
    (show d'.stackingContext options metrics =
      { d.stackingContext options metrics with document := d' } from rfl)
    h.definition fun a ha => h.node? ha).runWithin h.systems (fun _ _ _ => trivial)
    (a := some page) (o := some page') trivial (fun f => .tree r (.tree page f))
    (fun f => .tree r' (.tree page' f)) (s := .start) (t := .start) ⟨rfl, rfl⟩
  obtain ⟨_, hrun⟩ := hshape.run_stackingPass _ hwalk
  obtain ⟨_, hrun'⟩ := hshape'.run_stackingPass _ hwalk'
  obtain ⟨hfault, hmarks, hscore, hstage⟩ := stackStaves_of_run hs hrun
  obtain ⟨hfault', hmarks', hscore', hstage'⟩ := stackStaves_of_run (h.stage ▸ hs) hrun'
  rw [hok] at hfault
  have hpadded : t = s ∧ Forest.Padded (Node.IsSpare T) (Node.Near T) systems₁ systems₁' := by
    cases v with
    | stop =>
      rw [← hfault] at hv
      exact absurd hv.2 (by decide)
    | skipChildren | proceed => exact ⟨hv.1.1, hv.2⟩
  obtain ⟨rfl, hpadded⟩ := hpadded
  refine ⟨hfault'.trans hfault.symm, hmarks'.trans hmarks.symm, systems₁, systems₁',
    h.of_sameTree (d.sameTree_stackStaves options metrics) (d'.sameTree_stackStaves options metrics)
      ?_ ?_ hpadded ((hstage' hfault.symm).trans (hstage hfault.symm).symm)⟩
  · intro r₁ page₁ heq
    rw [hshape.score] at heq
    obtain ⟨rfl, heq, -⟩ := Forest.cons.inj heq
    obtain ⟨rfl, -, -⟩ := Forest.cons.inj heq
    exact hscore
  · intro r₁ page₁ heq
    rw [hshape'.score] at heq
    obtain ⟨rfl, heq, -⟩ := Forest.cons.inj heq
    obtain ⟨rfl, -, -⟩ := Forest.cons.inj heq
    exact hscore'

end TwinSystems

end Document

/-! ### Breaking into pages -/

/-- Two systems that breaking into pages does not tell apart. -/
structure SystemItem.Alike (i i' : SystemItem α) : Prop where
  id : i'.id = i.id
  height : i'.height = i.height
  opensPage : i'.opensPage = i.opensPage

/-- Two planned pages with systems at the same places. -/
structure PagePlan.Alike (p p' : PagePlan α) : Prop where
  tops : p'.systems.map Prod.snd = p.systems.map Prod.snd
  height : p'.height = p.height

namespace PagePlan.Alike

variable {p p' : PagePlan α} (h : p.Alike p')

include h

omit [Scalar α] in
theorem length : p'.systems.length = p.systems.length := by
  simpa using congrArg List.length h.tops

omit [Scalar α] in
theorem isEmpty : p'.systems.isEmpty = p.systems.isEmpty := by
  rw [Bool.eq_iff_iff, List.isEmpty_iff_length_eq_zero, List.isEmpty_iff_length_eq_zero, h.length]

theorem add (spacing : α) {i i' : SystemItem α} (hi : i.Alike i') :
    (p.add spacing i).Alike (p'.add spacing i') := by
  simp only [PagePlan.add]
  rw [h.isEmpty, h.height, hi.height]
  exact ⟨by simp [h.tops], rfl⟩

end PagePlan.Alike

/-- Systems of the same heights are planned onto pages alike. -/
theorem planPages_of_forall₂ (r : PageRules α) {items items' : List (SystemItem α)}
    (h : List.Forall₂ SystemItem.Alike items items') :
    List.Forall₂ PagePlan.Alike (planPages r items) (planPages r items') := by
  have hfold : ∀ {s s' : Paging α}, List.Forall₂ PagePlan.Alike s.complete s'.complete →
      s.current.Alike s'.current →
        List.Forall₂ PagePlan.Alike (items.foldl (Paging.step r) s).finish
          (items'.foldl (Paging.step r) s').finish := by
    induction h with
    | nil =>
      intro s s' hcomplete hcurrent
      show List.Forall₂ _ s.finish s'.finish
      rw [Paging.finish, Paging.finish, hcurrent.isEmpty]
      by_cases hempty : s.current.systems.isEmpty
      · rw [if_pos hempty, if_pos hempty]
        exact hcomplete
      · rw [if_neg hempty, if_neg hempty]
        exact List.rel_append hcomplete (.cons hcurrent .nil)
    | @cons i i' items items' hi _ ih =>
      intro s s' hcomplete hcurrent
      rw [List.foldl_cons, List.foldl_cons]
      have hbreaks : r.breaksBefore s'.current.height i' = r.breaksBefore s.current.height i := by
        rw [PageRules.breaksBefore, PageRules.breaksBefore, hcurrent.height, hi.height, hi.opensPage]
      refine ih ?_ ?_ <;> simp only [Paging.step, hcurrent.isEmpty, hbreaks] <;> split
      · exact List.rel_append hcomplete (.cons hcurrent .nil)
      · exact hcomplete
      · exact PagePlan.Alike.add ⟨rfl, rfl⟩ _ hi
      · exact hcurrent.add _ hi
  exact hfold .nil ⟨rfl, rfl⟩

omit [Scalar α] in
/-- Whether a page break is written before the first measure. -/
theorem Forest.Padded.opensPage {f g : Forest (Node α)}
    (h : Forest.Padded (Node.IsSpare T) (Node.Near T) f g) :
    ((g.roots.takeWhile fun n => n.tag ≠ .measure).any fun n => n.tag = .pageBreak) =
      (f.roots.takeWhile fun n => n.tag ≠ .measure).any fun n => n.tag = .pageBreak := by
  induction h with
  | nil => rfl
  | cons hn _ _ _ ih =>
    rw [Forest.roots, Forest.roots, List.takeWhile_cons, List.takeWhile_cons, hn.tag]
    split
    · rw [List.any_cons, List.any_cons, ih, hn.tag]
    · rfl
  | leaf hn _ ih =>
    rw [Forest.roots, List.takeWhile_cons_of_pos (by rw [hn.tag]; decide), List.any_cons, ih, hn.tag]
    rfl

/-- Related systems, as page breaking sees them. -/
theorem Forest.Padded.systemItems {f g : Forest (Node α)}
    (h : Forest.Padded (Node.IsSpare T) (Node.Near T) f g) (hg : ∀ n ∈ g.roots, n.tag = .system) :
    List.Forall₂ SystemItem.Alike (systemItems f) (systemItems g) := by
  induction h with
  | nil => exact .nil
  | cons hn hbelow _ _ ih =>
    rw [Forest.roots, List.forall_mem_cons] at hg
    refine .cons ⟨hn.id, ?_, hbelow.opensPage⟩ (ih hg.2)
    simp only [SystemItem.ofTree, hn.kind]
  | leaf hn =>
    rw [Forest.roots, List.forall_mem_cons] at hg
    exact absurd (hn.tag.symm.trans hg.1) (by decide)

omit [Scalar α] in
/-- Systems at the same distances below the tops of their pages. -/
theorem Forest.Padded.placeTops {f g : Forest (Node α)}
    (h : Forest.Padded (Node.IsSpare T) (Node.Near T) f g) (hg : ∀ n ∈ g.roots, n.tag = .system)
    (tops : List α) : Forest.Padded (Node.IsSpare T) (Node.Near T) (placeTops tops f)
      (placeTops tops g) := by
  induction h generalizing tops with
  | nil => cases tops <;> exact .nil
  | cons hn hbelow hbeside _ ih =>
    rw [Forest.roots, List.forall_mem_cons] at hg
    cases tops with
    | nil =>
      rw [ScoreLayout.placeTops, ScoreLayout.placeTops]
      · exact .cons hn hbelow hbeside
      all_goals simp
    | cons y tops =>
      exact .cons (hn.mapKind fun k => by cases k <;> rfl) hbelow (ih hg.2 tops)
  | leaf hn =>
    rw [Forest.roots, List.forall_mem_cons] at hg
    exact absurd (hn.tag.symm.trans hg.1) (by decide)

/-- Pages made of related systems. -/
theorem PagesOf.padded {used : List String} {k : Nat} {plans : List (PagePlan α)}
    {systems pages : Forest (Node α)} (h : PagesOf used k plans systems pages)
    {plans' : List (PagePlan α)} {systems' pages' : Forest (Node α)}
    (h' : PagesOf used k plans' systems' pages') (hplans : List.Forall₂ PagePlan.Alike plans plans')
    (hsystems : Forest.Padded (Node.IsSpare T) (Node.Near T) systems systems')
    (htags : ∀ n ∈ systems'.roots, n.tag = .system) :
    Forest.Padded (Node.IsSpare T) (Node.Near T) pages pages' := by
  induction h generalizing plans' systems' pages' with
  | nil =>
    cases hplans
    cases h'
    exact .nil
  | @cons used k p plans taken systems pages i hp htaken _ ih =>
    cases hplans with
    | @cons _ p' _ plans' hpp hplans =>
      cases h' with
      | @cons _ _ _ _ taken' systems' pages' i' hp' htaken' h' =>
        rw [Forest.roots_append, List.forall_mem_append] at htags
        have hplain : ∀ n ∈ taken'.roots, ¬ n.IsSpare T := fun n hn hs =>
          absurd (hs.tag.symm.trans (htags.1 n hn)) (by decide)
        obtain ⟨f₁, f₂, heq, h₁, h₂⟩ := hsystems.exists_append
        have hlength : taken.roots.length = f₁.roots.length := by
          rw [(h₁.roots hplain).length_eq]
          have hl := congrArg List.length htaken
          have hl' := congrArg List.length htaken'
          simp only [List.length_map, PagePlan.nodes] at hl hl'
          rw [hl, hl', hpp.length]
        obtain ⟨rfl, rfl⟩ := Forest.append_inj heq hlength
        rw [hpp.height, hpp.tops]
        exact .cons (Node.near_new i i' _ (.inl rfl)) (h₁.placeTops htags.1 _)
          (ih h' hplans h₂ htags.2)

namespace Document

namespace TwinSystems

variable {d d' : Document α} {systems systems' : Forest (Node α)}
  (h : d.TwinSystems T d' systems systems')

include h

omit [Scalar α] in
theorem tag_of_mem_systems : ∀ n ∈ systems'.roots, n.tag = .system := by
  obtain ⟨_, _, _, _, hd', -⟩ := h.right
  intro n hn
  exact hd'.tag_of_mem_systems (by rwa [Forest.branches_tree])

omit [Scalar α] in
theorem ids_perm : d'.ids.Perm d.ids := by
  obtain ⟨_, r, page, _, hd, hid⟩ := h.left
  obtain ⟨_, r', page', _, hd', hid'⟩ := h.right
  have hroot := h.root
  rw [hd.roots_score, hd'.roots_score, List.forall₂_cons] at hroot
  have hsystems : systems.roots.map Node.id = systems'.roots.map Node.id :=
    map_eq_of_forall₂ (fun _ _ hn => hn.id.symm) (h.systems.roots fun n hn hs =>
      absurd (hs.tag.symm.trans (h.tag_of_mem_systems n hn)) (by decide))
  have hframe : ((r' :: [page']) ++ systems'.roots).map Node.id =
      ((r :: [page]) ++ systems.roots).map Node.id := by
    rw [List.map_append, List.map_append, hsystems]
    simp only [List.map_cons, hroot.1.id, hid, hid']
  refine hd'.ids_perm.trans (.trans ?_ hd.ids_perm.symm)
  rw [Forest.branches_tree, Forest.branches_tree]
  exact hframe ▸ h.ids.append_left _

/-- Two documents after breaking into pages. -/
theorem breakPages {options : LayoutOptions α} (hok : (d.breakPages options).fault = none) :
    (d'.breakPages options).fault = none ∧
      (d'.breakPages options).marks = (d.breakPages options).marks ∧
      (d.breakPages options).document.Twin T (d'.breakPages options).document := by
  have hs := Outcome.required_le_of_guarded hok
  obtain ⟨D, r, page, detached, hd, hid⟩ := h.left
  obtain ⟨D', r', page', detached', hd', hid'⟩ := h.right
  obtain ⟨pages, d₁, hok₁, hd₁, hpages, hstage⟩ := hd.exists_breakPages hid hs
  obtain ⟨pages', d₁', hok₁', hd₁', hpages', hstage'⟩ := hd'.exists_breakPages hid' (h.stage ▸ hs)
  have hitems := h.systems.systemItems h.tag_of_mem_systems
  have hpadded := hpages.padded (hpages'.perm h.ids_perm)
    (planPages_of_forall₂ options.pageRules hitems) h.systems h.tag_of_mem_systems
  have hmarks : Shape.pageMarks options systems' = Shape.pageMarks options systems := by
    rw [Shape.pageMarks, Shape.pageMarks]
    generalize systemItems systems = items at hitems ⊢
    generalize systemItems systems' = items' at hitems ⊢
    induction hitems with
    | nil => rfl
    | cons hi _ ih =>
      rw [List.filter_cons, List.filter_cons, hi.height]
      split
      · rw [List.map_cons, List.map_cons, ih, SystemItem.overflowMark, SystemItem.overflowMark, hi.id]
      · exact ih
  have hcontent : d.SameContent d₁ := hd.sameContent hd₁ (by
    rw [hd.content_eq, Forest.branches_tree]
    exact hpages.branches.branches)
  have hcontent' : d'.SameContent d₁' := hd'.sameContent hd₁' (by
    rw [hd'.content_eq, Forest.branches_tree]
    exact hpages'.branches.branches)
  rw [hok₁, hok₁', hmarks]
  refine ⟨rfl, rfl, ?_⟩
  exact {
    left := hd₁.wellFormed
    right := hd₁'.wellFormed
    score := by
      have hroot := h.root
      rw [hd.roots_score, hd'.roots_score, List.forall₂_cons] at hroot
      show Forest.Padded _ _ d₁.score d₁'.score
      rw [hd₁.score, hd₁'.score]
      exact .cons hroot.1 hpadded .nil
    ids := by
      show d₁'.musicIds.Perm d₁.musicIds
      rw [hcontent.musicIds_eq, hcontent'.musicIds_eq]
      exact h.ids
    definition := hcontent'.definition.trans (h.definition.trans hcontent.definition.symm)
    stage := hstage'.trans hstage.symm
    symbols := fun a ha => (h.symbols a ha).of_sameMusic hcontent.content }

end TwinSystems

end Document

end ScoreLayout
