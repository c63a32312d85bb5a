import Mathlib.Data.List.Induction
import ScoreLayout.Proofs.Content

/-!
# Layouts pass by pass

Passes run one after another up to the first fault, so where no fault is met each pass has run on
what the passes before it have left.

## Main results

* `Engine.of_runAll_take` — each pass of a layout that meets no fault.
* `Document.Ready.runAll` — what passes keep, one after another.
* `Document.WellFormed.exists_breakSystems`, `Document.Shape.exists_breakPages` — what breaking
  into systems and then into pages makes of a document.
-/

namespace ScoreLayout

variable {α : Type} [Scalar α]

omit [Scalar α] in
theorem Outcome.of_andThen {o : Outcome α} {next : Document α → Outcome α}
    (h : (o.andThen next).fault = none) : o.fault = none ∧ (next o.document).fault = none ∧
      (o.andThen next).document = (next o.document).document := by
  rw [andThen] at h ⊢
  cases ho : o.fault with
  | none =>
    rw [ho] at h
    exact ⟨rfl, h, rfl⟩
  | some f =>
    rw [ho] at h
    exact absurd (ho.symm.trans h) (by simp)

omit [Scalar α] in
theorem Outcome.done_andThen (d : Document α) (next : Document α → Outcome α) :
    (done d []).andThen next = next d := rfl

omit [Scalar α] in
theorem Outcome.andThen_assoc (o : Outcome α) (next later : Document α → Outcome α) :
    (o.andThen next).andThen later = o.andThen fun d => (next d).andThen later := by
  obtain ⟨d, marks, fault⟩ := o
  cases fault with
  | some f => rfl
  | none =>
    simp only [andThen]
    generalize next d = o
    obtain ⟨d', marks', fault'⟩ := o
    cases fault' with
    | some f => rfl
    | none => simp only [List.append_assoc]

omit [Scalar α] in
/-- A step that has met no fault has found the stage that it needs. -/
theorem Outcome.required_le_of_guarded {step : Step} {d : Document α}
    {run : Document α → Outcome α} (h : (guarded step d run).fault = none) :
    step.required ≤ d.stage := by
  by_contra hlt
  rw [guarded, Step.fault?, if_neg hlt] at h
  exact absurd h (by simp [failed])

omit [Scalar α] in
/-- A step that finds the stage that it needs is run. -/
theorem Outcome.guarded_of_le {step : Step} {d : Document α} (hs : step.required ≤ d.stage)
    (run : Document α → Outcome α) : guarded step d run = run d := by
  rw [guarded, Step.fault?, if_pos hs]

namespace Engine

variable {e : Engine α} {d : Document α} {passes : List LayoutPass}

theorem runAll_concat (e : Engine α) (d : Document α) (passes : List LayoutPass)
    (pass : LayoutPass) :
    e.runAll d (passes ++ [pass]) = (e.runAll d passes).andThen fun d => e.run d pass := by
  rw [runAll, List.foldl_append]
  rfl

theorem runAll_cons (e : Engine α) (d : Document α) (pass : LayoutPass)
    (passes : List LayoutPass) :
    e.runAll d (pass :: passes) = (e.run d pass).andThen fun d => e.runAll d passes := by
  induction passes using List.reverseRecOn with
  | nil =>
    rw [runAll, List.foldl_cons, List.foldl_nil, Outcome.done_andThen, Outcome.andThen]
    obtain ⟨d', marks, fault⟩ := e.run d pass
    cases fault with
    | some f => rfl
    | none => simp only [runAll, List.foldl_nil, Outcome.done, List.append_nil]
  | append_singleton passes later ih =>
    rw [← List.cons_append, runAll_concat, ih, Outcome.andThen_assoc]
    simp only [runAll_concat]

/-- The last of several passes that meet no fault. -/
theorem of_runAll_concat {pass : LayoutPass} (h : (e.runAll d (passes ++ [pass])).fault = none) :
    (e.runAll d passes).fault = none ∧ (e.run (e.runAll d passes).document pass).fault = none ∧
      (e.runAll d (passes ++ [pass])).document =
        (e.run (e.runAll d passes).document pass).document := by
  rw [runAll_concat] at h ⊢
  exact Outcome.of_andThen h

/-- The pass of number `k` of a layout that meets no fault. -/
theorem of_runAll_take {k : Nat} {pass : LayoutPass}
    (hpass : LayoutPass.all.take (k + 1) = LayoutPass.all.take k ++ [pass])
    (h : (e.runAll d (LayoutPass.all.take (k + 1))).fault = none) :
    (e.runAll d (LayoutPass.all.take k)).fault = none ∧
      (e.run (e.runAll d (LayoutPass.all.take k)).document pass).fault = none ∧
      (e.runAll d (LayoutPass.all.take (k + 1))).document =
        (e.run (e.runAll d (LayoutPass.all.take k)).document pass).document := by
  rw [hpass] at h ⊢
  exact of_runAll_concat h

/-- Passes before others have met no fault if all together have met none. -/
theorem fault_of_runAll_append (later : List LayoutPass)
    (h : (e.runAll d (passes ++ later)).fault = none) : (e.runAll d passes).fault = none := by
  induction later using List.reverseRecOn with
  | nil => rwa [List.append_nil] at h
  | append_singleton later pass ih =>
    rw [← List.append_assoc] at h
    exact ih (of_runAll_concat h).1

end Engine

namespace Document

/-- What holds after some passes and is kept by every later one holds after all of them. -/
theorem of_runAll_append {P : Document α → Prop} {e : Engine α} {d : Document α}
    (passes later : List LayoutPass) (h : P (e.runAll d passes).document)
    (hrun : ∀ d, P d → ∀ pass ∈ later, P (e.run d pass).document) :
    P (e.runAll d (passes ++ later)).document := by
  rw [Engine.runAll, List.foldl_append]
  exact foldl_run later hrun h

/-- What passes keep of what they rely on. -/
theorem WellFormed.settled_runAll {d : Document α} (hd : d.WellFormed) (hs : d.Settled)
    (e : Engine α) (passes : List LayoutPass) :
    (e.runAll d passes).document.WellFormed ∧ (e.runAll d passes).document.Settled :=
  foldl_run passes (P := fun d => d.WellFormed ∧ d.Settled)
    (fun _ hd pass _ => ⟨hd.1.run e pass, hd.1.settled_run hd.2 e pass⟩) ⟨hd, hs⟩

/-- Passes keep the content, and what they rely on, whether or not they meet a fault. -/
theorem Ready.runAll {d : Document α} (hd : d.Ready) (e : Engine α) (passes : List LayoutPass) :
    d.SameContent (e.runAll d passes).document ∧ (e.runAll d passes).document.Ready :=
  foldl_run passes (P := fun d' => d.SameContent d' ∧ d'.Ready)
    (fun _ h pass _ => ⟨h.1.trans (h.2.run e pass).1, (h.2.run e pass).2⟩) ⟨.refl d, hd⟩

/-- A score with one page keeps it in every pass that leaves the trees alone. -/
theorem Shape.of_sameTree {d d' : Document α} {D : ScoreDefinition} {r page : Node α}
    {systems detached : Forest (Node α)} (hd : d.Shape D r (.tree page systems) detached)
    (h : d.SameTree d') : ∃ r' page' systems', d'.Shape D r' (.tree page' systems') detached ∧
      page.SameMusic page' ∧ Forest.Forall₂ Node.SameMusic systems systems' := by
  obtain ⟨r', pages', hd'⟩ := (h.wellFormed hd.wellFormed).exists_shape
  have hscore := h.score
  rw [hd.score, hd'.score] at hscore
  cases hscore with
  | cons _ hpages _ =>
    cases hpages with
    | cons hpage hsystems hnil =>
      cases hnil
      refine ⟨r', _, _, ⟨hd'.wellFormed, h.definition.trans hd.definition, ?_⟩, hpage, hsystems⟩
      rw [hd'.trees, h.rest, hd.rest]
      rfl

/-! ### The two breaking passes -/

/-- What breaking into systems makes of a document that has come far enough. -/
theorem WellFormed.exists_breakSystems {d : Document α} (hd : d.WellFormed)
    (hfree : Unreserved d.trees.rest) (hs : .spaced ≤ d.stage) (options : LayoutOptions α)
    (metrics : GlyphMetrics α) : ∃ r page systems d₁ d', d.breakSystems options metrics =
        .done d' ((Shape.systemPlans d.definition options metrics d.content).flatMap
          (overflowMarks options.breakRules d₁)) ∧
      d'.Shape d.definition r (.tree page systems) d.trees.rest ∧ page.id = contentPageId ∧
      SystemsOf options.breakRules (Shape.usedBeforeSystems r d.content d.trees.rest) 1
        (Shape.systemPlans d.definition options metrics d.content) d.content systems ∧
      d₁.WellFormed ∧ (∀ n ∈ d.content.toList, (n.handle, n.id) ∈ d₁.labels) ∧
      d.score.roots = [r] ∧ d'.stage = .systems := by
  obtain ⟨r, pages, hshape⟩ := hd.exists_shape
  obtain ⟨page, systems, d₁, d', hok, hd', hstage, hsystems, -, hid, hd₁, hlabels⟩ :=
    hshape.breakContent hfree options metrics
  have hstep : Step.systemBreaking.fault? d.stage = none := if_pos hs
  refine ⟨r, page, systems, d₁, d', ?_, hd', hid, hsystems, hd₁, hlabels, ?_, hstage⟩
  on_goal 2 => rw [hshape.score, Forest.tree, Forest.roots, Forest.roots]
  rw [Document.breakSystems, Outcome.guarded, hstep]
  dsimp only
  rw [hok]

/-- What breaking into pages makes of a document whose systems all stand on the page of the unbroken
content. -/
theorem Shape.exists_breakPages {d : Document α} {D : ScoreDefinition} {r page : Node α}
    {systems detached : Forest (Node α)} (hd : d.Shape D r (.tree page systems) detached)
    (hid : page.id = contentPageId) {options : LayoutOptions α}
    (hs : Step.pageBreaking.required ≤ d.stage) : ∃ pages d', d.breakPages options =
        .done d' (Shape.pageMarks options systems) ∧ d'.Shape D r pages detached ∧
      PagesOf d.ids 1 (Shape.pagePlans options systems) systems pages ∧ d'.stage = .paginated := by
  have hmem : page ∈ d.score.toList := by
    rw [hd.score]
    simp [Forest.tree, Forest.toList]
  have hd : d.Shape D r (.nil ++ .tree page systems) detached := hd
  obtain ⟨pages, d', hpaginate, hd', hstage, hpages⟩ := hd.paginate options
  refine ⟨pages, d', ?_, hd', hpages, hstage⟩
  rw [Document.breakPages, Outcome.guarded_of_le hs,
    hd.wellFormed.findLive?_eq_some_iff.2 ⟨page, hmem, hid, rfl⟩]
  exact hpaginate

end Document

end ScoreLayout
