import ScoreLayout.Proofs.Layout.Passes
import ScoreLayout.Proofs.Layout.SettledSlots

/-!
# Passes that rearrange

Breaking a score into systems and pages moves its content as it is, and sets horizontal places of
measures. Stacking staves and filling pages change systems and pages. Whatever relates the two states
of a node in all these changes relates the content before such a pass to the content behind it, also
over the last pass where it holds of nodes that get boxes.

## Main definitions

* `Node.Rearrangement` — a relation that these changes of single nodes keep to.

## Main results

* `Document.WellFormed.rearranged_run` — the content before and behind a pass that rearranges.
-/

namespace ScoreLayout

variable {α : Type} [Scalar α]

/-- A relation of nodes that the changes of single nodes keep to. -/
structure Node.Rearrangement (R : Node α → Node α → Prop) : Prop where
  refl : ∀ n, R n n
  trans : ∀ {a b c}, R a b → R b c → R a c
  mapSystem : ∀ n f, R n (n.mapKind (.mapSystem f))
  mapPage : ∀ n f, R n (n.mapKind (.mapPage f))
  place : ∀ n x, R n (n.mapKind (.mapMeasure fun m => { m with x }))

variable {R : Node α → Node α → Prop}

namespace Node.Rearrangement

variable (hR : Rearrangement R)

include hR

omit [Scalar α] in
theorem forall₂_refl (f : Forest (Node α)) : Forest.Forall₂ R f f := .refl fun n _ => hR.refl n

/-! ### Systems and pages -/

theorem placeRoots : (x : α) → (f : Forest (Node α)) → Forest.Forall₂ R f (placeRoots x f)
  | _, .nil => .nil
  | x, .cons n below siblings => by
      rw [ScoreLayout.placeRoots]
      split
      · exact .cons (hR.place n x) (hR.forall₂_refl below) (placeRoots _ siblings)
      · exact .cons (hR.refl n) (hR.forall₂_refl below) (placeRoots x siblings)

theorem systems {r : BreakRules α} {used : List String} {k : Nat} {plans : List (SystemPlan α)}
    {content systems : Forest (Node α)} (h : SystemsOf r used k plans content systems) :
    Forest.Forall₂ R content systems.branches := by
  induction h with
  | nil => exact .nil
  | skip _ _ ih => exact ih
  | cons _ _ _ _ ih => exact (hR.placeRoots 0 _).append ih

end Node.Rearrangement

omit [Scalar α] in
theorem branches_placeTops : (ys : List α) → (f : Forest (Node α)) →
    (placeTops ys f).branches = f.branches
  | y :: ys, .cons n below siblings => by
      rw [placeTops, Forest.branches, Forest.branches, branches_placeTops ys siblings]
  | [], f => by
      rw [placeTops]
      simp
  | _ :: _, .nil => rfl

theorem PagesOf.branches_branches {used : List String} {k : Nat} {plans : List (PagePlan α)}
    {systems pages : Forest (Node α)} (h : PagesOf used k plans systems pages) :
    pages.branches.branches = systems.branches := by
  induction h with
  | nil => rfl
  | cons _ _ _ _ ih =>
    rw [Forest.branches, Forest.branches_append, Forest.branches_append, ih, branches_placeTops]

namespace Document

/-- Two states of one document whose content is related node by node. -/
def Rearranged (R : Node α → Node α → Prop) (d d' : Document α) : Prop :=
  Forest.Forall₂ R d.content d'.content

namespace Rearranged

variable {d d₁ d₂ : Document α}

omit [Scalar α] in
theorem of_score {d' : Document α} (h : Forest.Forall₂ R d.score d'.score) : d.Rearranged R d' :=
  h.branches.branches.branches

omit [Scalar α] in
theorem withScore {score : Forest (Node α)} (h : Forest.Forall₂ R d.score score) :
    d.Rearranged R (d.withScore score) := of_score ((score_withScore h).symm ▸ h)

theorem place (hboxed : ∀ {a b : Node α}, a.Boxed b → R a b) (hd : d.WellFormed)
    (options : LayoutOptions α) (metrics : GlyphMetrics α) :
    d.Rearranged R (d.place options metrics).document := by
  obtain ⟨score, stage, hsame, heq⟩ := hd.exists_place options metrics
  rw [heq]
  exact withScore (hsame.mono fun _ _ => hboxed)

variable (hR : Node.Rearrangement R)

include hR

omit [Scalar α] in
theorem refl (d : Document α) : d.Rearranged R d := hR.forall₂_refl d.content

omit [Scalar α] in
theorem trans (h : d.Rearranged R d₁) (h' : d₁.Rearranged R d₂) : d.Rearranged R d₂ :=
  Forest.Forall₂.trans h h' fun _ _ _ => hR.trans

omit [Scalar α] in
theorem modify (d : Document α) (h : Handle) {f : Node α → Node α}
    (hf : ∀ n ∈ d.trees.toList, n.handle = h → R n (f n)) : d.Rearranged R (d.modify h f) :=
  of_score (forall₂_modify hR.refl d h hf).first

/-! ### Passes -/

theorem stackStaves (d : Document α) (options : LayoutOptions α) (metrics : GlyphMetrics α) :
    d.Rearranged R (d.stackStaves options metrics).document := by
  have hrun (c : StackingContext α) : Forest.Forall₂ R d.score
      (d.score.run (stackingPass c) .start).2.1 := by
    refine Forest.forall₂_run hR.refl (fun _ _ _ => hR.trans) ?_ ?_ _ _
    · intro s parent n
      rw [stackingPass]
      dsimp only
      split
      all_goals exact hR.refl n
    · intro s _ n below
      rw [stackingPass]
      dsimp only
      split
      · refine ⟨?_, hR.forall₂_refl below⟩
        simp only [Stacking.leaveSystem]
        split
        · exact hR.mapSystem n _
        · exact hR.refl n
      · exact ⟨hR.refl n, hR.forall₂_refl below⟩
  rw [Document.stackStaves, Outcome.guarded]
  split
  · exact refl hR d
  · dsimp only
    split
    · exact withScore (hrun _)
    · exact withScore (hrun _)

theorem spreadSystems (options : LayoutOptions α) (share : α) :
    (systems : List (Node α)) → (d : Document α) → (first : Bool) → (shift : α) →
      d.Rearranged R (spreadSystems options share first shift systems d).2
  | [], d, _, _ => refl hR d
  | n :: systems, d, _, _ =>
      (modify hR d n.handle fun n _ _ => hR.mapSystem n _).trans hR
        (spreadSystems options share systems _ false _)

theorem fillPage (d : Document α) (options : LayoutOptions α) (available : α)
    (isLast : Bool) (n : Node α) : d.Rearranged R (d.fillPage options available isLast n) := by
  rw [Document.fillPage]
  split
  · exact refl hR d
  · dsimp only
    split
    · exact refl hR d
    · split
      · exact refl hR d
      · split
        · exact refl hR d
        · exact (spreadSystems hR options _ _ d true 0).trans hR
            (modify hR _ n.handle fun n _ _ => hR.mapPage n _)

theorem spreadPages (options : LayoutOptions α) (available : α) : (pages : List (Node α)) →
    (d : Document α) → d.Rearranged R (d.spreadPages options available pages)
  | [], d => refl hR d
  | n :: pages, d => (fillPage hR d options available pages.isEmpty n).trans hR
      (spreadPages options available pages _)

theorem fillPages (d : Document α) (options : LayoutOptions α) :
    d.Rearranged R (d.fillPages options).document := by
  rw [Document.fillPages, Outcome.guarded]
  split
  · exact refl hR d
  · dsimp only
    split
    · exact spreadPages hR options _ d.pages d
    · exact refl hR d

theorem breakSystems (hd : d.WellFormed) (options : LayoutOptions α) (metrics : GlyphMetrics α) :
    d.Rearranged R (d.breakSystems options metrics).document := by
  rw [Document.breakSystems, Outcome.guarded]
  split
  · exact refl hR d
  obtain ⟨r, pages, hshape⟩ := hd.exists_shape
  obtain ⟨page, system, d₁, hok, hd₁, -⟩ := hshape.unbreak?
  cases hf : d₁.findLive? contentSystemId with
  | some h =>
    obtain ⟨systems, d', hbroken, hd', -, hsystems⟩ :=
      Shape.breakContent_of_unbreak? hok hd₁ (hd₁.id_of_findLive? hf) options metrics
    have hcontent : d'.content = systems.branches := by
      rw [hd'.content_eq, Forest.tree, Forest.branches, Forest.branches, Forest.append_nil]
    rw [hbroken, Rearranged]
    dsimp only [Outcome.done]
    rw [hcontent]
    exact hR.systems hsystems
  | none =>
    obtain ⟨front, page', systems, back, empty, hhandle, hmade, -, hpages⟩ :=
      hd₁.exists_contentSystem hf
    obtain ⟨d', hbroken, hd', -⟩ := breakContent_of_none hok hhandle hmade options metrics
    have hcontent : d'.content = d.content := by
      have hcontent₁ : d₁.content = d.content := by
        rw [hd₁.content_eq]
        simp [Forest.tree, Forest.branches]
      rw [← hcontent₁, hd'.content_eq, hd₁.content_eq]
      rcases hpages with heq | ⟨rfl, rfl, rfl, -⟩
      · rw [heq]
      · rw [Forest.branches_append, Forest.branches, Forest.branches, Forest.append_nil,
          Forest.append_nil]
    rw [hbroken, Rearranged]
    dsimp only [Outcome.done]
    rw [hcontent]
    exact hR.forall₂_refl d.content

theorem breakPages (hd : d.WellFormed) (hs : d.Settled) (options : LayoutOptions α) :
    d.Rearranged R (d.breakPages options).document := by
  rw [Document.breakPages, Outcome.guarded]
  split
  · exact refl hR d
  · rename_i hstep
    split
    · rename_i h hf
      obtain ⟨r, pages, hshape⟩ := hd.exists_shape
      obtain ⟨front, page, systems, rfl, rfl, -⟩ :=
        hshape.exists_of_findLive? hs (Step.ne_built hstep) hf
      obtain ⟨made, d', hok, hd', -, hmade⟩ := hshape.paginate options
      rw [hok, Rearranged]
      dsimp only [Outcome.done]
      rw [hshape.content_eq, hd'.content_eq, Forest.branches_append,
        Forest.branches_append, Forest.branches_append, Forest.branches_append, Forest.tree,
        Forest.branches, Forest.branches, Forest.append_nil, hmade.branches_branches]
      exact hR.forall₂_refl _
    · exact refl hR d

end Rearranged

/-- The content before and behind a pass that rearranges, also where it ends in a fault. -/
theorem WellFormed.rearranged_run {d : Document α} (hd : d.WellFormed) (hs : d.Settled)
    (hR : Node.Rearrangement R) (e : Engine α) {pass : LayoutPass}
    (hpass : pass ∉ [.prepare, .align, .space, .fillLines])
    (hboxed : pass = .place → ∀ {a b : Node α}, a.Boxed b → R a b) :
    d.Rearranged R (e.run d pass).document := by
  cases pass with
  | prepare | align | space | fillLines => simp at hpass
  | breakSystems => exact .breakSystems hR hd e.options e.metrics
  | stackStaves => exact .stackStaves hR d e.options e.metrics
  | breakPages => exact .breakPages hR hd hs e.options
  | fillPages => exact .fillPages hR d e.options
  | place => exact .place (hboxed rfl) hd e.options e.metrics

end Document

end ScoreLayout
