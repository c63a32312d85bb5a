import ScoreLayout.Proofs.Layout.Shape

/-!
# What spacing makes of a score

Measures do not stand inside one another, so spacing treats each of them by itself: where it meets
no fault, it changes every node of the score in one and the same way.

## Main definitions

* `Node.spaced` — a node with ideal positions.

## Main results

* `Document.WellFormed.space_eq` — the document that spacing leaves.
-/

namespace ScoreLayout

variable {α : Type} [Scalar α]

/-- A node with ideal positions, if it is a measure that can be given some. -/
def Node.spaced (p : Spacing α) (n : Node α) : Node α :=
  match n.kind with
  | .measure m =>
    match m.grid.space p with
    | .ok grid => { n with kind := .measure { m with grid } }
    | .error _ => n
  | _ => n

theorem Node.spaced_of_tag_ne {p : Spacing α} {n : Node α} (hn : n.tag ≠ .measure) :
    n.spaced p = n := by
  rw [Node.tag] at hn
  rw [spaced]
  split
  · rename_i m hm
    exact absurd (by rw [hm]; rfl) hn
  · rfl

omit [Scalar α] in
/-- No measure stands inside another. -/
def Forest.NoNested (f : Forest (Node α)) : Prop :=
  ∀ n below, Forest.HasTree n below f → n.tag = .measure → ∀ m ∈ below.toList, m.tag ≠ .measure

omit [Scalar α] in
theorem Document.WellFormed.noNested {d : Document α} (hd : d.WellFormed) : d.trees.NoNested := by
  intro n below htree hn m hm
  have hdepth : 4 ≤ m.tag.depth := by
    refine Forest.forall_of_links (P := fun m => 4 ≤ m.tag.depth) (fun m hm => ?_)
      (fun a b hl ha => ?_) m hm
    · have hlt := NodeKind.depth_lt_of_accepts (hd.accepts n m
        (htree.mem_links (Forest.link_of_mem_roots (some n) hm) none)) (by rw [← Node.tag, hn]; decide)
      rw [← Node.tag, hn] at hlt
      exact hlt
    · exact Nat.le_trans ha (NodeKind.depth_le_of_accepts (hd.accepts a b
        (htree.mem_links (Forest.mem_links_of_mem_links_none hl (some n)) none)))
  intro hm
  rw [hm] at hdepth
  exact absurd hdepth (by decide)

/-- The walk over a part of the score meets a fault and stops, or gives every measure its ideal
positions. -/
theorem spacingPass_runWithin (p : Spacing α) : (f : Forest (Node α)) → f.NoNested →
    (parent : Option (Node α)) → (around : Forest (Node α) → Forest (Node α)) →
      ((f.runWithin (spacingPass p) parent around none).1.isSome ∧
          (f.runWithin (spacingPass p) parent around none).2.2 = .stop) ∨
        (f.runWithin (spacingPass p) parent around none = (none, f.map (Node.spaced p), .proceed) ∧
          ∀ n ∈ f.toList, ∀ m, n.kind = .measure m → ∃ grid, m.grid.space p = .ok grid)
  | .nil, _, _, _ => .inr ⟨rfl, fun _ hn => absurd hn List.not_mem_nil⟩
  | .cons n below siblings, hf, parent, around => by
      have hbelow : below.NoNested := fun m under h => hf m under (.deeper siblings h)
      have hsiblings : siblings.NoNested := fun m under h => hf m under (.beside n below h)
      rw [Forest.runWithin, Forest.map, Forest.toList]
      by_cases htag : n.tag = .measure
      · obtain ⟨m, hm⟩ := NodeKind.exists_of_measure htag
        have hinner := hf n below (.here siblings) htag
        cases hspace : m.grid.space p with
        | error f =>
          have henter : (spacingPass p).enter none parent n = (some (.grid f), n, .stop) := by
            simp only [spacingPass, hm, hspace]
          rw [henter]
          exact .inl ⟨rfl, rfl⟩
        | ok grid =>
          have henter : (spacingPass p).enter none parent n =
              (none, n.spaced p, .skipChildren) := by
            simp only [spacingPass, Node.spaced, hm, hspace]
          have hsame : below.map (Node.spaced p) = below :=
            Forest.map_eq_self fun m hm => Node.spaced_of_tag_ne (hinner m hm)
          rw [henter, hsame]
          obtain ⟨hfault, hstop⟩ | ⟨hrun, hok⟩ := spacingPass_runWithin p siblings hsiblings parent
            fun f => around (.cons (n.spaced p) below f)
          · exact .inl ⟨hfault, hstop⟩
          · refine .inr ⟨by dsimp only; rw [hrun], ?_⟩
            rw [List.forall_mem_cons, List.forall_mem_append]
            refine ⟨fun m' hm' => ?_, fun m' hm' k hk => ?_, hok⟩
            · obtain rfl : m = m' := NodeKind.measure.inj (hm.symm.trans hm')
              exact ⟨grid, hspace⟩
            · exact absurd (by rw [Node.tag, hk]; rfl) (hinner m' hm')
      · have henter : (spacingPass p).enter none parent n = (none, n.spaced p, .proceed) := by
          rw [Node.spaced_of_tag_ne htag]
          simp only [spacingPass]
          split
          · rename_i m hm
            exact absurd (by rw [Node.tag, hm]; rfl) htag
          · rfl
        rw [henter]
        obtain ⟨hfault, hstop⟩ | ⟨hrun, hok⟩ := spacingPass_runWithin p below hbelow
          (some (n.spaced p)) fun f => around (.cons (n.spaced p) f siblings)
        · left
          dsimp only
          generalize below.runWithin (spacingPass p) (some (n.spaced p))
            (fun f => around (.cons (n.spaced p) f siblings)) none = ran at hfault hstop
          obtain ⟨s, children, v⟩ := ran
          obtain rfl : v = .stop := hstop
          exact ⟨hfault, rfl⟩
        · dsimp only
          rw [hrun]
          obtain ⟨hfault, hstop⟩ | ⟨hrun', hok'⟩ := spacingPass_runWithin p siblings hsiblings parent
            fun f => around (.cons (n.spaced p) (below.map (Node.spaced p)) f)
          · exact .inl ⟨hfault, hstop⟩
          · refine .inr ⟨?_, ?_⟩
            · simp only [spacingPass] at hrun' ⊢
              rw [hrun']
            · rw [List.forall_mem_cons, List.forall_mem_append]
              exact ⟨fun m hm => absurd (by rw [Node.tag, hm]; rfl) htag, hok, hok'⟩

namespace Document

/-- Spacing that meets no fault gives every measure of the score its ideal positions. -/
theorem WellFormed.space_eq {d : Document α} (hd : d.WellFormed) {options : LayoutOptions α}
    (hok : (d.space options).fault = none) :
    d.space options = .done { d.withScore (d.score.map (Node.spaced (options.spacing d.longest)))
      with stage := .spaced } [] ∧
      ∀ n ∈ d.score.toList, ∀ m, n.kind = .measure m →
        ∃ grid, m.grid.space (options.spacing d.longest) = .ok grid := by
  have hnested : d.score.NoNested := fun n below h => by
    obtain ⟨r, pages, detached, htrees, -⟩ := hd.root
    refine hd.noNested n below ?_
    rw [score, htrees] at h
    rw [htrees]
    exact h.append_left detached
  rw [space, Outcome.guarded] at hok ⊢
  split at hok
  · exact absurd hok (by simp [Outcome.failed])
  · obtain ⟨hfault, -⟩ | ⟨hrun, hgrids⟩ :=
      spacingPass_runWithin (options.spacing d.longest) d.score hnested none id
    · rw [← Forest.run] at hfault
      obtain ⟨f, hf⟩ := Option.isSome_iff_exists.1 hfault
      dsimp only at hok
      rw [hf] at hok
      exact absurd hok (by simp [Outcome.failed])
    · rw [← Forest.run] at hrun
      dsimp only
      rw [hrun]
      exact ⟨rfl, hgrids⟩

end Document

end ScoreLayout
