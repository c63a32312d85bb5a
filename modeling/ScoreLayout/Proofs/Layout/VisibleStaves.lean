import ScoreLayout.Proofs.Layout.FilledScores

/-!
# Systems without their hidden staves

A hidden staff takes no room. The visible staves of a system stand where they would if the hidden ones
had no place at all, and the system is as high and has as many gaps. This holds where the staves are
stacked, and where their gaps are widened to fill a page, in any arithmetic.

## Main definitions

* `StaffStack.withoutHidden`, `Document.withoutHidden` — a system, and a score, in which hidden staves
  have no place.

## Main results

* `StaffStack.withoutHidden_stack`, `StaffStack.withoutHidden_justify` — stacking staves and widening
  their gaps.
* `Document.WellFormed.score_fillPages_withoutHidden` — filling the pages of a score.
-/

namespace ScoreLayout

variable {α : Type}

namespace StaffStack

/-- The stack without the places of hidden staves. -/
def withoutHidden (s : StaffStack α) : StaffStack α :=
  { s with staves := s.staves.filter fun slot => ¬ slot.hidden }

theorem gapCount_withoutHidden (s : StaffStack α) : s.withoutHidden.gapCount = s.gapCount := by
  rw [gapCount, withoutHidden, List.filter_filter]
  simp only [Bool.and_self]
  rfl

variable [Scalar α]

/-- Placing only the visible staves. -/
theorem placeFrom_filter (spacing : α) : (slots : List (StaffSlot α)) → (first : Bool) → (y : α) →
    placeFrom spacing (slots.filter fun slot => ¬ slot.hidden) first y =
      ((placeFrom spacing slots first y).1.filter fun slot => ¬ slot.hidden,
        (placeFrom spacing slots first y).2)
  | [], _, _ => rfl
  | s :: slots, first, y => by
      by_cases hs : s.hidden
      · rw [List.filter_cons_of_neg (by simp [hs]), placeFrom_filter spacing slots first y, placeFrom,
          if_pos hs, List.filter_cons_of_neg (by simp [hs])]
      · rw [List.filter_cons_of_pos (by simp [hs]), placeFrom, placeFrom, if_neg hs, if_neg hs]
        dsimp only
        rw [placeFrom_filter spacing slots false, List.filter_cons_of_pos (by simp [hs])]

theorem withoutHidden_stack (s : StaffStack α) (spacing : α) :
    (s.stack spacing).withoutHidden = s.withoutHidden.stack spacing := by
  rw [withoutHidden, withoutHidden, stack, stack, placeFrom_filter]

/-- Moving only the visible staves apart. -/
theorem shiftFrom_filter (perGap : α) : (slots : List (StaffSlot α)) → (first : Bool) →
    (shift : α) → shiftFrom perGap (slots.filter fun slot => ¬ slot.hidden) first shift =
      ((shiftFrom perGap slots first shift).1.filter fun slot => ¬ slot.hidden,
        (shiftFrom perGap slots first shift).2)
  | [], _, _ => rfl
  | s :: slots, first, shift => by
      by_cases hs : s.hidden
      · rw [List.filter_cons_of_neg (by simp [hs]), shiftFrom_filter perGap slots first, shiftFrom,
          if_pos (.inl hs), hs, Bool.and_true, List.filter_cons_of_neg (by simp)]
      · rw [List.filter_cons_of_pos (by simp [hs]), shiftFrom, shiftFrom, Bool.eq_false_iff.2 hs,
          Bool.and_false, shiftFrom_filter perGap slots false, List.filter_cons_of_pos (by simp)]

theorem withoutHidden_justify (s : StaffStack α) (perGap : α) :
    (s.justify perGap).withoutHidden = s.withoutHidden.justify perGap := by
  rw [withoutHidden, withoutHidden, justify, justify, shiftFrom_filter]

end StaffStack

/-! ### Scores -/

/-- The node without the places of hidden staves, if it is a system. -/
def Node.withoutHidden (n : Node α) : Node α :=
  n.mapKind (.mapSystem fun s => { s with stack := s.stack.withoutHidden })

theorem Node.kind_withoutHidden_of_system {n : Node α} {s : ScoreSystem α} (hn : n.kind = .system s) :
    n.withoutHidden.kind = .system { s with stack := s.stack.withoutHidden } := by
  rw [Node.withoutHidden, Node.mapKind, hn]
  rfl

theorem Node.withoutHidden_of_tag_ne {n : Node α} (hn : n.tag ≠ .system) : n.withoutHidden = n := by
  obtain ⟨handle, id, kind, box, dirty, layout⟩ := n
  cases kind <;> first | rfl | exact absurd rfl hn

namespace LayoutOptions

variable [Scalar α] (o : LayoutOptions α)

omit [Scalar α] in
theorem staffGaps_withoutHidden (n : Node α) :
    Document.staffGaps n.withoutHidden = Document.staffGaps n := by
  rw [Document.staffGaps, Document.staffGaps]
  cases hn : n.kind with
  | system s =>
    rw [Node.kind_withoutHidden_of_system hn]
    exact StaffStack.gapCount_withoutHidden s.stack
  | _ => rw [Node.withoutHidden_of_tag_ne (by rw [Node.tag, hn]; simp [NodeKind.tag]), hn]

theorem spreadNode_withoutHidden (share shift : α) (n : Node α) :
    o.spreadNode share shift n.withoutHidden = (o.spreadNode share shift n).withoutHidden := by
  obtain ⟨handle, id, kind, box, dirty, layout⟩ := n
  cases kind with
  | system s =>
    simp only [spreadNode, Node.withoutHidden, Node.mapKind, NodeKind.mapSystem,
      StaffStack.withoutHidden_justify]
  | _ => rfl

theorem spreadRoots_withoutHidden (share : α) : (first : Bool) → (shift : α) →
    (f : Forest (Node α)) → o.spreadRoots share first shift (f.map Node.withoutHidden) =
      ((o.spreadRoots share first shift f).1,
        (o.spreadRoots share first shift f).2.map Node.withoutHidden)
  | _, _, .nil => rfl
  | first, shift, .cons n below siblings => by
      rw [Forest.map, spreadRoots, spreadRoots, staffGaps_withoutHidden, spreadNode_withoutHidden]
      dsimp only
      rw [spreadRoots_withoutHidden share false _ siblings]
      rfl

theorem gapWeight_withoutHidden (systems : List (Node α)) :
    Document.gapWeight o (systems.map Node.withoutHidden) = Document.gapWeight o systems := by
  rw [Document.gapWeight, Document.gapWeight, List.length_map, List.foldl_map]
  simp only [staffGaps_withoutHidden]

theorem spreadTree_withoutHidden (available : α) (isLast : Bool) {n : Node α} (hn : n.tag = .page)
    (f : Forest (Node α)) :
    o.spreadTree available isLast (n.withoutHidden, f.map Node.withoutHidden) =
      ((o.spreadTree available isLast (n, f)).1.withoutHidden,
        (o.spreadTree available isLast (n, f)).2.map Node.withoutHidden) := by
  obtain ⟨p, hp⟩ := NodeKind.exists_of_page hn
  have hpage (k : Node α) (hk : k.kind = .page p) : k.withoutHidden = k :=
    Node.withoutHidden_of_tag_ne (by rw [Node.tag, hk]; simp [NodeKind.tag])
  rw [hpage n hp, spreadTree, spreadTree]
  dsimp only
  rw [hp]
  dsimp only [NodeKind.page?]
  rw [Forest.roots_map]
  have hspreads : o.Spreads available isLast p (f.roots.map Node.withoutHidden) ↔
      o.Spreads available isLast p f.roots := by
    rw [Spreads, Spreads, gapWeight_withoutHidden]
  by_cases h : o.Spreads available isLast p f.roots
  · rw [if_pos h, if_pos (hspreads.2 h), gapWeight_withoutHidden, spreadRoots_withoutHidden]
    dsimp only
    rw [Node.withoutHidden_of_tag_ne]
    rw [Node.tag, Node.mapKind, hp]
    simp [NodeKind.mapPage, NodeKind.tag]
  · rw [if_neg h, if_neg (mt hspreads.1 h)]
    dsimp only
    rw [hpage n hp]

theorem spreadPages_withoutHidden {pages : Forest (Node α)} (h : ∀ n ∈ pages.roots, n.tag = .page) :
    o.spreadPages (pages.map Node.withoutHidden) = (o.spreadPages pages).map Node.withoutHidden := by
  have htrees (available : α) : (pages : Forest (Node α)) → (∀ n ∈ pages.roots, n.tag = .page) →
      o.spreadTrees available (pages.map Node.withoutHidden) =
        (o.spreadTrees available pages).map Node.withoutHidden := by
    intro pages hpages
    induction pages with
    | nil => rfl
    | cons page systems pages _ ih =>
      rw [Forest.roots, List.forall_mem_cons] at hpages
      rw [Forest.map, spreadTrees, spreadTrees, Forest.roots_map, List.isEmpty_map,
        o.spreadTree_withoutHidden available _ hpages.1, ih hpages.2]
      rfl
  rw [spreadPages, spreadPages]
  split_ifs
  · exact htrees _ pages h
  · rfl

end LayoutOptions

namespace Document

variable [Scalar α] {d : Document α}

omit [Scalar α] in
/-- The document with a score in which hidden staves have no place. -/
def withoutHidden (d : Document α) : Document α := d.withScore (d.score.map Node.withoutHidden)

theorem sameTree_withoutHidden (d : Document α) : d.SameTree d.withoutHidden :=
  d.sameTree_withScore (.map_right _ fun _ _ => ⟨rfl, rfl, NodeKind.bare_mapSystem ..⟩)

/-- Filling pages leaves the visible staves of a score where it would leave them if the hidden ones
had no place. -/
theorem WellFormed.score_fillPages_withoutHidden (hd : d.WellFormed)
    (hs : Step.verticalFilling.required ≤ d.stage) (o : LayoutOptions α) :
    (d.withoutHidden.fillPages o).document.score =
      (d.fillPages o).document.score.map Node.withoutHidden := by
  obtain ⟨r, pages, hshape⟩ := hd.exists_shape
  have hscore : d.withoutHidden.score =
      .tree r.withoutHidden (pages.map Node.withoutHidden) := by
    rw [withoutHidden, score_withScore (.map_right (R := fun _ _ => True) _ fun _ _ => trivial),
      hshape.score]
    rfl
  have hshape' : d.withoutHidden.Shape d.definition r.withoutHidden (pages.map Node.withoutHidden)
      d.trees.rest := by
    refine ⟨d.sameTree_withoutHidden.wellFormed hd, rfl, ?_⟩
    have htrees : d.withoutHidden.trees = d.withoutHidden.score ++ d.trees.rest := by
      rw [hscore, withoutHidden, withScore, hshape.score]
      rfl
    rw [htrees, hscore]
    rfl
  obtain ⟨d₁, hok, hd₁, -⟩ := hshape.fillPages_eq hs o
  obtain ⟨d₂, hok', hd₂, -⟩ := hshape'.fillPages_eq hs o
  rw [hok, hok']
  dsimp only [Outcome.done]
  rw [hd₁.score, hd₂.score, o.spreadPages_withoutHidden fun n hn => hshape.tag_of_mem_pages hn]
  rfl

end Document

end ScoreLayout
