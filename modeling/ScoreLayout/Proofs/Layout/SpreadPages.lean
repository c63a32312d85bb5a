import Mathlib.Tactic.Linarith
import ScoreLayout.Proofs.Layout.PageTops
import ScoreLayout.Proofs.Layout.StackedPages

/-!
# Widened gaps

Filling a page widens gaps only: every gap between the visible staves of its systems by one amount,
and every gap between its systems by another. Each system moves down by what has been added above
it, and the last one ends further down by all that has been added.

## Main definitions

* `distances` — the distances between neighbours.
* `StaffStack.Widened` — a stack with wider gaps between its visible staves.
* `Node.Widened` — a system that stands elsewhere, with wider gaps between its visible staves.

## Main results

* `StaffStack.widened_justify` — widening the gaps of a stack does nothing else.
* `LayoutOptions.fst_spreadRoots` — what is added to the height of a page.
* `LayoutOptions.widens_spreadRoots` — the systems of a page that is filled.
-/

namespace ScoreLayout

variable {K : Type} [ExactField K]

/-- The distances between neighbours, each from the lower end of one to the upper end of the
next. -/
def distances {β : Type} (top bottom : β → K) (l : List β) : List K :=
  l.zipWith (fun a b => top b - bottom a) l.tail

theorem distances_cons_cons {β : Type} (top bottom : β → K) (a b : β) (l : List β) :
    distances top bottom (a :: b :: l) = (top b - bottom a) :: distances top bottom (b :: l) := rfl

/-! ### Staves -/

/-- A staff further down. -/
def StaffSlot.moved (s : StaffSlot K) (shift : K) : StaffSlot K := { s with y := s.y + shift }

theorem StaffSlot.top_moved (s : StaffSlot K) (shift : K) : (s.moved shift).top = s.top + shift :=
  add_sub_right_comm ..

theorem StaffSlot.bottom_moved (s : StaffSlot K) (shift : K) :
    (s.moved shift).bottom = s.bottom + shift := by
  rw [StaffSlot.bottom, StaffSlot.bottom, StaffSlot.moved]
  ring

@[simp]
theorem StaffSlot.hidden_moved (s : StaffSlot K) (shift : K) :
    (s.moved shift).hidden = s.hidden := rfl

namespace StaffStack

/-- The staves that are not hidden. -/
def visible (s : StaffStack K) : List (StaffSlot K) := s.staves.filter fun slot => ¬ slot.hidden

/-- The distances between visible staves. -/
def gaps (s : StaffStack K) : List K := distances StaffSlot.top StaffSlot.bottom s.visible

/-- Two states of one stack, where every gap between visible staves is wider in the second, by the
same amount, and the first visible staff is in its place. -/
structure Widened (perGap : K) (s s' : StaffStack K) : Prop where
  staves : List.Forall₂ (fun a b => b = { a with y := b.y }) s.staves s'.staves
  first : s'.visible.head?.map StaffSlot.top = s.visible.head?.map StaffSlot.top
  gaps : s'.gaps = s.gaps.map (· + perGap)

/-- Moving staves changes nothing but their places. -/
theorem forall₂_moved_shiftFrom (perGap : K) : (slots : List (StaffSlot K)) → (first : Bool) →
    (shift : K) → List.Forall₂ (fun a b => b = { a with y := b.y }) slots
      (shiftFrom perGap slots first shift).1
  | [], _, _ => .nil
  | slot :: rest, first, shift => by
      rw [shiftFrom]
      exact .cons rfl (forall₂_moved_shiftFrom perGap rest _ _)

theorem fst_shiftFrom_of_hidden (perGap : K) {slot : StaffSlot K} (hslot : slot.hidden)
    (rest : List (StaffSlot K)) (first : Bool) (shift : K) :
    (shiftFrom perGap (slot :: rest) first shift).1 =
      slot.moved shift :: (shiftFrom perGap rest first shift).1 := by
  have hfirst : (first && slot.hidden) = first := by rw [hslot, Bool.and_true]
  rw [shiftFrom]
  dsimp only
  rw [if_pos (.inl hslot), hfirst]
  rfl

theorem fst_shiftFrom_of_visible (perGap : K) {slot : StaffSlot K} (hslot : ¬ slot.hidden)
    (rest : List (StaffSlot K)) (first : Bool) {shift shift' : K}
    (hshift : (if first then shift else shift + perGap) = shift') :
    (shiftFrom perGap (slot :: rest) first shift).1 =
      slot.moved shift' :: (shiftFrom perGap rest false shift').1 := by
  have hmoved : (if slot.hidden = true ∨ first = true then shift else shift + perGap) = shift' := by
    simpa [hslot] using hshift
  have hfirst : (first && slot.hidden) = false := by
    rw [Bool.eq_false_iff.2 hslot, Bool.and_false]
  rw [shiftFrom]
  dsimp only
  rw [hmoved, hfirst]
  rfl

/-- Visible staves behind one that has been moved by `shift`. -/
theorem distances_shiftFrom (perGap : K) : (slots : List (StaffSlot K)) → (a : StaffSlot K) →
    (shift : K) → distances StaffSlot.top StaffSlot.bottom (a.moved shift ::
        (shiftFrom perGap slots false shift).1.filter fun slot => ¬ slot.hidden) =
      (distances StaffSlot.top StaffSlot.bottom
        (a :: slots.filter fun slot => ¬ slot.hidden)).map (· + perGap)
  | [], _, _ => rfl
  | slot :: rest, a, shift => by
      by_cases hhidden : slot.hidden
      · rw [fst_shiftFrom_of_hidden perGap hhidden,
          List.filter_cons_of_neg (by simpa using hhidden),
          List.filter_cons_of_neg (by simpa using hhidden)]
        exact distances_shiftFrom perGap rest a shift
      · have hgap : (slot.moved (shift + perGap)).top - (a.moved shift).bottom =
            slot.top - a.bottom + perGap := by
          rw [StaffSlot.top_moved, StaffSlot.bottom_moved]
          ring
        rw [fst_shiftFrom_of_visible perGap hhidden rest false rfl, if_neg Bool.false_ne_true,
          List.filter_cons_of_pos (by simpa using hhidden),
          List.filter_cons_of_pos (by simpa using hhidden), distances_cons_cons,
          distances_cons_cons, List.map_cons, distances_shiftFrom perGap rest, hgap]

/-- Staves of which no visible one has been moved so far. -/
theorem visible_shiftFrom (perGap : K) : (slots : List (StaffSlot K)) →
    (((shiftFrom perGap slots true 0).1.filter fun slot => ¬ slot.hidden).head?.map StaffSlot.top =
        (slots.filter fun slot => ¬ slot.hidden).head?.map StaffSlot.top) ∧
      distances StaffSlot.top StaffSlot.bottom
          ((shiftFrom perGap slots true 0).1.filter fun slot => ¬ slot.hidden) =
        (distances StaffSlot.top StaffSlot.bottom
          (slots.filter fun slot => ¬ slot.hidden)).map (· + perGap)
  | [] => ⟨rfl, rfl⟩
  | slot :: rest => by
      by_cases hhidden : slot.hidden
      · rw [fst_shiftFrom_of_hidden perGap hhidden,
          List.filter_cons_of_neg (by simpa using hhidden),
          List.filter_cons_of_neg (by simpa using hhidden)]
        exact visible_shiftFrom perGap rest
      · rw [fst_shiftFrom_of_visible perGap hhidden rest true rfl, if_pos rfl,
          List.filter_cons_of_pos (by simpa using hhidden),
          List.filter_cons_of_pos (by simpa using hhidden)]
        refine ⟨congrArg some ?_, distances_shiftFrom perGap rest slot 0⟩
        rw [StaffSlot.top_moved, add_zero]

/-- Widening the gaps of a stack does nothing else. -/
theorem widened_justify (s : StaffStack K) (perGap : K) : s.Widened perGap (s.justify perGap) := by
  rw [justify_eq]
  obtain ⟨hfirst, hgaps⟩ := visible_shiftFrom perGap s.staves
  exact ⟨forall₂_moved_shiftFrom perGap s.staves true 0, hfirst, hgaps⟩

end StaffStack

/-! ### Systems -/

/-- Two states of one system, which in the second stands elsewhere, with wider gaps between its
visible staves. -/
def Node.Widened (perGap : K) (n n' : Node K) : Prop :=
  ∃ s y stack, n.kind = .system s ∧ n' = { n with kind := .system { s with y, stack } } ∧
    s.stack.Widened perGap stack

namespace LayoutOptions

variable {o : LayoutOptions K} {share shift : K} {n : Node K}

theorem widened_spreadNode (hn : n.tag = .system) :
    n.Widened (share * o.staffWeight) (o.spreadNode share shift n) := by
  obtain ⟨s, hs⟩ := NodeKind.exists_of_system hn
  refine ⟨s, s.y + shift, s.stack.justify (share * o.staffWeight), hs, ?_,
    s.stack.widened_justify _⟩
  rw [spreadNode, Node.mapKind, hs]
  rfl

theorem top_spreadNode (hn : n.tag = .system) :
    (o.spreadNode share shift n).top = n.top + shift := by
  obtain ⟨s, hs⟩ := NodeKind.exists_of_system hn
  rw [spreadNode, Node.top, Node.top, Node.mapKind, hs]
  rfl

theorem bottom_spreadNode (hn : n.tag = .system) : (o.spreadNode share shift n).bottom =
    n.bottom + (shift + Scalar.ofNat (Document.staffGaps n) * share * o.staffWeight) := by
  obtain ⟨s, hs⟩ := NodeKind.exists_of_system hn
  have hheight : (o.spreadNode share shift n).stackHeight =
      n.stackHeight + s.stack.gapCount * (share * o.staffWeight) := by
    rw [spreadNode, Node.stackHeight, Node.stackHeight, Node.mapKind, hs]
    exact s.stack.height_justify _
  have hcount : (Scalar.ofNat (Document.staffGaps n) : K) = s.stack.gapCount := by
    rw [Document.staffGaps, hs]
    exact Int.cast_natCast _
  rw [Node.bottom, Node.bottom, top_spreadNode hn, hheight, hcount]
  ring

/-- Systems behind one that now ends further down by `shift`. -/
theorem distances_spreadRoots : (f : Forest (Node K)) → (∀ n ∈ f.roots, n.tag = .system) →
    (a a' : Node K) → (shift : K) → a'.bottom = a.bottom + shift →
      distances Node.top Node.bottom (a' :: (o.spreadRoots share false shift f).2.roots) =
          (distances Node.top Node.bottom (a :: f.roots)).map (· + share * o.systemWeight) ∧
        ∀ n ∈ (a' :: (o.spreadRoots share false shift f).2.roots).getLast?,
          ∃ m ∈ (a :: f.roots).getLast?, n.bottom = m.bottom + (o.spreadRoots share false shift f).1
  | .nil, _, a, a', shift, ha => by
      refine ⟨rfl, fun n hn => ⟨a, rfl, ?_⟩⟩
      obtain rfl := Option.mem_some.1 hn
      exact ha
  | .cons b below siblings, htags, a, a', shift, ha => by
      rw [Forest.roots, List.forall_mem_cons] at htags
      obtain ⟨hrest, hlast⟩ := distances_spreadRoots siblings htags.2 b
        (o.spreadNode share (shift + share * o.systemWeight) b) _ (bottom_spreadNode htags.1)
      rw [spreadRoots, Forest.roots]
      dsimp only
      rw [if_neg Bool.false_ne_true, Forest.roots, distances_cons_cons, distances_cons_cons,
        List.map_cons, hrest, top_spreadNode htags.1, ha]
      refine ⟨congrArg (· :: _) (by ring), fun n hn => ?_⟩
      rw [List.getLast?_cons_cons] at hn
      obtain ⟨m, hm, hbottom⟩ := hlast n hn
      exact ⟨m, by rwa [List.getLast?_cons_cons], hbottom⟩

/-- All that is added to the height of a page. -/
theorem fst_spreadRoots (o : LayoutOptions K) (share : K) : (first : Bool) → (shift : K) →
    (f : Forest (Node K)) → (o.spreadRoots share first shift f).1 = shift + share *
      ((f.roots.length - (if first then 1 else 0) : ℕ) * o.systemWeight +
        (f.roots.map Document.staffGaps).sum * o.staffWeight)
  | _, _, .nil => by simp [spreadRoots, Forest.roots]
  | first, shift, .cons n below siblings => by
      have hcast : (Scalar.ofNat (Document.staffGaps n) : K) = Document.staffGaps n :=
        Int.cast_natCast _
      rw [spreadRoots]
      dsimp only
      rw [fst_spreadRoots o share false _ siblings, Forest.roots, hcast]
      cases first
      · simp
        ring
      · simp
        ring

theorem gapWeight_eq (o : LayoutOptions K) (systems : List (Node K)) :
    Document.gapWeight o systems = (systems.length - 1 : ℕ) * o.systemWeight +
      (systems.map Document.staffGaps).sum * o.staffWeight := by
  have hsum (k : ℕ) : systems.foldl (fun n s => n + Document.staffGaps s) k =
      k + (systems.map Document.staffGaps).sum := by
    induction systems generalizing k with
    | nil => rfl
    | cons s systems ih => rw [List.foldl_cons, ih, List.map_cons, List.sum_cons, add_assoc]
  rw [Document.gapWeight, hsum, zero_add]
  exact congrArg₂ (fun x y : K => x * _ + y * _) (Int.cast_natCast _) (Int.cast_natCast _)

/-- A page whose systems share out what is added to its height: the first stays at its place, the
gaps grow, and the last ends where the height does. -/
structure Widens (o : LayoutOptions K) (share : K) (f f' : List (Node K)) : Prop where
  systems : List.Forall₂ (Node.Widened (share * o.staffWeight)) f f'
  first : f'.head?.map Node.top = f.head?.map Node.top
  gaps : distances Node.top Node.bottom f' =
    (distances Node.top Node.bottom f).map (· + share * o.systemWeight)
  last : ∀ n ∈ f'.getLast?, ∃ m ∈ f.getLast?, n.bottom = m.bottom + share * Document.gapWeight o f

theorem widened_spreadRoots (o : LayoutOptions K) (share : K) : (first : Bool) → (shift : K) →
    (f : Forest (Node K)) → (∀ n ∈ f.roots, n.tag = .system) →
      List.Forall₂ (Node.Widened (share * o.staffWeight)) f.roots
        (o.spreadRoots share first shift f).2.roots
  | _, _, .nil, _ => .nil
  | first, shift, .cons n below siblings, htags => by
      rw [Forest.roots, List.forall_mem_cons] at htags
      rw [spreadRoots]
      exact .cons (widened_spreadNode htags.1)
        (widened_spreadRoots o share false _ siblings htags.2)

/-- The systems of a page that is filled. -/
theorem widens_spreadRoots {f : Forest (Node K)} (htags : ∀ n ∈ f.roots, n.tag = .system) :
    o.Widens share f.roots (o.spreadRoots share true 0 f).2.roots := by
  have hsystems := widened_spreadRoots o share true 0 f htags
  have htotal := fst_spreadRoots o share true 0 f
  rw [zero_add, if_pos rfl, ← gapWeight_eq] at htotal
  cases f with
  | nil => exact ⟨hsystems, rfl, rfl, fun n hn => absurd hn (Option.not_mem_none n)⟩
  | cons n below siblings =>
    have hroots := htags
    rw [Forest.roots, List.forall_mem_cons] at hroots
    obtain ⟨hgaps, hlast⟩ := distances_spreadRoots (o := o) siblings hroots.2 n
      (o.spreadNode share 0 n) _ (bottom_spreadNode hroots.1)
    refine ⟨hsystems, congrArg some ?_, hgaps, ?_⟩
    · exact (top_spreadNode hroots.1).trans (add_zero _)
    · rw [← htotal]
      exact hlast

/-- Moving systems leaves what stands in them alone. -/
theorem below_spreadRoots (o : LayoutOptions K) (share : K) : (first : Bool) → (shift : K) →
    (f : Forest (Node K)) → List.Forall₂ (fun t t' => t'.1.handle = t.1.handle ∧ t'.2 = t.2) f.trees
      (o.spreadRoots share first shift f).2.trees
  | _, _, .nil => .nil
  | first, shift, .cons n below siblings => by
      rw [spreadRoots]
      exact .cons ⟨rfl, rfl⟩ (below_spreadRoots o share false _ siblings)

/-! ### Pages -/

variable {available : K} {isLast : Bool} {t : Node K × Forest (Node K)} {p : Page K}

theorem spreads_iff (havailable : 0 < available) {systems : List (Node K)} :
    o.Spreads available isLast p systems ↔ 0 < available - p.contentHeight ∧
      0 < Document.gapWeight o systems ∧
      ¬ (isLast ∧ o.maxVertical ≤ (available - p.contentHeight) / available) := by
  rw [Spreads, ExactField.zero_eq, not_or, not_le, not_le, not_le]
  exact ⟨fun h => ⟨h.1.1, h.2.2, h.2.1⟩, fun h => ⟨⟨h.1, havailable⟩, h.2.2, h.2.1⟩⟩

/-- A page that is filled is as high as what is available. -/
theorem spreadTree_of_spreads (hp : t.1.kind = .page p)
    (h : o.Spreads available isLast p t.2.roots) (htags : ∀ n ∈ t.2.roots, n.tag = .system) :
    (o.spreadTree available isLast t).1 =
        { t.1 with kind := .page { contentHeight := available } } ∧
      ∃ share, 0 ≤ share ∧
        share * Document.gapWeight o t.2.roots = available - p.contentHeight ∧
        o.Widens share t.2.roots (o.spreadTree available isLast t).2.roots := by
  obtain ⟨hfree, -, htotal⟩ := id h
  rw [ExactField.zero_eq, not_or, not_le] at hfree
  rw [ExactField.zero_eq, not_le] at htotal
  have hshare : (available - p.contentHeight) / Document.gapWeight o t.2.roots *
      Document.gapWeight o t.2.roots = available - p.contentHeight :=
    div_mul_cancel₀ _ htotal.ne'
  have hadded := fst_spreadRoots o
    ((available - p.contentHeight) / Document.gapWeight o t.2.roots) true 0 t.2
  rw [zero_add, if_pos rfl, ← gapWeight_eq, hshare] at hadded
  have hpage : t.1.kind.page? = some p := by rw [hp]; rfl
  rw [spreadTree, hpage]
  dsimp only
  rw [if_pos h, ExactField.zero_eq]
  dsimp only
  refine ⟨?_, _, (div_pos hfree.1 htotal).le, hshare, widens_spreadRoots htags⟩
  have hheight : p.contentHeight + (available - p.contentHeight) = available :=
    add_sub_cancel ..
  rw [hadded, Node.mapKind, hp, NodeKind.mapPage, hheight]

theorem spreadTree_of_not_spreads (hp : t.1.kind = .page p)
    (h : ¬ o.Spreads available isLast p t.2.roots) : o.spreadTree available isLast t = t := by
  have hpage : t.1.kind.page? = some p := by rw [hp]; rfl
  rw [spreadTree, hpage]
  exact if_neg h

theorem handle_spreadTree (o : LayoutOptions K) (available : K) (isLast : Bool)
    (t : Node K × Forest (Node K)) : (o.spreadTree available isLast t).1.handle = t.1.handle := by
  rw [spreadTree]
  split
  · rfl
  · split_ifs <;> rfl

theorem below_spreadTree (o : LayoutOptions K) (available : K) (isLast : Bool)
    (t : Node K × Forest (Node K)) :
    List.Forall₂ (fun u u' => u'.1.handle = u.1.handle ∧ u'.2 = u.2) t.2.trees
      (o.spreadTree available isLast t).2.trees := by
  have hrefl : List.Forall₂ (fun u u' : Node K × Forest (Node K) =>
      u'.1.handle = u.1.handle ∧ u'.2 = u.2) t.2.trees t.2.trees :=
    List.forall₂_same.2 fun _ _ => ⟨rfl, rfl⟩
  rw [spreadTree]
  split
  · exact hrefl
  · split_ifs
    · exact below_spreadRoots ..
    · exact hrefl

/-- Every page is filled by itself, and only the last one needs to know that no other comes behind
it. -/
theorem forall₂_spreadTrees (o : LayoutOptions K) (available : K) : (pages : Forest (Node K)) →
    (pages.roots.map Node.handle).Nodup →
    List.Forall₂ (fun t t' => ∃ isLast : Bool,
      (isLast = true ↔ pages.roots.getLast?.map Node.handle = some t.1.handle) ∧
        t' = o.spreadTree available isLast t)
      pages.trees (o.spreadTrees available pages).trees
  | .nil, _ => .nil
  | .cons page systems pages, hnodup => by
      rw [Forest.roots, List.map_cons, List.nodup_cons] at hnodup
      rw [spreadTrees, Forest.roots]
      refine .cons ⟨pages.roots.isEmpty, ?_, rfl⟩ ?_
      · rcases pages.roots.eq_nil_or_concat with hnil | ⟨front, last, hconcat⟩
        · simp [hnil]
        · have hne : last.handle ≠ page.handle := fun heq =>
            hnodup.1 (heq ▸ List.mem_map_of_mem (by simp [hconcat]))
          rw [hconcat, List.concat_eq_append, ← List.cons_append, List.getLast?_concat]
          simp [hne]
      · have hrest := (List.forall₂_and_left pages.trees _).2
          ⟨fun _ ht => ht, forall₂_spreadTrees o available pages hnodup.2⟩
        refine hrest.imp fun t t' h => ?_
        obtain ⟨ht, isLast, hlast, heq⟩ := h
        refine ⟨isLast, hlast.trans ?_, heq⟩
        have hne : pages.roots ≠ [] := by
          rw [← Forest.map_fst_trees]
          exact List.ne_nil_of_mem (List.mem_map_of_mem ht)
        rw [List.getLast?_cons, List.getLast?_eq_some_getLast hne]
        rfl

end LayoutOptions

end ScoreLayout
