import Mathlib.Order.Bounds.Basic
import ScoreLayout.Proofs.Layout.BlankNodes
import ScoreLayout.Proofs.Layout.StaffBands

/-!
# Containers around their content

A chord, a beam or a tuplet is drawn around what stands in it. Its box is found when placement leaves
it, from the boxes right below it, which may be those of containers again. In exact arithmetic the
outcome does not depend on how containers stand in each other: it is the smallest rectangle around
everything that is drawn anywhere below, and nothing if nothing is drawn there.

Rectangles are ordered by inclusion, so that the smallest one around some others is their least upper
bound.

## Main definitions

* `Forest.drawn` — the bounds of everything in a forest that has an area.
* `Forest.Closed` — a forest in which every container has been left with nothing drawn by itself.
* `Node.Wraps` — a container with the smallest box around what is drawn below it.

## Main results

* `Rect.isLUB_union` — the union of two rectangles with an area is the smallest one around them.
* `Placing.isLUB_contentBounds` — so is what a container is drawn around.
* `Forest.Closed.wraps` — containers of containers.
* `Document.Reachable.wraps_layout` — every container of a score after a layout.
-/

namespace ScoreLayout

/-! ### Containers that are left -/

section Leaving

variable {α : Type} [Scalar α]

/-- A container that has been left, and of which nothing was drawn by itself. -/
def Node.LeftBlank (n : Node α) (below : Forest (Node α)) : Prop :=
  ∃ n₀ : Node α, n₀.box.rect = none ∧ n₀.kind = n.kind ∧ n = Placing.leaveElement n₀ below.roots

/-- Every container of a forest has been left, with nothing drawn by itself. -/
def Forest.Closed (f : Forest (Node α)) : Prop :=
  ∀ n below, HasTree n below f → n.kind.isContainer → n.LeftBlank below

theorem Node.tag_of_isContainer {α : Type} {n : Node α} (h : n.kind.isContainer) :
    n.tag = .element := by
  rw [Node.tag]
  cases hk : n.kind with
  | element => rfl
  | _ => rw [hk] at h; cases h

/-- A symbol takes symbols only. -/
theorem Node.tag_of_accepts_element {α : Type} {n k : Node α} (hn : n.tag = .element)
    (h : n.kind.accepts k.kind) : k.tag = .element := by
  rw [Node.tag] at hn ⊢
  cases hk : n.kind <;> cases hk' : k.kind <;> simp [hk, hk', NodeKind.accepts, NodeKind.tag] at hn h ⊢

namespace Placing

variable {c : PlacingContext α} {s s' : Placing α} {n : Node α} {f f' : Forest (Node α)}

/-- Entering a symbol does not make anything drawn. -/
theorem rect_enterElement (s : Placing α) (h : n.box.rect = none) :
    (s.enterElement n).box.rect = none := by
  rw [enterElement]
  split
  · dsimp only
    split_ifs
    · rfl
    · exact h
  · exact h

theorem kind_leaveElement (n : Node α) (below : List (Node α)) :
    (leaveElement n below).kind = n.kind := by
  rw [leaveElement]
  split <;> rfl

/-- A walk of placement leaves every container with its content. -/
theorem closed_walk {above : Option (Node α)}
    (h : Forest.Completes (placingPass c) above s f s' f') (hf : f.Nested)
    (hno : ∀ n ∈ f.toList, n.tag ≠ .document) (hplaced : s.placed = [])
    (hblank : ∀ n ∈ f.toList, n.kind.isContainer → n.box.rect = none) : f'.Closed := by
  induction h with
  | nil => exact fun _ _ h => by cases h
  | @skip above s s₁ s₂ b b₁ children siblings siblings' henter _ ih =>
    rw [Forest.toList, List.forall_mem_cons, List.forall_mem_append] at hno hblank
    obtain ⟨hplaced₁, hkind₁⟩ := placed_enter (c := c) s above b
    rw [henter] at hplaced₁ hkind₁
    -- only control elements are skipped, and nothing stands below them
    obtain ⟨k, hb⟩ : ∃ k, b.kind = .control k := by
      cases hk : b.kind with
      | control k => exact ⟨k, rfl⟩
      | _ => simp [placingPass, hk] at henter
    obtain rfl := AlignState.eq_nil_of_control hb hf.1
    intro n below htree hn
    cases htree with
    | here =>
      rw [hkind₁, hb] at hn
      cases hn
    | deeper _ h => cases h
    | beside _ _ h => exact ih hf.2.2 hno.2.2 (hplaced₁.trans hplaced) hblank.2.2 n below h hn
  | @walk above s s₁ s₂ s₃ s₄ b b₁ b₂ children siblings children₁ children₂ siblings' whole v henter
      hbelow hleave _ _ ihbelow ihbeside =>
    rw [Forest.toList, List.forall_mem_cons, List.forall_mem_append] at hno hblank
    obtain ⟨hplaced₁, hkind₁⟩ := placed_enter (c := c) s above b
    rw [henter] at hplaced₁ hkind₁
    have hplaced₁ := hplaced₁.trans hplaced
    have hplaced₂ := (placed_eq hbelow hno.2.1).trans hplaced₁
    have htag₁ : b₁.tag = b.tag := congrArg NodeKind.tag hkind₁
    have hplaced₃ := placed_leave (c := c) s₂ whole (htag₁ ▸ hno.1) children₁
    rw [hleave] at hplaced₃
    have hclosed := ihbelow hf.2.1 hno.2.1 hplaced₁ hblank.2.1
    have hrest := ihbeside hf.2.2 hno.2.2 (hplaced₃.trans hplaced₂) hblank.2.2
    obtain ⟨hsame, hleft⟩ : children₂ = children₁ ∧
        (b₂.kind.isContainer → b₂.LeftBlank children₁) := by
      by_cases hb : b.tag = .element
      · obtain ⟨-, rfl, -, -⟩ := enter_of_element hb henter
        obtain ⟨e, hk⟩ := Node.exists_element hb
        dsimp only [placingPass] at hleave
        rw [hkind₁, hk] at hleave
        simp only [Prod.mk.injEq] at hleave
        obtain ⟨-, rfl, rfl, -⟩ := hleave
        have hlatest : children₁.roots.map s₂.latest = children₁.roots :=
          List.map_id'' (fun k => by rw [latest, hplaced₂]; rfl) _
        rw [hlatest]
        refine ⟨rfl, fun hn => ⟨s.enterElement b, rect_enterElement s (hblank.1 ?_),
          (kind_leaveElement _ _).symm, rfl⟩⟩
        rwa [kind_leaveElement, hkind₁] at hn
      · have hkeeps : children₂ = children₁ ∧ b₂.tag = b₁.tag := by
          rw [← htag₁, Node.tag] at hb
          dsimp only [placingPass] at hleave
          cases hk : b₁.kind with
          | element => exact absurd (by rw [hk]; rfl) hb
          | _ =>
            rw [hk] at hleave
            simp only [Prod.mk.injEq] at hleave
            obtain ⟨-, rfl, rfl, -⟩ := hleave
            exact ⟨rfl, rfl⟩
        refine ⟨hkeeps.1, fun hn => absurd (Node.tag_of_isContainer hn) ?_⟩
        rw [hkeeps.2, htag₁]
        exact hb
    subst hsame
    intro n below htree hn
    cases htree with
    | here => exact hleft hn
    | deeper _ h => exact hclosed n below h hn
    | beside _ _ h => exact hrest n below h hn

/-- The same of a whole score. -/
theorem closed_score {r : Node α} {pages : Forest (Node α)}
    (h : Forest.Completes (placingPass c) none .start (.tree r pages) s' f')
    (htag : r.tag = .document) (hf : (Forest.tree r pages).Nested)
    (hblank : ∀ n ∈ (Forest.tree r pages).toList, n.kind.isContainer → n.box.rect = none) :
    f'.Closed := by
  rw [Forest.tree] at h hf hblank
  rw [Forest.toList, List.forall_mem_cons, List.forall_mem_append] at hblank
  cases h with
  | skip henter _ => cases (enter_of_upper (.inl htag) henter).1
  | walk henter hbelow hleave _ hbeside =>
    cases hbeside
    obtain ⟨-, htag₁, -⟩ := enter_of_upper (.inl htag) henter
    obtain ⟨hs₁, -⟩ := placed_enter (c := c) .start none r
    rw [henter] at hs₁
    obtain ⟨rfl, rfl⟩ := leave_of_upper (.inl (htag₁.trans htag)) hleave
    have hno := hf.2.1.ne_document fun k hk => by
      rw [show k.tag = .page from (NodeKind.tag_of_accepts (hf.1 k hk)).1 htag]
      decide
    have hclosed := closed_walk hbelow hf.2.1 hno hs₁ hblank.2.1
    intro n below htree hn
    cases htree with
    | here => cases (htag₁.trans htag).symm.trans (Node.tag_of_isContainer hn)
    | deeper _ h => exact hclosed n below h hn
    | beside _ _ h => cases h

end Placing

omit [Scalar α] in
/-- What moves control elements only leaves what stands right below a symbol as it is. -/
theorem Node.roots_eq_of_reanchored {n : Node α} {below below' : Forest (Node α)}
    (hn : n.tag = .element) (htakes : ∀ k ∈ below'.roots, n.kind.accepts k.kind)
    (h : Forest.Forall₂ Node.Reanchored below below') : below'.roots = below.roots := by
  have hroots := h.roots
  generalize below'.roots = roots', below.roots = roots at htakes hroots
  induction hroots with
  | nil => rfl
  | @cons m m' _ _ hm _ ih =>
    rw [List.forall_mem_cons] at htakes
    have htag := Node.tag_of_accepts_element hn htakes.1
    rw [ih htakes.2, hm.same (by rw [Node.tag, ← hm.kind, ← Node.tag, htag]; decide)]

/-- What moves control elements only leaves containers as they are. -/
theorem Forest.Closed.of_reanchored {f f' : Forest (Node α)} (hf : f.Closed) (hnested : f'.Nested)
    (h : Forest.Forall₂ Node.Reanchored f f') : f'.Closed := by
  intro n' below' htree hn'
  obtain ⟨n, below, hn, hnn, hbelow⟩ := h.flip.hasTree htree
  have htag := Node.tag_of_isContainer hn'
  obtain rfl := hnn.same (by rw [Node.tag, ← hnn.kind, ← Node.tag, htag]; decide)
  have hroots := Node.roots_eq_of_reanchored htag (hnested.of_hasTree htree).1 hbelow.flip
  obtain ⟨n₀, hrect, hkind, heq⟩ := hf n' below hn hn'
  exact ⟨n₀, hrect, hkind, hroots ▸ heq⟩

end Leaving

/-! ### The smallest rectangle -/

variable {K : Type} [ExactField K]

namespace Rect

/-- One rectangle is at most another if it lies inside of it. -/
instance : PartialOrder (Rect K) where
  le a b := (b.x1 ≤ a.x1 ∧ b.y1 ≤ a.y1) ∧ a.x2 ≤ b.x2 ∧ a.y2 ≤ b.y2
  le_refl _ := ⟨⟨le_rfl, le_rfl⟩, le_rfl, le_rfl⟩
  le_trans _ _ _ h h' :=
    ⟨⟨h'.1.1.trans h.1.1, h'.1.2.trans h.1.2⟩, h.2.1.trans h'.2.1, h.2.2.trans h'.2.2⟩
  le_antisymm a b h h' := by
    obtain ⟨⟨hx1, hy1⟩, hx2, hy2⟩ := h
    obtain ⟨⟨hx1', hy1'⟩, hx2', hy2'⟩ := h'
    obtain ⟨x1, y1, x2, y2⟩ := a
    obtain ⟨x1', y1', x2', y2'⟩ := b
    rw [mk.injEq]
    exact ⟨le_antisymm hx1' hx1, le_antisymm hy1' hy1, le_antisymm hx2 hx2', le_antisymm hy2 hy2'⟩

variable {a b : Rect K}

theorem le_def : a ≤ b ↔ (b.x1 ≤ a.x1 ∧ b.y1 ≤ a.y1) ∧ a.x2 ≤ b.x2 ∧ a.y2 ≤ b.y2 := Iff.rfl

theorem not_isEmpty_iff : ¬ a.IsEmpty ↔ a.x1 < a.x2 ∧ a.y1 < a.y2 := by
  rw [IsEmpty, width, height, ExactField.zero_eq, not_or, not_le, not_le, sub_pos, sub_pos]

theorem not_isEmpty_of_le (h : a ≤ b) (ha : ¬ a.IsEmpty) : ¬ b.IsEmpty := by
  rw [not_isEmpty_iff] at ha ⊢
  exact ⟨h.1.1.trans_lt (ha.1.trans_le h.2.1), h.1.2.trans_lt (ha.2.trans_le h.2.2)⟩

/-- The union of two rectangles with an area lies in what both lie in. -/
theorem union_le_iff {c : Rect K} (ha : ¬ a.IsEmpty) (hb : ¬ b.IsEmpty) :
    a.union b ≤ c ↔ a ≤ c ∧ b ≤ c := by
  simp only [union, if_neg hb, if_neg ha, le_def, Scalar.min_eq_min, Scalar.max_eq_max,
    le_min_iff, max_le_iff]
  tauto

theorem not_isEmpty_union (ha : ¬ a.IsEmpty) (hb : ¬ b.IsEmpty) : ¬ (a.union b).IsEmpty :=
  not_isEmpty_of_le ((union_le_iff ha hb).1 le_rfl).1 ha

/-- The union of rectangles with an area is the smallest one around all of them. -/
theorem isLUB_foldl_union {rects : List (Rect K)} (h : ∀ r ∈ a :: rects, ¬ r.IsEmpty) :
    ¬ (rects.foldl union a).IsEmpty ∧ IsLUB {r | r ∈ a :: rects} (rects.foldl union a) := by
  rw [isLUB_iff_le_iff]
  induction rects generalizing a with
  | nil =>
    refine ⟨h a List.mem_cons_self, fun c => ?_⟩
    simp
  | cons b rects ih =>
    rw [List.forall_mem_cons, List.forall_mem_cons] at h
    obtain ⟨ha, hb, hrects⟩ := h
    obtain ⟨harea, hle⟩ := ih (a := a.union b)
      (List.forall_mem_cons.2 ⟨not_isEmpty_union ha hb, hrects⟩)
    refine ⟨harea, fun c => (hle c).trans ?_⟩
    simp only [mem_upperBounds, Set.mem_ofPred_eq, List.forall_mem_cons, union_le_iff ha hb,
      and_assoc]

end Rect

namespace Box

variable {b : Box K}

theorem hasContent_iff : b.HasContent ↔ b.rect.isSome ∧ ¬ b.bounds.IsEmpty := by
  rw [HasContent, bounds]
  cases b.rect with
  | none => simp
  | some r => simp [Rect.isEmpty_translate]

end Box

/-- The bounds of everything among some nodes that has an area. -/
def drawnBounds (nodes : List (Node K)) : Set (Rect K) :=
  {r | ∃ n ∈ nodes, n.box.HasContent ∧ n.box.bounds = r}

/-- A container that is drawn if anything below it is, in the smallest box around all of this. -/
structure Node.Wraps (n : Node K) (below : Forest (Node K)) : Prop where
  drawn : n.box.HasContent ↔ ∃ k ∈ below.toList, k.box.HasContent
  bounds : n.box.HasContent → IsLUB (drawnBounds below.toList) n.box.bounds

namespace Placing

/-- Nothing is around nodes of which none has an area. -/
theorem contentBounds_eq_none_iff {nodes : List (Node K)} :
    contentBounds nodes = none ↔ ∀ n ∈ nodes, ¬ n.box.HasContent := by
  rw [contentBounds]
  split
  · rename_i hnone
    simpa using hnone
  · rename_i first rest hsome
    simp only [reduceCtorEq, false_iff]
    push Not
    obtain ⟨n, hn, -⟩ := List.mem_map.1 (hsome ▸ List.mem_cons_self : first ∈ _)
    obtain ⟨hn, hcontent⟩ := List.mem_filter.1 hn
    exact ⟨n, hn, of_decide_eq_true hcontent⟩

/-- What a container is drawn around is the smallest rectangle around what has an area. -/
theorem isLUB_contentBounds {nodes : List (Node K)} {r : Rect K}
    (h : contentBounds nodes = some r) : ¬ r.IsEmpty ∧ IsLUB (drawnBounds nodes) r := by
  have hset : drawnBounds nodes =
      {r | r ∈ (nodes.filter fun n => n.box.HasContent).map fun n => n.box.bounds} := by
    ext r
    simp [drawnBounds, and_assoc]
  have harea : ∀ r ∈ (nodes.filter fun n => n.box.HasContent).map fun n => n.box.bounds,
      ¬ r.IsEmpty := by
    intro r hr
    obtain ⟨n, hn, rfl⟩ := List.mem_map.1 hr
    exact (Box.hasContent_iff.1 (of_decide_eq_true (List.mem_filter.1 hn).2)).2
  rw [contentBounds] at h
  split at h
  · cases h
  · rename_i first rest hnodes
    rw [hnodes] at hset harea
    rw [hset, ← Option.some.inj h]
    exact Rect.isLUB_foldl_union harea

/-- A container that draws nothing by itself takes the place of its content. -/
theorem bounds_leaveElement {n : Node K} (hn : n.kind.isContainer) (hrect : n.box.rect = none)
    {below : List (Node K)} {r : Rect K} (h : contentBounds below = some r) :
    (leaveElement n below).box.rect.isSome ∧ (leaveElement n below).box.bounds = r := by
  rw [leaveElement, hn, h]
  dsimp only
  rw [hrect]
  exact ⟨rfl, Rect.translate_translate_neg r n.box.x n.box.y⟩

end Placing

/-- A container that is left has the smallest box around what is drawn right below it. -/
theorem Node.LeftBlank.cases {n : Node K} {below : Forest (Node K)} (hn : n.kind.isContainer)
    (h : n.LeftBlank below) :
    (¬ n.box.HasContent ∧ ∀ k ∈ below.roots, ¬ k.box.HasContent) ∨
      (n.box.HasContent ∧ (∃ k ∈ below.roots, k.box.HasContent) ∧
        IsLUB (drawnBounds below.roots) n.box.bounds) := by
  obtain ⟨n₀, hrect, hkind, rfl⟩ := h
  rw [← hkind] at hn
  cases hcontent : Placing.contentBounds below.roots with
  | none =>
    refine .inl ⟨?_, Placing.contentBounds_eq_none_iff.1 hcontent⟩
    rw [Placing.leaveElement, hcontent]
    split <;> simp_all [Box.HasContent]
  | some r =>
    obtain ⟨hsome, hbounds⟩ := Placing.bounds_leaveElement hn hrect hcontent
    obtain ⟨harea, hleast⟩ := Placing.isLUB_contentBounds hcontent
    refine .inr ⟨Box.hasContent_iff.2 ⟨hsome, hbounds ▸ harea⟩, ?_, hbounds ▸ hleast⟩
    by_contra hnone
    push Not at hnone
    rw [Placing.contentBounds_eq_none_iff.2 hnone] at hcontent
    cases hcontent

/-- Whatever is drawn in closed containers lies inside of one that stands on top. -/
theorem Forest.Closed.exists_root {f : Forest (Node K)} (hf : f.Closed) (hs : f.Symbolic)
    {n : Node K} (hn : n ∈ f.toList) (hdrawn : n.box.HasContent) :
    ∃ m ∈ f.roots, m.box.HasContent ∧ n.box.bounds ≤ m.box.bounds := by
  induction f generalizing n with
  | nil => exact absurd hn List.not_mem_nil
  | cons m below siblings ihbelow ihbeside =>
    rw [toList, List.mem_cons, List.mem_append] at hn
    obtain rfl | hn | hn := hn
    · exact ⟨n, List.mem_cons_self, hdrawn, le_rfl⟩
    · obtain ⟨k, hk, hkdrawn, hle⟩ :=
        ihbelow (fun b under h => hf b under (.deeper _ h)) hs.2.2.1 hn hdrawn
      -- what holds a symbol is a container
      have hcontainer : m.kind.isContainer := by
        obtain ⟨e, he⟩ := Node.exists_element hs.1
        have htakes := hs.2.1 k hk
        rw [he] at htakes ⊢
        cases e with
        | chord | beam | tuplet => rfl
        | _ => cases hkk : k.kind <;> simp [hkk, NodeKind.accepts, Element.accepts] at htakes
      obtain ⟨-, hnone⟩ | ⟨hmdrawn, -, hleast⟩ :=
        (hf m below (.here _) hcontainer).cases hcontainer
      · exact absurd hkdrawn (hnone k hk)
      · exact ⟨m, List.mem_cons_self, hmdrawn, hle.trans (hleast.1 ⟨k, hk, hkdrawn, rfl⟩)⟩
    · obtain ⟨k, hk, hkdrawn, hle⟩ :=
        ihbeside (fun b under h => hf b under (.beside _ _ h)) hs.2.2.2 hn hdrawn
      exact ⟨k, List.mem_cons_of_mem _ hk, hkdrawn, hle⟩

/-- Containers of containers are drawn around everything below them. -/
theorem Forest.Closed.wraps {f : Forest (Node K)} (hf : f.Closed) (hnested : f.Nested) {n : Node K}
    {below : Forest (Node K)} (htree : HasTree n below f) (hn : n.kind.isContainer) :
    n.Wraps below := by
  obtain ⟨htakes, hbelow⟩ := hnested.of_hasTree htree
  have hsymbolic := hbelow.symbolic fun b hb =>
    Node.tag_of_accepts_element (Node.tag_of_isContainer hn) (htakes b hb)
  have hinside : ∀ k ∈ below.toList, k.box.HasContent →
      ∃ m ∈ below.roots, m.box.HasContent ∧ k.box.bounds ≤ m.box.bounds := fun k hk hdrawn =>
    Forest.Closed.exists_root (fun b under h => hf b under (htree.trans h)) hsymbolic hk hdrawn
  obtain ⟨hblank, hnone⟩ | ⟨hdrawn, ⟨k, hk, hkdrawn⟩, hleast⟩ := (hf n below htree hn).cases hn
  · refine ⟨iff_of_false hblank ?_, fun h => absurd h hblank⟩
    rintro ⟨k, hk, hkdrawn⟩
    obtain ⟨m, hm, hmdrawn, -⟩ := hinside k hk hkdrawn
    exact hnone m hm hmdrawn
  · refine ⟨iff_of_true hdrawn ⟨k, Forest.mem_toList_of_mem_roots hk, hkdrawn⟩, fun _ => ⟨?_, ?_⟩⟩
    · rintro r ⟨k, hk, hkdrawn, rfl⟩
      obtain ⟨m, hm, hmdrawn, hle⟩ := hinside k hk hkdrawn
      exact hle.trans (hleast.1 ⟨m, hm, hmdrawn, rfl⟩)
    · intro r hr
      refine hleast.2 fun b hb => hr ?_
      obtain ⟨m, hm, hmdrawn, rfl⟩ := hb
      exact ⟨m, Forest.mem_toList_of_mem_roots hm, hmdrawn, rfl⟩

/-! ### Documents -/

namespace Document

variable {d : Document K}

/-- Placement that meets no fault wraps all containers, where nothing is drawn of them before. -/
theorem WellFormed.closed_place {α : Type} [Scalar α] {d : Document α} (hd : d.WellFormed)
    {options : LayoutOptions α} {metrics : GlyphMetrics α}
    (hok : (d.place options metrics).fault = none)
    (hblank : ∀ n ∈ d.score.toList, n.kind.isContainer → n.box.rect = none) :
    (d.place options metrics).document.score.Closed := by
  obtain ⟨s, score, hwalk, hboxed, hlater⟩ := hd.exists_walk_place hok
  obtain ⟨r, pages, detached, htrees, -, hr⟩ := hd.root
  have hscore : d.score = .tree r pages := by rw [Document.score, htrees, Forest.first]
  have hnested := hd.nested_score
  have hkinds := hboxed.trans hlater (T := fun n n' : Node α => n'.kind = n.kind)
    fun _ _ _ h h' => h'.kind.trans h.kind
  refine Forest.Closed.of_reanchored ?_ (hnested.of_kind hkinds) hlater
  rw [hscore] at hwalk hnested hblank
  exact Placing.closed_score hwalk hr hnested hblank

/-- After a layout that meets no fault every chord, beam and tuplet of the score is drawn if anything
in it is, in the smallest box around all that is drawn in it, where chords have no footprints of their
own. -/
theorem Reachable.wraps_layout (h : d.Reachable) {e : Engine K}
    (hchords : ∀ duration unit height, e.metrics.element (.chord duration) unit height = none)
    (hok : (e.layout d).fault = none) {n : Node K} {below : Forest (Node K)}
    (htree : Forest.HasTree n below (e.layout d).document.score) (hn : n.kind.isContainer) :
    n.Wraps below := by
  obtain ⟨hok₈, hplace, hdocument⟩ := Engine.of_runAll_take (k := 8) rfl hok
  have hready := (h.wellFormed.settled_runAll h.settled e (LayoutPass.all.take 8)).1
  have hwell := (h.wellFormed.settled_runAll h.settled e LayoutPass.all).1
  have hblank := h.wellFormed.blank_runAll h.settled e
  refine Forest.Closed.wraps ?_ hwell.nested_score htree hn
  rw [show LayoutPass.all = LayoutPass.all.take (8 + 1) from rfl, hdocument]
  refine hready.closed_place hplace fun m hm hcontainer => ?_
  have htag := Node.tag_of_isContainer hcontainer
  refine hblank m (hready.mem_content hm (by rw [htag]; decide)) ?_
  obtain ⟨x, hx⟩ := Node.exists_element htag
  rw [hx] at hcontainer ⊢
  cases x with
  | chord duration => exact hchords duration
  | beam | tuplet => trivial
  | _ => cases hcontainer

/-- A chord of two notes and a tuplet with a rest in a beam, before a chord without notes. -/
theorem Reachable.wraps_layout_of_nested : ∃ d : Document ℚ, d.Reachable ∧
    (∀ duration unit height, (GlyphMetrics.default : GlyphMetrics ℚ).element (.chord duration) unit
      height = none) ∧
    ((Engine.ofOptions .default .default).layout d).fault = none ∧
    (((Engine.ofOptions .default .default).layout d).document.score.toList.filter fun n =>
      n.kind.isContainer).map (fun n => decide n.box.HasContent) = [true, true, true, false] ∧
    ∀ n below, Forest.HasTree n below
      ((Engine.ofOptions .default .default).layout d).document.score →
        n.kind.isContainer → n.Wraps below := by
  have hlayer := (((Reachable.ofDefinition (α := ℚ) default).contentSystem.add 2
    (.measure (.ofNumber 1))).add 3 (.staff ⟨1, false⟩)).add 4 (.layer 1)
  have hd := ((((((hlayer.add 5 (.element .beam)).add 6
    (.element (.chord (.ofValue .eighth)))).add 7
    (.element (.note ⟨.empty, ⟨.c, 4, none⟩, none, false⟩))).add 7
    (.element (.note ⟨.empty, ⟨.g, 5, none⟩, none, false⟩))).add 6
    (.element (.tuplet 3 2))).add 10
    (.element (.rest (.ofValue .eighth) none))).add 5 (.element (.chord (.ofValue .quarter)))
  refine ⟨_, hd, fun _ _ _ => rfl, ?_, ?_, fun n below htree hn =>
    hd.wraps_layout (fun _ _ _ => rfl) ?_ htree hn⟩
  · decide +kernel
  · decide +kernel
  · decide +kernel

end Document

end ScoreLayout
