import ScoreLayout.Proofs.StackedStaves
import ScoreLayout.Proofs.Layout.StaffRoom
import ScoreLayout.Proofs.Layout.Rows

/-!
# Systems that keep their distance

Breaking into pages puts systems one below the other. Filling lines leaves them where they are, and
filling pages moves them down, each at least as far as the ones above it have grown. So the systems of
a page stay apart, and each still holds what stands in it.

## Main definitions

* `HoldsTree` — a system that holds its content.
* `SystemsApart` — systems at a distance from each other.
* `Node.KeepsStack`, `Node.KeepsTop` — what filling lines leaves alone.
* `Forest.KeepsApart` — pages whose systems hold their content and are apart.

## Main results

* `PagePlan.Spaced.add`, `spaced_planPages` — the systems of a planned page are apart.
* `LayoutOptions.apart_spreadRoots` — filling a page keeps its systems apart.
* `Document.Ready.keepsApart_fillPages` — the document before placement.
-/

namespace ScoreLayout

variable {K : Type} [ExactField K]

/-- A system that holds what stands in it, with its visible staves apart. -/
def HoldsTree (spacing : K) (t : Node K × Forest (Node K)) : Prop :=
  ∀ system, t.1.kind = .system system → system.stack.Apart spacing ∧ system.stack.Holds t.2

/-- Systems of which each begins at a distance below the end of those before it. -/
def SystemsApart (spacing : K) (nodes : List (Node K)) : Prop :=
  nodes.Pairwise fun a b => ∀ s s', a.kind = .system s → b.kind = .system s' →
    s.y + s.stack.height + spacing ≤ s'.y

/-- Two states of one node, where symbols and staves are the same and systems have the same
staves. -/
structure Node.KeepsStack (n n' : Node K) : Prop where
  tag : n'.tag = n.tag
  same : n.tag = .element ∨ n.tag = .staff → n' = n
  system : ∀ s', n'.kind = .system s' → ∃ s, n.kind = .system s ∧ s'.stack = s.stack

/-- Two states of one node, where systems have the same top and the same staves. -/
def Node.KeepsTop (n n' : Node K) : Prop :=
  ∀ s', n'.kind = .system s' → ∃ s, n.kind = .system s ∧ s'.stack = s.stack ∧ s'.y = s.y

namespace Node

variable {n n' : Node K}

omit [ExactField K] in
theorem KeepsStack.refl (n : Node K) : n.KeepsStack n := ⟨rfl, fun _ => rfl, fun s h => ⟨s, h, rfl⟩⟩

omit [ExactField K] in
theorem KeepsTop.refl (n : Node K) : n.KeepsTop n := fun s h => ⟨s, h, rfl, rfl⟩

omit [ExactField K] in
theorem KeepsStack.mapSystem (n : Node K) {f : ScoreSystem K → ScoreSystem K}
    (hf : ∀ s, (f s).stack = s.stack) : n.KeepsStack (n.mapKind (.mapSystem f)) := by
  cases hk : n.kind with
  | system s =>
    have hmapped : (n.mapKind (.mapSystem f)).kind = .system (f s) :=
      congrArg (NodeKind.mapSystem f) hk
    have htag : (n.mapKind (.mapSystem f)).tag = n.tag := by
      rw [Node.tag, Node.tag, hmapped, hk]
      rfl
    refine ⟨htag, fun h => ?_, fun s' hs' => ?_⟩
    · simp [Node.tag, hk, NodeKind.tag] at h
    · rw [hmapped] at hs'
      exact ⟨s, hk, NodeKind.system.inj hs' ▸ hf s⟩
  | _ =>
    have hsame : n.mapKind (.mapSystem f) = n := by
      obtain ⟨handle, id, kind, box, dirty, layout⟩ := n
      cases hk
      rfl
    rw [hsame]
    exact .refl n

end Node

omit [ExactField K] in
theorem StaffStack.Holds.of_keepsStack [ExactField K] {stack : StaffStack K} {f f' : Forest (Node K)}
    (h : stack.Holds f) (hf : Forest.Forall₂ Node.KeepsStack f f') : stack.Holds f' where
  staves n' hn' staff hk := by
    obtain ⟨n, hn, hnn⟩ := exists_mem_of_forall₂ hf.toList hn'
    obtain rfl := hnn.same (.inr (hnn.tag ▸ by rw [Node.tag, hk]; rfl))
    exact h.staves n' hn staff hk
  symbols n' hn' ht := by
    obtain ⟨n, hn, hnn⟩ := exists_mem_of_forall₂ hf.toList hn'
    obtain rfl := hnn.same (.inl (hnn.tag ▸ ht))
    exact h.symbols n' hn ht

theorem HoldsTree.of_keepsStack {spacing : K} {t t' : Node K × Forest (Node K)}
    (h : HoldsTree spacing t) (hnode : t.1.KeepsStack t'.1)
    (hbelow : Forest.Forall₂ Node.KeepsStack t.2 t'.2) : HoldsTree spacing t' := by
  intro system hs
  obtain ⟨s, hs, hstack⟩ := hnode.system system hs
  obtain ⟨hapart, hholds⟩ := h s hs
  rw [hstack]
  exact ⟨hapart, hholds.of_keepsStack hbelow⟩

/-- Where the relation of two pairs goes over, so does that of all pairs of two lists. -/
theorem pairwise_of_forall₂ {β γ : Type} {R : β → γ → Prop} {S : β → β → Prop} {T : γ → γ → Prop}
    {l : List β} {l' : List γ} (h : List.Forall₂ R l l') (hl : l.Pairwise S)
    (hrel : ∀ a a' b b', R a a' → R b b' → S a b → T a' b') : l'.Pairwise T := by
  induction h with
  | nil => exact .nil
  | @cons a a' l l' ha hrest ih =>
    obtain ⟨hfirst, hl⟩ := List.pairwise_cons.1 hl
    refine .cons (fun b' hb' => ?_) (ih hl)
    obtain ⟨b, hb, hbb⟩ := exists_mem_of_forall₂ hrest hb'
    exact hrel a a' b b' ha hbb (hfirst b hb)

theorem SystemsApart.of_keepsTop {spacing : K} {nodes nodes' : List (Node K)}
    (h : SystemsApart spacing nodes) (hnodes : List.Forall₂ Node.KeepsTop nodes nodes') :
    SystemsApart spacing nodes' := by
  refine pairwise_of_forall₂ hnodes h fun a a' b b' ha hb hab s s' hs hs' => ?_
  obtain ⟨t, ht, hstack, hy⟩ := ha s hs
  obtain ⟨t', ht', -, hy'⟩ := hb s' hs'
  rw [hstack, hy, hy']
  exact hab t t' ht ht'

/-! ### Planned pages -/

/-- The systems of a planned page are apart, and lie above its end. -/
structure PagePlan.Spaced (spacing : K) (height : Handle → K) (p : PagePlan K) : Prop where
  apart : p.systems.Pairwise fun a b => a.2 + height a.1 + spacing ≤ b.2
  within : ∀ a ∈ p.systems, a.2 + height a.1 ≤ p.height

section Plans

variable {spacing : K} {height : Handle → K}

theorem PagePlan.Spaced.empty (spacing y : K) (height : Handle → K) :
    PagePlan.Spaced spacing height ⟨[], y⟩ := ⟨.nil, fun _ h => absurd h List.not_mem_nil⟩

/-- A further system goes below the others. -/
theorem PagePlan.Spaced.add {p : PagePlan K} (h : p.Spaced spacing height) (hspacing : 0 ≤ spacing)
    {item : SystemItem K} (hitem : height item.handle = item.height) (hheight : 0 ≤ item.height) :
    (p.add spacing item).Spaced spacing height := by
  rw [PagePlan.add, ExactField.zero_eq]
  generalize hy : (if p.systems.isEmpty = true then (0 : K) else p.height + spacing) = y
  have habove : ∀ a ∈ p.systems, a.2 + height a.1 + spacing ≤ y := by
    intro a ha
    rw [← hy, if_neg (by simp [List.ne_nil_of_mem ha])]
    exact add_le_add_left (h.within a ha) spacing
  have hwithin : ∀ a ∈ p.systems, a.2 + height a.1 ≤ y + item.height := fun a ha =>
    ((le_add_of_nonneg_right hspacing).trans (habove a ha)).trans (le_add_of_nonneg_right hheight)
  refine ⟨List.pairwise_append.2 ⟨h.apart, List.pairwise_singleton .., fun a ha b hb => ?_⟩,
    List.forall_mem_append.2 ⟨hwithin, List.forall_mem_singleton.2 ?_⟩⟩
  · rw [List.mem_singleton.1 hb]
    exact habove a ha
  · rw [hitem]

/-- The systems of every planned page are apart. -/
theorem spaced_planPages (r : PageRules K) (hspacing : 0 ≤ r.spacing) {items : List (SystemItem K)}
    (hitems : ∀ i ∈ items, height i.handle = i.height ∧ 0 ≤ i.height) :
    ∀ p ∈ planPages r items, p.Spaced r.spacing height := by
  -- from the left, the pages that are complete and the current one are spaced
  have hfold (s : Paging K) (hcomplete : ∀ p ∈ s.complete, p.Spaced r.spacing height)
      (hcurrent : s.current.Spaced r.spacing height) :
      (∀ p ∈ (items.foldl (Paging.step r) s).complete, p.Spaced r.spacing height) ∧
        (items.foldl (Paging.step r) s).current.Spaced r.spacing height := by
    induction items generalizing s with
    | nil => exact ⟨hcomplete, hcurrent⟩
    | cons i items ih =>
      obtain ⟨⟨hitem, hheight⟩, hitems⟩ := List.forall_mem_cons.1 hitems
      rw [List.foldl_cons, Paging.step]
      split_ifs
      · refine ih hitems _ (List.forall_mem_append.2 ⟨hcomplete, ?_⟩)
          ((PagePlan.Spaced.empty ..).add hspacing hitem hheight)
        exact List.forall_mem_singleton.2 hcurrent
      · exact ih hitems _ hcomplete (hcurrent.add hspacing hitem hheight)
  obtain ⟨hcomplete, hcurrent⟩ := hfold .start (fun p hp => absurd hp List.not_mem_nil) (.empty ..)
  rw [planPages, Paging.finish]
  split_ifs
  · exact hcomplete
  · exact List.forall_mem_append.2 ⟨hcomplete, List.forall_mem_singleton.2 hcurrent⟩

/-- Systems placed as a spaced page says are apart. -/
theorem PagePlan.Spaced.apart_placeTops {p : PagePlan K} (hp : p.Spaced spacing height)
    {taken : Forest (Node K)} (htaken : taken.roots.map Node.handle = p.nodes)
    (hheight : ∀ n ∈ taken.roots, ∀ s, n.kind = .system s → s.stack.height = height n.handle) :
    SystemsApart spacing (placeTops (p.systems.map Prod.snd) taken).roots := by
  have hplaced : (systems : List (Handle × K)) → (f : Forest (Node K)) →
      f.roots.map Node.handle = systems.map Prod.fst →
      (∀ n ∈ f.roots, ∀ s, n.kind = .system s → s.stack.height = height n.handle) →
      List.Forall₂ (fun (a : Handle × K) n => ∀ s, n.kind = .system s →
        s.y = a.2 ∧ s.stack.height = height a.1) systems (placeTops (systems.map Prod.snd) f).roots := by
    intro systems
    induction systems with
    | nil =>
      intro f hf _
      obtain rfl := Forest.roots_eq_nil.1 (List.map_eq_nil_iff.1 hf)
      exact .nil
    | cons a systems ih =>
      intro f hf hheight
      cases f with
      | nil => cases hf
      | cons n below siblings =>
        rw [Forest.roots, List.map_cons, List.map_cons, List.cons.injEq] at hf
        rw [Forest.roots, List.forall_mem_cons] at hheight
        rw [List.map_cons, placeTops, Forest.roots]
        refine .cons (fun s hs => ?_) (ih siblings hf.2 hheight.2)
        cases hk : n.kind with
        | system s₀ =>
          rw [Node.mapKind, hk] at hs
          rw [← NodeKind.system.inj hs, ← hf.1]
          exact ⟨rfl, hheight.1 s₀ hk⟩
        | _ =>
          rw [Node.mapKind, hk] at hs
          cases hs
  refine pairwise_of_forall₂ (hplaced p.systems taken htaken hheight) hp.apart
    fun a n b n' ha hb hab s s' hs hs' => ?_
  obtain ⟨hy, hstack⟩ := ha s hs
  rw [hy, hstack, (hb s' hs').1]
  exact hab

omit [ExactField K] in
theorem keepsStack_placeTops : (ys : List K) → (f : Forest (Node K)) →
    Forest.Forall₂ Node.KeepsStack f (placeTops ys f)
  | y :: ys, .cons n below siblings =>
      .cons (.mapSystem n fun _ => rfl) (.refl fun m _ => .refl m) (keepsStack_placeTops ys siblings)
  | [], f => by
      rw [placeTops]
      · exact .refl fun m _ => .refl m
      · simp
  | _ :: _, .nil => .nil

/-- The systems of emitted pages have the staves that they had, and are apart. -/
theorem PagesOf.apart {used : List String} {k : Nat} {plans : List (PagePlan K)}
    {systems pages : Forest (Node K)} (h : PagesOf used k plans systems pages)
    (hplans : ∀ p ∈ plans, p.Spaced spacing height)
    (hheight : ∀ n ∈ systems.roots, ∀ s, n.kind = .system s → s.stack.height = height n.handle) :
    Forest.Forall₂ Node.KeepsStack systems pages.branches ∧
      ∀ t ∈ pages.trees, SystemsApart spacing t.2.roots := by
  induction h with
  | nil => exact ⟨.nil, fun t ht => absurd ht List.not_mem_nil⟩
  | @cons used k p plans taken systems pages i hp htaken _ ih =>
    obtain ⟨hfirst, hplans⟩ := List.forall_mem_cons.1 hplans
    rw [Forest.roots_append, List.forall_mem_append] at hheight
    obtain ⟨hkeeps, hapart⟩ := ih hplans hheight.2
    rw [Forest.trees, List.forall_mem_cons]
    exact ⟨(keepsStack_placeTops _ taken).append hkeeps, hfirst.apart_placeTops htaken hheight.1,
      hapart⟩

end Plans

/-! ### Filling lines -/

namespace LayoutOptions

variable {o : LayoutOptions K}

/-- What filling lines leaves alone. -/
def KeepsLine (n n' : Node K) : Prop := n.KeepsStack n' ∧ n.KeepsTop n'

omit [ExactField K] in
theorem KeepsLine.refl (n : Node K) : KeepsLine n n := ⟨.refl n, .refl n⟩

theorem keepsLine_fillRoots : (x : K) → (gaps : List (Gap K)) → (f : Forest (Node K)) →
    Forest.Forall₂ KeepsLine f (fillRoots x gaps f).2
  | _, _, .nil => .nil
  | x, gaps, .cons n below siblings => by
      rw [fillRoots]
      cases hm : n.kind.measure? with
      | some m =>
        refine .cons ?_ (.refl fun m _ => .refl m) (keepsLine_fillRoots _ _ siblings)
        have hn := NodeKind.measure?_eq_some_iff.1 hm
        refine ⟨⟨by rw [Node.tag, Node.tag, hn]; rfl, fun h => ?_, fun s hs => by cases hs⟩,
          fun s hs => by cases hs⟩
        simp [Node.tag, hn, NodeKind.tag] at h
      | none => exact .cons (.refl n) (.refl fun m _ => .refl m) (keepsLine_fillRoots x gaps siblings)

theorem keepsLine_fillTree (available : K) (isLast : Bool) (t : Node K × Forest (Node K)) :
    KeepsLine t.1 (o.fillTree available isLast t).1 ∧
      Forest.Forall₂ KeepsLine t.2 (o.fillTree available isLast t).2 := by
  have hstay : KeepsLine t.1 t.1 ∧ Forest.Forall₂ KeepsLine t.2 t.2 :=
    ⟨.refl t.1, .refl fun m _ => .refl m⟩
  rw [fillTree]
  cases hs : t.1.kind.system? with
  | none => exact hstay
  | some s =>
    dsimp only
    split_ifs
    · refine ⟨⟨.mapSystem t.1 fun _ => rfl, fun s' hs' => ⟨s, NodeKind.system?_eq_some_iff.1 hs, ?_⟩⟩,
        keepsLine_fillRoots ..⟩
      rw [Node.mapKind, NodeKind.system?_eq_some_iff.1 hs] at hs'
      rw [← NodeKind.system.inj hs']
      exact ⟨rfl, rfl⟩
    · exact hstay

theorem keepsLine_fillTrees (o : LayoutOptions K) (available : K) (final : Bool) :
    (f : Forest (Node K)) → Forest.Forall₂ KeepsLine f (o.fillTrees available final f)
  | .nil => .nil
  | .cons n below siblings => by
      obtain ⟨hn, hbelow⟩ := keepsLine_fillTree (o := o) available
        (siblings.roots.isEmpty && final) (n, below)
      exact .cons hn hbelow (keepsLine_fillTrees o available final siblings)

theorem keepsLine_fillPageTrees (o : LayoutOptions K) (available : K) :
    (pages : Forest (Node K)) → Forest.Forall₂ KeepsLine pages (o.fillPageTrees available pages)
  | .nil => .nil
  | .cons page _ pages =>
      .cons (.refl page) (keepsLine_fillTrees ..) (keepsLine_fillPageTrees o available pages)

theorem keepsLine_filledPages (pages : Forest (Node K)) :
    Forest.Forall₂ KeepsLine pages (o.filledPages pages) := by
  rw [filledPages]
  cases o.contentWidth? with
  | none => exact .refl fun m _ => .refl m
  | some available =>
    dsimp only
    split_ifs
    · exact keepsLine_fillPageTrees ..
    · exact .refl fun m _ => .refl m

/-! ### Filling pages -/

variable {spacing between share : K}

/-- What moving a system down makes of it. -/
theorem exists_of_spreadNode {shift : K} {n : Node K} {s' : ScoreSystem K}
    (h : (o.spreadNode share shift n).kind = .system s') : ∃ s, n.kind = .system s ∧
      s'.y = s.y + shift ∧ s'.stack = s.stack.justify (share * o.staffWeight) := by
  rw [spreadNode, Node.mapKind] at h
  cases hk : n.kind with
  | system s =>
    rw [hk] at h
    rw [← NodeKind.system.inj h]
    exact ⟨s, rfl, rfl, rfl⟩
  | _ =>
    rw [hk] at h
    cases h

/-- A system whose staves are moved apart still holds what stands in it. -/
theorem holdsTree_spreadNode (hshare : 0 ≤ share * o.staffWeight) (shift : K)
    {t : Node K × Forest (Node K)} (h : HoldsTree spacing t) :
    HoldsTree spacing (o.spreadNode share shift t.1, t.2) := by
  intro system hs
  obtain ⟨s, hk, -, hstack⟩ := exists_of_spreadNode hs
  obtain ⟨hapart, hholds⟩ := h s hk
  rw [hstack]
  exact ⟨hapart.justify hshare, hholds.grows (.of_forall₂ (s.stack.grows_justify _))⟩

theorem holdsTree_spreadRoots (hshare : 0 ≤ share * o.staffWeight) :
    (first : Bool) → (shift : K) → (f : Forest (Node K)) → (∀ t ∈ f.trees, HoldsTree spacing t) →
      ∀ t ∈ (o.spreadRoots share first shift f).2.trees, HoldsTree spacing t
  | _, _, .nil, h => h
  | first, shift, .cons n below siblings, h => by
      rw [Forest.trees, List.forall_mem_cons] at h
      rw [spreadRoots]
      exact List.forall_mem_cons.2 ⟨holdsTree_spreadNode hshare _ h.1,
        holdsTree_spreadRoots hshare false _ siblings h.2⟩

/-- Every system moves down at least as far as the staves of the systems above have moved apart. -/
theorem apart_spreadRoots (hshare : 0 ≤ share * o.staffWeight)
    (hweight : 0 ≤ share * o.systemWeight) : (first : Bool) → (shift : K) →
    (f : Forest (Node K)) → SystemsApart spacing f.roots →
      SystemsApart spacing (o.spreadRoots share first shift f).2.roots ∧
        List.Forall₂ (fun n n' : Node K => ∀ s', n'.kind = .system s' →
          ∃ s, n.kind = .system s ∧ s.y + shift ≤ s'.y) f.roots
          (o.spreadRoots share first shift f).2.roots
  | _, _, .nil, _ => ⟨.nil, .nil⟩
  | first, shift, .cons n below siblings, h => by
      obtain ⟨hfirst, hapart⟩ := List.pairwise_cons.1 h
      rw [spreadRoots]
      dsimp only
      generalize hmoved : (if first = true then shift else shift + share * o.systemWeight) = moved
      have hmoved : shift ≤ moved := by
        rw [← hmoved]
        split_ifs
        · exact le_rfl
        · exact le_add_of_nonneg_right hweight
      have hgap : moved + Scalar.ofNat (Document.staffGaps n) * share * o.staffWeight =
          moved + Document.staffGaps n * (share * o.staffWeight) := by
        rw [mul_assoc]
        exact congrArg (fun x : K => moved + x * _) (Int.cast_natCast _)
      rw [hgap]
      have hnext : moved ≤ moved + Document.staffGaps n * (share * o.staffWeight) :=
        le_add_of_nonneg_right (mul_nonneg (Nat.cast_nonneg _) hshare)
      obtain ⟨hrest, hlater⟩ := apart_spreadRoots hshare hweight false
        (moved + Document.staffGaps n * (share * o.staffWeight)) siblings hapart
      refine ⟨.cons (fun k' hk' s₁ s' hs₁ hs' => ?_) hrest, .cons (fun s' hs' => ?_) ?_⟩
      · obtain ⟨k, hk, hkk⟩ := exists_mem_of_forall₂ hlater hk'
        obtain ⟨s, hs, hmove⟩ := hkk s' hs'
        obtain ⟨s₀, hs₀, hy, hstack⟩ := exists_of_spreadNode hs₁
        have hbelow := hfirst k hk s₀ s hs₀ hs
        have hcount : Document.staffGaps n = s₀.stack.gapCount := by
          rw [Document.staffGaps, hs₀]
          rfl
        rw [hcount] at hmove
        rw [hy, hstack, StaffStack.height_justify]
        linarith
      · obtain ⟨s, hs, hy, -⟩ := exists_of_spreadNode hs'
        exact ⟨s, hs, hy ▸ add_le_add_right hmoved s.y⟩
      · refine hlater.imp fun k k' hkk => ?_
        intro s' hs'
        obtain ⟨s, hs, hmove⟩ := hkk s' hs'
        exact ⟨s, hs, (add_le_add_right (hmoved.trans hnext) s.y).trans hmove⟩

/-- Filling a page keeps its systems apart, and what they hold. -/
theorem keepsApart_spreadTree (hstaff : 0 ≤ o.staffWeight) (hsystem : 0 ≤ o.systemWeight)
    (available : K) (isLast : Bool) {t : Node K × Forest (Node K)}
    (hholds : ∀ u ∈ t.2.trees, HoldsTree spacing u) (hapart : SystemsApart between t.2.roots) :
    (∀ u ∈ (o.spreadTree available isLast t).2.trees, HoldsTree spacing u) ∧
      SystemsApart between (o.spreadTree available isLast t).2.roots := by
  rw [spreadTree]
  cases hp : t.1.kind.page? with
  | none => exact ⟨hholds, hapart⟩
  | some p =>
    dsimp only
    split_ifs with hspreads
    · obtain ⟨hfree, -, htotal⟩ := hspreads
      rw [ExactField.zero_eq, not_or, not_le] at hfree
      rw [ExactField.zero_eq, not_le] at htotal
      have hshare := (div_pos hfree.1 htotal).le
      exact ⟨holdsTree_spreadRoots (mul_nonneg hshare hstaff) true _ t.2 hholds,
        (apart_spreadRoots (mul_nonneg hshare hstaff) (mul_nonneg hshare hsystem) true _ t.2
          hapart).1⟩
    · exact ⟨hholds, hapart⟩

end LayoutOptions

/-! ### Pages -/

/-- The systems of some pages hold what stands in them, and are apart. -/
structure Forest.KeepsApart (spacing between : K) (pages : Forest (Node K)) : Prop where
  holds : ∀ t ∈ pages.trees, ∀ u ∈ t.2.trees, HoldsTree spacing u
  apart : ∀ t ∈ pages.trees, SystemsApart between t.2.roots

namespace LayoutOptions

variable {o : LayoutOptions K} {spacing between : K} {pages : Forest (Node K)}

theorem keepsApart_filledPages (h : pages.KeepsApart spacing between) :
    (o.filledPages pages).KeepsApart spacing between := by
  have hkeeps := (o.keepsLine_filledPages pages).trees
  constructor
  · intro t' ht' u' hu'
    obtain ⟨t, ht, -, hbelow⟩ := exists_mem_of_forall₂ hkeeps ht'
    obtain ⟨u, hu, hnode, hunder⟩ := exists_mem_of_forall₂ hbelow.trees hu'
    exact (h.holds t ht u hu).of_keepsStack hnode.1 (hunder.mono fun _ _ hn => hn.1)
  · intro t' ht'
    obtain ⟨t, ht, -, hbelow⟩ := exists_mem_of_forall₂ hkeeps ht'
    exact (h.apart t ht).of_keepsTop (hbelow.roots.imp fun _ _ hn => hn.2)

theorem keepsApart_spreadPages (hstaff : 0 ≤ o.staffWeight) (hsystem : 0 ≤ o.systemWeight)
    (h : pages.KeepsApart spacing between) : (o.spreadPages pages).KeepsApart spacing between := by
  have htrees (available : K) : (o.spreadTrees available pages).KeepsApart spacing between := by
    obtain ⟨hholds, hapart⟩ := h
    induction pages with
    | nil => exact ⟨hholds, hapart⟩
    | cons page systems pages _ ih =>
      rw [Forest.trees, List.forall_mem_cons] at hholds hapart
      obtain ⟨hrest, hrest'⟩ := ih hholds.2 hapart.2
      obtain ⟨hfirst, hfirst'⟩ := keepsApart_spreadTree hstaff hsystem available pages.roots.isEmpty
        (t := (page, systems)) hholds.1 hapart.1
      exact ⟨List.forall_mem_cons.2 ⟨hfirst, hrest⟩, List.forall_mem_cons.2 ⟨hfirst', hrest'⟩⟩
  rw [spreadPages]
  split_ifs
  · exact htrees _
  · exact h

/-- Normalized distances and weights are not negative. -/
theorem normalized_nonneg (o : LayoutOptions K) :
    0 ≤ o.normalized.spacingStaff ∧ 0 ≤ o.normalized.spacingSystem ∧ 0 ≤ o.normalized.staffWeight ∧
      0 ≤ o.normalized.systemWeight ∧ 0 ≤ o.normalized.scaledUnit := by
  have hclamp (x : K) (n : Nat) (hn : 0 < n) : 0 ≤ Scalar.clamp x (Scalar.ofInt 0) (Scalar.ofInt n) :=
    ExactField.nonneg_iff.1 (Scalar.nonneg_zero.clamp (Scalar.nonneg_ofNat n hn)
      (.inr Scalar.zero_le_zero))
  exact ⟨hclamp _ 24 (by decide), hclamp _ 48 (by decide), hclamp _ 10 (by decide),
    hclamp _ 10 (by decide), ExactField.nonneg_iff.1 (o.inRange_spacing 0).margin⟩

end LayoutOptions

/-! ### Documents -/

namespace Document

variable {d : Document K} {options : LayoutOptions K} {metrics : GlyphMetrics K}

/-- The height of the staves of the system with a handle. -/
def stackHeight (d : Document K) (h : Handle) : K :=
  (((d.node? h).bind fun n => n.kind.system?).map fun s => s.stack.height).getD 0

/-- Breaking into pages puts systems that hold their content apart. -/
theorem Shape.keepsApart_breakPages {D : ScoreDefinition} {r : Node K}
    {systems pages detached : Forest (Node K)} {page : Node K}
    (hd : d.Shape D r (.tree page systems) detached) {used : List String} {k : Nat}
    (hpages : PagesOf used k (Shape.pagePlans options systems) systems pages)
    (hbetween : 0 ≤ options.spacingSystem * options.scaledUnit) {spacing : K}
    (hholds : ∀ t ∈ systems.trees, HoldsTree spacing t) :
    pages.KeepsApart spacing (options.spacingSystem * options.scaledUnit) := by
  have hnode {n : Node K} (hn : n ∈ systems.roots) : d.node? n.handle = some n := by
    refine hd.wellFormed.node?_handle (hd.mem ?_)
    rw [Forest.tree, Forest.toList, List.mem_cons, List.mem_append]
    exact .inr (.inl (Forest.mem_toList_of_mem_roots hn))
  have hspaced : ∀ p ∈ Shape.pagePlans options systems,
      p.Spaced (options.spacingSystem * options.scaledUnit) d.stackHeight := by
    refine spaced_planPages options.pageRules hbetween fun i hi => ?_
    rw [systemItems_eq] at hi
    obtain ⟨t, ht, rfl⟩ := List.mem_map.1 hi
    have hroot : t.1 ∈ systems.roots := Forest.map_fst_trees systems ▸ List.mem_map_of_mem ht
    rw [SystemItem.ofTree]
    dsimp only
    rw [stackHeight, hnode hroot, Option.bind_some, ExactField.zero_eq]
    refine ⟨rfl, ?_⟩
    cases hs : t.1.kind.system? with
    | none => exact le_rfl
    | some s => exact (hholds t ht s (NodeKind.system?_eq_some_iff.1 hs)).1.height
  obtain ⟨hkeeps, hapart⟩ := hpages.apart hspaced fun n hn s hs => by
    rw [stackHeight, hnode hn, Option.bind_some, hs]
    rfl
  refine ⟨fun t ht u hu => ?_, hapart⟩
  have hu : u ∈ pages.branches.trees := by
    rw [Forest.trees_branches]
    exact List.mem_flatMap.2 ⟨t, ht, hu⟩
  obtain ⟨u₀, hu₀, hnode, hbelow⟩ := exists_mem_of_forall₂ hkeeps.trees hu
  exact (hholds u₀ hu₀).of_keepsStack hnode hbelow

/-- The passes before placement leave systems that hold their content apart. -/
theorem Ready.keepsApart_fillPages (hd : d.Ready)
    (hok : ((Engine.ofOptions options metrics).runAll d (LayoutPass.all.take 8)).fault = none) :
    ((Engine.ofOptions options metrics).runAll d
      (LayoutPass.all.take 8)).document.score.branches.KeepsApart
        (options.normalized.spacingStaff * options.normalized.scaledUnit)
        (options.normalized.spacingSystem * options.normalized.scaledUnit) := by
  obtain ⟨hstaff, hsystem, hstaffWeight, hsystemWeight, hunit⟩ := options.normalized_nonneg
  obtain ⟨hok₇, hrun₈, heq₈⟩ := Engine.of_runAll_take (k := 7) rfl hok
  obtain ⟨hok₆, hrun₇, heq₇⟩ := Engine.of_runAll_take (k := 6) rfl hok₇
  obtain ⟨hok₅, hrun₆, heq₆⟩ := Engine.of_runAll_take (k := 5) rfl hok₆
  obtain ⟨hok₄, hrun₅, heq₅⟩ := Engine.of_runAll_take (k := 4) rfl hok₅
  obtain ⟨hok₃, hrun₄, heq₄⟩ := Engine.of_runAll_take (k := 3) rfl hok₄
  obtain ⟨-, helastic⟩ := hd.rows_breakPages hok₆
  have hready (k : Nat) := (hd.runAll (Engine.ofOptions options metrics) (LayoutPass.all.take k)).2
  -- the systems are made, and their staves stacked
  have hready₃ := hready 3
  obtain ⟨r, page, systems, d₁, d₄, hbreak, hd₄, hid, -⟩ :=
    hready₃.wellFormed.exists_breakSystems hready₃.unreserved
      (Outcome.required_le_of_guarded hrun₄) options.normalized metrics
  have hdocument₄ : ((Engine.ofOptions options metrics).runAll d (LayoutPass.all.take 4)).document =
      d₄ := heq₄.trans (congrArg Outcome.document hbreak)
  rw [hdocument₄] at heq₅ hrun₅
  obtain ⟨r₅, page₅, systems₅, hd₅, hpage, -⟩ :=
    hd₄.of_sameTree (sameTree_stackStaves d₄ options.normalized metrics)
  have hok₂ := (Engine.of_runAll_take (k := 2) rfl hok₃).1
  have hlater : ∀ pass ∈ [LayoutPass.space, .breakSystems], pass ≠ .prepare ∧ pass ≠ .align := by
    simp
  have hstaffed : d₄.score.Staffed none :=
    hdocument₄ ▸ hd.wellFormed.staffed_runAll hd.settled _ hlater hok₂
  have hstacked := hd₄.wellFormed.stacked_stackStaves hstaffed hrun₅ hunit hstaff
  have hholds : ∀ t ∈ systems₅.trees,
      HoldsTree (options.normalized.spacingStaff * options.normalized.scaledUnit) t := by
    intro t ht system hs
    have htree : Forest.HasTree t.1 t.2 (d₄.stackStaves options.normalized metrics).document.score :=
      hd₅.score ▸ .deeper .nil (.deeper .nil (Forest.hasTree_of_mem_trees ht))
    exact hstacked t.1 t.2 system htree hs
  -- pages are made of them
  rw [heq₅] at hrun₆ heq₆
  obtain ⟨pages, d₆, hpaged, hd₆, hpages, -⟩ := hd₅.exists_breakPages (hpage.id ▸ hid)
    (Outcome.required_le_of_guarded hrun₆)
  have hdocument₆ : ((Engine.ofOptions options metrics).runAll d (LayoutPass.all.take 6)).document =
      d₆ := heq₆.trans (congrArg Outcome.document hpaged)
  have hkeeps := hd₅.keepsApart_breakPages hpages (mul_nonneg hsystem hunit) hholds
  -- and filled
  rw [hdocument₆] at hrun₇ heq₇ helastic
  rw [hd₆.score, Forest.tree, Forest.branches, Forest.branches, Forest.append_nil] at helastic
  obtain ⟨d₇, hfill, hd₇⟩ := hd₆.fillLines_eq (Outcome.required_le_of_guarded hrun₇)
    (fun t ht p hp => (helastic t ht p hp).fitted) options.normalized
  have hdocument₇ := heq₇.trans (congrArg Outcome.document hfill)
  rw [hdocument₇] at hrun₈ heq₈
  obtain ⟨d₈, hspread, hd₈, -⟩ := hd₇.fillPages_eq (Outcome.required_le_of_guarded hrun₈)
    options.normalized
  rw [heq₈.trans (congrArg Outcome.document hspread)]
  show Forest.KeepsApart _ _ d₈.score.branches
  rw [hd₈.score, Forest.tree, Forest.branches, Forest.branches, Forest.append_nil]
  exact LayoutOptions.keepsApart_spreadPages hstaffWeight hsystemWeight
    (LayoutOptions.keepsApart_filledPages hkeeps)

end Document

end ScoreLayout
