import ScoreLayout.Proofs.Layout.ContentSymbols
import ScoreLayout.Proofs.Forest.Padded

/-!
# What preparation makes of each node

Tying the control elements of a score to their symbols is a walk that collects marks. It looks at
every control element once, in document order, and what it makes of one depends on the document and
on the node above it only. So the walk is a map over the links of the score, and the marks are
collected over the same links.

## Main definitions

* `Forest.mapLinked` — a forest with every label changed in view of the label above it.
* `Document.anchored`, `Document.anchorMarks` — what becomes of a single node.

## Main results

* `Document.WellFormed.resolveAnchor_eq` — the symbol that an identifier means.
* `Document.WellFormed.anchorControls_eq` — the walk as a map over links.
* `Forest.Padded.mapLinked` — such maps over two forests.
-/

namespace ScoreLayout

/-! ### Maps over links -/

namespace Forest

variable {β γ δ : Type}

/-- The forest with every label changed in view of the label directly above it. -/
def mapLinked (u : Option β → β → γ) : (above : Option β) → Forest β → Forest γ
  | _, nil => nil
  | above, cons b children siblings =>
    cons (u above b) (children.mapLinked u (some b)) (siblings.mapLinked u above)

theorem toList_mapLinked (u : Option β → β → γ) (above : Option β) (f : Forest β) :
    (f.mapLinked u above).toList = (f.links above).map fun l => u l.1 l.2 := by
  induction f generalizing above with
  | nil => rfl
  | cons b children siblings hc hs =>
    rw [mapLinked, toList, links, List.map_cons, List.map_append, hc, hs]

theorem mapLinked_eq_self {u : Option β → β → β} {f : Forest β}
    (h : ∀ b ∈ f.toList, ∀ above, u above b = b) (above : Option β) :
    f.mapLinked u above = f := by
  induction f generalizing above with
  | nil => rfl
  | cons b children siblings hc hs =>
    simp only [toList, List.mem_cons, List.mem_append, or_imp, forall_and, forall_eq] at h
    rw [mapLinked, h.1, hc h.2.1, hs h.2.2]

theorem mapLinked_tree (u : Option β → β → γ) (above : Option β) (b : β) (f : Forest β) :
    (tree b f).mapLinked u above = tree (u above b) (f.mapLinked u (some b)) := rfl

namespace Padded

variable {P : γ → Prop} {R : β → γ → Prop} {f : Forest β} {g : Forest γ}

/-- Every link of the first forest has a partner. -/
theorem exists_link_right (h : Padded P R f g) {A : Option β → Option γ → Prop}
    (hA : ∀ b c, R b c → A (some b) (some c)) {a : Option β} {a' : Option γ} (ha : A a a') :
    ∀ l ∈ f.links a, ∃ l' ∈ g.links a', A l.1 l'.1 ∧ R l.2 l'.2 := by
  induction h generalizing a a' with
  | nil => exact fun l hl => absurd hl List.not_mem_nil
  | @cons b c _ _ _ _ hb _ _ ihc ihs =>
    simp only [links, List.mem_cons, List.mem_append]
    rintro l (rfl | hl | hl)
    · exact ⟨(a', c), .inl rfl, ha, hb⟩
    · obtain ⟨l', hl', h⟩ := ihc (hA b c hb) l hl
      exact ⟨l', .inr (.inl hl'), h⟩
    · obtain ⟨l', hl', h⟩ := ihs ha l hl
      exact ⟨l', .inr (.inr hl'), h⟩
  | leaf _ _ ih =>
    intro l hl
    obtain ⟨l', hl', h⟩ := ih ha l hl
    exact ⟨l', by simp [links, hl'], h⟩

/-- Two forests with every label changed in view of the label above it. -/
theorem mapLinked {β' γ' : Type} {Q : γ' → Prop} {S : β' → γ' → Prop} (h : Padded P R f g)
    {u : Option β → β → β'} {v : Option γ → γ → γ'} {A : Option β → Option γ → Prop}
    (hA : ∀ b c, R b c → A (some b) (some c)) {a : Option β} {a' : Option γ} (ha : A a a')
    (hv : ∀ l ∈ g.links a', P l.2 → Q (v l.1 l.2))
    (huv : ∀ l ∈ f.links a, ∀ l' ∈ g.links a', A l.1 l'.1 → R l.2 l'.2 →
      S (u l.1 l.2) (v l'.1 l'.2)) : Padded Q S (f.mapLinked u a) (g.mapLinked v a') := by
  induction h generalizing a a' with
  | nil => exact .nil
  | @cons b c _ _ _ _ hb _ _ hc hs =>
    refine .cons (huv (a, b) List.mem_cons_self (a', c) List.mem_cons_self ha hb)
      (hc (hA b c hb) (fun l hl => hv l ?_) fun l hl l' hl' => huv l ?_ l' ?_)
      (hs ha (fun l hl => hv l ?_) fun l hl l' hl' => huv l ?_ l' ?_)
    all_goals simp [links, *]
  | @leaf c _ _ hc _ hs =>
    refine .leaf (hv (a', c) List.mem_cons_self hc)
      (hs ha (fun l hl => hv l ?_) fun l hl l' hl' => huv l hl l' ?_)
    all_goals simp [links, *]

/-- What is collected over the links of two forests. -/
theorem flatMap_links (h : Padded P R f g) {u : Option β → β → List δ} {v : Option γ → γ → List δ}
    {A : Option β → Option γ → Prop} (hA : ∀ b c, R b c → A (some b) (some c)) {a : Option β}
    {a' : Option γ} (ha : A a a') (hv : ∀ l ∈ g.links a', P l.2 → v l.1 l.2 = [])
    (huv : ∀ l ∈ f.links a, ∀ l' ∈ g.links a', A l.1 l'.1 → R l.2 l'.2 →
      v l'.1 l'.2 = u l.1 l.2) :
    ((g.links a').flatMap fun l => v l.1 l.2) = (f.links a).flatMap fun l => u l.1 l.2 := by
  induction h generalizing a a' with
  | nil => rfl
  | @cons b c _ _ _ _ hb _ _ hc hs =>
    rw [links, links, List.flatMap_cons, List.flatMap_cons, List.flatMap_append,
      List.flatMap_append, huv (a, b) List.mem_cons_self (a', c) List.mem_cons_self ha hb,
      hc (hA b c hb) (fun l hl => hv l ?_) fun l hl l' hl' => huv l ?_ l' ?_,
      hs ha (fun l hl => hv l ?_) fun l hl l' hl' => huv l ?_ l' ?_]
    all_goals simp [links, *]
  | @leaf c _ _ hc _ hs =>
    rw [links, List.flatMap_cons, hv (a', c) List.mem_cons_self hc, List.nil_append, links,
      List.nil_append]
    refine hs ha (fun l hl => hv l ?_) fun l hl l' hl' => huv l hl l' ?_
    all_goals simp [links, *]

end Padded

end Forest

variable {α : Type}

namespace Document

/-! ### Resolving identifiers -/

/-- An identifier means the node of the score that has it, if there is one. -/
theorem WellFormed.resolveAnchor_eq {d : Document α} (hd : d.WellFormed) (id : String) :
    d.resolveAnchor id =
      match d.score.find? (hasId id) with
      | some n => if n.tag = .element then .ok n.handle else .error .notAnElement
      | none =>
        if (d.trees.rest.find? (hasId id)).isSome then .error .detached else .error .missing := by
  have hfind : d.trees.find? (hasId id) =
      (d.score.find? (hasId id)).or (d.trees.rest.find? (hasId id)) := by
    rw [Forest.find?_eq_find?_toList, Forest.find?_eq_find?_toList, Forest.find?_eq_find?_toList,
      ← List.find?_append, score, ← Forest.toList_append, first_append_rest]
  rw [resolveAnchor, hfind]
  cases hscore : d.score.find? (hasId id) with
  | some n =>
    rw [Forest.find?_eq_find?_toList] at hscore
    have hlive : d.isLive n.handle := (isLive_iff d _).2 ⟨n, List.mem_of_find?_eq_some hscore, rfl⟩
    rw [Option.some_or]
    by_cases ht : n.tag = .element <;> simp [hlive, ht]
  | none =>
    rw [Option.none_or]
    cases hrest : d.trees.rest.find? (hasId id) with
    | none => rfl
    | some n =>
      rw [Forest.find?_eq_find?_toList] at hrest
      have hdead := hd.not_isLive_of_mem_rest (List.mem_of_find?_eq_some hrest)
      simp [hdead]

/-! ### A single node -/

/-- Whether a control element below a node stands in a measure. -/
def inMeasure (above : Option (Node α)) : Bool :=
  (above.map fun p => decide (p.tag = .measure)).getD false

/-- A node as preparation leaves it. -/
def anchored (d : Document α) (above : Option (Node α)) (n : Node α) : Node α :=
  match n.kind.control? with
  | some c => (d.anchorNode [] above n c).2
  | none => n

/-- The mark that preparation puts on a node, if any. -/
def anchorMarks (d : Document α) (above : Option (Node α)) (n : Node α) : List Mark :=
  match n.kind.control? with
  | some c => (d.anchorNode [] above n c).1
  | none => []

theorem anchored_of_tag_ne (d : Document α) {n : Node α} (hn : n.tag ≠ .control)
    (above : Option (Node α)) : d.anchored above n = n := by
  rw [Node.tag] at hn
  rw [anchored]
  cases hk : n.kind <;> first | rfl | exact absurd (by rw [hk]; rfl) hn

theorem anchorMarks_of_tag_ne (d : Document α) {n : Node α} (hn : n.tag ≠ .control)
    (above : Option (Node α)) : d.anchorMarks above n = [] := by
  rw [Node.tag] at hn
  rw [anchorMarks]
  cases hk : n.kind <;> first | rfl | exact absurd (by rw [hk]; rfl) hn

/-- What has been marked before does not matter. -/
theorem anchorNode_eq_append (d : Document α) (marks : List Mark) (above : Option (Node α))
    (n : Node α) (c : Control α) : d.anchorNode marks above n c =
      (marks ++ (d.anchorNode [] above n c).1, (d.anchorNode [] above n c).2) := by
  rw [anchorNode, anchorNode]
  split
  · rw [List.append_nil]
  · rw [List.nil_append]

/-! ### The walk -/

/-- No control element stands below another one or in a layer. -/
def ControlsOutside (f : Forest (Node α)) : Prop :=
  ∀ n below, Forest.HasTree n below f → n.tag = .control ∨ n.tag = .layer →
    ∀ m ∈ below.toList, m.tag ≠ .control

theorem WellFormed.controlsOutside {d : Document α} (hd : d.WellFormed) :
    ControlsOutside d.score := by
  intro n below htree hn m hm
  have hdepth : 4 ≤ n.tag.depth ∧ n.tag ≠ .element := by
    rcases hn with hn | hn <;> rw [hn] <;> decide
  have hlinks : ∀ a b, (some a, b) ∈ below.links (some n) → a.kind.accepts b.kind := by
    obtain ⟨r, pages, hshape⟩ := hd.exists_shape
    intro a b hl
    refine hd.accepts a b ?_
    rw [← first_append_rest d.trees, Forest.links_append]
    exact List.mem_append_left _ (htree.mem_links hl none)
  have hdeeper : 4 < m.tag.depth := by
    refine Forest.forall_of_links (P := fun m => 4 < m.tag.depth) (fun b hb => ?_)
      (fun a b hl ha => ?_) m hm
    · exact Nat.lt_of_le_of_lt hdepth.1
        (NodeKind.depth_lt_of_accepts (hlinks n b (Forest.link_of_mem_roots _ hb)) hdepth.2)
    · exact Nat.lt_of_lt_of_le ha (NodeKind.depth_le_of_accepts
        (hlinks a b (Forest.mem_links_of_mem_links_none hl _)))
  intro ht
  rw [ht] at hdeeper
  exact absurd hdeeper (by decide)

/-- The walk over a forest is a map over its links. -/
theorem runWithin_anchorPass (d : Document α) {f : Forest (Node α)} (hf : ControlsOutside f)
    (above : Option (Node α)) (around : Forest (Node α) → Forest (Node α)) (marks : List Mark) :
    ∃ v, v ≠ .stop ∧ f.runWithin d.anchorPass above around marks =
      (marks ++ (f.links above).flatMap (fun l => d.anchorMarks l.1 l.2),
        f.mapLinked d.anchored above, v) := by
  induction f generalizing above around marks with
  | nil => exact ⟨.proceed, by decide, by rw [Forest.links, List.flatMap_nil, List.append_nil]; rfl⟩
  | cons n below siblings ihc ihs =>
    have hbelow : ControlsOutside below := fun m f h => hf m f (.deeper siblings h)
    have hbeside : ControlsOutside siblings := fun m f h => hf m f (.beside n below h)
    -- where the walk passes over what is below a node, there is nothing to tie
    have hskip (h : n.tag = .control ∨ n.tag = .layer) :
        (below.links (some n)).flatMap (fun l => d.anchorMarks l.1 l.2) = [] ∧
          below.mapLinked d.anchored (some n) = below := by
      have hplain := hf n below (.here siblings) h
      refine ⟨List.flatMap_eq_nil_iff.2 fun l hl => ?_, Forest.mapLinked_eq_self (fun m hm a => ?_) _⟩
      · exact d.anchorMarks_of_tag_ne (hplain _ (Forest.mem_toList_of_mem_links hl)) _
      · exact d.anchored_of_tag_ne (hplain m hm) a
    rw [Forest.links, List.flatMap_cons, List.flatMap_append, Forest.mapLinked, Forest.runWithin]
    cases hk : n.kind with
    | control c =>
      obtain ⟨hmarks, hmap⟩ := hskip (.inl (by rw [Node.tag, hk]; rfl))
      have henter : d.anchorPass.enter marks above n =
          (marks ++ d.anchorMarks above n, d.anchored above n, .skipChildren) := by
        rw [anchorPass]
        dsimp only
        rw [hk]
        dsimp only
        rw [d.anchorNode_eq_append, anchorMarks, anchored, hk]
        rfl
      obtain ⟨v, hv, hrun⟩ := ihs hbeside above
        (fun f => around (.cons (d.anchored above n) below f)) (marks ++ d.anchorMarks above n)
      refine ⟨v, hv, ?_⟩
      rw [henter]
      dsimp only
      rw [hrun, hmarks, hmap, List.nil_append, List.append_assoc]
    | layer k =>
      have htag : n.tag = .layer := by rw [Node.tag, hk]; rfl
      obtain ⟨hmarks, hmap⟩ := hskip (.inr htag)
      have henter : d.anchorPass.enter marks above n = (marks, n, .skipChildren) := by
        simp only [anchorPass, hk]
      obtain ⟨v, hv, hrun⟩ := ihs hbeside above (fun f => around (.cons n below f)) marks
      refine ⟨v, hv, ?_⟩
      rw [henter]
      dsimp only
      rw [hrun, hmarks, hmap, d.anchored_of_tag_ne (by rw [htag]; decide),
        d.anchorMarks_of_tag_ne (by rw [htag]; decide), List.nil_append, List.nil_append]
    | _ =>
      have htag : n.tag ≠ .control := by
        rw [Node.tag, hk]
        simp [NodeKind.tag]
      have henter : d.anchorPass.enter marks above n = (marks, n, .proceed) := by
        simp only [anchorPass, hk]
      obtain ⟨v, hv, hrun⟩ := ihc hbelow (some n) (fun f => around (.cons n f siblings)) marks
      obtain ⟨w, hw, hrun'⟩ := ihs hbeside above
        (fun f => around (.cons n (below.mapLinked d.anchored (some n)) f))
        (marks ++ (below.links (some n)).flatMap fun l => d.anchorMarks l.1 l.2)
      refine ⟨w, hw, ?_⟩
      rw [henter]
      dsimp only
      rw [hrun, d.anchored_of_tag_ne htag, d.anchorMarks_of_tag_ne htag, List.nil_append]
      cases v with
      | stop => exact absurd rfl hv
      | skipChildren | proceed =>
        have hleave (s : List Mark) (w : Node α → Forest (Node α) → Forest (Node α))
            (f : Forest (Node α)) : d.anchorPass.leave s w n f = (s, n, f, .proceed) := rfl
        dsimp only
        rw [hleave]
        dsimp only
        rw [hrun', List.append_assoc]

/-- Tying the control elements of a score is a map over its links. -/
theorem WellFormed.anchorControls_eq {d : Document α} (hd : d.WellFormed) :
    d.anchorControls = ((d.score.links none).flatMap (fun l => d.anchorMarks l.1 l.2),
      d.withScore (d.score.mapLinked d.anchored none)) := by
  obtain ⟨v, -, hrun⟩ := d.runWithin_anchorPass hd.controlsOutside none id []
  rw [anchorControls, Forest.run, hrun]
  rfl

end Document

end ScoreLayout
