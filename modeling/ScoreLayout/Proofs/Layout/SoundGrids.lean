import ScoreLayout.Proofs.Grid.Widths
import ScoreLayout.Proofs.Layout.PageEmission
import ScoreLayout.Proofs.Layout.SystemPlans

/-!
# Scores without negative widths

No pass that rebuilds pages and systems gives a measure a negative width. Such a pass detaches the
content for a while, so the property is followed as one of a set of nodes that is closed under
children and contains the root.

## Main definitions

* `Document.Sound` — no measure of the score has a negative width.
* `Document.SoundWithin` — the same of a set of nodes.

## Main results

* `Document.WellFormed.sound_unbreak?`, `Document.WellFormed.sound_breakSystems`,
  `Document.WellFormed.sound_breakPages` — the passes that rebuild pages and systems.
-/

namespace ScoreLayout

open Scalar

variable {α : Type} [Scalar α]

/-- A node that is no measure of negative width. -/
def Node.Sound (n : Node α) : Prop := ∀ m, n.kind = .measure m → m.grid.Sound

theorem Node.sound_of_tag_ne {n : Node α} (hn : n.tag ≠ .measure) : n.Sound := fun m hm =>
  absurd (by rw [Node.tag, hm]; rfl) hn

/-- Two states of one node, of which the later one is sound if the earlier one is. -/
structure Node.StaysSound (n n' : Node α) : Prop where
  handle : n'.handle = n.handle
  sound : n.Sound → n'.Sound

namespace Node.StaysSound

variable {a b c : Node α}

theorem refl (n : Node α) : n.StaysSound n := ⟨rfl, fun h => h⟩

theorem trans (h : a.StaysSound b) (h' : b.StaysSound c) : a.StaysSound c :=
  ⟨h'.handle.trans h.handle, h'.sound ∘ h.sound⟩

theorem of_sameKind (h : a.SameKind b) : a.StaysSound b :=
  ⟨h.handle, fun ha m hm => ha m (h.kind ▸ hm)⟩

theorem of_not_measure (n : Node α) {f : NodeKind α → NodeKind α}
    (hf : ∀ m, f n.kind = .measure m → n.kind = .measure m) : n.StaysSound (n.mapKind f) :=
  ⟨rfl, fun hn m hm => hn m (hf m hm)⟩

theorem mapSystem (n : Node α) (f : ScoreSystem α → ScoreSystem α) :
    n.StaysSound (n.mapKind (.mapSystem f)) :=
  of_not_measure n fun m hm => by cases hk : n.kind <;> simp_all [NodeKind.mapSystem]

theorem mapPage (n : Node α) (f : Page α → Page α) : n.StaysSound (n.mapKind (.mapPage f)) :=
  of_not_measure n fun m hm => by cases hk : n.kind <;> simp_all [NodeKind.mapPage]

theorem place (n : Node α) (x : α) :
    n.StaysSound (n.mapKind (.mapMeasure fun m => { m with x })) := by
  refine ⟨rfl, fun hn m hm => ?_⟩
  rw [Node.mapKind] at hm
  cases hk : n.kind with
  | measure m' =>
    rw [hk, NodeKind.mapMeasure, NodeKind.measure.injEq] at hm
    rw [← hm]
    exact hn m' hk
  | _ => simp [hk, NodeKind.mapMeasure] at hm

end Node.StaysSound

namespace Document

/-- No measure of the score has a negative width. -/
def Sound (d : Document α) : Prop := ∀ n ∈ d.score.toList, n.Sound

/-- Handles among which are the root and all children of nodes with such handles, and under which
there is no measure of negative width. -/
structure SoundWithin (d : Document α) (S : Handle → Prop) : Prop where
  root : S Document.root
  closed : ∀ a b, (some a, b) ∈ d.trees.links none → S a.handle → S b.handle
  sound : ∀ n ∈ d.trees.toList, S n.handle → n.Sound

/-! ### The score and its nodes -/

theorem Sound.of_forall₂ {d d' : Document α} (h : d.Sound)
    (hf : Forest.Forall₂ Node.StaysSound d.score d'.score) : d'.Sound := by
  intro n' hn'
  obtain ⟨n, hn, hstays⟩ := exists_mem_of_forall₂ hf.toList hn'
  exact hstays.sound (h n hn)

theorem Sound.modify {d : Document α} (h : d.Sound) (i : Handle) {f : Node α → Node α}
    (hf : ∀ n, n.Sound → (f n).Sound) : (d.modify i f).Sound := by
  have hscore : (d.modify i f).score = d.score.modify (hasHandle i) f := by
    rw [score, score, Document.modify]
    cases d.trees <;> rfl
  rw [Sound, hscore, Forest.modify, Forest.toList_map]
  refine List.forall_mem_map.2 fun n hn => ?_
  split
  · exact hf n (h n hn)
  · exact h n hn

namespace WellFormed

variable {d : Document α} (hd : d.WellFormed)

include hd

/-- The nodes of the score are such a set. -/
theorem soundWithin_isLive (h : d.Sound) : d.SoundWithin fun i => d.isLive i where
  root := hd.isLive_root
  closed a b hl ha :=
    hd.isLive_of_mem_childNodes ha (hd.mem_childNodes_iff.2 ⟨a, hl, rfl⟩)
  sound n hn hl := by
    obtain ⟨m, hm, hh⟩ := (isLive_iff d n.handle).1 hl
    exact hd.eq_of_handle_eq ((score_sublist d).subset hm) hn hh ▸ h m hm

/-- The nodes of the score are in every such set. -/
theorem within_of_isLive {S : Handle → Prop} (h : d.SoundWithin S) {i : Handle}
    (hi : d.isLive i) : S i := by
  obtain ⟨n, hn, rfl⟩ := (isLive_iff d i).1 hi
  obtain ⟨r, below, detached, htrees, hroot, -⟩ := hd.root
  rw [score, htrees, Forest.first, Forest.toList_tree] at hn
  rcases List.mem_cons.1 hn with rfl | hn
  · exact hroot ▸ h.root
  · refine Forest.rel_of_links (R := fun a b : Node α => S a.handle → S b.handle)
      (fun _ _ _ hab hbc => hbc ∘ hab) (n := r) (fun a b hl => h.closed a b ?_) n hn
      (hroot ▸ h.root)
    rw [htrees, Forest.links]
    exact List.mem_cons_of_mem _ (List.mem_append_left _ hl)

theorem sound_of_within {S : Handle → Prop} (h : d.SoundWithin S) : d.Sound := fun n hn =>
  h.sound n ((score_sublist d).subset hn)
    (hd.within_of_isLive h ((isLive_iff d n.handle).2 ⟨n, hn, rfl⟩))

theorem within_of_mem_children {S : Handle → Prop} (h : d.SoundWithin S) {i c : Handle}
    (hi : d.isLive i) (hc : c ∈ d.children i) : S c := by
  obtain ⟨n, hn, rfl⟩ := List.mem_map.1 hc
  exact hd.within_of_isLive h (hd.isLive_of_mem_childNodes hi hn)

end WellFormed

/-! ### The edits of the layout -/

namespace SoundWithin

variable {d d' : Document α} {S : Handle → Prop}

theorem of_links (h : d.SoundWithin S) (hlist : d'.trees.toList ⊆ d.trees.toList)
    (hlinks : ∀ a b, (some a, b) ∈ d'.trees.links none →
      (some a, b) ∈ d.trees.links none ∨ S b.handle) : d'.SoundWithin S where
  root := h.root
  closed a b hl ha := (hlinks a b hl).elim (fun hl => h.closed a b hl ha) id
  sound n hn := h.sound n (hlist hn)

theorem of_forall₂ (h : d.SoundWithin S)
    (hf : Forest.Forall₂ Node.StaysSound d.trees d'.trees) : d'.SoundWithin S where
  root := h.root
  closed a' b' hl' := by
    obtain ⟨⟨above, b⟩, hl, ha, hb⟩ := exists_mem_of_forall₂ (hf.links Option.Rel.none) hl'
    cases ha with
    | some ha =>
      rw [ha.handle, hb.handle]
      exact h.closed _ _ hl
  sound n' hn' := by
    obtain ⟨n, hn, hstays⟩ := exists_mem_of_forall₂ hf.toList hn'
    rw [hstays.handle]
    exact hstays.sound ∘ h.sound n hn

theorem modify (h : d.SoundWithin S) (i : Handle) {f : Node α → Node α}
    (hf : ∀ n, Node.StaysSound n (f n)) : (d.modify i f).SoundWithin S :=
  h.of_forall₂ (forall₂_modify Node.StaysSound.refl d i fun n _ _ => hf n)

theorem destroy (h : d.SoundWithin S) (i : Handle) : (d.destroy i).SoundWithin S := by
  rw [Document.destroy]
  split
  · rename_i n below g hp
    obtain ⟨-, a, hperm⟩ := Forest.links_prune?_perm hp none
    have hsub (l : Option (Node α) × Node α) (hl : l ∈ (g ++ below).links none) :
        l.2 ∈ d.trees.toList ∧ ∀ b, l.1 = some b → l ∈ d.trees.links none := by
      rw [Forest.links_append, List.mem_append] at hl
      rcases hl with hl | hl
      · have hl := hperm.mem_iff.2 (List.mem_cons_of_mem _ (List.mem_append_right _ hl))
        exact ⟨Forest.mem_toList_of_mem_links hl, fun _ _ => hl⟩
      · refine ⟨?_, ?_⟩
        · obtain ⟨b, hb⟩ := Forest.exists_link (some n) (Forest.mem_toList_of_mem_links hl)
          have hmem := Forest.mem_toList_of_mem_links
            (hperm.mem_iff.2 (List.mem_cons_of_mem _ (List.mem_append_left _ hb)))
          exact hmem
        · rintro b hb
          obtain ⟨above, c⟩ := l
          obtain rfl : above = some b := hb
          exact hperm.mem_iff.2 (List.mem_cons_of_mem _
            (List.mem_append_left _ (Forest.mem_links_of_mem_links_none hl (some n))))
    refine h.of_links (fun m hm => ?_) fun a b hl => .inl ((hsub _ hl).2 a rfl)
    obtain ⟨b, hb⟩ := Forest.exists_link none hm
    exact (hsub _ hb).1
  · exact h

theorem destroyAll : {nodes : List Handle} → {d : Document α} → d.SoundWithin S →
    (nodes.foldl Document.destroy d).SoundWithin S
  | [], _, h => h
  | i :: _, _, h => by
      rw [List.foldl_cons]
      exact (h.destroy i).destroyAll

theorem reparent? (h : d.SoundWithin S) {i parent : Handle} (hi : S i)
    (hok : d.reparent? i parent = .ok d') : d'.SoundWithin S := by
  obtain ⟨n, p, moved, below, g, -, -, -, hprune, rfl⟩ := WellFormed.exists_of_reparent? hok
  obtain ⟨hmoved, a, hperm⟩ := Forest.links_prune?_perm hprune none
  have hmoved : moved.handle = i := by simpa [hasHandle] using hmoved
  have hgraft := Forest.links_graft_perm (hasHandle parent) g (.tree moved below) none
  have hsub (l : Option (Node α) × Node α)
      (hl : l ∈ (g.graft (hasHandle parent) (.tree moved below)).links none) :
      l ∈ d.trees.links none ∨ l.2 = moved := by
    rcases List.mem_append.1 (hgraft.mem_iff.1 hl) with hl | hl
    · exact .inl (hperm.mem_iff.2 (List.mem_cons_of_mem _ (List.mem_append_right _ hl)))
    · obtain ⟨b, -, hl⟩ := List.mem_flatMap.1 hl
      rw [Forest.tree, Forest.links, Forest.links, List.append_nil] at hl
      rcases List.mem_cons.1 hl with rfl | hl
      · exact .inr rfl
      · exact .inl (hperm.mem_iff.2 (List.mem_cons_of_mem _ (List.mem_append_left _ hl)))
  refine h.of_links (fun m hm => ?_) fun a b hl => ?_
  · obtain ⟨b, hb⟩ := Forest.exists_link none hm
    rcases hsub _ hb with hl | rfl
    · exact Forest.mem_toList_of_mem_links hl
    · exact Forest.mem_toList_of_mem_links (hperm.mem_iff.2 List.mem_cons_self)
  · rcases hsub _ hl with hl | rfl
    · exact .inl hl
    · exact .inr (hmoved ▸ hi)

theorem reparentAll? {parent : Handle} : {nodes : List Handle} → {d : Document α} →
    d.SoundWithin S → (∀ i ∈ nodes, S i) → d.reparentAll? nodes parent = .ok d' →
      d'.SoundWithin S
  | [], _, h, _, hok => Except.ok.inj hok ▸ h
  | i :: nodes, d, h, hnodes, hok => by
      rw [List.forall_mem_cons] at hnodes
      obtain ⟨d₁, h₁, hok⟩ := except_bind_eq_ok.1 hok
      exact (h.reparent? hnodes.1 h₁).reparentAll? hnodes.2 hok

/-- A page or a system that is made joins the set. -/
theorem insert (h : d.SoundWithin S) (hd : d.WellFormed) {p : Node α} (hp : p ∈ d.trees.toList)
    (base : String) (kind : NodeKind α) (hk : kind.tag ≠ .measure) :
    ∃ S', (d.insert p.handle base kind).2.SoundWithin S' ∧ ∀ i, S i → S' i := by
  have hlinks := links_insertAs hd.nodup_handles hp (d.suffixedId base) kind
  have hlist := toList_insertAs hd.nodup_handles hp (d.suffixedId base) kind
  rw [← insert_eq] at hlinks hlist
  have hfresh : ∀ n ∈ d.trees.toList, n.handle ≠ d.allocate.1 := fun n hn heq =>
    hd.allocate_not_mem (heq ▸ List.mem_map_of_mem hn)
  refine ⟨fun i => S i ∨ i = d.allocate.1, ⟨.inl h.root, fun a b hl ha => ?_, fun n hn hi => ?_⟩,
    fun i hi => .inl hi⟩
  · rcases List.mem_cons.1 (hlinks.mem_iff.1 hl) with heq | hl
    · rw [Prod.mk.injEq] at heq
      exact .inr (congrArg Node.handle heq.2)
    · obtain hroot | ha' := Forest.mem_of_mem_links hl
      · exact absurd hroot (by simp)
      · exact .inl (h.closed a b hl (ha.resolve_right (hfresh a ha')))
  · rcases List.mem_cons.1 (hlist.mem_iff.1 hn) with rfl | hn
    · exact Node.sound_of_tag_ne hk
    · exact h.sound n hn (hi.resolve_right (hfresh n hn))

theorem placeMeasures : (x : α) → (nodes : List Handle) → {d : Document α} → d.SoundWithin S →
    (d.placeMeasures x nodes).SoundWithin S
  | _, [], _, h => h
  | x, i :: nodes, d, h => by
      rw [Document.placeMeasures]
      split
      · exact (h.modify i fun n => .place n x).placeMeasures _ nodes
      · exact h.placeMeasures x nodes

theorem placeSystems : (systems : List (Handle × α)) → {d : Document α} → d.SoundWithin S →
    (d.placeSystems systems).SoundWithin S
  | [], _, h => h
  | (i, _) :: systems, _, h =>
      (h.modify i fun n => .mapSystem n _).placeSystems systems

/-- Making what is missing of the content system. -/
theorem contentSystem (h : d.SoundWithin S) (hd : d.WellFormed) :
    ∃ S', d.contentSystem.2.SoundWithin S' ∧ ∀ i, S i → S' i := by
  have hlive {id : String} {i : Handle} (hi : d.findLive? id = some i) :
      ∃ p ∈ d.trees.toList, p.handle = i := by
    obtain ⟨n, hn, -, hh⟩ := hd.findLive?_eq_some_iff.1 hi
    exact ⟨n, (score_sublist d).subset hn, hh⟩
  unfold Document.contentSystem
  cases d.findLive? contentSystemId with
  | some system => exact ⟨S, h, fun _ => id⟩
  | none =>
    dsimp only
    cases hpage : d.findLive? contentPageId with
    | some page =>
      obtain ⟨p, hp, rfl⟩ := hlive hpage
      exact h.insert hd hp contentSystemId _ (by simp [NodeKind.tag])
    | none =>
      obtain ⟨r, hr, hroot, htag⟩ := hd.exists_root
      have hk : r.kind.accepts (.page .empty : NodeKind α) :=
        NodeKind.accepts_of_document htag rfl
      obtain ⟨S₁, h₁, hS₁⟩ := h.insert hd hr contentPageId (.page .empty)
        (by simp [NodeKind.tag])
      have hd₁ : (d.insert r.handle contentPageId (.page .empty)).2.WellFormed :=
        hd.insert hr hk (.inr (.inl ⟨rfl, rfl⟩))
      have hlist := toList_insertAs hd.nodup_handles hr (d.suffixedId contentPageId) (.page .empty)
      rw [← insert_eq] at hlist
      obtain ⟨S₂, h₂, hS₂⟩ := h₁.insert hd₁ (hlist.mem_iff.2 List.mem_cons_self) contentSystemId
        (.system .empty) (by simp [NodeKind.tag])
      rw [hroot] at h₂
      exact ⟨S₂, h₂, fun i hi => hS₂ i (hS₁ i hi)⟩

end SoundWithin

/-! ### Passes that rebuild pages and systems -/

theorem WellFormed.sound_unbreak? {d d' : Document α} (hd : d.WellFormed) (h : d.Sound)
    (hok : d.unbreak? = .ok d') : d'.Sound := by
  have hd' := hd.unbreak? hok
  have hwithin := hd.soundWithin_isLive h
  rw [Document.unbreak?] at hok
  split at hok
  · exact Except.ok.inj hok ▸ h
  · have hsystems : ∀ i ∈ d.systems.map Node.handle, i ≠ Document.root := by
      intro i hi
      obtain ⟨n, hn, rfl⟩ := List.mem_map.1 hi
      obtain ⟨p, -, hn⟩ := List.mem_flatMap.1 hn
      exact hd.ne_root_of_mem_children (List.mem_map_of_mem hn)
    have hpages : ∀ i ∈ d.pages.map Node.handle, i ≠ Document.root :=
      fun i hi => hd.ne_root_of_mem_children hi
    have hbare := WellFormed.destroyAll hpages (WellFormed.destroyAll hsystems hd)
    obtain ⟨S, hS, hsub⟩ := (hwithin.destroyAll.destroyAll).contentSystem hbare
    refine hd'.sound_of_within (hS.reparentAll? (fun i hi => hsub i ?_) hok)
    obtain ⟨system, hsystem, hi⟩ := List.mem_flatMap.1 hi
    obtain ⟨n, hn, rfl⟩ := List.mem_map.1 hsystem
    exact hd.within_of_mem_children hwithin (hd.isLive_of_mem_systems hn) hi

theorem SoundWithin.emitSystem {d d' : Document α} {S : Handle → Prop} (h : d.SoundWithin S)
    (hd : d.WellFormed) {page : Handle} (hp : d.IsA page .page) {k : Nat} {overflow : Bool}
    {p : SystemPlan α} (hnodes : ∀ i ∈ p.nodes, S i)
    (hok : d.emitSystem page k overflow p = .ok d') :
    ∃ S', d'.SoundWithin S' ∧ ∀ i, S i → S' i := by
  rw [Document.emitSystem] at hok
  dsimp only at hok
  obtain ⟨d₁, h₁, hplaced⟩ := except_bind_eq_ok.1 hok
  obtain ⟨n, hn, rfl, -⟩ := hp
  obtain ⟨S', hS', hsub⟩ := h.insert hd hn ("system-" ++ toString k)
    (.system { ScoreSystem.empty with
      definitionWidth := p.definitionWidth, measuresWidth := p.measuresWidth, overflow })
    (by simp [NodeKind.tag])
  have hmoved := hS'.reparentAll? (fun i hi => hsub i (hnodes i hi)) h₁
  exact ⟨S', Except.ok.inj hplaced ▸ hmoved.placeMeasures 0 p.nodes, hsub⟩

theorem SoundWithin.emitSystems {r : BreakRules α} {page : Handle} :
    {plans : List (SystemPlan α)} → {k : Nat} → {marks marks' : List Mark} →
    {d d' : Document α} → {S : Handle → Prop} → d.SoundWithin S → d.WellFormed →
      d.IsA page .page → (∀ i ∈ plans.flatMap SystemPlan.nodes, S i) →
        emitSystems r page k marks d plans = .ok (marks', d') → ∃ S', d'.SoundWithin S'
  | [], _, _, _, d, _, S, h, _, _, _, hok => by
      rw [Document.emitSystems, Except.ok.injEq, Prod.mk.injEq] at hok
      exact ⟨S, hok.2 ▸ h⟩
  | p :: plans, k, marks, _, d, _, S, h, hd, hp, hnodes, hok => by
      rw [List.flatMap_cons, List.forall_mem_append] at hnodes
      rw [Document.emitSystems] at hok
      split at hok
      · exact h.emitSystems hd hp hnodes.2 hok
      · obtain ⟨d₁, h₁, hok⟩ := except_bind_eq_ok.1 hok
        have hstep := hd.rebuilt_emitSystem hp h₁
        obtain ⟨S₁, hS₁, hsub⟩ := h.emitSystem hd hp hnodes.1 h₁
        exact hS₁.emitSystems hstep.wellFormed (hstep.kinds _ _ hp)
          (fun i hi => hsub i (hnodes.2 i hi)) hok

theorem WellFormed.sound_breakContent {d d' : Document α} (hd : d.WellFormed) (h : d.Sound)
    {options : LayoutOptions α} {metrics : GlyphMetrics α} {marks : List Mark}
    (hok : d.breakContent options metrics = .ok (marks, d')) : d'.Sound := by
  have hd' := hd.breakContent hok
  rw [Document.breakContent] at hok
  obtain ⟨d₁, h₁, hok⟩ := except_bind_eq_ok.1 hok
  have hd₁ := hd.unbreak? h₁
  obtain ⟨S, hS, -⟩ := (hd₁.soundWithin_isLive (hd.sound_unbreak? h h₁)).contentSystem hd₁
  obtain ⟨hd₂, n, hn, hh, ht⟩ := hd₁.contentSystem
  generalize d₁.contentSystem = target at hok hS hd₂ hn hh
  obtain ⟨content, d₂⟩ := target
  dsimp only at hok hS hd₂ hn hh
  subst hh
  obtain ⟨⟨marks₁, d₃⟩, h₃, hok⟩ := except_bind_eq_ok.1 hok
  obtain ⟨p, hparent, hp⟩ := hd₂.exists_page_above hn ht
  rw [hparent, Option.getD_some] at h₃
  have hnodes : ∀ i ∈ (planSystems options.breakRules ((d₂.childNodes n.handle).map
      (BreakItem.ofNode d₂.definition metrics options.scaledUnit))).flatMap SystemPlan.nodes,
      S i := by
    intro i hi
    rw [flatMap_nodes_planSystems, List.map_map] at hi
    refine hd₂.within_of_mem_children hS ((isLive_iff d₂ n.handle).2 ⟨n, hn, rfl⟩) ?_
    rwa [children, ← List.map_congr_left fun m _ =>
      BreakItem.handle_ofNode d₂.definition metrics options.scaledUnit m]
  obtain ⟨S', hS'⟩ := hS.emitSystems hd₂ hp hnodes h₃
  rw [← (Prod.mk.inj (Except.ok.inj hok)).2] at hd' ⊢
  exact hd'.sound_of_within (S := S') ((hS'.destroy n.handle).of_links (fun _ hm => hm)
    fun _ _ hl => .inl hl)

theorem SoundWithin.emitPages : {plans : List (PagePlan α)} → {k : Nat} →
    {d d' : Document α} → {S : Handle → Prop} → d.SoundWithin S → d.WellFormed →
      (∀ i ∈ plans.flatMap PagePlan.nodes, S i) → emitPages k d plans = .ok d' →
        ∃ S', d'.SoundWithin S'
  | [], _, d, _, S, h, _, _, hok => ⟨S, Except.ok.inj hok ▸ h⟩
  | p :: plans, k, d, _, S, h, hd, hnodes, hok => by
      rw [List.flatMap_cons, List.forall_mem_append] at hnodes
      rw [Document.emitPages] at hok
      obtain ⟨d₁, h₁, hok⟩ := except_bind_eq_ok.1 hok
      have hstep := hd.rebuilt_emitPage h₁
      rw [Document.emitPage] at h₁
      dsimp only at h₁
      obtain ⟨ht, hc, hf⟩ := forall₂_placeSystems p.systems d
      have hplaced := hd.rebuilt_forall₂ ht hc hf
      obtain ⟨r, hr, hroot, -⟩ := hplaced.wellFormed.exists_root
      obtain ⟨S₁, hS₁, hsub⟩ := (h.placeSystems p.systems).insert hplaced.wellFormed hr
        ("page-" ++ toString k) (.page { contentHeight := p.height })
        (by simp [NodeKind.tag])
      rw [hroot] at hS₁
      exact (hS₁.reparentAll? (fun i hi => hsub i (hnodes.1 i hi)) h₁).emitPages hstep.wellFormed
        (fun i hi => hsub i (hnodes.2 i hi)) hok

theorem WellFormed.sound_breakSystems {d : Document α} (hd : d.WellFormed) (h : d.Sound)
    (options : LayoutOptions α) (metrics : GlyphMetrics α) :
    (d.breakSystems options metrics).document.Sound := by
  rw [Document.breakSystems, Outcome.guarded]
  split
  · exact h
  · split
    · rename_i hok
      exact hd.sound_breakContent h hok
    · exact h

theorem WellFormed.sound_breakPages {d : Document α} (hd : d.WellFormed) (h : d.Sound)
    (options : LayoutOptions α) : (d.breakPages options).document.Sound := by
  have hwithin := hd.soundWithin_isLive h
  suffices hS : ∃ S, (d.breakPages options).document.SoundWithin S by
    obtain ⟨S, hS⟩ := hS
    exact (hd.breakPages options).sound_of_within hS
  rw [Document.breakPages, Outcome.guarded]
  split
  · exact ⟨_, hwithin⟩
  · split
    · rename_i content hcontent
      obtain ⟨n, hn, -, hh⟩ := hd.findLive?_eq_some_iff.1 hcontent
      rw [paginate]
      dsimp only
      generalize hres : (emitPages 1 d _ >>= fun d => _ : Except Fault (Document α)) = res
      cases res with
      | error f => exact ⟨_, hwithin⟩
      | ok d' =>
        obtain ⟨d₁, h₁, hok⟩ := except_bind_eq_ok.1 hres
        obtain ⟨S, hS⟩ := hwithin.emitPages hd (fun i hi => by
          rw [flatMap_systems_planPages, List.map_map] at hi
          exact hd.within_of_mem_children hwithin ((isLive_iff d content).2 ⟨n, hn, hh⟩) hi) h₁
        refine ⟨S, ?_⟩
        rw [Outcome.ofExcept, Outcome.done, ← Except.ok.inj hok]
        exact (hS.destroy content).of_links (fun _ hm => hm) fun _ _ hl => .inl hl
    · exact ⟨_, hwithin.of_links (fun _ hm => hm) fun _ _ hl => .inl hl⟩

end Document

end ScoreLayout
