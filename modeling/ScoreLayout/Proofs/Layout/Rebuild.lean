import ScoreLayout.Proofs.Layout.Frame

/-!
# Pages and systems rebuilt

Unbreaking and breaking take pages and systems away and make new ones, one edit after another. Each
of these edits keeps a document well formed, and no edit takes the kind of a node that stays.

## Main results

* `Document.WellFormed.unbreak?`, `Document.WellFormed.breakSystems`,
  `Document.WellFormed.breakPages` — the passes that rebuild pages and systems.
* `Document.WellFormed.run`, `Document.WellFormed.layout` — every pass, and a whole layout.
-/

namespace ScoreLayout

variable {α : Type}

namespace Document

/-! ### Kinds that stay -/

theorem WellFormed.isA_unique {d : Document α} (hd : d.WellFormed) {h : Handle}
    {tag tag' : NodeTag} (hi : d.IsA h tag) (hi' : d.IsA h tag') : tag = tag' := by
  obtain ⟨n, hn, hh, rfl⟩ := hi
  obtain ⟨n', hn', hh', rfl⟩ := hi'
  rw [hd.eq_of_handle_eq hn hn' (hh.trans hh'.symm)]

theorem WellFormed.not_isA {d : Document α} (hd : d.WellFormed) {h : Handle} {tag tag' : NodeTag}
    (hi : d.IsA h tag) (hne : tag ≠ tag') : ¬ d.IsA h tag' := fun hi' => hne (hd.isA_unique hi hi')

theorem WellFormed.isA_ne_root {d : Document α} (hd : d.WellFormed) {h : Handle} {tag : NodeTag}
    (hi : d.IsA h tag) (hne : tag ≠ .document) : h ≠ Document.root := by
  rintro rfl
  exact hd.not_isA hi hne hd.exists_root

/-- What takes place between two documents keeps the first well formed, and every node its kind. -/
structure Rebuilt (d d' : Document α) : Prop where
  wellFormed : d'.WellFormed
  kinds : ∀ h tag, d.IsA h tag → d'.IsA h tag

theorem Rebuilt.trans {d d₁ d₂ : Document α} (h : d.Rebuilt d₁) (h' : d₁.Rebuilt d₂) :
    d.Rebuilt d₂ :=
  ⟨h'.wellFormed, fun i tag hi => h'.kinds i tag (h.kinds i tag hi)⟩

variable [Scalar α]

theorem WellFormed.rebuilt_forall₂ {d d' : Document α} (hd : d.WellFormed)
    (ht : Forest.Forall₂ Node.SameMusic d.trees d'.trees) (hc : d'.capacity = d.capacity)
    (hf : d'.freed = d.freed) : d.Rebuilt d' :=
  ⟨hd.of_forall₂ ht hc hf, fun _ _ hi => hi.of_forall₂ ht⟩

/-! ### The edits of the layout -/

/-- A page or a system made below a node that takes it, under an identifier that ends in a digit. -/
theorem WellFormed.rebuilt_insert {d : Document α} (hd : d.WellFormed) {parent : Handle}
    {tag : NodeTag} (hp : d.IsA parent tag) {base : String} (kind : NodeKind α)
    (hk : ∀ k : NodeKind α, k.tag = tag → k.accepts kind) (hbase : EndsInDigit base) :
    d.Rebuilt (d.insert parent base kind).2 ∧
      (d.insert parent base kind).2.IsA (d.insert parent base kind).1 kind.tag := by
  obtain ⟨p, hmem, rfl, rfl⟩ := hp
  have hlist := toList_insertAs hd.nodup_handles hmem (d.suffixedId base) kind
  rw [← insert_eq] at hlist
  refine ⟨⟨hd.insert hmem (hk p.kind rfl) (.inl hbase), fun h tag hi => ?_⟩, ?_⟩
  · exact hi.of_subset fun n hn => hlist.mem_iff.2 (List.mem_cons_of_mem _ hn)
  · exact ⟨_, hlist.mem_iff.2 List.mem_cons_self, rfl, rfl⟩

omit [Scalar α] in
theorem WellFormed.rebuilt_reparentAll? {d d' : Document α} (hd : d.WellFormed)
    {nodes : List Handle} {parent : Handle} {tag : NodeTag} (hp : d.IsA parent tag)
    (ht : tag ≠ .element) (hok : d.reparentAll? nodes parent = .ok d') : d.Rebuilt d' := by
  obtain ⟨hd', hperm⟩ := WellFormed.reparentAll? hd (hd.not_isA hp ht) hok
  exact ⟨hd', fun h tag hi => hi.of_subset hperm.symm.subset⟩

theorem forall₂_placeMeasures : (x : α) → (nodes : List Handle) → (d : Document α) →
    Forest.Forall₂ Node.SameMusic d.trees (d.placeMeasures x nodes).trees ∧
      (d.placeMeasures x nodes).capacity = d.capacity ∧
      (d.placeMeasures x nodes).freed = d.freed
  | _, [], d => ⟨.refl fun n _ => .refl n, rfl, rfl⟩
  | x, h :: nodes, d => by
      rw [placeMeasures]
      split
      · rename_i m _
        have hstep := forall₂_modify Node.SameMusic.refl d h
          (f := fun n => n.mapKind (.mapMeasure fun m => { m with x })) fun n _ _ =>
            ⟨rfl, rfl, by cases hk : n.kind <;> rw [Node.mapKind, hk] <;> rfl⟩
        obtain ⟨ht, hc, hf⟩ := forall₂_placeMeasures (x + m.width) nodes
          (d.modify h fun n => n.mapKind (.mapMeasure fun m => { m with x }))
        exact ⟨hstep.trans ht fun _ _ _ => Node.SameMusic.trans, hc, hf⟩
      · exact forall₂_placeMeasures x nodes d

theorem forall₂_placeSystems : (systems : List (Handle × α)) → (d : Document α) →
    Forest.Forall₂ Node.SameMusic d.trees (d.placeSystems systems).trees ∧
      (d.placeSystems systems).capacity = d.capacity ∧ (d.placeSystems systems).freed = d.freed
  | [], d => ⟨.refl fun n _ => .refl n, rfl, rfl⟩
  | (h, y) :: systems, d => by
      have hstep := forall₂_modify Node.SameMusic.refl d h
        (f := fun n => n.mapKind (.mapSystem fun s => { s with y })) fun n _ _ =>
          ⟨rfl, rfl, NodeKind.bare_mapSystem ..⟩
      obtain ⟨ht, hc, hf⟩ := forall₂_placeSystems systems
        (d.modify h fun n => n.mapKind (.mapSystem fun s => { s with y }))
      exact ⟨hstep.trans ht fun _ _ _ => Node.SameMusic.trans, hc, hf⟩

/-! ### Unbreaking -/

omit [Scalar α] in
theorem WellFormed.isA_of_mem_score {d : Document α} {n : Node α} (hn : n ∈ d.score.toList) :
    d.IsA n.handle n.tag := ⟨n, (score_sublist d).subset hn, rfl, rfl⟩

theorem WellFormed.unbreak? {d d' : Document α} (hd : d.WellFormed) (hok : d.unbreak? = .ok d') :
    d'.WellFormed := by
  rw [Document.unbreak?] at hok
  split at hok
  · exact Except.ok.inj hok ▸ hd
  · have hsystems : ∀ h ∈ d.systems.map Node.handle, h ≠ Document.root := by
      intro h hmem
      obtain ⟨n, hn, rfl⟩ := List.mem_map.1 hmem
      obtain ⟨p, -, hn⟩ := List.mem_flatMap.1 hn
      exact hd.ne_root_of_mem_children (List.mem_map_of_mem hn)
    have hpages : ∀ h ∈ d.pages.map Node.handle, h ≠ Document.root :=
      fun h hmem => hd.ne_root_of_mem_children hmem
    have hbare := WellFormed.destroyAll hpages (WellFormed.destroyAll hsystems hd)
    obtain ⟨htarget, n, hn, hh, ht⟩ := hbare.contentSystem
    have hsystem : IsA _ _ .system := ⟨n, (score_sublist _).subset hn, hh, ht⟩
    exact (htarget.rebuilt_reparentAll? hsystem (by decide) hok).wellFormed

omit [Scalar α] in
/-- The page above a system of the score. -/
theorem WellFormed.exists_page_above {d : Document α} (hd : d.WellFormed) {n : Node α}
    (hn : n ∈ d.score.toList) (ht : n.tag = .system) :
    ∃ p, d.parent? n.handle = some p ∧ d.IsA p .page := by
  obtain ⟨r, below, detached, htrees, -, hr⟩ := hd.root
  rw [score, htrees, Forest.first, Forest.toList_tree] at hn
  rcases List.mem_cons.1 hn with rfl | hn
  · rw [ht] at hr
    exact absurd hr (by decide)
  · obtain ⟨a, hl⟩ := Forest.exists_link_some r hn
    have hlink : (some a, n) ∈ d.trees.links none := by
      rw [htrees, Forest.links]
      exact List.mem_cons_of_mem _ (List.mem_append_left _ hl)
    have ha : a.tag = .page := NodeKind.eq_page_of_accepts (hd.accepts a n hlink) ht
    refine ⟨a.handle, hd.parent?_eq_some_iff.2 ⟨a, n, hlink, rfl, rfl⟩, a, ?_, rfl, ha⟩
    obtain h | h := Forest.mem_of_mem_links hlink
    · exact absurd h (by simp)
    · exact h

/-! ### Breaking into systems -/

theorem endsInDigit_base (name : String) (k : Nat) : EndsInDigit (name ++ toString k) :=
  (EndsInDigit.repr k).append name

theorem WellFormed.rebuilt_emitSystem {d d' : Document α} (hd : d.WellFormed) {page : Handle}
    (hp : d.IsA page .page) {k : Nat} {overflow : Bool} {p : SystemPlan α}
    (hok : d.emitSystem page k overflow p = .ok d') : d.Rebuilt d' := by
  rw [emitSystem] at hok
  dsimp only at hok
  obtain ⟨d₁, h₁, hok⟩ := except_bind_eq_ok.1 hok
  obtain ⟨hins, hnew⟩ := hd.rebuilt_insert hp
    (.system { ScoreSystem.empty with
      definitionWidth := p.definitionWidth, measuresWidth := p.measuresWidth, overflow })
    (fun _ hk => NodeKind.accepts_of_page hk rfl) (endsInDigit_base "system-" k)
  have hmoved := hins.wellFormed.rebuilt_reparentAll? hnew NodeTag.noConfusion h₁
  obtain ⟨ht, hc, hf⟩ := forall₂_placeMeasures 0 p.nodes d₁
  exact (hins.trans hmoved).trans
    (Except.ok.inj hok ▸ hmoved.wellFormed.rebuilt_forall₂ ht hc hf)

theorem WellFormed.rebuilt_emitSystems {r : BreakRules α} {page : Handle} :
    {plans : List (SystemPlan α)} → {k : Nat} → {marks marks' : List Mark} →
    {d d' : Document α} → d.WellFormed → d.IsA page .page →
      emitSystems r page k marks d plans = .ok (marks', d') → d.Rebuilt d'
  | [], _, _, _, d, _, hd, _, hok => by
      rw [emitSystems, Except.ok.injEq, Prod.mk.injEq] at hok
      exact hok.2 ▸ ⟨hd, fun _ _ hi => hi⟩
  | p :: plans, k, marks, _, d, _, hd, hp, hok => by
      rw [emitSystems] at hok
      split at hok
      · exact rebuilt_emitSystems hd hp hok
      · obtain ⟨d₁, h₁, hok⟩ := except_bind_eq_ok.1 hok
        have hstep := hd.rebuilt_emitSystem hp h₁
        exact hstep.trans (rebuilt_emitSystems hstep.wellFormed (hstep.kinds _ _ hp) hok)

theorem WellFormed.breakContent {d d' : Document α} (hd : d.WellFormed)
    {options : LayoutOptions α} {metrics : GlyphMetrics α} {marks : List Mark}
    (hok : d.breakContent options metrics = .ok (marks, d')) : d'.WellFormed := by
  rw [Document.breakContent] at hok
  obtain ⟨d₁, h₁, hok⟩ := except_bind_eq_ok.1 hok
  obtain ⟨hd₂, n, hn, hh, ht⟩ := (hd.unbreak? h₁).contentSystem
  generalize d₁.contentSystem = target at hok hd₂ hn hh
  obtain ⟨content, d₂⟩ := target
  dsimp only at hok hd₂ hn hh
  subst hh
  obtain ⟨⟨marks₁, d₃⟩, h₃, hok⟩ := except_bind_eq_ok.1 hok
  rw [← (Prod.mk.inj (Except.ok.inj hok)).2]
  obtain ⟨p, hparent, hp⟩ := hd₂.exists_page_above hn ht
  rw [hparent, Option.getD_some] at h₃
  have hemit := hd₂.rebuilt_emitSystems hp h₃
  refine (hemit.wellFormed.destroy ?_).of_eq rfl rfl rfl
  exact hd₂.isA_ne_root (WellFormed.isA_of_mem_score hn) (by rw [ht]; decide)

theorem WellFormed.breakSystems {d : Document α} (hd : d.WellFormed) (options : LayoutOptions α)
    (metrics : GlyphMetrics α) : (d.breakSystems options metrics).document.WellFormed := by
  rw [Document.breakSystems, Outcome.guarded]
  split
  · exact hd
  · split
    · rename_i hok
      exact hd.breakContent hok
    · exact hd

/-! ### Breaking into pages -/

theorem WellFormed.rebuilt_emitPage {d d' : Document α} (hd : d.WellFormed) {k : Nat}
    {p : PagePlan α} (hok : d.emitPage k p = .ok d') : d.Rebuilt d' := by
  obtain ⟨ht, hc, hf⟩ := forall₂_placeSystems p.systems d
  have hplaced := hd.rebuilt_forall₂ ht hc hf
  obtain ⟨hins, hnew⟩ := hplaced.wellFormed.rebuilt_insert hplaced.wellFormed.exists_root
    (.page { contentHeight := p.height })
    (fun _ hk => NodeKind.accepts_of_document hk rfl) (endsInDigit_base "page-" k)
  exact (hplaced.trans hins).trans
    (hins.wellFormed.rebuilt_reparentAll? hnew NodeTag.noConfusion hok)

theorem WellFormed.rebuilt_emitPages : {plans : List (PagePlan α)} → {k : Nat} →
    {d d' : Document α} → d.WellFormed → emitPages k d plans = .ok d' → d.Rebuilt d'
  | [], _, _, _, hd, hok => Except.ok.inj hok ▸ ⟨hd, fun _ _ hi => hi⟩
  | p :: plans, k, d, _, hd, hok => by
      rw [emitPages] at hok
      obtain ⟨d₁, h₁, hok⟩ := except_bind_eq_ok.1 hok
      have hstep := hd.rebuilt_emitPage h₁
      exact hstep.trans (rebuilt_emitPages hstep.wellFormed hok)

theorem WellFormed.breakPages {d : Document α} (hd : d.WellFormed) (options : LayoutOptions α) :
    (d.breakPages options).document.WellFormed := by
  rw [Document.breakPages, Outcome.guarded]
  split
  · exact hd
  · split
    · rename_i content hcontent
      obtain ⟨n, hn, hid, hh⟩ := hd.findLive?_eq_some_iff.1 hcontent
      have hpage := (hd.reserved n ((score_sublist d).subset hn)).1 hid
      rw [paginate]
      dsimp only
      generalize hres : (emitPages 1 d _ >>= fun d => _ : Except Fault (Document α)) = res
      cases res with
      | error f => exact hd
      | ok d' =>
        obtain ⟨d₁, h₁, hok⟩ := except_bind_eq_ok.1 hres
        have hemit := hd.rebuilt_emitPages h₁
        rw [Outcome.ofExcept, Outcome.done, ← Except.ok.inj hok]
        refine (hemit.wellFormed.destroy ?_).of_eq rfl rfl rfl
        exact hd.isA_ne_root (hh ▸ WellFormed.isA_of_mem_score hn) (by rw [hpage]; decide)
    · exact hd.of_eq rfl rfl rfl

/-! ### All passes -/

theorem WellFormed.prepare {d : Document α} (hd : d.WellFormed) : d.prepare.document.WellFormed := by
  rw [Document.prepare]
  split
  · exact hd
  · rename_i d₁ h₁
    have hreset := d₁.sameTree_reset
    exact (((hreset.trans d₁.reset.sameTree_anchorControls).withStage _).wellFormed
      (hd.unbreak? h₁))

/-- Every pass leaves a well-formed document well formed, also where it ends in a fault. -/
theorem WellFormed.run {d : Document α} (hd : d.WellFormed) (e : Engine α) (pass : LayoutPass) :
    (e.run d pass).document.WellFormed := by
  cases pass with
  | prepare => exact hd.prepare
  | align => exact (d.sameTree_align e.metrics e.options.scaledUnit).wellFormed hd
  | space => exact (d.sameTree_space e.options).wellFormed hd
  | breakSystems => exact hd.breakSystems e.options e.metrics
  | stackStaves => exact (d.sameTree_stackStaves e.options e.metrics).wellFormed hd
  | breakPages => exact hd.breakPages e.options
  | fillLines => exact (hd.sameTree_fillLines e.options).wellFormed hd
  | fillPages => exact (hd.sameTree_fillPages e.options).wellFormed hd
  | place => exact (hd.sameTree_place e.options e.metrics).wellFormed hd

theorem WellFormed.runAll {e : Engine α} : {passes : List LayoutPass} → {o : Outcome α} →
    o.document.WellFormed →
      (passes.foldl (fun o pass => o.andThen fun d => e.run d pass) o).document.WellFormed
  | [], _, ho => ho
  | pass :: passes, o, ho => by
      rw [List.foldl_cons]
      refine WellFormed.runAll ?_
      rw [Outcome.andThen]
      split
      · exact ho
      · exact ho.run e pass

theorem WellFormed.layout {d : Document α} (hd : d.WellFormed) (e : Engine α) :
    (e.layout d).document.WellFormed :=
  WellFormed.runAll (o := .done d []) hd

end Document

end ScoreLayout
