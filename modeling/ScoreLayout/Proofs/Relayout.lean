import ScoreLayout.Proofs.Layout.TwinLayouts

/-!
# Layouts do not depend on earlier ones

Whatever layouts and passes have been run on a document since it was edited last, and whatever
engines have run them, the next layout comes to the same. Preparation gives up all pages and systems
and clears all nodes, so it leaves documents of one content in the same state, but for handles of
pages and systems and for signatures that alignment overwrites. From there on every pass treats them
alike.

## Main definitions

* `Document.Relaid` — documents that layouts and passes make of a document.
* `Document.ReadsAs` — two outcomes that give the same to whoever reads them.

## Main results

* `Document.Reachable.layout_of_relaid` — layouts of a document and of what layouts have made of it.
-/

namespace ScoreLayout

variable {α : Type}

/-- Nodes of which the same is known. `symbol` are the handles that control elements may be tied to,
`spare` those of control elements that only the second document has. -/
def Comparison.strict (spare symbol : Handle → Prop) : Comparison α where
  spare := spare
  symbol := symbol
  agree n n' := n'.state = n.state
  agree_of_eq h := h
  agree_kind _ _ _ h := h

theorem Comparison.strict_strict (spare symbol : Handle → Prop) :
    (strict spare symbol : Comparison α).Strict := fun h => h

variable [Scalar α]

namespace Document

/-- What layouts and single passes by any engines make of a document. -/
inductive Relaid (d : Document α) : Document α → Prop
  | refl : Relaid d d
  | layout {d' : Document α} (h : Relaid d d') (e : Engine α) : Relaid d (e.layout d').document
  | pass {d' : Document α} (h : Relaid d d') (e : Engine α) (pass : LayoutPass) :
      Relaid d (e.run d' pass).document

/-- Whatever is run on a document keeps its content. -/
theorem Relaid.sameContent {d d' : Document α} (h : d.Relaid d') (hd : d.Ready) :
    d.SameContent d' ∧ d'.Ready := by
  induction h with
  | refl => exact ⟨.refl d, hd⟩
  | layout _ e ih =>
    obtain ⟨hsame, hready⟩ := ih.2.runAll e LayoutPass.all
    exact ⟨ih.1.trans hsame, hready⟩
  | pass _ e pass ih =>
    obtain ⟨hsame, hready⟩ := ih.2.run e pass
    exact ⟨ih.1.trans hsame, hready⟩

/-! ### Preparing documents of one content -/

omit [Scalar α] in
/-- Two scores in which every identifier means the same. -/
theorem resolveAnchor_congr {d d' : Document α} (hd : d.WellFormed) (hd' : d'.WellFormed)
    (hscore : ∀ n ∈ d.score.toList, ∃ n' ∈ d'.score.toList, n'.id = n.id ∧ n'.tag = n.tag ∧
      (n.tag = .element → n'.handle = n.handle))
    (hscore' : ∀ n' ∈ d'.score.toList, ∃ n ∈ d.score.toList, n'.id = n.id)
    (hrest : d'.trees.rest = d.trees.rest) (id : String) :
    d'.resolveAnchor id = d.resolveAnchor id := by
  have hfind {d : Document α} (hd : d.WellFormed) {n : Node α} :
      d.score.find? (hasId id) = some n ↔ n ∈ d.score.toList ∧ n.id = id := by
    rw [Forest.find?_eq_find?_toList]
    exact find?_key_eq_some_iff hd.nodup_score_ids
  rw [hd.resolveAnchor_eq, hd'.resolveAnchor_eq, hrest]
  cases hn : d.score.find? (hasId id) with
  | none =>
    have hnone : d'.score.find? (hasId id) = none := by
      rw [Option.eq_none_iff_forall_ne_some]
      intro n' hn'
      obtain ⟨hmem', hid⟩ := (hfind hd').1 hn'
      obtain ⟨n, hmem, hsame⟩ := hscore' n' hmem'
      exact absurd (hn.symm.trans ((hfind hd).2 ⟨hmem, hsame.symm.trans hid⟩)) (by simp)
    rw [hnone]
  | some n =>
    obtain ⟨hmem, hid⟩ := (hfind hd).1 hn
    obtain ⟨n', hmem', hsame, htag, hhandle⟩ := hscore n hmem
    rw [(hfind hd').2 ⟨hmem', hsame.trans hid⟩]
    dsimp only
    rw [htag]
    split_ifs with ht
    · rw [hhandle ht]
    · rfl

/-- Two unbroken documents of one content, in whatever order, have the same anchors. -/
theorem Shape.anchor?_congr {d d' : Document α} {D : ScoreDefinition}
    {r r' page page' system system' : Node α} {content content' detached : Forest (Node α)}
    (hd : d.Shape D r (.tree page (.tree system content)) detached)
    (hd' : d'.Shape D r' (.tree page' (.tree system' content')) detached) (hr : r.SameMusic r')
    (hpage : page'.id = page.id) (hsystem : system'.id = system.id)
    (hcontent : ∀ n ∈ content.toList, ∃ n' ∈ content'.toList, n.SameMusic n')
    (hcontent' : ∀ n' ∈ content'.toList, ∃ n ∈ content.toList, n.SameMusic n') (inMeasure : Bool)
    (id : String) (c : Control α) :
    d'.reset.anchor? inMeasure id c = d.reset.anchor? inMeasure id c := by
  have htag : page.tag = .page := hd.tag_of_mem_pages List.mem_cons_self
  have htag' : page'.tag = .page := hd'.tag_of_mem_pages List.mem_cons_self
  have hts : system.tag = .system := hd.tag_of_mem_systems List.mem_cons_self
  have hts' : system'.tag = .system := hd'.tag_of_mem_systems List.mem_cons_self
  have hmem {d : Document α} {r page system : Node α} {content : Forest (Node α)}
      (hd : d.Shape D r (.tree page (.tree system content)) detached) {n : Node α} :
      n ∈ d.reset.score.toList ↔
        n = r.reset ∨ n = page.reset ∨ n = system.reset ∨ ∃ m ∈ content.toList, m.reset = n := by
    rw [hd.reset.score, Forest.toList_tree, Forest.toList_map, Forest.toList_tree,
      Forest.toList_tree, List.map_cons, List.map_cons, List.mem_cons, List.mem_cons, List.mem_cons,
      List.mem_map]
  have hmeans {n n' : Node α} (hid : n'.id = n.id) (ht : n'.tag = n.tag)
      (hn : n.tag = .element → n'.handle = n.handle) : n'.reset.id = n.reset.id ∧
        n'.reset.tag = n.reset.tag ∧ (n.reset.tag = .element → n'.reset.handle = n.reset.handle) :=
    ⟨hid, by rw [Node.tag_reset, Node.tag_reset, ht], fun h => hn (n.tag_reset ▸ h)⟩
  have hsame {n n' : Node α} (h : n.SameMusic n') := hmeans h.id h.tag fun _ => h.handle
  have hresolve := resolveAnchor_congr hd.reset.wellFormed hd'.reset.wellFormed (fun n hn => ?_)
    (fun n' hn' => ?_) (hd'.reset.rest.trans hd.reset.rest.symm)
  · simp only [anchor?, hresolve]
  · rcases (hmem hd).1 hn with rfl | rfl | rfl | ⟨m, hm, rfl⟩
    · exact ⟨_, (hmem hd').2 (.inl rfl), hsame hr⟩
    · exact ⟨_, (hmem hd').2 (.inr (.inl rfl)), hmeans hpage (htag'.trans htag.symm) fun ht => by
        cases htag.symm.trans ht⟩
    · exact ⟨_, (hmem hd').2 (.inr (.inr (.inl rfl))), hmeans hsystem (hts'.trans hts.symm) fun ht => by
        cases hts.symm.trans ht⟩
    · obtain ⟨m', hm', hmm⟩ := hcontent m hm
      exact ⟨_, (hmem hd').2 (.inr (.inr (.inr ⟨m', hm', rfl⟩))), hsame hmm⟩
  · rcases (hmem hd').1 hn' with rfl | rfl | rfl | ⟨m', hm', rfl⟩
    · exact ⟨_, (hmem hd).2 (.inl rfl), hr.id⟩
    · exact ⟨_, (hmem hd).2 (.inr (.inl rfl)), hpage⟩
    · exact ⟨_, (hmem hd).2 (.inr (.inr (.inl rfl))), hsystem⟩
    · obtain ⟨m, hm, hmm⟩ := hcontent' m' hm'
      exact ⟨_, (hmem hd).2 (.inr (.inr (.inr ⟨m, hm, rfl⟩))), hmm.id⟩

/-- Nodes of one music carry the same control element. -/
theorem control?_reset {n n' : Node α} (h : n.SameMusic n') :
    n'.reset.kind.control? = n.reset.kind.control? := by
  have hbare (n : Node α) : n.reset.kind.control? = n.kind.bare.control? := by
    rw [Node.reset]
    cases n.kind <;> rfl
  rw [hbare, hbare, h.kind]

omit [Scalar α] in
/-- The mark on a control element depends on what it is tied to. -/
theorem anchorMarks_congr {d d' : Document α} {above above' : Option (Node α)} {n n' : Node α}
    (hok : ∀ c, d'.anchor? (inMeasure above) n.id c = d.anchor? (inMeasure above) n.id c)
    (habove : inMeasure above' = inMeasure above) (hid : n'.id = n.id)
    (hcontrol : n'.kind.control? = n.kind.control?) :
    d'.anchorMarks above' n' = d.anchorMarks above n := by
  have hok (c : Control α) : d'.anchor? (inMeasure above') n'.id c =
      d.anchor? (inMeasure above) n.id c := by rw [habove, hid, hok]
  rw [anchorMarks, anchorMarks, hcontrol]
  cases n.kind.control? with
  | none => rfl
  | some c =>
    have hc := hok c
    rw [inMeasure, inMeasure] at hc
    dsimp only
    rw [anchorNode, anchorNode, hc]
    cases d.anchor? ((above.map fun p => decide (p.tag = .measure)).getD false) n.id c <;> rfl

/-- Two documents of one content are prepared alike. -/
theorem SameContent.readied {d d' : Document α} (h : d.SameContent d') (hd : d.WellFormed)
    (hd' : d'.WellFormed) (hfree : Unreserved d.trees.rest) :
    d'.prepare.marks = d.prepare.marks ∧
      Readied (.strict (fun _ => False) d.HasSymbol) d.prepare.document d'.prepare.document := by
  obtain ⟨r, pages, hshape⟩ := hd.exists_shape
  obtain ⟨r', pages', hshape'⟩ := hd'.exists_shape
  rw [h.definition, h.rest] at hshape'
  obtain ⟨page, system, d₁, hok, hd₁, -, -, hids⟩ := hshape.unbreak?
  obtain ⟨page', system', d₁', hok', hd₁', -, -, hids'⟩ := hshape'.unbreak?
  obtain ⟨hpage, hsystem⟩ := hids hfree
  obtain ⟨hpage', hsystem'⟩ := hids' hfree
  have hroot : r.SameMusic r' := by
    have hroot := h.root
    rw [hshape.score, hshape'.score] at hroot
    cases hroot with
    | cons hr _ _ => exact hr
  have hanchor := hd₁.anchor?_congr hd₁' hroot (hpage'.trans hpage.symm)
    (hsystem'.trans hsystem.symm) (fun _ hn => exists_mem_of_forall₂ h.content.flip.toList hn)
    fun _ hn' => exists_mem_of_forall₂ h.content.toList hn'
  have hpadded : Forest.Padded (fun n : Node α => n.tag = .control ∧ False)
      (fun n n' => n.SameMusic n' ∧ ¬ False) d.content d'.content :=
    .of_forall₂ (h.content.mono fun _ _ hn => ⟨hn, not_false⟩)
  rw [prepare_eq hok, prepare_eq hok']
  refine ⟨?_, hd₁.readied hd₁' hpadded (fun a => ?_)
    (fun l _ c _ => congrArg Except.toOption (hanchor _ _ c)) hroot not_false
    (fun l _ c _ hspare => absurd hspare not_false) ?_ hfree hfree .prepared⟩
  · show d₁'.reset.anchorControls.1 = d₁.reset.anchorControls.1
    rw [hd₁.reset.anchorControls_marks, hd₁'.reset.anchorControls_marks]
    have hreset : Forest.Padded (fun _ : Node α => False) (fun n n' : Node α => n'.id = n.id ∧
        n'.tag = n.tag ∧ n'.kind.control? = n.kind.control?)
        (d.content.map Node.reset) (d'.content.map Node.reset) :=
      .of_forall₂ (h.content.map fun n n' hn =>
        ⟨hn.id, by rw [Node.tag_reset, Node.tag_reset, hn.tag], control?_reset hn⟩)
    refine hreset.flatMap_links (A := fun a a' => inMeasure a' = inMeasure a) (fun n n' hn => ?_) ?_
      (fun _ _ hn => hn.elim) fun l _ l' _ habove hn =>
        anchorMarks_congr (fun c => hanchor _ _ c) habove hn.1 hn.2.2
    · rw [inMeasure, inMeasure, Option.map_some, Option.map_some, hn.2.1]
    · have htag : system.tag = .system := hd₁.tag_of_mem_systems List.mem_cons_self
      have htag' : system'.tag = .system := hd₁'.tag_of_mem_systems List.mem_cons_self
      rw [inMeasure, inMeasure, Option.map_some, Option.map_some, Node.tag_reset, Node.tag_reset,
        htag, htag']
  · show d.HasSymbol a ↔ d₁.HasSymbol a
    rw [HasSymbol, HasSymbol, hd₁.content_eq, Forest.branches_tree, Forest.branches_tree]
  · rw [musicIds, musicIds, hd₁.content_eq, hd₁'.content_eq, hd₁.rest, hd₁'.rest]
    simp only [Forest.branches_tree]
    rw [map_eq_of_forall₂ (fun (n n' : Node α) (hn : n.SameMusic n') => hn.id.symm) h.content.toList]

/-! ### Reading the outcomes -/

/-- Two outcomes that give the same to whoever reads them. -/
structure ReadsAs (o o' : Outcome α) : Prop where
  fault : o'.fault = o.fault
  marks : o'.marks = o.marks
  document : o.fault = none →
    o'.document.pageCount = o.document.pageCount ∧
      o'.document.systemCount = o.document.systemCount ∧
      (∀ options, o'.document.displayList options = o.document.displayList options) ∧
      ∀ id, o'.document.timeOf? id = o.document.timeOf? id

/-- Layouts of two documents of one content. -/
theorem SameContent.readsAs_layout {d d' : Document α} (h : d.SameContent d') (hd : d.Ready)
    (hd' : d'.Ready) (e : Engine α) : ReadsAs (e.layout d) (e.layout d') := by
  obtain ⟨hmarks, hreadied⟩ := h.readied hd.wellFormed hd'.wellFormed hd.unreserved
  have hbeside : Outcome.Beside (Readied (.strict (fun _ => False) d.HasSymbol))
      (e.run d .prepare) (e.run d' .prepare) :=
    ⟨hd'.wellFormed.fault_prepare.1.trans hd.wellFormed.fault_prepare.1.symm, hmarks,
      fun _ => hreadied⟩
  have htwins : Outcome.Beside (Together (Twin (.strict (fun _ => False) d.HasSymbol)) .finalized)
      (e.layout d) (e.layout d') := by
    refine Outcome.Beside.runAll_cons (R := fun e e' => e = d.prepare.document ∧
      e' = d'.prepare.document) ⟨hbeside.fault, hbeside.marks, fun _ => ⟨rfl, rfl⟩⟩ ?_
    rintro _ _ ⟨rfl, rfl⟩
    exact hreadied.runAll_tail e (Comparison.strict_strict _ _) (.prepare hd) (.prepare hd')
      (.inl fun _ => not_false)
  refine ⟨htwins.fault, htwins.marks, fun hok => ?_⟩
  have htwin := (htwins.document hok).related
  exact ⟨htwin.pageCount_eq, htwin.systemCount_eq,
    fun options => htwin.displayList_eq (Comparison.strict_strict _ _) options,
    htwin.timeOf?_eq fun _ => not_false⟩

/-- Whatever layouts and passes have been run on a document, the next layout gives the same as if
none had been. -/
theorem Reachable.layout_of_relaid {d d' : Document α} (h : d.Reachable)
    (hfree : Unreserved d.trees.rest) (hd' : d.Relaid d') (e : Engine α) :
    ReadsAs (e.layout d) (e.layout d') := by
  obtain ⟨hsame, hready⟩ := hd'.sameContent (h.ready hfree)
  exact hsame.readsAs_layout (h.ready hfree) hready e

/-- A dynamic mark in a measure: a layout in one unbroken system and a single pass leave no trace in
the next layout. -/
theorem Reachable.layout_of_relaid_measures : ∃ d d' : Document ℚ, d.Reachable ∧ d.Relaid d' ∧
    d'.stage = .aligned ∧ ReadsAs (Engine.default.layout d) (Engine.default.layout d') ∧
      (Engine.default.layout d).fault = none := by
  have hlayer := (((Reachable.ofDefinition (α := ℚ) default).contentSystem.add 2
    (.measure (.ofNumber 1))).add 3 (.staff ⟨1, false⟩)).add 4 (.layer 1)
  have hd := ((hlayer.add 5
    (.element (.note ⟨.ofValue .quarter, ⟨.c, 4, none⟩, none, false⟩))).add 3
    (.control (.dynamic (.atBeat 1 1) "f"))).add 2 (.measure (.ofNumber 2))
  let unbroken : Engine ℚ :=
    .ofOptions { LayoutOptions.default with breaks := .unbroken } .default
  refine ⟨_, _, hd, .pass (.layout .refl unbroken) .default .align, ?_,
    hd.layout_of_relaid (fun n hn => absurd hn List.not_mem_nil)
      (.pass (.layout .refl unbroken) .default .align) .default, ?_⟩
  · decide +kernel
  · decide +kernel

end Document

end ScoreLayout
