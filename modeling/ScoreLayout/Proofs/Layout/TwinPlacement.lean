import ScoreLayout.Proofs.Layout.TwinFilling
import ScoreLayout.Proofs.Layout.TwinPages

/-!
# Placing two documents side by side

Where no more is known about the nodes of one twin than about those of the other, placement finds the
same positions for both. It compares handles in two places: a control element at a slot belongs to
the measure being visited if that is its parent, and one that goes on in another system ends with the
system of its start. Handles of the content are the same in both documents, and systems with one
handle are systems with one identifier.

## Main definitions

* `Comparison.Strict` — twins of whose nodes the same is known.

## Main results

* `Forest.Padded.ancestors?` — what is above related labels.
* `Document.Twin.placeAnchored` — a control element between its symbols.
* `Document.Twin.place` — two documents after placement.
-/

namespace ScoreLayout

/-! ### What is above a label -/

namespace Forest

variable {β γ : Type} {p : β → Bool} {q : γ → Bool}

theorem ancestors?_append (f g : Forest β) :
    (f ++ g).ancestors? p = (f.ancestors? p <|> g.ancestors? p) := by
  induction f with
  | nil => rfl
  | cons b children siblings _ hs =>
    rw [cons_append, Forest.ancestors?, Forest.ancestors?, hs]
    split
    · rfl
    · cases children.ancestors? p <;> rfl

theorem Padded.ancestors? {P : γ → Prop} {R : β → γ → Prop} {f : Forest β} {g : Forest γ}
    (h : Padded P R f g) (hP : ∀ c, P c → q c = false) (hR : ∀ b c, R b c → p b = q c) :
    Option.Rel (List.Forall₂ R) (f.ancestors? p) (g.ancestors? q) := by
  induction h with
  | nil => exact .none
  | @leaf c _ g hc _ hs =>
    have hleaf : (Forest.cons c .nil g).ancestors? q = g.ancestors? q := by
      rw [Forest.ancestors?, hP c hc]
      rfl
    rwa [hleaf]
  | @cons b c _ _ _ _ hb _ _ hc hs =>
    rw [Forest.ancestors?, Forest.ancestors?, hR b c hb]
    split
    · exact .some .nil
    · exact optionRel_orElse
        (optionRel_map hc fun _ _ h => List.rel_append h (.cons hb .nil)) hs

end Forest

variable {α : Type} [Scalar α] {T : Comparison α}

/-- Where the same is known about related nodes. -/
def Comparison.Strict (T : Comparison α) : Prop :=
  ∀ {n n' : Node α}, T.agree n n' → n'.state = n.state

namespace Node.Near

variable {n n' : Node α} (h : n.Near T n')

include h

omit [Scalar α] in
theorem box_eq (hT : T.Strict) : n'.box = n.box := congrArg Prod.fst (hT h.agree)

omit [Scalar α] in
theorem exists_eq (hT : T.Strict) : ∃ handle dirty, n' = { n with handle, dirty } := by
  refine ⟨n'.handle, n'.dirty, ?_⟩
  have hlayout : n'.layout = n.layout := congrArg Prod.snd (hT h.agree)
  rw [← h.box_eq hT, ← h.kind, ← h.id, ← hlayout]

omit [Scalar α] in
/-- Two nodes of which the layout finds out the same. -/
theorem withState (b : Box α) {l : LayoutState α}
    (hl : Stacking.anchors l = Stacking.anchors n.layout) :
    Near T { n with box := b, layout := l } { n' with box := b, layout := l } where
  id := h.id
  kind := h.kind
  handle := h.handle
  own := h.own
  layout := rfl
  staff _ := rfl
  rect _ := rfl
  tied ht := hl ▸ h.tied ht
  agree := T.agree_of_eq rfl

omit [Scalar α] in
theorem withBox (hT : T.Strict) (b : Box α) :
    Near T { n with box := b } { n' with box := b } := by
  obtain ⟨handle, dirty, rfl⟩ := h.exists_eq hT
  exact h.withState b rfl

end Node.Near

/-! ### The walk -/

namespace Placing

/-- What is drawn directly below a symbol. -/
theorem contentBounds_eq {f g : Forest (Node α)}
    (h : Forest.Padded (Node.IsSpare T) (Node.Near T) f g) (hT : T.Strict) :
    contentBounds g.roots = contentBounds f.roots := by
  have hdrawn (nodes : List (Node α)) : ((nodes.filter fun n => n.box.HasContent).map fun n =>
      n.box.bounds) = nodes.filterMap fun n =>
        if n.box.HasContent then some n.box.bounds else none := by
    rw [← List.filterMap_eq_map, List.filterMap_filter]
    exact List.filterMap_congr fun n _ => by simp
  rw [contentBounds, contentBounds, hdrawn, hdrawn, h.filterMap_roots]
  · intro n hn
    rw [if_neg]
    rw [Box.HasContent, hn.blank]
    exact id
  · intro n n' hn
    rw [hn.box_eq hT]

/-- A node below the root of the first document beside one of the second. The nodes of the content
are told from pages and systems by their handles. -/
structure Beside (T : Comparison α) (M : Handle → Prop) (n n' : Node α) : Prop where
  near : n.Near T n'
  tag : n.tag ≠ .document
  content : M n.handle ↔ ¬ n.IsFrame
  content' : M n'.handle ↔ ¬ n'.IsFrame

namespace Beside

variable {M : Handle → Prop} {n n' : Node α} (h : Beside T M n n')

include h

omit [Scalar α] in
theorem isFrame : n'.IsFrame ↔ n.IsFrame := by rw [Node.IsFrame, Node.IsFrame, h.near.tag]

omit [Scalar α] in
theorem handle_iff {m : Handle} (hm : M m) : n'.handle = m ↔ n.handle = m := by
  by_cases hn : n.IsFrame
  · constructor
    · rintro rfl
      exact absurd (h.isFrame.2 hn) (h.content'.1 hm)
    · rintro rfl
      exact absurd hn (h.content.1 hm)
  · rw [h.near.handle hn]

omit [Scalar α] in
theorem withBox (hT : T.Strict) (b : Box α) :
    Beside T M { n with box := b } { n' with box := b } :=
  ⟨h.near.withBox hT b, h.tag, h.content, h.content'⟩

end Beside

/-- The states of two walks: they are the same, what waits belongs to the content, and so does the
measure being visited. -/
structure Abreast (M : Handle → Prop) (s t : Placing α) : Prop where
  eq : t = s
  waits : s.Waits M
  measure : ∀ f ∈ s.measure, M f.handle

/-- Placement does not tell near nodes apart. -/
theorem parallel (hT : T.Strict) {M : Handle → Prop} {c c' : PlacingContext α}
    (hc : c' = { c with document := c'.document }) :
    Forest.Parallel (Node.IsSpare T) (Beside T M) (Beside T M) (Beside T M) (Abreast M)
      (fun _ _ => False)
      (fun a a' => ∀ m, M m → (a'.map Node.handle = some m ↔ a.map Node.handle = some m))
      (fun _ _ => True) (placingPass c) (placingPass c') where
  parent {n n'} hn m hm := by
    simpa using hn.handle_iff hm
  enter {s t a a' n n' f g} hs ha hn _ hbelow := by
    obtain ⟨rfl, ⟨hplaced, hfault, hwaiting⟩, hmeasure⟩ := hs
    have hstay : Abreast M t t := ⟨rfl, ⟨hplaced, hfault, hwaiting⟩, hmeasure⟩
    have hmetrics : c'.metrics = c.metrics := by rw [hc]
    have hunit : c'.unit = c.unit := by rw [hc]
    have hleft : c'.marginLeft = c.marginLeft := by rw [hc]
    have htop : c'.marginTop = c.marginTop := by rw [hc]
    obtain ⟨handle, dirty, rfl⟩ := hn.near.exists_eq hT
    obtain ⟨handle₀, id, kind, box, dirty₀, layout⟩ := n
    cases kind with
    | system system =>
      refine ⟨_, _, _, _, .proceed, rfl, rfl, ?_⟩
      dsimp only [enterSystem]
      rw [hleft, htop]
      exact ⟨⟨rfl, ⟨hplaced, hfault, hwaiting⟩, hmeasure⟩, hn.withBox hT _⟩
    | measure m =>
      have hframe : ¬ Node.IsFrame ⟨handle₀, id, .measure m, box, dirty₀, layout⟩ :=
        Node.not_isFrame (Nat.le_refl 3)
      obtain rfl : handle = handle₀ := hn.near.handle hframe
      refine ⟨_, _, _, _, .proceed, rfl, rfl, ?_⟩
      dsimp only [enterMeasure]
      split
      · refine ⟨⟨rfl, ⟨hplaced, hfault, hwaiting⟩, ?_⟩, hn.withBox hT _⟩
        rintro frame ⟨⟩
        exact hn.content.2 hframe
      · exact ⟨hstay, hn⟩
    | staff staff =>
      refine ⟨_, _, _, _, .proceed, rfl, rfl, ?_⟩
      dsimp only [enterStaff]
      split
      · exact ⟨⟨rfl, ⟨hplaced, hfault, hwaiting⟩, hmeasure⟩, hn.withBox hT _⟩
      · exact ⟨hstay, hn⟩
    | element e =>
      refine ⟨_, _, _, _, .proceed, rfl, rfl, hstay, ?_⟩
      dsimp only [enterElement]
      split
      · exact hn.withBox hT _
      · exact hn
    | control control =>
      have hframe : ¬ Node.IsFrame ⟨handle₀, id, .control control, box, dirty₀, layout⟩ :=
        Node.not_isFrame (show 3 ≤ NodeTag.control.depth by decide)
      obtain rfl : handle = handle₀ := hn.near.handle hframe
      refine ⟨(t.enterControl c a ⟨handle, id, .control control, box, dirty₀, layout⟩ control).1,
        (t.enterControl c' a' ⟨handle, id, .control control, box, dirty, layout⟩ control).1,
        (t.enterControl c a ⟨handle, id, .control control, box, dirty₀, layout⟩ control).2,
        (t.enterControl c' a' ⟨handle, id, .control control, box, dirty, layout⟩ control).2,
        .skipChildren, rfl, rfl, ?_⟩
      dsimp only [enterControl]
      split_ifs
      · exact ⟨hstay, hn, hbelow⟩
      · refine ⟨⟨rfl, ⟨hplaced, hfault, ?_⟩, hmeasure⟩, hn, hbelow⟩
        exact List.forall_mem_append.2 ⟨hwaiting, List.forall_mem_singleton.2 (hn.content.2 hframe)⟩
      · split
        · rename_i frame key slot top hframe _ _
          have hparent := ha frame.handle (hmeasure frame hframe)
          simp only [ne_eq, hparent, hmetrics, hunit]
          split_ifs
          · exact ⟨hstay, hn, hbelow⟩
          · exact ⟨hstay, hn.withBox hT _, hbelow⟩
        · exact ⟨hstay, hn, hbelow⟩
    | document => exact absurd rfl hn.tag
    | _ => exact ⟨t, t, _, _, .proceed, rfl, rfl, hstay, hn⟩
  leaf {s t a' n} hs hn := by
    obtain ⟨control, hk⟩ := NodeKind.exists_of_control hn.tag
    refine ⟨t, n, ?_, hn, hs⟩
    simp only [placingPass, hk, enterControl, hn.omitted, if_true]
  leave {s t} w w' {n n' f g} hs hn hbelow := by
    obtain ⟨rfl, ⟨hplaced, hfault, hwaiting⟩, hmeasure⟩ := hs
    have hstay : Abreast M t t := ⟨rfl, ⟨hplaced, hfault, hwaiting⟩, hmeasure⟩
    have hcontent := contentBounds_eq (hbelow.mono (fun _ h => h) fun _ _ h => h.near) hT
    obtain ⟨handle, dirty, rfl⟩ := hn.near.exists_eq hT
    obtain ⟨handle₀, id, kind, box, dirty₀, layout⟩ := n
    cases kind with
    | element e =>
      have hlatest (nodes : List (Node α)) : nodes.map t.latest = nodes :=
        List.map_id'' (fun n => by rw [latest, hplaced]; rfl) nodes
      refine ⟨_, _, _, _, f, g, .proceed, rfl, rfl, hstay, ?_, hbelow⟩
      rw [hlatest, hlatest]
      dsimp only [leaveElement]
      rw [hcontent]
      split
      · exact hn.withBox hT _
      · exact hn
    | measure m =>
      exact ⟨_, _, _, _, f, g, .proceed, rfl, rfl,
        ⟨rfl, ⟨hplaced, hfault, hwaiting⟩, fun _ h => by cases h⟩, hn, hbelow⟩
    | staff staff | system system =>
      exact ⟨_, _, _, _, f, g, .proceed, rfl, rfl,
        ⟨rfl, ⟨hplaced, hfault, hwaiting⟩, hmeasure⟩, hn, hbelow⟩
    | document => exact absurd rfl hn.tag
    | _ => exact ⟨_, _, _, _, f, g, .proceed, rfl, rfl, hstay, hn, hbelow⟩

/-- A walk of which nothing below the root stops the visit. -/
theorem run_tree (c : PlacingContext α) {r : Node α} (hr : r.kind = .document)
    {below below₁ : Forest (Node α)} {s : Placing α} {v : Visit} (hv : v ≠ .stop)
    (hwalk : below.runWithin (placingPass c) (some r) (fun f => .tree r f) .start =
      (s, below₁, v)) : ∃ v', (Forest.tree r below).run (placingPass c) .start =
        (s.placeWaiting c (.tree r below₁), .tree r below₁, v') := by
  have henter : (placingPass c).enter .start none r = (.start, r, .proceed) := by
    simp only [placingPass, hr]
  have hleave : (placingPass c).leave s (fun b children => .cons b children .nil) r below₁ =
      (s.placeWaiting c (.tree r below₁), r, below₁,
        if (s.placeWaiting c (.tree r below₁)).fault.isSome then .stop else .proceed) := by
    simp only [placingPass, hr]
    rfl
  rw [Forest.run, Forest.tree, Forest.runWithin, henter]
  dsimp only [id, Forest.tree] at hwalk ⊢
  rw [hwalk]
  cases v with
  | stop => exact absurd rfl hv
  | proceed | skipChildren =>
    dsimp only
    rw [hleave]
    split_ifs <;> exact ⟨_, rfl⟩

end Placing

/-! ### Between symbols -/

namespace Document

variable {d d' : Document α}

omit [Scalar α] in
theorem InContent.ancestors_eq {h : Handle} (hh : d.InContent h) :
    d.score.ancestors? (hasHandle h) = some (d.ancestors h) := by
  obtain ⟨n, hn, rfl⟩ := hh
  have hsome : (d.score.ancestors? (hasHandle n.handle)).isSome := by
    rw [Forest.isSome_ancestors?, List.any_eq_true]
    exact ⟨n, d.content_sublist_score.subset hn, by simp [hasHandle]⟩
  obtain ⟨above, habove⟩ := Option.isSome_iff_exists.1 hsome
  rw [ancestors, ← first_append_rest d.trees, Forest.ancestors?_append, ← score, habove]
  rfl

omit [Scalar α] in
theorem WellFormed.inContent_iff (hd : d.WellFormed) {n : Node α} (hn : n ∈ d.score.toList)
    (ht : n.tag ≠ .document) : d.InContent n.handle ↔ ¬ n.IsFrame := by
  constructor
  · rintro ⟨m, hm, hh⟩
    obtain rfl := hd.eq_of_handle_eq (d.content_sublist.subset hm)
      ((score_sublist d).subset hn) hh
    exact hd.not_isFrame hm
  · intro hframe
    refine ⟨n, hd.mem_content hn ?_, rfl⟩
    rw [Node.IsFrame] at hframe
    revert ht hframe
    cases n.tag <;> decide

namespace Twin

variable (h : d.Twin T d')

include h

omit [Scalar α] in
theorem inContent {i : Handle} (hi : d.InContent i) : ∃ n n', d.node? i = some n ∧
    d'.node? i = some n' ∧ n.Near T n' ∧ n ∈ d.content.toList ∧ n' ∈ d'.content.toList := by
  obtain ⟨n, hn, rfl⟩ := hi
  obtain ⟨n', hn', hnear⟩ := h.content.mem.exists_right n hn
  have hhandle := hnear.1.handle (h.left.not_isFrame hn)
  exact ⟨n, n', h.left.node?_content hn, hhandle ▸ h.right.node?_content hnear.2.2, hnear.1, hn,
    hnear.2.2⟩

omit [Scalar α] in
/-- The labels of the two scores have the handles of the first content together. -/
theorem beside : Forest.Padded (fun n => n.IsSpare T ∧ ¬ d.InContent n.handle)
    (fun n n' => n.Near T n' ∧ (n.tag ≠ .document → Placing.Beside T d.InContent n n') ∧
      n ∈ d.score.toList ∧ n' ∈ d'.score.toList) d.score d'.score := by
  have hcontent {i : Handle} (hi : d.InContent i) : d'.InContent i ∧ ¬ T.spare i := by
    obtain ⟨n, n', hn, hn', hnear, hmem, hmem'⟩ := h.inContent hi
    have hhandle : n'.handle = i := (h.right.node?_eq_some_iff.1 hn').2
    exact ⟨⟨n', hmem', hhandle⟩, hhandle ▸ hnear.own (h.left.not_isFrame hmem)⟩
  refine h.score.mem.mono (fun n hn => ⟨hn.1, fun hi => (hcontent hi).2 hn.1.spare⟩) ?_
  rintro n n' ⟨hnear, hn, hn'⟩
  refine ⟨hnear, fun ht => ⟨hnear, ht, h.left.inContent_iff hn ht, ?_⟩, hn, hn'⟩
  rw [← h.right.inContent_iff hn' (hnear.tag ▸ ht)]
  refine ⟨fun hi => (hcontent hi).1, fun hi => ?_⟩
  have hframe := (h.right.inContent_iff hn' (hnear.tag ▸ ht)).1 hi
  rw [Node.IsFrame, hnear.tag] at hframe
  rw [hnear.handle hframe]
  exact (h.left.inContent_iff hn ht).2 hframe

omit [Scalar α] in
/-- What is above a node of the content. -/
theorem ancestors {i : Handle} (hi : d.InContent i) :
    List.Forall₂ (fun n n' => n.Near T n' ∧ n ∈ d.trees.toList ∧ n' ∈ d'.trees.toList)
      (d.ancestors i) (d'.ancestors i) := by
  obtain ⟨n, n', -, hn', -, -, hmem'⟩ := h.inContent hi
  have hi' : d'.InContent i := ⟨n', hmem', (h.right.node?_eq_some_iff.1 hn').2⟩
  have habove := h.beside.ancestors? (p := hasHandle i) (q := hasHandle i) (fun m hm => ?_)
    fun m m' hm => ?_
  · rw [hi.ancestors_eq, hi'.ancestors_eq] at habove
    cases habove with
    | some habove =>
      exact habove.imp fun m m' hm => ⟨hm.1, (score_sublist d).subset hm.2.2.1,
        (score_sublist d').subset hm.2.2.2⟩
  · simp only [hasHandle, decide_eq_false_iff_not]
    rintro rfl
    exact hm.2 hi
  · simp only [hasHandle, decide_eq_decide]
    by_cases ht : m.tag = .document
    · rw [hm.1.handle (by rw [Node.IsFrame, ht]; decide)]
    · exact ((hm.2.1 ht).handle_iff hi).symm

omit [Scalar α] in
/-- The closest node of a kind above a node of the content. -/
theorem ancestorOfKind? {i : Handle} (hi : d.InContent i) (tag : NodeTag) :
    Option.Rel (fun n n' => n.Near T n' ∧ n ∈ d.trees.toList ∧ n' ∈ d'.trees.toList)
      (d.ancestorOfKind? i tag) (d'.ancestorOfKind? i tag) := by
  have habove := h.ancestors hi
  rw [Document.ancestorOfKind?, Document.ancestorOfKind?]
  generalize d.ancestors i = above, d'.ancestors i = above' at habove
  induction habove with
  | nil => exact .none
  | @cons n n' _ _ hn _ ih =>
    rw [List.find?_cons, List.find?_cons, hn.1.tag]
    split
    · exact .some hn
    · exact ih

omit [Scalar α] in
/-- Two symbols that belong to one system in one of two documents do so in the other. -/
theorem sameSystem_iff {i j : Handle} (hi : d.InContent i) (hj : d.InContent j) :
    (d'.ancestorOfKind? i .system).map Node.handle =
        (d'.ancestorOfKind? j .system).map Node.handle ↔
      (d.ancestorOfKind? i .system).map Node.handle =
        (d.ancestorOfKind? j .system).map Node.handle := by
  have hi' := h.ancestorOfKind? hi .system
  have hj' := h.ancestorOfKind? hj .system
  revert hi' hj'
  generalize d.ancestorOfKind? i .system = a, d'.ancestorOfKind? i .system = a',
    d.ancestorOfKind? j .system = b, d'.ancestorOfKind? j .system = b'
  rintro (⟨ha, hmem, hmem'⟩ | _) (⟨hb, hmemb, hmemb'⟩ | _)
  · simp only [Option.map_some, Option.some.injEq]
    -- handles may differ, but they are equal exactly where the identifiers are
    constructor
    · intro heq
      rw [h.left.eq_of_id_eq hmem hmemb
        (ha.id.symm.trans ((congrArg Node.id (h.right.eq_of_handle_eq hmem' hmemb' heq)).trans hb.id))]
    · intro heq
      rw [h.right.eq_of_id_eq hmem' hmemb'
        (ha.id.trans ((congrArg Node.id (h.left.eq_of_handle_eq hmem hmemb heq)).trans hb.id.symm))]
  · simp
  · simp
  · simp

/-- Two documents of which one node of the content is changed. -/
theorem modify {i : Handle} (hi : d.InContent i) {f : Node α → Node α}
    (hsame : ∀ n, Node.SameMusic n (f n)) (hf : ∀ n n', n.Near T n' → (f n).Near T (f n')) :
    d.SameTree (d.modify i f) ∧ (d.modify i f).Twin T (d'.modify i f) := by
  obtain ⟨n, n', hn, hn', hnear, hmem, hmem'⟩ := h.inContent hi
  have hlive : d.isLive i := (isLive_iff d i).2 ⟨n, d.content_sublist_score.subset hmem,
    (h.left.node?_eq_some_iff.1 hn).2⟩
  have hlive' : d'.isLive i := (isLive_iff d' i).2 ⟨n', d'.content_sublist_score.subset hmem',
    (h.right.node?_eq_some_iff.1 hn').2⟩
  have htree := h.left.sameTree_modify hlive fun n _ _ => hsame n
  refine ⟨htree, h.of_sameTree htree
    (h.right.sameTree_modify hlive' fun n _ _ => hsame n) ?_ h.stage⟩
  have hscore (d : Document α) : (d.modify i f).score =
      d.score.map fun n => if hasHandle i n then f n else n := by
    rw [Document.modify, Document.score, Document.score, Forest.modify]
    cases d.trees <;> rfl
  rw [hscore, hscore]
  refine h.beside.map (fun m hm => ?_) fun m m' hm => ?_
  · rw [if_neg]
    · exact hm.1
    · simp only [hasHandle, decide_eq_true_eq]
      rintro rfl
      exact hm.2 hi
  · have hiff : hasHandle i m' = hasHandle i m := by
      simp only [hasHandle, decide_eq_decide]
      by_cases ht : m.tag = .document
      · rw [hm.1.handle (by rw [Node.IsFrame, ht]; decide)]
      · exact (hm.2.1 ht).handle_iff hi
    rw [hiff]
    split_ifs
    · exact hf m m' hm.1
    · exact hm.1

omit [Scalar α] in
/-- What is read off the box of what is above a node of the content. -/
theorem map_ancestorOfKind? (hT : T.Strict) {β : Type} (u : Box α → β) {i : Handle}
    (hi : d.InContent i) (tag : NodeTag) : (d'.ancestorOfKind? i tag).map (fun n => u n.box) =
      (d.ancestorOfKind? i tag).map fun n => u n.box := by
  have habove := h.ancestorOfKind? hi tag
  generalize d.ancestorOfKind? i tag = n, d'.ancestorOfKind? i tag = n' at habove
  cases habove with
  | none => rfl
  | some hn => rw [Option.map_some, Option.map_some, hn.1.box_eq hT]

/-- Where a control element ends. -/
theorem spanEnd?_eq (hT : T.Strict) {start start' : Node α} (hs : start.Near T start')
    (hstart : d.HasSymbol start.handle) (ht : start.tag = .element) {stop : Handle}
    (hstop : T.symbol stop) : d'.spanEnd? start' stop = d.spanEnd? start stop := by
  have hhandle : start'.handle = start.handle :=
    hs.handle (Node.not_isFrame (by rw [ht]; decide))
  have hsame := h.sameSystem_iff hstart.inContent (h.symbols stop hstop).inContent
  have hsystem := h.map_ancestorOfKind? hT (fun b => b.bounds.x2) hstart.inContent .system
  obtain ⟨n, n', hn, hn', hnear, -⟩ := h.node? hstop
  rw [spanEnd?, spanEnd?, hhandle, hs.box_eq hT, hn, hn']
  dsimp only
  by_cases heq : (d.ancestorOfKind? start.handle .system).map Node.handle =
      (d.ancestorOfKind? stop .system).map Node.handle
  · rw [if_pos heq, if_pos (hsame.2 heq), hnear.box_eq hT]
  · rw [if_neg heq, if_neg (mt hsame.1 heq), hsystem]

/-- A control element between its symbols. -/
theorem placeAnchored (hT : T.Strict) {c c' : PlacingContext α}
    (hc : c' = { c with document := c'.document }) {i : Handle} (hi : d.InContent i) :
    (∃ e e', d.placeAnchored c i = .ok e ∧ d'.placeAnchored c' i = .ok e' ∧ e.Twin T e' ∧
        d.SameTree e) ∨
      ∃ f, d.placeAnchored c i = .error f ∧ d'.placeAnchored c' i = .error f := by
  have hstay : (∃ e e', (.ok d : Except Fault (Document α)) = .ok e ∧
      (.ok d' : Except Fault (Document α)) = .ok e' ∧ e.Twin T e' ∧ d.SameTree e) :=
    ⟨d, d', rfl, rfl, h, .refl d⟩
  obtain ⟨n, n', hn, hn', hnear, hmem, -⟩ := h.inContent hi
  obtain ⟨handle, dirty, rfl⟩ := hnear.exists_eq hT
  rw [Document.placeAnchored, Document.placeAnchored, hn, hn']
  dsimp only
  cases hk : n.kind.control? with
  | none => exact .inl hstay
  | some control =>
    cases hl : n.layout.startAnchor with
    | none => exact .inl hstay
    | some a =>
      have htied := hnear.tied (by
        rw [Node.tag]
        cases hkind : n.kind <;> rw [hkind] at hk <;> first | rfl | cases hk)
      have hstart : T.symbol a := htied a (by simp [Stacking.anchors, hl])
      have hend : T.symbol (n.layout.endAnchor.getD a) := htied _ (by
        rw [Stacking.anchors, hl]
        cases n.layout.endAnchor <;> simp)
      obtain ⟨start, start', hs, hs', hsnear, htag, -⟩ := h.node? hstart
      obtain rfl : start.handle = a := (h.left.node?_eq_some_iff.1 hs).2
      have hspan := h.spanEnd?_eq hT hsnear (h.symbols _ hstart) htag hend
      have hcontent := (h.symbols _ hstart).inContent
      have hhidden := h.map_ancestorOfKind? hT (fun b => b.rect.isNone) hcontent .staff
      have hlines := h.map_ancestorOfKind? hT (fun b => b.bounds) hcontent .staff
      have hspanned (x : α) (r : Rect α) :
          Node.spanned c' control (d'.ancestorOfKind? start.handle .staff) start' x r =
            Node.spanned c control (d.ancestorOfKind? start.handle .staff) start x r := by
        obtain ⟨_, _, rfl⟩ := hsnear.exists_eq hT
        funext m
        rw [Node.spanned, Node.spanned, hlines, hc]
      dsimp only
      rw [hs, hs']
      dsimp only
      rw [hhidden, hspan]
      split_ifs
      · exact .inl hstay
      · cases hx : d.spanEnd? start (n.layout.endAnchor.getD start.handle) with
        | error f => exact .inr ⟨f, rfl, rfl⟩
        | ok span =>
          obtain ⟨htree, htwin⟩ := h.modify hi
            (f := Node.spanned c control (d.ancestorOfKind? start.handle .staff) start span.1 span.2)
            (fun m => ⟨rfl, rfl, rfl⟩) fun m m' hm => by
              obtain ⟨_, _, rfl⟩ := hm.exists_eq hT
              exact hm.withState _ rfl
          exact .inl ⟨_, _, rfl, rfl, hspanned span.1 span.2 ▸ htwin, htree⟩

/-- All control elements that have waited. -/
theorem placeAllAnchored (hT : T.Strict) {c c' : PlacingContext α}
    (hc : c' = { c with document := c'.document }) (waiting : List Handle)
    (hwaiting : ∀ i ∈ waiting, d.InContent i) :
    (∃ e e', waiting.foldlM (Document.placeAnchored c) d = .ok e ∧
        waiting.foldlM (Document.placeAnchored c') d' = .ok e' ∧ e.Twin T e' ∧ d.SameTree e) ∨
      ∃ f, waiting.foldlM (Document.placeAnchored c) d = .error f ∧
        waiting.foldlM (Document.placeAnchored c') d' = .error f := by
  induction waiting generalizing d d' with
  | nil => exact .inl ⟨d, d', rfl, rfl, h, .refl d⟩
  | cons i waiting ih =>
    rw [List.forall_mem_cons] at hwaiting
    rw [List.foldlM_cons, List.foldlM_cons]
    obtain ⟨e, e', hok, hok', htwin, htree⟩ | ⟨f, herror, herror'⟩ :=
      h.placeAnchored hT hc hwaiting.1
    · rw [hok, hok']
      refine (ih htwin fun j hj => ?_).imp ?_ id
      · exact (hwaiting.2 j hj).of_sameMusic htree.sameContent.content
      · rintro ⟨e₁, e₁', hok₁, hok₁', htwin₁, htree₁⟩
        exact ⟨e₁, e₁', hok₁, hok₁', htwin₁, htree.trans htree₁⟩
    · rw [herror, herror']
      exact .inr ⟨f, rfl, rfl⟩

end Twin

/-! ### Documents -/

/-- What placement works with. -/
def placingContext (d : Document α) (options : LayoutOptions α) (metrics : GlyphMetrics α) :
    PlacingContext α :=
  ⟨metrics, options.scaledUnit, options.marginLeft, options.marginTop, d⟩

/-- What placement leaves behind follows from its walk. -/
theorem place_of_run {d : Document α} (hs : Step.placement.required ≤ d.stage)
    {options : LayoutOptions α} {metrics : GlyphMetrics α} {s : Placing α} {r : Node α}
    {below : Forest (Node α)} {v : Visit}
    (hrun : d.score.run (placingPass (d.placingContext options metrics)) .start =
      (s, .tree r below, v)) : (d.place options metrics).fault = s.fault ∧
      (d.place options metrics).marks = [] ∧
      (d.place options metrics).document.score = (Forest.tree r below).map s.latest ∧
      (s.fault = none → (d.place options metrics).document.stage = .finalized) := by
  rw [placingContext] at hrun
  rw [Document.place, Outcome.guarded_of_le hs]
  dsimp only
  rw [hrun]
  cases hfault : s.fault with
  | some f => exact ⟨rfl, rfl, rfl, fun hnone => by cases hnone⟩
  | none => exact ⟨rfl, rfl, rfl, fun _ => rfl⟩

/-- What has waited, in its place. -/
theorem placeWaiting_eq {c : PlacingContext α} {s : Placing α} (hs : s.placed = [])
    (score : Forest (Node α)) : s.placeWaiting c score =
      match s.waiting.foldlM (placeAnchored c) (c.document.withScore score) with
      | .ok d => { s with waiting := [], placed := s.waiting.filterMap d.node? }
      | .error f => { s with fault := some f } := by
  have hlatest : score.map s.latest = score :=
    Forest.map_eq_self fun n _ => by rw [Placing.latest, hs]; rfl
  rw [Placing.placeWaiting, hlatest, hs]
  cases s.waiting.foldlM (placeAnchored c) (c.document.withScore score) with
  | ok d =>
    dsimp only
    rw [List.append_nil]
  | error f => rfl

omit [Scalar α] in
/-- A node among those that have waited. -/
theorem find?_filterMap_node? (d : Document α) (waiting : List Handle) (i : Handle) :
    (waiting.filterMap d.node?).find? (hasHandle i) =
      if i ∈ waiting then d.node? i else none := by
  have hhandle {j : Handle} {n : Node α} (hn : d.node? j = some n) : hasHandle j n := by
    rw [node?, Forest.find?_eq_find?_toList] at hn
    exact List.find?_some hn
  induction waiting with
  | nil => rfl
  | cons j waiting ih =>
    by_cases hij : i = j
    · subst hij
      rw [if_pos List.mem_cons_self, List.filterMap_cons]
      cases hn : d.node? i with
      | none =>
        dsimp only
        rw [ih, hn, ite_self]
      | some n =>
        dsimp only
        rw [List.find?_cons_of_pos (hhandle hn)]
    · have hmem : i ∈ j :: waiting ↔ i ∈ waiting := by simp [hij]
      rw [List.filterMap_cons]
      simp only [hmem]
      cases hn : d.node? j with
      | none => exact ih
      | some n =>
        dsimp only
        rw [List.find?_cons_of_neg, ih]
        have hj := hhandle hn
        simp only [hasHandle, decide_eq_true_eq] at hj ⊢
        exact fun hi => hij (hi.symm.trans hj)

/-- The walk below the root keeps the music. -/
theorem Shape.sameTree_walked {d : Document α} {D : ScoreDefinition} {r : Node α}
    {pages detached : Forest (Node α)} (hd : d.Shape D r pages detached) {c : PlacingContext α}
    {s : Placing α} {below : Forest (Node α)} {v : Visit}
    (hwalk : pages.runWithin (placingPass c) (some r) (fun f => .tree r f) .start =
      (s, below, v)) : d.SameTree (d.withScore (.tree r below)) := by
  have hboxed := (Placing.run_below c (W := fun _ => True) pages
    (fun n hn => ⟨hd.wellFormed.tag_ne_document_of_mem_below hd.trees hn, trivial⟩) (some r)
    (fun f => .tree r f) (s := .start) ⟨rfl, rfl, List.forall_mem_nil _⟩).1
  rw [hwalk] at hboxed
  refine d.sameTree_withScore ?_
  rw [hd.score]
  exact .cons (.refl r) (hboxed.mono fun _ _ h => h.sameMusic) .nil

namespace Twin

variable {d d' : Document α}

omit [Scalar α] in
/-- The nodes of twins, with those in their places that have waited. -/
theorem map_latest {e e' : Document α} (h : d.Twin T d') (he : e.Twin T e')
    (hcontent : ∀ i, d.InContent i → e.InContent i) {s s' : Placing α} {waiting : List Handle}
    (hwaiting : ∀ i ∈ waiting, d.InContent i) (hs : s.placed = waiting.filterMap e.node?)
    (hs' : s'.placed = waiting.filterMap e'.node?) :
    Forest.Padded (Node.IsSpare T) (Node.Near T) (d.score.map s.latest)
      (d'.score.map s'.latest) := by
  refine h.beside.map (fun n hn => ?_) fun n n' hn => ?_
  · rw [Placing.latest, hs', find?_filterMap_node?, if_neg fun hi => hn.2 (hwaiting _ hi)]
    exact hn.1
  · rw [Placing.latest, Placing.latest, hs, hs', find?_filterMap_node?, find?_filterMap_node?]
    have hiff (i : Handle) (hi : d.InContent i) : n'.handle = i ↔ n.handle = i := by
      by_cases ht : n.tag = .document
      · rw [hn.1.handle (by rw [Node.IsFrame, ht]; decide)]
      · exact (hn.2.1 ht).handle_iff hi
    by_cases hi : n.handle ∈ waiting
    · have hhandle : n'.handle = n.handle := (hiff _ (hwaiting _ hi)).2 rfl
      obtain ⟨m, m', hm, hm', hnear, -⟩ := he.inContent (hcontent _ (hwaiting _ hi))
      rw [if_pos hi, if_pos (hhandle ▸ hi), hhandle, hm, hm']
      exact hnear
    · rw [if_neg hi, if_neg fun hi' => hi ((hiff _ (hwaiting _ hi')).1 rfl ▸ hi')]
      exact hn.1

/-- Two documents after placement. -/
theorem place (h : d.Twin T d') (hT : T.Strict) {options : LayoutOptions α}
    {metrics : GlyphMetrics α} (hok : (d.place options metrics).fault = none) :
    (d'.place options metrics).fault = none ∧
      (d'.place options metrics).marks = (d.place options metrics).marks ∧
      (d.place options metrics).document.Twin T (d'.place options metrics).document := by
  have hs := Outcome.required_le_of_guarded hok
  obtain ⟨r, r', pages, pages', hd, hd', hr, hpages, -⟩ := h.exists_shapes
  have hbeside : Forest.Padded (Node.IsSpare T) (Placing.Beside T d.InContent) pages pages' := by
    have hscore := h.beside
    rw [hd.score, hd'.score] at hscore
    cases hscore with
    | cons _ hbelow _ =>
      refine hbelow.mem.mono (fun n hn => hn.1.1) fun n n' hn => hn.1.2.1 ?_
      exact h.left.tag_ne_document_of_mem_below hd.trees hn.2.1
    | leaf hspare => exact absurd (hspare.1.tag.symm.trans hd'.root_tag) (by decide)
  have hroot : r'.handle = r.handle := hd'.root_handle.trans hd.root_handle.symm
  obtain ⟨s, t, below, below', v, hwalk, hwalk', hv⟩ := (Placing.parallel hT (M := d.InContent)
    (show d'.placingContext options metrics =
      { d.placingContext options metrics with document := d' } from rfl)).runWithin
    hbeside (fun _ _ _ => trivial) (a := some r) (o := some r')
    (fun i _ => by rw [Option.map_some, Option.map_some, hroot]) (fun f => .tree r f)
    (fun f => .tree r' f) (s := .start) (t := .start)
    ⟨rfl, ⟨rfl, rfl, List.forall_mem_nil _⟩, fun _ h => by cases h⟩
  have hv' : v ≠ .stop := by
    rintro rfl
    exact hv
  obtain ⟨⟨rfl, ⟨hplaced, hfault, hwaiting⟩, -⟩, hbelow⟩ : Placing.Abreast d.InContent s t ∧
      Forest.Padded (Node.IsSpare T) (Placing.Beside T d.InContent) below below' := by
    cases v with
    | stop => exact absurd rfl hv'
    | skipChildren | proceed => exact hv
  obtain ⟨_, hrun⟩ := Placing.run_tree _ (NodeKind.eq_document hd.root_tag) hv' hwalk
  obtain ⟨_, hrun'⟩ := Placing.run_tree _ (NodeKind.eq_document hd'.root_tag) hv' hwalk'
  -- the documents after the walks are twins again
  have htree := hd.sameTree_walked hwalk
  have hwalked : (d.withScore (.tree r below)).Twin T (d'.withScore (.tree r' below')) :=
    h.of_sameTree htree (hd'.sameTree_walked hwalk')
      (.cons hr (hbelow.mono (fun _ h => h) fun _ _ h => h.near) .nil) h.stage
  have hwaits (i : Handle) (hi : i ∈ t.waiting) : (d.withScore (.tree r below)).InContent i :=
    (hwaiting i hi).of_sameMusic htree.sameContent.content
  rw [← hd.score, placeWaiting_eq hplaced] at hrun
  rw [← hd'.score, placeWaiting_eq hplaced] at hrun'
  obtain ⟨e, e', hfold, hfold', htwin, hsame⟩ | ⟨f, hfold, -⟩ := hwalked.placeAllAnchored hT
    (show d'.placingContext options metrics =
      { d.placingContext options metrics with document := d' } from rfl) t.waiting hwaits
  · rw [show (d.placingContext options metrics).document = d from rfl, hfold] at hrun
    rw [show (d'.placingContext options metrics).document = d' from rfl, hfold'] at hrun'
    obtain ⟨-, hmarks, hscore, hstage⟩ := place_of_run hs hrun
    obtain ⟨hfault', hmarks', hscore', hstage'⟩ := place_of_run (h.stage ▸ hs) hrun'
    refine ⟨hfault'.trans hfault, hmarks'.trans hmarks.symm,
      h.of_sameTree (h.left.sameTree_place options metrics) (h.right.sameTree_place options metrics)
        ?_ ((hstage' hfault).trans (hstage hfault).symm)⟩
    rw [hscore, hscore']
    exact hwalked.map_latest htwin (fun i hi => hi.of_sameMusic hsame.sameContent.content) hwaits
      rfl rfl
  · rw [show (d.placingContext options metrics).document = d from rfl, hfold] at hrun
    obtain ⟨hfault', -⟩ := place_of_run hs hrun
    exact absurd (hok.symm.trans hfault') (by simp)

end Twin

end Document

end ScoreLayout
