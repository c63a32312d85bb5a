import ScoreLayout.Proofs.Layout.Frames

/-!
# Where placement puts control elements

A control element with a slot is put against its staff on the walk. One that is tied to symbols waits
until the document node is left, and is then put between its symbols, unless it begins on a hidden
staff. What waits is placed one after another, but none of it looks at another control element, so
each is placed as in the finished document.

## Main definitions

* `Node.Waits` — a control element that waits for the positions of its symbols.
* `Document.PlacedBetween` — a control element in its place between its symbols.

## Main results

* `Placing.waiting_eq` — what has waited at the end of the walk.
* `Document.placedBetween_of_mem` — what has waited is in its place.
-/

namespace ScoreLayout

variable {α : Type}

/-- A control element that waits for the positions of its symbols. -/
def Node.Waits (n : Node α) : Prop :=
  n.tag = .control ∧ ¬ n.layout.omitted ∧ n.layout.startAnchor.isSome

instance (n : Node α) : Decidable n.Waits := inferInstanceAs (Decidable (_ ∧ _))

variable [Scalar α]

/-! ### The walk -/

namespace Placing

variable {c : PlacingContext α} {s s' : Placing α} {f f' : Forest (Node α)}

theorem waiting_enter (s : Placing α) (above : Option (Node α)) (n : Node α) :
    ((placingPass c).enter s above n).1.waiting =
        s.waiting ++ (if n.Waits then [n.handle] else []) ∧
      (((placingPass c).enter s above n).2.2 = .skipChildren ↔ n.tag = .control) := by
  have hplain (hn : n.tag ≠ .control) : s.waiting ++ (if n.Waits then [n.handle] else []) =
      s.waiting := by rw [if_neg fun h => hn h.1, List.append_nil]
  dsimp only [placingPass]
  cases hk : n.kind with
  | control control =>
    have htag : n.tag = .control := congrArg NodeKind.tag hk
    refine ⟨?_, iff_of_true rfl htag⟩
    dsimp only
    rw [enterControl]
    by_cases homitted : n.layout.omitted
    · rw [if_pos homitted, if_neg fun h : n.Waits => h.2.1 homitted, List.append_nil]
    rw [if_neg homitted]
    by_cases hstart : n.layout.startAnchor.isSome
    · have hwaits : n.Waits := ⟨htag, homitted, hstart⟩
      rw [if_pos hstart, if_pos hwaits]
    · rw [if_neg hstart, if_neg fun h : n.Waits => hstart h.2.2, List.append_nil]
      repeat' split
      all_goals rfl
  | measure m =>
    have hn : n.tag ≠ .control := by rw [Node.tag, hk]; simp [NodeKind.tag]
    rw [hplain hn]
    refine ⟨?_, iff_of_false (by simp) hn⟩
    dsimp only
    rw [enterMeasure]
    split <;> rfl
  | staff staff =>
    have hn : n.tag ≠ .control := by rw [Node.tag, hk]; simp [NodeKind.tag]
    rw [hplain hn]
    refine ⟨?_, iff_of_false (by simp) hn⟩
    dsimp only
    rw [enterStaff]
    split <;> rfl
  | _ =>
    have hn : n.tag ≠ .control := by rw [Node.tag, hk]; simp [NodeKind.tag]
    rw [hplain hn]
    exact ⟨rfl, iff_of_false (by simp) hn⟩

theorem waiting_leave (s : Placing α) (whole : Node α → Forest (Node α) → Forest (Node α))
    {n : Node α} (hn : n.tag ≠ .document) (below : Forest (Node α)) :
    ((placingPass c).leave s whole n below).1.waiting = s.waiting := by
  dsimp only [placingPass]
  split
  · rename_i hk
    exact absurd (by rw [Node.tag, hk]; rfl) hn
  all_goals rfl

/-- Below the document node all control elements that are tied to symbols wait, in document order. -/
theorem waiting_eq {above : Option (Node α)} (h : Forest.Completes (placingPass c) above s f s' f')
    (hf : f.Nested) (hno : ∀ n ∈ f.toList, n.tag ≠ .document) :
    s'.waiting = s.waiting ++ (f.toList.filter fun n => n.Waits).map Node.handle := by
  induction h with
  | nil => exact (List.append_nil _).symm
  | @skip above s s₁ s₂ b b₁ children siblings siblings' henter _ ih =>
    rw [Forest.toList, List.forall_mem_cons, List.forall_mem_append] at hno
    obtain ⟨hwaiting, hskip⟩ := waiting_enter (c := c) s above b
    rw [henter] at hwaiting hskip
    obtain ⟨k, hb⟩ := Node.exists_control (hskip.1 rfl)
    obtain rfl := AlignState.eq_nil_of_control hb hf.1
    rw [ih hf.2.2 hno.2.2, show s₁.waiting = _ from hwaiting, Forest.toList, Forest.toList,
      List.nil_append, List.filter_cons]
    by_cases hw : b.Waits <;> simp [hw]
  | @walk above s s₁ s₂ s₃ s₄ b b₁ b₂ children siblings children₁ children₂ siblings' whole v henter
      _ hleave _ _ ihbelow ihbeside =>
    rw [Forest.toList, List.forall_mem_cons, List.forall_mem_append] at hno
    obtain ⟨hwaiting, hskip⟩ := waiting_enter (c := c) s above b
    obtain ⟨-, hkind⟩ := placed_enter (c := c) s above b
    rw [henter] at hwaiting hskip hkind
    have hb : ¬ b.Waits := fun h => by cases hskip.2 h.1
    have hleft := waiting_leave (c := c) s₂ whole (n := b₁)
      (by rw [Node.tag, show b₁.kind = b.kind from hkind]; exact hno.1) children₁
    rw [hleave] at hleft
    rw [if_neg hb, List.append_nil] at hwaiting
    rw [ihbeside hf.2.2 hno.2.2, show s₃.waiting = _ from hleft, ihbelow hf.2.1 hno.2.1,
      show s₁.waiting = _ from hwaiting, Forest.toList, List.filter_cons, if_neg (by simpa using hb),
      List.filter_append, List.map_append, List.append_assoc]

end Placing

/-! ### What is looked up for a control element -/

namespace Document

variable {c : PlacingContext α} {d d' : Document α}

section Reanchored

variable (h : Forest.Forall₂ Node.Reanchored d.trees d'.trees)

include h

omit [Scalar α] in
theorem node?_of_reanchored {i : Handle} {n : Node α} (hn : d.node? i = some n)
    (ht : n.tag ≠ .control) : d'.node? i = some n := by
  have hrel := h.find? (p := hasHandle i) (q := hasHandle i) fun b b' hb => by
    rw [hasHandle, hasHandle, hb.handle]
  rw [node?] at hn ⊢
  rw [hn] at hrel
  generalize d'.trees.find? (hasHandle i) = found at hrel
  cases hrel with
  | some hnn => rw [hnn.same ht]

omit [Scalar α] in
theorem ancestorOfKind?_of_reanchored (i : Handle) {tag : NodeTag} (ht : tag ≠ .control) :
    d'.ancestorOfKind? i tag = d.ancestorOfKind? i tag := by
  have hrel := h.ancestors? (p := hasHandle i) (q := hasHandle i) fun b b' hb => by
    rw [hasHandle, hasHandle, hb.handle]
  rw [ancestorOfKind?, ancestorOfKind?, ancestors, ancestors]
  generalize d.trees.ancestors? (hasHandle i) = found, d'.trees.ancestors? (hasHandle i) = found'
    at hrel
  cases hrel with
  | none => rfl
  | some hlist =>
    rw [Option.getD_some, Option.getD_some]
    induction hlist with
    | nil => rfl
    | @cons b b' _ _ hb _ ih =>
      have htag : b'.tag = b.tag := congrArg NodeKind.tag hb.kind
      rw [List.find?_cons, List.find?_cons, htag]
      split
      · rename_i hb'
        rw [hb.same (of_decide_eq_true hb' ▸ ht)]
      · exact ih

theorem spanEnd?_of_reanchored (first : Node α) {stop : Handle} {m : Node α}
    (hm : d.node? stop = some m) (ht : m.tag ≠ .control) :
    d'.spanEnd? first stop = d.spanEnd? first stop := by
  have htag : NodeTag.system ≠ .control := by decide
  have hsystem (i : Handle) := ancestorOfKind?_of_reanchored h i htag
  rw [spanEnd?, spanEnd?, hsystem, hsystem, hm, node?_of_reanchored h hm ht]

end Reanchored

omit [Scalar α] in
/-- A node that is tied to symbols of a document. -/
def TiedIn (d : Document α) (n : Node α) : Prop :=
  ∀ a ∈ Stacking.anchors n.layout, ∃ m, d.node? a = some m ∧ m.tag = .element

/-- A control element in its place between its symbols, or one that begins on a hidden staff. -/
def PlacedBetween (c : PlacingContext α) (d : Document α) (n : Node α) : Prop :=
  ∀ control start, n.kind.control? = some control → n.layout.startAnchor = some start →
    (∃ staff, d.ancestorOfKind? start .staff = some staff ∧ staff.box.rect = none) ∨
    ∃ first span m, d.Spans c n control start first span ∧
      n = d.spanned c control start first span m

omit [Scalar α] in
theorem TiedIn.of_reanchored {n : Node α} (hn : d.TiedIn n)
    (h : Forest.Forall₂ Node.Reanchored d.trees d'.trees) {n' : Node α}
    (hties : n'.layout.ties = n.layout.ties) : d'.TiedIn n' := by
  intro a ha
  rw [LayoutState.anchors_eq_of_ties hties] at ha
  obtain ⟨m, hm, ht⟩ := hn a ha
  exact ⟨m, node?_of_reanchored h hm (by rw [ht]; decide), ht⟩

omit [Scalar α] in
/-- The end of a control element is one of the symbols that it is tied to. -/
theorem TiedIn.exists_stop {n : Node α} (hn : d.TiedIn n) {start : Handle}
    (hstart : n.layout.startAnchor = some start) :
    ∃ m, d.node? (n.layout.endAnchor.getD start) = some m ∧ m.tag = .element := by
  refine hn _ ?_
  rw [Stacking.anchors, hstart]
  cases n.layout.endAnchor with
  | none => exact List.mem_cons_self
  | some stop => exact List.mem_cons_of_mem _ List.mem_cons_self

/-- What a control element is placed between does not depend on other control elements. -/
theorem Spans.of_reanchored {n n' first : Node α} {control : Control α} {start : Handle}
    {span : α × Rect α} (hspans : d.Spans c n control start first span) (hn : d.TiedIn n)
    (h : Forest.Forall₂ Node.Reanchored d.trees d'.trees) (hkind : n'.kind = n.kind)
    (hties : n'.layout.ties = n.layout.ties) :
    d'.Spans c n' control start first span ∧
      d'.spanned c control start first span = d.spanned c control start first span := by
  have hstaff := ancestorOfKind?_of_reanchored h start (show NodeTag.staff ≠ .control by decide)
  have hend : n'.layout.endAnchor = n.layout.endAnchor := congrArg (·.2.1) hties
  obtain ⟨first', hfirst, htag⟩ := hn start (by
    rw [Stacking.anchors, hspans.tied]
    exact List.mem_cons_self)
  obtain rfl := Option.some.inj (hspans.node?.symm.trans hfirst)
  obtain ⟨m, hm, ht⟩ := hn.exists_stop hspans.tied
  refine ⟨⟨hkind ▸ hspans.kind, (LayoutState.startAnchor_eq_of_ties hties).trans hspans.tied,
    node?_of_reanchored h hfirst (by rw [htag]; decide), hstaff ▸ hspans.shown, ?_⟩, ?_⟩
  · rw [hend, spanEnd?_of_reanchored h first hm (by rw [ht]; decide)]
    exact hspans.span
  · rw [spanned, spanned, hstaff]

theorem PlacedBetween.of_reanchored {n : Node α} (hplaced : d.PlacedBetween c n) (hn : d.TiedIn n)
    (h : Forest.Forall₂ Node.Reanchored d.trees d'.trees) : d'.PlacedBetween c n := by
  intro control start hcontrol hstart
  obtain ⟨staff, hstaff, hrect⟩ | ⟨first, span, m, hspans, heq⟩ := hplaced control start hcontrol hstart
  · exact .inl ⟨staff, by rw [ancestorOfKind?_of_reanchored h start (by decide), hstaff], hrect⟩
  · obtain ⟨hspans', hspanned⟩ := hspans.of_reanchored hn h rfl rfl
    exact .inr ⟨first, span, m, hspans', by rw [hspanned]; exact heq⟩

/-! ### One after another -/

omit [Scalar α] in
theorem node?_modify (d : Document α) (i h : Handle) (f : Node α → Node α)
    (hf : ∀ n, (f n).handle = n.handle) :
    (d.modify h f).node? i = if i = h then (d.node? i).map f else d.node? i := by
  have hfind : (d.modify h f).node? i =
      (d.node? i).map fun n => if hasHandle h n then f n else n := by
    rw [node?, node?, Forest.find?_eq_find?_toList, Forest.find?_eq_find?_toList, modify]
    dsimp only
    rw [Forest.modify, Forest.toList_map, List.find?_map]
    congr 2
    funext n
    rw [Function.comp_apply, hasHandle, hasHandle]
    split_ifs
    · exact congrArg (fun h => decide (h = i)) (hf n)
    · rfl
  rw [hfind]
  cases hn : d.node? i with
  | none => simp
  | some n =>
    have hhandle : n.handle = i := by
      rw [node?, Forest.find?_eq_find?_toList] at hn
      simpa [hasHandle] using List.find?_some hn
    subst hhandle
    rw [Option.map_some, Option.map_some, hasHandle]
    by_cases hh : n.handle = h <;> simp [hh]

theorem node?_placeAnchored_of_ne {i h : Handle} (hok : d.placeAnchored c h = .ok d') (hi : i ≠ h) :
    d'.node? i = d.node? i := by
  obtain ⟨n, -, ⟨control, start, first, span, -, rfl⟩ | ⟨rfl, -⟩⟩ := placeAnchored_cases hok
  · rw [node?_modify d i h (d.spanned c control start first span) fun _ => rfl, if_neg hi]
  · rfl

theorem node?_placeAll_of_notMem {i : Handle} : {waiting : List Handle} → {d d' : Document α} →
    waiting.foldlM (placeAnchored c) d = .ok d' → i ∉ waiting → d'.node? i = d.node? i
  | [], _, _, hok, _ => by rw [Except.ok.inj hok]
  | h :: waiting, _, _, hok, hi => by
      obtain ⟨d₁, hok₁, hok⟩ := except_bind_eq_ok.1 hok
      rw [List.mem_cons, not_or] at hi
      rw [node?_placeAll_of_notMem hok hi.2, node?_placeAnchored_of_ne hok₁ hi.1]

/-- A control element is in its place once it has been placed. -/
theorem placedBetween_of_placeAnchored (hd : d.handles.Nodup) {h : Handle}
    (hok : d.placeAnchored c h = .ok d') {n : Node α} (hn : d.node? h = some n) (hties : d.TiedIn n) :
    ∃ n', d'.node? h = some n' ∧ d'.TiedIn n' ∧ d'.PlacedBetween c n' := by
  have hsame := forall₂_placeAnchored hd hok
  obtain ⟨m, hm, ⟨control, start, first, span, hspans, rfl⟩ | ⟨rfl, hhidden⟩⟩ :=
    placeAnchored_cases hok <;> obtain rfl := Option.some.inj (hn.symm.trans hm)
  · have hkind : (d.spanned c control start first span n).kind = n.kind := rfl
    obtain ⟨hspans', hspanned⟩ := hspans.of_reanchored hties hsame hkind rfl
    refine ⟨d.spanned c control start first span n, ?_, hties.of_reanchored hsame rfl,
      fun control' start' hcontrol hstart => ?_⟩
    · rw [node?_modify d h h (d.spanned c control start first span) fun _ => rfl, if_pos rfl, hn,
        Option.map_some]
    · obtain rfl := Option.some.inj (hcontrol.symm.trans hspans'.kind)
      obtain rfl := Option.some.inj (hstart.symm.trans hspans'.tied)
      exact .inr ⟨first, span, n, hspans', by rw [hspanned]⟩
  · exact ⟨n, hn, hties, fun control start hcontrol hstart =>
      .inl (hhidden control start hcontrol hstart)⟩

/-- All control elements that have waited are in their places. -/
theorem placedBetween_of_mem : {waiting : List Handle} → {d d' : Document α} → d.handles.Nodup →
    (∀ h ∈ waiting, ∃ n, d.node? h = some n ∧ d.TiedIn n) →
      waiting.foldlM (placeAnchored c) d = .ok d' →
        ∀ h ∈ waiting, ∃ n, d'.node? h = some n ∧ d'.PlacedBetween c n
  | [], _, _, _, _, _ => fun _ h => absurd h List.not_mem_nil
  | h :: waiting, d, d', hd, hties, hok => by
      obtain ⟨d₁, hok₁, hok⟩ := except_bind_eq_ok.1 hok
      have hsame := forall₂_placeAnchored hd hok₁
      have hd₁ := nodup_handles_placeAnchored hd hok₁
      rw [List.forall_mem_cons] at hties
      obtain ⟨n, hn, hties₁⟩ := hties.1
      obtain ⟨n₁, hn₁, htied, hplaced⟩ := placedBetween_of_placeAnchored hd hok₁ hn hties₁
      have hrest := placedBetween_of_mem hd₁ (fun i hi => ?_) hok
      · refine List.forall_mem_cons.2 ⟨?_, hrest⟩
        by_cases hmem : h ∈ waiting
        · exact hrest h hmem
        · exact ⟨n₁, (node?_placeAll_of_notMem hok hmem).trans hn₁,
            hplaced.of_reanchored htied (forall₂_placeAllAnchored hd₁ hok)⟩
      · by_cases hih : i = h
        · exact ⟨n₁, hih ▸ hn₁, htied⟩
        · obtain ⟨m, hm, htied⟩ := hties.2 i hi
          exact ⟨m, (node?_placeAnchored_of_ne hok₁ hih).trans hm, htied.of_reanchored hsame rfl⟩

end Document

end ScoreLayout
