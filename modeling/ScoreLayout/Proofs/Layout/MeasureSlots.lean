import ScoreLayout.Proofs.Layout.LayerSlots
import ScoreLayout.Proofs.Layout.MeasureTimes

/-!
# The slots of measures

Above the layers, alignment opens a time grid for every measure, collects the slots of its layers in
it and closes it. The books on grace notes run through all measures; what they say of one measure is
not touched by the next, since no two symbols share a handle.

## Main definitions

* `Forest.LayersBooked`, `Forest.MeasuresBooked` — the symbols of all layers have the slots that they
  come to, and the time grids of their measures draw them.
* `AlignState.Slots`, `AlignState.MeasureSlots` — what walking some trees finds.

## Main results

* `AlignState.slots_staves` — the staves of a measure.
* `AlignState.slots_score` — the trees of a score.
-/

namespace ScoreLayout

variable {α : Type}

/-! ### Layers and measures -/

/-- The symbols of all layers of a forest have the slots that they come to, some of them only in the
books. -/
def Forest.LayersBooked (found : List (Handle × SlotKey)) (has : SlotKey → Prop)
    (f : Forest (Node α)) : Prop :=
  ∀ n below, HasTree n below f → n.tag = .layer → Booked found has (below.symbols .one none)

/-- The grids of all measures of a forest are sorted and draw the slots of their layers. -/
def Forest.MeasuresBooked (found : List (Handle × SlotKey)) (f : Forest (Node α)) : Prop :=
  ∀ n below m, HasTree n below f → n.kind = .measure m →
    m.grid.Sorted ∧ below.LayersBooked found m.grid.Has

/-- Slots have been found for the grace notes of all layers of a forest. -/
def Forest.GracesFound (found : List (Handle × SlotKey)) (f : Forest (Node α)) : Prop :=
  ∀ n below, HasTree n below f → n.tag = .layer → ∀ x ∈ below.symbols .one none, x.IsGrace →
    (found.lookup x.node.handle).isSome

theorem Booked.mono {found found' : List (Handle × SlotKey)} {has has' : SlotKey → Prop}
    {xs : List (Symbol α)} (h : Booked found has xs)
    (hfound : ∀ x ∈ xs, found'.lookup x.node.handle = found.lookup x.node.handle)
    (hhas : ∀ key, has key → has' key) : Booked found' has' xs := by
  obtain ⟨stop, hstop, h⟩ := h
  refine ⟨stop, hstop, fun front x back hxs key hkey => ?_⟩
  rw [hfound x (hxs ▸ List.mem_append_right _ List.mem_cons_self)]
  exact (h front x back hxs key hkey).imp_left (hhas key)

namespace Forest

variable {found found' : List (Handle × SlotKey)} {has has' : SlotKey → Prop}
  {f f' below siblings : Forest (Node α)} {n : Node α}

theorem LayersBooked.mono (h : f.LayersBooked found has)
    (hfound : ∀ m ∈ f.toList, found'.lookup m.handle = found.lookup m.handle)
    (hhas : ∀ key, has key → has' key) : f.LayersBooked found' has' :=
  fun n below htree hn => (h n below htree hn).mono
    (fun _ hx => hfound _ (htree.mem_of_mem (mem_of_mem_symbols hx))) hhas

theorem MeasuresBooked.mono (h : f.MeasuresBooked found)
    (hfound : ∀ m ∈ f.toList, found'.lookup m.handle = found.lookup m.handle) :
    f.MeasuresBooked found' :=
  fun n below m htree hn => (h n below m htree hn).imp_right fun h =>
    h.mono (fun _ hm => hfound _ (htree.mem_of_mem hm)) fun _ => id

theorem GracesFound.mono (h : f.GracesFound found)
    (hfound : ∀ m ∈ f.toList, found'.lookup m.handle = found.lookup m.handle) :
    f.GracesFound found' := fun n below htree hn x hx hgrace => by
  rw [hfound _ (htree.mem_of_mem (mem_of_mem_symbols hx))]
  exact h n below htree hn x hx hgrace

theorem GracesFound.cons (hn : n.tag ≠ .layer) (hbelow : below.GracesFound found)
    (hsiblings : siblings.GracesFound found) : (cons n below siblings).GracesFound found := by
  intro m under htree hm
  cases htree with
  | here => exact absurd hm hn
  | deeper _ h => exact hbelow m under h hm
  | beside _ _ h => exact hsiblings m under h hm

theorem LayersBooked.cons (hn : n.tag ≠ .layer) (hbelow : below.LayersBooked found has)
    (hsiblings : siblings.LayersBooked found has) :
    (cons n below siblings).LayersBooked found has := by
  intro m under htree hm
  cases htree with
  | here => exact absurd hm hn
  | deeper _ h => exact hbelow m under h hm
  | beside _ _ h => exact hsiblings m under h hm

theorem MeasuresBooked.cons (hn : n.tag ≠ .measure) (hbelow : below.MeasuresBooked found)
    (hsiblings : siblings.MeasuresBooked found) : (cons n below siblings).MeasuresBooked found := by
  intro m under k htree hm
  cases htree with
  | here => exact absurd (by rw [Node.tag, hm]; rfl) hn
  | deeper _ h => exact hbelow m under k h hm
  | beside _ _ h => exact hsiblings m under k h hm

theorem mem_map_cons {h : Handle}
    (hh : h ∈ below.toList.map Node.handle ∨ h ∈ siblings.toList.map Node.handle) :
    h ∈ (cons n below siblings).toList.map Node.handle := by
  rw [toList, List.map_cons, List.map_append]
  exact List.mem_cons_of_mem _ (List.mem_append.2 hh)

theorem HandlesBelow.deeper {under : Handle → List Handle}
    (h : (cons n below siblings).HandlesBelow under) : below.HandlesBelow under :=
  fun m below hm => h m below (.deeper _ hm)

theorem HandlesBelow.beside {under : Handle → List Handle}
    (h : (cons n below siblings).HandlesBelow under) : siblings.HandlesBelow under :=
  fun m below hm => h m below (.beside _ _ hm)

/-- What stands in measures. -/
theorem Nested.tag_of_mem (hf : f.Nested) (hroots : ∀ b ∈ f.roots, b.tag = .staff ∨
    b.tag = .layer ∨ b.tag = .control ∨ b.tag = .element) : ∀ m ∈ f.toList, m.tag = .staff ∨
      m.tag = .layer ∨ m.tag = .control ∨ m.tag = .element := by
  induction f with
  | nil => exact fun m hm => absurd hm List.not_mem_nil
  | cons n below siblings ihbelow ihsiblings =>
    obtain ⟨htakes, hbelow, hsiblings⟩ := hf
    rw [roots, List.forall_mem_cons] at hroots
    simp only [toList, List.mem_cons, List.mem_append, or_imp, forall_and, forall_eq]
    refine ⟨hroots.1, ihbelow hbelow fun b hb => ?_, ihsiblings hsiblings hroots.2⟩
    have htakes := htakes b hb
    have hn := hroots.1
    rw [Node.tag] at hn ⊢
    cases hk : n.kind <;> cases hk' : b.kind <;>
      simp [hk, hk', NodeKind.accepts, NodeKind.tag] at htakes hn ⊢

/-- No measure stands below staves. -/
theorem Nested.tag_ne_measure (hf : f.Nested) (hroots : ∀ b ∈ f.roots, b.tag = .staff ∨
    b.tag = .layer ∨ b.tag = .control ∨ b.tag = .element) : ∀ m ∈ f.toList, m.tag ≠ .measure := by
  intro m hm
  rcases hf.tag_of_mem hroots m hm with h | h | h | h <;> rw [h] <;> decide

/-- No layer stands among symbols. -/
theorem Symbolic.layersBooked (hf : f.Symbolic) : f.LayersBooked found has :=
  fun m _ htree hm => absurd ((hf.tag m htree.mem).symm.trans hm) (by decide)

end Forest

variable [Scalar α]

namespace AlignState

/-- What walking some trees inside a measure finds. -/
structure Slots (s s' : AlignState α) (f f' : Forest (Node α)) : Prop extends Collects s s' where
  others : ∀ h ∉ f.toList.map Node.handle, s'.graceSlots.lookup h = s.graceSlots.lookup h
  booked : f'.LayersBooked s'.graceSlots s'.Has
  graces : f'.GracesFound s'.graceSlots

/-- What walking some trees above measures finds. -/
structure MeasureSlots (s s' : AlignState α) (f f' : Forest (Node α)) : Prop where
  others : ∀ h ∉ f.toList.map Node.handle, s'.graceSlots.lookup h = s.graceSlots.lookup h
  booked : f'.MeasuresBooked s'.graceSlots
  graces : f'.GracesFound s'.graceSlots

variable {c : AlignContext α} {s s₁ s₂ s' : AlignState α} {n n' : Node α}
  {below below' siblings siblings' : Forest (Node α)}

omit [Scalar α] in
theorem Slots.nil (s : AlignState α) : s.Slots s .nil .nil where
  toCollects := .refl s
  others _ _ := rfl
  booked _ _ h := by cases h
  graces _ _ h := by cases h

omit [Scalar α] in
theorem MeasureSlots.nil (s : AlignState α) : s.MeasureSlots s .nil .nil where
  others _ _ := rfl
  booked _ _ _ h := by cases h
  graces _ _ h := by cases h

section Cons

variable (hhandles : ((Forest.cons n below siblings).toList.map Node.handle).Nodup)
  (hkeeps : Forest.Forall₂ Keeps (.tree n below) (.tree n' below'))

include hhandles hkeeps in
/-- The handles of a tree are not those of the trees behind it. -/
theorem not_mem_siblings {m : Node α} (hm : m ∈ (Forest.tree n' below').toList) :
    m.handle ∉ siblings.toList.map Node.handle := by
  have hmem : m.handle ∈ (Forest.tree n below).toList.map Node.handle := by
    rw [map_eq_of_forall₂ (fun _ _ h => h.handle.symm) hkeeps.toList]
    exact List.mem_map_of_mem hm
  rw [Forest.toList_tree] at hmem
  rw [Forest.toList, ← List.cons_append, List.map_append, List.nodup_append] at hhandles
  exact fun hin => hhandles.2.2 _ hmem _ hin rfl

include hhandles in
omit [Scalar α] in
theorem not_mem_tree_of_mem {h : Handle} (hh : h ∈ siblings.toList.map Node.handle) :
    h ∉ (Forest.tree n below).toList.map Node.handle := by
  rw [Forest.toList, ← List.cons_append, List.map_append, List.nodup_append] at hhandles
  rw [Forest.toList_tree]
  exact fun hin => hhandles.2.2 _ hin _ hh rfl

omit [Scalar α] in
/-- Handles that stand elsewhere stand neither in a tree nor behind it. -/
theorem not_mem_of_cons {h : Handle}
    (hh : h ∉ (Forest.cons n below siblings).toList.map Node.handle) :
    h ∉ (Forest.tree n below).toList.map Node.handle ∧ h ∉ siblings.toList.map Node.handle := by
  rw [Forest.toList, ← List.cons_append, List.map_append, List.mem_append, not_or] at hh
  rw [Forest.toList_tree]
  exact hh

include hhandles hkeeps

/-- A tree, and those behind it. -/
theorem Slots.cons (htree : s.Slots s₁ (.tree n below) (.tree n' below'))
    (hsiblings : s₁.Slots s' siblings siblings') :
    s.Slots s' (.cons n below siblings) (.cons n' below' siblings') where
  toCollects := htree.toCollects.trans hsiblings.toCollects
  others h hh := (hsiblings.others h (not_mem_of_cons hh).2).trans
    (htree.others h (not_mem_of_cons hh).1)
  booked m under hm := by
    have hbooked := htree.booked.mono
      (fun m hm => hsiblings.others _ (not_mem_siblings hhandles hkeeps hm))
      fun _ => hsiblings.has
    cases hm with
    | here => exact hbooked _ _ (.here .nil)
    | deeper _ h => exact hbooked _ _ (.deeper .nil h)
    | beside _ _ h => exact hsiblings.booked _ _ h
  graces m under hm := by
    have hgraces := htree.graces.mono
      fun m hm => hsiblings.others _ (not_mem_siblings hhandles hkeeps hm)
    cases hm with
    | here => exact hgraces _ _ (.here .nil)
    | deeper _ h => exact hgraces _ _ (.deeper .nil h)
    | beside _ _ h => exact hsiblings.graces _ _ h

theorem MeasureSlots.cons (htree : s.MeasureSlots s₁ (.tree n below) (.tree n' below'))
    (hsiblings : s₁.MeasureSlots s' siblings siblings') :
    s.MeasureSlots s' (.cons n below siblings) (.cons n' below' siblings') where
  others h hh := (hsiblings.others h (not_mem_of_cons hh).2).trans
    (htree.others h (not_mem_of_cons hh).1)
  booked m under k hm := by
    have hbooked := htree.booked.mono
      fun m hm => hsiblings.others _ (not_mem_siblings hhandles hkeeps hm)
    cases hm with
    | here => exact hbooked _ _ k (.here .nil)
    | deeper _ h => exact hbooked _ _ k (.deeper .nil h)
    | beside _ _ h => exact hsiblings.booked _ _ k h
  graces m under hm := by
    have hgraces := htree.graces.mono
      fun m hm => hsiblings.others _ (not_mem_siblings hhandles hkeeps hm)
    cases hm with
    | here => exact hgraces _ _ (.here .nil)
    | deeper _ h => exact hgraces _ _ (.deeper .nil h)
    | beside _ _ h => exact hsiblings.graces _ _ h

end Cons

/-! ### Staves and layers -/

omit [Scalar α] in
/-- A node that is passed, and what stands below it. -/
theorem Slots.passed (hn : n'.tag ≠ .layer) (hgrids : s₁.grids = s.grids)
    (hfound : s₁.graceSlots = s.graceSlots) (hfault : s₁.fault = none → s.fault = none)
    (hbelow : s₁.Slots s₂ below below') : s.Slots s₂ (.tree n below) (.tree n' below') where
  toCollects := (collects_of_eq hgrids hfound hfault).trans hbelow.toCollects
  others h hh := by
    rw [Forest.toList_tree, List.map_cons, List.mem_cons,
      not_or] at hh
    rw [hbelow.others h hh.2, hfound]
  booked := .cons hn hbelow.booked fun _ _ h => by cases h
  graces := .cons hn hbelow.graces fun _ _ h => by cases h

omit [Scalar α] in
theorem MeasureSlots.passed (hn : n'.tag ≠ .measure) (hl : n'.tag ≠ .layer) (hfound : s₁.graceSlots = s.graceSlots)
    (hbelow : s₁.MeasureSlots s₂ below below') :
    s.MeasureSlots s₂ (.tree n below) (.tree n' below') where
  others h hh := by
    rw [Forest.toList_tree, List.map_cons, List.mem_cons,
      not_or] at hh
    rw [hbelow.others h hh.2, hfound]
  booked := .cons hn hbelow.booked fun _ _ _ h => by cases h
  graces := .cons hl hbelow.graces fun _ _ h => by cases h

/-- The staves of a measure, and the layers of a staff. -/
theorem slots_staves {s : AlignState α} {above : Option (Node α)} {f : Forest (Node α)}
    {s' : AlignState α} {f' : Forest (Node α)}
    (h : Forest.Completes (alignPass c) above s f s' f') (hf : f.Nested)
    (hroots : ∀ n ∈ f.roots, n.tag = .staff ∨ n.tag = .layer ∨ n.tag = .control)
    (hids : (f.toList.map Node.id).Nodup) (hhandles : (f.toList.map Node.handle).Nodup)
    (hunder : f.HandlesBelow c.symbolsBelow) (hs : s.collecting) (hgrids : s.grids ≠ [])
    (hfault : s.fault = none)
    (hfree : ∀ h ∈ f.toList.map Node.handle, s.graceSlots.lookup h = none) : s.Slots s' f f' := by
  have hsame := keeps_completes h
  induction h with
  | nil => exact .nil _
  | @skip above s s₁ s₂ b b₁ children siblings siblings' henter hbeside ih =>
    rw [Forest.roots, List.forall_mem_cons] at hroots
    obtain ⟨k, hb⟩ : ∃ k, b.kind = .control k := by
      refine Node.exists_control (hroots.1.elim (fun ht => ?_) (·.elim (fun ht => ?_) id))
      · obtain ⟨staff, hb⟩ := Node.exists_staff ht
        simp [alignPass, enter, hb] at henter
      · obtain ⟨k, hb⟩ := Node.exists_layer ht
        simp [alignPass, enter, hb] at henter
    obtain rfl := eq_nil_of_control hb hf.1
    obtain ⟨rfl, rfl, -⟩ := enter_of_control hb henter
    have hrest := ih hf.2.2 hroots.2 (Forest.nodup_of_cons hids).2
      (Forest.nodup_of_cons hhandles).2 hunder.beside hs hgrids hfault
      (fun h hh => hfree h (Forest.mem_map_cons (.inr hh))) (keeps_completes hbeside)
    have htag : b₁.tag ≠ .layer := by rw [Node.tag, hb]; simp [NodeKind.tag]
    exact .cons hhandles (.cons (.refl b₁) .nil .nil) (.passed htag rfl rfl id (.nil s₁)) hrest
  | @walk above s s₁ s₂ s₃ s₄ b b₁ b₂ children siblings children₁ children₂ siblings' whole v henter
      hbelow hleave hgo hbeside ihbelow ihbeside =>
    rw [Forest.roots, List.forall_mem_cons] at hroots
    obtain ⟨htakes, hchildren, hsiblings⟩ := hf
    obtain ⟨hidsChildren, hidsSiblings⟩ := Forest.nodup_of_cons hids
    obtain ⟨hhandlesChildren, hhandlesSiblings⟩ := Forest.nodup_of_cons hhandles
    have hfreeChildren : ∀ h ∈ children.toList.map Node.handle, s.graceSlots.lookup h = none :=
      fun h hh => hfree h (Forest.mem_map_cons (.inl hh))
    have hkeeps : Forest.Forall₂ Keeps (.tree b children) (.tree b₂ children₂) := by
      cases hsame with
      | cons hn hc _ => exact .cons hn hc .nil
    -- what is found for a tree leaves those behind it alone
    have hrest (htree : s.Slots s₃ (.tree b children) (.tree b₂ children₂))
        (hs₃ : s₃.collecting) (hfault₃ : s₃.fault = none) :
        s.Slots s₄ (.cons b children siblings) (.cons b₂ children₂ siblings') := by
      refine .cons hhandles hkeeps htree (ihbeside hsiblings hroots.2 hidsSiblings hhandlesSiblings
        hunder.beside hs₃ (htree.ne_nil_iff.2 hgrids) hfault₃ (fun h hh => ?_)
        (keeps_completes hbeside))
      rw [htree.others h fun hin => not_mem_tree_of_mem hhandles hh hin]
      exact hfree h (Forest.mem_map_cons (.inr hh))
    rcases hroots.1 with htag | htag | htag
    · obtain ⟨staff, hb⟩ := Node.exists_staff htag
      obtain ⟨hkind, -, -, hgrids₁, hcollecting₁, hfault₁⟩ := enter_of_staff hb henter
      have hfound₁ : s₁.graceSlots = s.graceSlots := by
        simp only [alignPass, enter, hb, enterStaff, Prod.mk.injEq] at henter
        exact henter.1 ▸ rfl
      have htag₁ : b₁.tag = .staff := (congrArg NodeKind.tag hkind).trans htag
      obtain ⟨rfl, rfl, rfl⟩ := leave_of_tag (by rw [htag₁]; decide) (by rw [htag₁]; decide)
        (by rw [htag₁]; decide) hleave
      have hlayers : ∀ n ∈ children.roots, n.tag = .staff ∨ n.tag = .layer ∨ n.tag = .control := by
        intro n hn
        have := htakes n hn
        rw [hb] at this
        rw [Node.tag]
        cases hk : n.kind <;> simp [hk, NodeKind.accepts, NodeKind.tag] at this ⊢
      obtain ⟨htimes, hcollecting⟩ := times_staves hbelow hchildren hlayers hidsChildren
        (hcollecting₁.trans hs) (hfault₁.trans hfault)
      have hwalked := ihbelow hchildren hlayers hidsChildren hhandlesChildren hunder.deeper
        (hcollecting₁.trans hs) (hgrids₁ ▸ hgrids) (hfault₁.trans hfault)
        (hfound₁ ▸ hfreeChildren) (keeps_completes hbelow)
      exact hrest (.passed (by rw [htag₁]; decide) hgrids₁ hfound₁ (hfault₁ ▸ id) hwalked)
        (hcollecting.trans (hcollecting₁.trans hs)) htimes.fault
    · obtain ⟨k, hb⟩ := Node.exists_layer htag
      obtain ⟨hkind, rfl⟩ := enter_of_layer hb henter
      obtain ⟨rfl, rfl, rfl, hend⟩ := leave_of_layer (hkind.trans hb) hleave hgo
      have hsymbols : children.Symbolic := hchildren.symbolic fun n hn =>
        NodeKind.tag_of_layer htag (htakes n hn)
      obtain ⟨htimes, hcollecting⟩ :=
        Times.layer (n := b) (hkind.trans hb) hs hfault hsymbols hidsChildren hbelow hend
      obtain ⟨hcollects, hothers, hbooked, hgraces⟩ := booked_layer hs hgrids hfault hsymbols hidsChildren
        hhandlesChildren hunder.deeper hbelow hend hfreeChildren
      have hsymbols' : children₂.Symbolic := hsymbols.of_kinds
        (walked_symbols hbelow hsymbols hidsChildren hs hfault rfl).nodes fun _ _ h => h.kind
      refine hrest ⟨hcollects, fun h hh => hothers h ?_, fun m under hm hlayer => ?_,
        fun m under hm hlayer => ?_⟩ (hcollecting.trans hs) htimes.fault
      · exact fun hin => hh (Forest.mem_map_cons (.inl hin))
      · cases hm with
        | here => exact hbooked
        | deeper _ h => exact hsymbols'.layersBooked m under h hlayer
        | beside _ _ h => cases h
      · cases hm with
        | here => exact hgraces
        | deeper _ h => exact absurd ((hsymbols'.tag m h.mem).symm.trans hlayer) (by decide)
        | beside _ _ h => cases h
    · obtain ⟨k, hb⟩ := Node.exists_control htag
      cases (enter_of_control hb henter).2.2

/-! ### Measures -/

/-- Time-stamped control elements add slots to the grid, and find none for grace notes. -/
theorem collects_placeControl (beat last : Fraction) (s : AlignState α) (n : Node α) :
    s.Collects (placeControl beat last s n).1 ∧
      (placeControl beat last s n).1.graceSlots = s.graceSlots ∧
      ((placeControl beat last s n).2.tag ≠ .control → (placeControl beat last s n).2 = n) := by
  have hadd (s : AlignState α) (onset : Fraction) :
      s.Collects (s.updateGrid fun g => g.timestampSlot onset) ∧
        (s.updateGrid fun g => g.timestampSlot onset).graceSlots = s.graceSlots :=
    ⟨collects_updateGrid (fun _ _ => MeasureGrid.grows_timestampSlot) s,
      congrArg GraceLedger.found (ledger_updateGrid s _)⟩
  have htag := (adds_placeControl beat last s n).2.tag
  rw [placeControl] at htag ⊢
  split at htag
  · exact ⟨.refl s, rfl, fun _ => rfl⟩
  · rename_i control tstamp htstamp
    have hn : n.tag = .control := by
      rw [tstamp?] at htstamp
      split_ifs at htstamp
      simp only [Option.bind_eq_bind, Option.bind_eq_some_iff] at htstamp
      obtain ⟨control, hcontrol, -⟩ := htstamp
      rw [Node.tag]
      cases hk : n.kind <;> rw [hk] at hcontrol <;> first | rfl | cases hcontrol
    refine ⟨Collects.trans ?_ (hadd _ _).1, (hadd _ _).2.trans ?_, fun h =>
      absurd (htag.trans hn) h⟩
    · split_ifs
      · exact collects_of_eq rfl rfl id
      · exact .refl s
    · split_ifs <;> rfl

theorem collects_placeControls (beat last : Fraction) :
    (f : Forest (Node α)) → (s : AlignState α) → s.Collects (placeControls beat last s f).1 ∧
      (placeControls beat last s f).1.graceSlots = s.graceSlots ∧
      ∀ n below, Forest.HasTree n below (placeControls beat last s f).2 → n.tag ≠ .control →
        Forest.HasTree n below f
  | .nil, s => ⟨.refl s, rfl, fun _ _ h _ => h⟩
  | .cons b children siblings, s => by
      obtain ⟨hcollects, hfound, hsame⟩ := collects_placeControl beat last s b
      obtain ⟨hcollects', hfound', hsame'⟩ :=
        collects_placeControls beat last siblings (placeControl beat last s b).1
      refine ⟨hcollects.trans hcollects', hfound'.trans hfound, fun n below h hn => ?_⟩
      replace h : Forest.HasTree n below (.cons (placeControl beat last s b).2 children
        (placeControls beat last (placeControl beat last s b).1 siblings).2) := h
      generalize (placeControl beat last s b).2 = b' at h hsame
      cases h with
      | here => exact hsame hn ▸ .here siblings
      | deeper _ h => exact .deeper siblings h
      | beside _ _ h => exact .beside b children (hsame' n below h hn)

theorem grows_drawBarLines (m : Measure α) (last : Fraction) (g : MeasureGrid α) (staff : UInt32) :
    g.Grows (drawBarLines c m last g staff) := by
  unfold drawBarLines
  dsimp only
  cases m.leftBarLine.bind _ <;> cases c.metrics.barLine m.rightBarLine _ _
  · exact .refl g
  · exact g.grows_addFootprint ..
  · exact g.grows_addFootprint ..
  · exact (g.grows_addFootprint ..).trans (MeasureGrid.grows_addFootprint ..)

theorem grows_foldl_drawBarLines (m : Measure α) (last : Fraction) :
    (staves : List UInt32) → (g : MeasureGrid α) → g.Grows (staves.foldl (drawBarLines c m last) g)
  | [], g => .refl g
  | staff :: staves, g =>
      (grows_drawBarLines m last g staff).trans (grows_foldl_drawBarLines m last staves _)

/-- The end of a measure closes its grid. -/
theorem grows_leaveMeasure {g : MeasureGrid α} {outer : List (MeasureGrid α)} {m : Measure α}
    (hgrids : s.grids = g :: outer) (hfault : (s.leaveMeasure c n m below).1.fault = none) :
    ∃ grid, (s.leaveMeasure c n m below).2.1 = { n with kind := .measure { m with grid } } ∧
      g.Grows grid ∧ (s.leaveMeasure c n m below).1.graceSlots = s.graceSlots ∧
      ∀ b children, Forest.HasTree b children (s.leaveMeasure c n m below).2.2 →
        b.tag ≠ .control → Forest.HasTree b children below := by
  obtain ⟨hcollects, hfound, hsame⟩ := collects_placeControls s.signatures.meter.beatDuration
    (s.grids.headD m.grid).maxTime below s
  rw [leaveMeasure] at hfault ⊢
  dsimp only at hfault ⊢
  generalize placeControls s.signatures.meter.beatDuration (s.grids.headD m.grid).maxTime s below =
    placed at hfault hcollects hfound hsame ⊢
  obtain ⟨s₁, below₁⟩ := placed
  dsimp only at hfault hcollects hfound hsame ⊢
  have hgrow := hcollects.grids
  rw [hgrids] at hgrow
  obtain ⟨g₁, outer₁, hg₁, -, hgrids₁⟩ := List.forall₂_cons_left_iff.1 hgrow
  simp only [hgrids₁, List.headD_cons] at hfault ⊢
  cases hfinish : g₁.finish with
  | ok closed =>
    exact ⟨_, rfl, (hg₁.trans (MeasureGrid.grows_finish hfinish)).trans
      (grows_foldl_drawBarLines ..), hfound, hsame⟩
  | error f =>
    rw [hfinish] at hfault
    exact absurd hfault (by simp)

/-- A measure, whose staves are walked with a grid of its own. -/
theorem MeasureSlots.measure {m' : Measure α} {grid : MeasureGrid α} (hgrid : grid.Sorted)
    (hgrids : s₁.grids = grid :: s.grids) (hfound : s₁.graceSlots = s.graceSlots)
    (hbelow : s₁.Slots s₂ below below')
    (houter : ∀ b ∈ (s₂.leaveMeasure c n' m' below').2.2.toList, b.tag ≠ .measure)
    (hend : (s₂.leaveMeasure c n' m' below').1.fault = none) :
    s.MeasureSlots (s₂.leaveMeasure c n' m' below').1 (.tree n below)
      (.tree (s₂.leaveMeasure c n' m' below').2.1 (s₂.leaveMeasure c n' m' below').2.2) := by
  have hgrow := hbelow.grids
  rw [hgrids] at hgrow
  obtain ⟨g, outer, hg, -, hgrids₂⟩ := List.forall₂_cons_left_iff.1 hgrow
  obtain ⟨grid', hnode, hgrid', hfound', hsame⟩ := grows_leaveMeasure hgrids₂ hend
  refine ⟨fun h hh => ?_, fun b children k hb hk => ?_, ?_⟩
  · rw [Forest.toList_tree, List.map_cons, List.mem_cons,
      not_or] at hh
    rw [hfound', hbelow.others h hh.2, hfound]
  · cases hb with
    | here =>
      rw [hnode] at hk
      obtain rfl := NodeKind.measure.inj hk
      refine ⟨hgrid'.sorted (hg.sorted hgrid), fun layer under hlayer htag => ?_⟩
      have hbooked := hbelow.booked layer under (hsame _ _ hlayer (by rw [htag]; decide)) htag
      refine hbooked.mono (fun x _ => by rw [hfound']) ?_
      rintro key ⟨g', hg', hkey⟩
      rw [hgrids₂] at hg'
      exact hgrid'.has key (Option.some.inj hg' ▸ hkey)
    | deeper _ h => exact absurd (by rw [Node.tag, hk]; rfl) (houter b h.mem)
    | beside _ _ h => cases h
  · refine .cons ?_ (fun layer under hlayer htag => ?_) fun _ _ h => by cases h
    · rw [hnode]
      exact fun h => by cases h
    · rw [hfound']
      exact hbelow.graces layer under (hsame _ _ hlayer (by rw [htag]; decide)) htag

/-! ### The score -/

/-- Entering a measure opens a sorted grid. -/
theorem grid_of_enter_measure {m : Measure α} (hn : n.kind = .measure m) {above : Option (Node α)}
    {v : Visit} (h : (alignPass c).enter s above n = (s₁, n', v)) :
    ∃ grid : MeasureGrid α, grid.Sorted ∧ s₁.grids = grid :: s.grids ∧
      s₁.graceSlots = s.graceSlots := by
  dsimp only [alignPass] at h
  rw [enter, hn] at h
  simp only [enterMeasure, MeasureGrid.begin_empty, Prod.mk.injEq] at h
  obtain ⟨rfl, rfl, -⟩ := h
  exact ⟨_, MeasureGrid.sorted_begin MeasureGrid.begin_empty, rfl, rfl⟩

/-- Nothing is found above measures. -/
theorem graceSlots_enter_of_outer (hn : IsOuter n) (hm : n.tag ≠ .measure) (hc : n.tag ≠ .control)
    {above : Option (Node α)} {v : Visit} (h : (alignPass c).enter s above n = (s₁, n', v)) :
    s₁.graceSlots = s.graceSlots := by
  obtain ⟨hs, hl, he⟩ := hn
  dsimp only [alignPass] at h
  rw [enter] at h
  rw [Node.tag] at hs hl he hm hc
  cases hk : n.kind with
  | change | document | page | system | systemBreak | pageBreak =>
    rw [hk] at h
    simp only [Prod.mk.injEq] at h
    exact h.1 ▸ rfl
  | measure | staff | layer | element | control => simp [hk, NodeKind.tag] at hs hl he hm hc

/-- The trees of a score. -/
theorem slots_score {s : AlignState α} {above : Option (Node α)} {f : Forest (Node α)}
    {s' : AlignState α} {f' : Forest (Node α)}
    (h : Forest.Completes (alignPass c) above s f s' f') (hf : f.Nested)
    (hroots : ∀ n ∈ f.roots, IsOuter n) (hids : (f.toList.map Node.id).Nodup)
    (hhandles : (f.toList.map Node.handle).Nodup) (hunder : f.HandlesBelow c.symbolsBelow)
    (hopen : ∀ g ∈ s.grids, g.Open) (hfault : s.fault = none)
    (hfree : ∀ h ∈ f.toList.map Node.handle, s.graceSlots.lookup h = none) :
    s.MeasureSlots s' f f' := by
  have hsame := keeps_completes h
  induction h with
  | nil => exact .nil _
  | @skip above s s₁ s₂ b b₁ children siblings siblings' henter hbeside ih =>
    rw [Forest.roots, List.forall_mem_cons] at hroots
    obtain ⟨k, hb⟩ := exists_control_of_skip hroots.1 henter
    obtain rfl := eq_nil_of_control hb hf.1
    obtain ⟨rfl, rfl, -⟩ := enter_of_control hb henter
    have htag : b₁.tag ≠ .measure := by rw [Node.tag, hb]; simp [NodeKind.tag]
    have hlayer : b₁.tag ≠ .layer := by rw [Node.tag, hb]; simp [NodeKind.tag]
    exact .cons hhandles (.cons (.refl b₁) .nil .nil) (.passed htag hlayer rfl (.nil s₁))
      (ih hf.2.2 hroots.2 (Forest.nodup_of_cons hids).2 (Forest.nodup_of_cons hhandles).2
        hunder.beside hopen hfault (fun h hh => hfree h (Forest.mem_map_cons (.inr hh)))
        (keeps_completes hbeside))
  | @walk above s s₁ s₂ s₃ s₄ b b₁ b₂ children siblings children₁ children₂ siblings' whole v henter
      hbelow hleave hgo hbeside ihbelow ihbeside =>
    rw [Forest.roots, List.forall_mem_cons] at hroots
    obtain ⟨htakes, hchildren, hsiblings⟩ := hf
    obtain ⟨hidsChildren, hidsSiblings⟩ := Forest.nodup_of_cons hids
    obtain ⟨hhandlesChildren, hhandlesSiblings⟩ := Forest.nodup_of_cons hhandles
    have hfreeChildren : ∀ h ∈ children.toList.map Node.handle, s.graceSlots.lookup h = none :=
      fun h hh => hfree h (Forest.mem_map_cons (.inl hh))
    have hkeeps : Forest.Forall₂ Keeps (.tree b children) (.tree b₂ children₂) := by
      cases hsame with
      | cons hn hc _ => exact .cons hn hc .nil
    have hwalk : Forest.Completes (alignPass c) above s (.tree b children) s₃
        (.tree b₂ children₂) := .walk henter hbelow hleave hgo (.nil above s₃)
    have htimes : s.Times s₃ (.tree b children) (.tree b₂ children₂) := by
      refine times_score hwalk ⟨htakes, hchildren, trivial⟩ ?_ ?_ hopen hfault
      · exact List.forall_mem_singleton.2 hroots.1
      · rw [Forest.toList, ← List.cons_append, List.map_append] at hids
        simpa [Forest.tree, Forest.toList] using (List.nodup_append.1 hids).1
    -- what is found for a tree leaves those behind it alone
    have hrest (htree : s.MeasureSlots s₃ (.tree b children) (.tree b₂ children₂)) :
        s.MeasureSlots s₄ (.cons b children siblings) (.cons b₂ children₂ siblings') := by
      refine .cons hhandles hkeeps htree (ihbeside hsiblings hroots.2 hidsSiblings hhandlesSiblings
        hunder.beside (htimes.grids hopen).1 htimes.fault (fun h hh => ?_)
        (keeps_completes hbeside))
      rw [htree.others h fun hin => not_mem_tree_of_mem hhandles hh hin]
      exact hfree h (Forest.mem_map_cons (.inr hh))
    by_cases hc : b.tag = .control
    · obtain ⟨k, hb⟩ := Node.exists_control hc
      cases (enter_of_control hb henter).2.2
    by_cases hm : b.tag = .measure
    · obtain ⟨m, hb⟩ := NodeKind.exists_of_measure hm
      obtain ⟨⟨m', hb₁⟩, -, -, -, hcollecting, hfault₁, -⟩ := enter_of_measure_kind hb henter
      obtain ⟨grid, hgrid, hgrids₁, hfound₁⟩ := grid_of_enter_measure hb henter
      obtain ⟨rfl, rfl, rfl, hend⟩ := leave_of_measure hb₁ hleave hgo
      have hstaves : ∀ n ∈ children.roots, n.tag = .staff ∨ n.tag = .layer ∨ n.tag = .control := by
        intro n hn
        have := htakes n hn
        rw [hb] at this
        rw [Node.tag]
        cases hk : n.kind <;> simp [hk, NodeKind.accepts, NodeKind.tag] at this ⊢
      have hwalked := slots_staves hbelow hchildren hstaves hidsChildren hhandlesChildren
        hunder.deeper hcollecting (by rw [hgrids₁]; exact List.cons_ne_nil _ _)
        (hfault₁.trans hfault) (hfound₁ ▸ hfreeChildren)
      refine hrest (.measure hgrid hgrids₁ hfound₁ hwalked (fun n' hn' => ?_) hend)
      cases hkeeps with
      | cons _ hc _ =>
        obtain ⟨n, hn, hnn⟩ := exists_mem_of_forall₂ hc.toList hn'
        rw [hnn.tag]
        exact hchildren.tag_ne_measure (fun b hb => (hstaves b hb).imp_right (·.imp_right .inl)) n hn
    · obtain ⟨-, rfl, -, -, hgrids₁, hfault₁⟩ := enter_of_outer hroots.1 hm hc henter
      obtain ⟨rfl, rfl, rfl⟩ := leave_of_tag hm hroots.1.2.1 hroots.1.2.2 hleave
      have houter := isOuter_of_accepts hroots.1 hm htakes
      have hfound₁ := graceSlots_enter_of_outer hroots.1 hm hc henter
      exact hrest (.passed hm hroots.1.2.1 hfound₁ (ihbelow hchildren houter hidsChildren hhandlesChildren
        hunder.deeper (hgrids₁ ▸ hopen) (hfault₁.trans hfault) (hfound₁ ▸ hfreeChildren)
        (keeps_completes hbelow)))

end AlignState

end ScoreLayout
