import ScoreLayout.Proofs.Layout.DrawnSymbols
import ScoreLayout.Proofs.Layout.GraceChords
import ScoreLayout.Proofs.Layout.LoneLayers

/-!
# Symbols of all kinds on the walk

Clefs, signatures and barlines within a layer take a slot of their kind as soon as alignment comes to
them. The notes of a grace chord wait with it: while the chord is open none of them gets a slot of its
own, so that in the end the books say the same of all of them.

## Main definitions

* `Element.untimedKind?` — the kind of slot of a symbol that takes no time.
* `Forest.Coupling` — a grace chord and one of its notes, wherever they stand.
* `AlignState.Visits`, `AlignState.Passes` — what walking some trees does, in a measure and above.

## Main results

* `AlignState.visits_completes` — the trees of a measure.
* `AlignState.passes_completes` — the trees of a score.
-/

namespace ScoreLayout

variable {α : Type}

/-- The kind of slot of a symbol that takes no time and groups nothing. -/
def Element.untimedKind? : Element → Option SlotKind
  | .clef _ => some .clef
  | .key _ => some .key
  | .meter _ => some .meter
  | .barLine _ => some .barLine
  | _ => none

/-- A node in a slot of its own kind at its onset, where it takes no time. -/
def Node.UntimedAt (has : SlotKey → Prop) (n : Node α) : Prop :=
  ∀ e kind, n.kind = .element e → e.untimedKind? = some kind → ∃ onset,
    n.layout.onset = some onset ∧ n.layout.slot = some (.ofKind onset kind) ∧
      has (.ofKind onset kind)

/-- A node that is no symbol. -/
theorem Node.untimedAt_of_tag {has : SlotKey → Prop} {n : Node α} (hn : n.tag ≠ .element) :
    n.UntimedAt has := fun _ _ he => absurd (by rw [Node.tag, he]; rfl) hn

theorem Node.UntimedAt.mono {has has' : SlotKey → Prop} {n : Node α} (h : n.UntimedAt has)
    (hhas : ∀ key, has key → has' key) : n.UntimedAt has' := fun e kind he hkind => by
  obtain ⟨onset, honset, hslot, hkey⟩ := h e kind he hkind
  exact ⟨onset, honset, hslot, hhas _ hkey⟩

/-- Two handles, of which the second is that of a note of a grace chord wherever the first is that of
this chord. All other grace notes wait with both of them or with neither. -/
def Forest.Coupling (under : Handle → List Handle) (p q : Handle) :
    Option Element → Forest (Node α) → Prop
  | _, .nil => True
  | above, .cons n below siblings =>
    (n.handle = p → ∃ d, n.kind = .element (.chord d) ∧ d.grace) ∧
      (n.handle = q → ∃ d, above = some (.chord d) ∧ d.grace) ∧
      (n.isGrace → (∀ d, above ≠ some (.chord d)) →
        (p ∈ n.handle :: under n.handle ↔ q ∈ n.handle :: under n.handle)) ∧
      below.Coupling under p q n.kind.element? ∧ siblings.Coupling under p q above

theorem Node.tag_of_isGrace {n : Node α} (hn : n.isGrace) : n.tag = .element := by
  rw [Node.isGrace] at hn
  rw [Node.tag]
  cases hk : n.kind <;> simp [hk, NodeKind.element?, NodeKind.tag] at hn ⊢

namespace Forest

variable {under : Handle → List Handle} {p q : Handle} {f : Forest (Node α)} {a x : Node α}
  {below : Forest (Node α)} {d : Duration}

/-- What stands right above a node decides whether it may be such a chord or note. -/
theorem coupling_of_links : {f : Forest (Node α)} → (above : Option (Node α)) →
    (∀ n ∈ f.toList, n.handle = p → ∃ d, n.kind = .element (.chord d) ∧ d.grace) →
    (∀ l ∈ f.links above, l.2.handle = q →
      ∃ d, (l.1.bind fun a => a.kind.element?) = some (.chord d) ∧ d.grace) →
    (∀ l ∈ f.links above, l.2.isGrace →
      (∀ d, (l.1.bind fun a => a.kind.element?) ≠ some (.chord d)) →
        (p ∈ l.2.handle :: under l.2.handle ↔ q ∈ l.2.handle :: under l.2.handle)) →
    f.Coupling under p q (above.bind fun a => a.kind.element?)
  | .nil, _, _, _, _ => trivial
  | .cons n children siblings, above, hp, hq, hwait => by
      rw [toList, List.forall_mem_cons, List.forall_mem_append] at hp
      rw [links, List.forall_mem_cons, List.forall_mem_append] at hq hwait
      exact ⟨hp.1, hq.1, hwait.1, coupling_of_links (some n) hp.2.1 hq.2.1 hwait.2.1,
        coupling_of_links above hp.2.2 hq.2.2 hwait.2.2⟩

/-- A grace chord and a note of it. -/
theorem coupling_of_hasTree (hhandles : (f.toList.map Node.handle).Nodup)
    (hunder : f.HandlesBelow under) (ha : HasTree a below f) (hd : a.kind = .element (.chord d))
    (hgrace : d.grace) (hx : x ∈ below.roots) : f.Coupling under a.handle x.handle none := by
  have hlink : (some a, x) ∈ f.links none := ha.mem_links (link_of_mem_roots _ hx) none
  refine coupling_of_links none (fun n hn hna => ?_) (fun l hl hlx => ?_)
    fun l hl hn hplain => ?_
  · rw [List.inj_on_of_nodup_map hhandles hn ha.mem hna]
    exact ⟨d, hd, hgrace⟩
  · rw [link_unique Node.handle hhandles hlink hl hlx]
    exact ⟨d, by rw [Option.bind_some, hd]; rfl, hgrace⟩
  · obtain ⟨b, n⟩ := l
    obtain ⟨children, hn'⟩ := exists_hasTree (mem_toList_of_mem_links hl)
    dsimp only at hn hplain hn' ⊢
    rw [hunder n children hn' (Node.tag_of_isGrace hn), ← List.map_cons, ← toList_tree]
    have hmem {m k : Node α} (hk : k ∈ f.toList) (hkm : k.handle = m.handle) (hm : m ∈ f.toList) :
        k = m := List.inj_on_of_nodup_map hhandles hk hm hkm
    refine ⟨fun h => ?_, fun h => ?_⟩
    · -- the chord is the grace note or stands below it, and so does its note
      obtain ⟨k, hk, hka⟩ := List.mem_map.1 h
      refine List.mem_map_of_mem ?_
      have hxBelow : x ∈ below.toList := mem_toList_of_mem_roots hx
      rw [toList_tree, List.mem_cons] at hk ⊢
      rcases hk with rfl | hk
      · rw [hmem hn'.mem hka ha.mem] at hn'
        exact .inr (ha.below_eq Node.handle hn' hhandles ▸ hxBelow)
      · rw [hmem (hn'.mem_of_mem hk) hka ha.mem] at hk
        obtain ⟨under', hunder'⟩ := exists_hasTree hk
        obtain rfl := ha.below_eq Node.handle (hn'.trans hunder') hhandles
        exact .inr (hunder'.mem_of_mem hxBelow)
    · -- the note is not this grace note, so that the chord stands there with it
      obtain ⟨k, hk, hkx⟩ := List.mem_map.1 h
      have hxf : x ∈ f.toList := mem_toList_of_mem_links hlink
      rw [toList_tree, List.mem_cons] at hk
      rcases hk with rfl | hk
      · have heq := link_unique Node.handle hhandles hlink hl hkx
        rw [Prod.mk.injEq] at heq
        exact absurd (by rw [heq.1, Option.bind_some, hd]; rfl) (hplain d)
      · rw [hmem (hn'.mem_of_mem hk) hkx hxf] at hk
        obtain ⟨y, hy⟩ := exists_link_some n hk
        have heq := link_unique Node.handle hhandles hlink (hn'.mem_links hy none) rfl
        rw [Prod.mk.injEq, Option.some.injEq] at heq
        refine List.mem_map_of_mem ?_
        rw [toList_tree, List.mem_cons, ← heq.1]
        exact (mem_of_mem_links hy).imp (fun h => (Option.some.inj h).symm) id

end Forest

variable [Scalar α]

namespace AlignState

variable {c : AlignContext α} {s s₁ s₂ s' : AlignState α} {n n' : Node α} {e : Element}

/-! ### One symbol -/

/-- Only notes look at the open chord. -/
theorem enterElement_of_ne_note (c : AlignContext α) (s : AlignState α) (above : Option (Node α))
    (n : Node α) (he : ∀ note, e ≠ .note note) : s.enterElement c above n e =
      s.enterSymbol c n e (c.metrics.element e c.unit (s.staffHeight c.unit)) := by
  unfold enterElement
  dsimp only
  split
  · exact absurd rfl (he _)
  · rfl

/-- A note right below the open chord. -/
theorem enterElement_of_open {a : Node α} {o : OpenChord} {note : Note}
    (hs : s.layer.chord = some o) (ha : a.handle = o.handle) :
    s.enterElement c (some a) n (.note note) = s.enterChordNote c o n note
      (c.metrics.element (.note note) c.unit (s.staffHeight c.unit)) := by
  unfold enterElement
  dsimp only
  rw [hs]
  exact if_pos (congrArg some ha)

/-- A symbol that takes no time gets a slot of its kind. -/
theorem untimedAt_enterElement (c : AlignContext α) (s : AlignState α) (above : Option (Node α))
    (n : Node α) {e : Element} (hn : n.kind = .element e) (hs : s.grids ≠ []) :
    (s.enterElement c above n e).2.UntimedAt fun key =>
      (s.enterElement c above n e).1.Offers (some key) := by
  have huntimed {s₁ : AlignState α} (kind : SlotKind) (rect : Option (Rect α))
      (hs₁ : s₁.grids ≠ []) : (s₁.enterUntimed n kind rect).2.layout.onset = some s₁.layer.time ∧
        (s₁.enterUntimed n kind rect).2.layout.slot = some (.ofKind s₁.layer.time kind) ∧
          (s₁.enterUntimed n kind rect).1.Offers (some (.ofKind s₁.layer.time kind)) := by
    refine ⟨rfl, rfl, fun key hkey hfault => ?_⟩
    rw [← Option.some.inj hkey]
    exact (collects_assignAt _ _ _).2.2 hfault hs₁
  intro e' kind he' hkind
  obtain rfl : e = e' := NodeKind.element.inj
    (hn.symm.trans ((writes_enterElement c s n above e).kind.symm.trans he'))
  cases e with
  | clef | key | meter | barLine =>
    cases hkind
    rw [enterElement_of_ne_note c s above n (by simp), enterSymbol]
    exact ⟨_, huntimed _ _ hs⟩
  | note | rest | chord | space | measureRest | multiRest | beam | tuplet => cases hkind

omit [Scalar α] in
theorem untimedAt_leaveElement {has : SlotKey → Prop} (h : n.UntimedAt has) (s : AlignState α)
    (e : Element) : (s.leaveElement n e).2.UntimedAt has := by
  intro e' kind he' hkind
  have hsame := s.sameSlot_leaveElement n e
  rw [hsame.onset, hsame.slot]
  exact h e' kind ((writes_leaveElement s n e).kind.symm.trans he') hkind

/-! ### Open chords -/

omit [Scalar α] in
/-- Whether the open chord is the one that stands right above, if a chord does. The notes of a grace
chord find no slot there. -/
structure ChordOf (s : AlignState α) (above : Option (Node α)) : Prop where
  closed : (∀ a d, above = some a → a.kind ≠ .element (.chord d)) → s.layer.chord = none
  opened : ∀ a d, above = some a → a.kind = .element (.chord d) →
    ∃ o, s.layer.chord = some o ∧ o.handle = a.handle ∧ (d.grace → o.slot = none)

omit [Scalar α] in
theorem ChordOf.congr {above : Option (Node α)} (h : s.ChordOf above)
    (hchord : s'.layer.chord = s.layer.chord) : s'.ChordOf above where
  closed := hchord ▸ h.closed
  opened := hchord ▸ h.opened

omit [Scalar α] in
/-- Above no chord, none is open. -/
theorem chordOf_of_tag (hs : s.layer.chord = none)
    (hn : n.tag ≠ .element) : s.ChordOf (some n) where
  closed _ := hs
  opened a d ha hd := by
    cases ha
    exact absurd (by rw [Node.tag, hd]; rfl) hn

/-- A chord is open as soon as it is entered. -/
theorem chordOf_enterElement (c : AlignContext α) (above : Option (Node α))
    (hn : n.kind = .element e) (hs : s.layer.chord = none) :
    (s.enterElement c above n e).1.ChordOf (some (s.enterElement c above n e).2) := by
  have hwrites := writes_enterElement c s n above e
  have hkind := hwrites.kind.trans hn
  refine ⟨fun hplain => ?_, fun a d ha hd => ?_⟩
  · have hne : ¬ ∃ d, e = .chord d := by
      rintro ⟨d, rfl⟩
      exact hplain _ d rfl hkind
    have hchord := (enters_enterElement c s above n e (chord_eq_none_iff.2 hs)).chord
    rw [chordIn_eq_chord? hne, chord_eq_none_iff.2 hs] at hchord
    exact chord_eq_none_iff.1 hchord
  · cases ha
    obtain rfl : e = .chord d := NodeKind.element.inj (hkind.symm.trans hd)
    obtain ⟨o, hopen, hhandle, -, hgrace, hslot⟩ := chord_enterTimed c s n (d := d)
      (c.metrics.element (.chord d) c.unit (s.staffHeight c.unit))
    rw [enterElement_of_ne_note c s above n (by simp)] at hwrites ⊢
    refine ⟨o, hopen, hhandle.trans hwrites.handle.symm, fun hd => ?_⟩
    rw [hslot, if_pos (hgrace.trans hd)]

omit [Scalar α] in
/-- A chord is closed as soon as it is left. -/
theorem chord_leaveElement (hn : n.kind = .element e) (hs : s.ChordOf (some n)) :
    (s.leaveElement n e).1.layer.chord = none := by
  cases e with
  | chord d =>
    obtain ⟨o, hopen, hhandle, -⟩ := hs.opened n d rfl hn
    rw [leaveElement]
    dsimp only
    rw [if_pos (by rw [hopen, Option.map_some, hhandle])]
  | tuplet | note | rest | space | measureRest | multiRest | beam | clef | key | meter | barLine =>
    refine hs.closed fun a d ha hd => ?_
    cases ha
    cases hn.symm.trans hd

omit [Scalar α] in
theorem ledger_leaveElement (s : AlignState α) (n : Node α) (e : Element) :
    (s.leaveElement n e).1.ledger = s.ledger := by
  unfold leaveElement
  dsimp only
  split
  · split_ifs <;> rfl
  · rfl
  · rfl

theorem leaveLayer_eq (s : AlignState α) : s.leaveLayer.layer.chord = s.layer.chord ∧
    s.leaveLayer.collecting = s.collecting := by
  rw [leaveLayer]
  split_ifs with hs
  · have hflush := s.draws_flushGraces s.layer.time
    rw [updateGrid]
    split
    · split
      · exact ⟨hflush.chord, hflush.collecting⟩
      · exact ⟨hflush.chord, hflush.collecting⟩
    · exact ⟨hflush.chord, hflush.collecting⟩
  · exact ⟨rfl, rfl⟩

/-! ### The trees of a measure -/

/-- What walking some trees of a measure does to the state, where some handles wait together. -/
structure Carries (together : Handle → Handle → Prop) (s s' : AlignState α) : Prop extends
    Collects s s' where
  collecting : s'.collecting = s.collecting
  coupled : ∀ p q, together p q → s.ledger.Coupled p q → s'.ledger.Coupled p q

omit [Scalar α] in
theorem Carries.trans {T : Handle → Handle → Prop} (h : Carries T s s₁) (h' : Carries T s₁ s₂) :
    Carries T s s₂ where
  toCollects := h.toCollects.trans h'.toCollects
  collecting := h'.collecting.trans h.collecting
  coupled p q hT hs := h'.coupled p q hT (h.coupled p q hT hs)

omit [Scalar α] in
theorem Carries.mono {T T' : Handle → Handle → Prop} (h : Carries T s s₁)
    (hT : ∀ p q, T' p q → T p q) : Carries T' s s₁ where
  toCollects := h.toCollects
  collecting := h.collecting
  coupled p q hT' := h.coupled p q (hT p q hT')

/-- Entering a symbol, be it a note of the open chord or not. -/
theorem carries_enterElement {above : Option (Node α)} (hs : s.ChordOf above)
    (hn : n.kind = .element e)
    (hnotes : ∀ a d, above = some a → a.kind = .element (.chord d) → ∃ note, e = .note note)
    {below siblings : Forest (Node α)} :
    Carries (fun p q => (Forest.cons n below siblings).Coupling c.symbolsBelow p q
      (above.bind fun a => a.kind.element?)) s (s.enterElement c above n e).1 := by
  have hgrace : n.isGrace = e.isGrace := by rw [Node.isGrace, hn]; rfl
  refine ⟨(fills_enterElement c s above n e).toCollects, ?_, fun p q hpq hL => ?_⟩
  · exact collecting_enterElement c s above n e
  obtain ⟨hp, hq, hwait, -⟩ := hpq
  by_cases hchord : ∃ a d, above = some a ∧ a.kind = .element (.chord d)
  · obtain ⟨a, d, rfl, ha⟩ := hchord
    obtain ⟨o, hopen, hhandle, hslot⟩ := hs.opened a d rfl ha
    obtain ⟨note, rfl⟩ := hnotes a d rfl ha
    rw [enterElement_of_open (a := a) hopen hhandle.symm]
    refine kept_enterChordNote (GraceLedger.kept_coupled p q) hL c o note _ fun hsome => ?_
    refine ⟨fun h => ?_, fun h => ?_⟩
    · obtain ⟨d, hd, -⟩ := hp h
      rw [hn] at hd
      cases hd
    · obtain ⟨d', hd', hgrace'⟩ := hq h
      rw [Option.bind_some, ha] at hd'
      cases hd'
      rw [hslot hgrace'] at hsome
      cases hsome
  · push Not at hchord
    have hplain : ∀ d, (above.bind fun a => a.kind.element?) ≠ some (.chord d) := by
      rintro d habove
      obtain ⟨a, ha, hd⟩ := Option.bind_eq_some_iff.1 habove
      refine hchord a d ha ?_
      cases hk : a.kind <;> rw [hk] at hd <;> cases hd
      rfl
    rw [enterElement_of_closed c above n e (hs.closed hchord)]
    refine kept_enterSymbol (GraceLedger.kept_coupled p q) hL _ (fun hnot => ?_) fun hyes => ?_
    · refine ⟨fun h => ?_, fun h => ?_⟩
      · obtain ⟨d, hd, hgrace'⟩ := hp h
        rw [hn] at hd
        cases hd
        exact hnot hgrace'
      · obtain ⟨d, hd, -⟩ := hq h
        exact hplain d hd
    · exact hwait (hgrace.trans hyes) hplain

/-- What walking some trees of a measure does. -/
structure Visits (c : AlignContext α) (above : Option (Node α)) (s s' : AlignState α)
    (f f' : Forest (Node α)) : Prop extends Carries (fun p q =>
      f.Coupling c.symbolsBelow p q (above.bind fun a => a.kind.element?)) s s' where
  chord : s'.layer.chord = s.layer.chord
  untimed : ∀ n' ∈ f'.toList, n'.UntimedAt fun key => s'.Offers (some key)

omit [Scalar α] in
theorem Visits.nil (c : AlignContext α) (above : Option (Node α)) (s : AlignState α) :
    Visits c above s s .nil .nil :=
  ⟨⟨.refl s, rfl, fun _ _ _ => id⟩, rfl, fun _ hn => absurd hn List.not_mem_nil⟩

omit [Scalar α] in
/-- A tree that is entered, walked and left, and those behind it. -/
theorem Visits.cons {above : Option (Node α)} {s₃ s₄ : AlignState α} {b b₁ b₂ : Node α}
    {below below' siblings siblings' : Forest (Node α)} (hkind : b₁.kind = b.kind)
    (hfirst : Carries (fun p q => (Forest.cons b below siblings).Coupling c.symbolsBelow p q
      (above.bind fun a => a.kind.element?)) s s₁)
    (hbelow : Visits c (some b₁) s₁ s₂ below below')
    (hlast : Carries (fun _ _ => True) s₂ s₃) (hchord : s₃.layer.chord = s.layer.chord)
    (huntimed : b₂.UntimedAt fun key => s₁.Offers (some key))
    (hsiblings : Visits c above s₃ s₄ siblings siblings') :
    Visits c above s s₄ (.cons b below siblings) (.cons b₂ below' siblings') := by
  have hback := (hlast.mono fun _ _ _ => trivial).trans hsiblings.toCarries
  have hdeep : Carries (fun p q => below.Coupling c.symbolsBelow p q b.kind.element?) s₁ s₂ :=
    hbelow.toCarries.mono fun p q h => by rwa [Option.bind_some, hkind]
  refine ⟨hfirst.trans ((hdeep.mono fun p q h => h.2.2.2.1).trans (hback.mono fun p q h =>
    h.2.2.2.2)), hsiblings.chord.trans hchord, ?_⟩
  rw [Forest.toList, List.forall_mem_cons, List.forall_mem_append]
  refine ⟨huntimed.mono fun key h => ?_, fun n hn => (hbelow.untimed n hn).mono fun key h => ?_,
    hsiblings.untimed⟩
  · exact h.mono (hdeep.toCollects.trans hback.toCollects)
  · exact h.mono hback.toCollects

/-- What entering and leaving a staff or a layer does. -/
theorem carries_frame (htag : n.tag = .staff ∨ n.tag = .layer)
    (hs : s.collecting) :
    (∀ {above n₁ v}, (alignPass c).enter s above n = (s₁, n₁, v) →
      Carries (fun _ _ => True) s s₁ ∧ n₁.kind = n.kind ∧
        (s.layer.chord = none → s₁.layer.chord = none)) ∧
    ∀ {whole below below₁ n₁ v}, (alignPass c).leave s whole n below = (s₁, n₁, below₁, v) →
      Carries (fun _ _ => True) s s₁ ∧ n₁ = n ∧ below₁ = below ∧
        s₁.layer.chord = s.layer.chord := by
  dsimp only [alignPass]
  rw [Node.tag] at htag
  cases hk : n.kind with
  | staff staff =>
    refine ⟨fun henter => ?_, fun hleave => ?_⟩
    · rw [enter, hk] at henter
      cases henter
      exact ⟨⟨collects_of_eq rfl rfl id, rfl, fun _ _ _ h => h⟩, hk, id⟩
    · rw [leave, hk] at hleave
      cases hleave
      exact ⟨⟨.refl s, rfl, fun _ _ _ => id⟩, rfl, rfl, rfl⟩
  | layer k =>
    refine ⟨fun henter => ?_, fun hleave => ?_⟩
    · rw [enter, hk] at henter
      cases henter
      exact ⟨⟨collects_of_eq rfl rfl id, rfl, fun _ _ _ h =>
        ⟨fun g hg => absurd hg List.not_mem_nil, h.found⟩⟩, hk, fun _ => rfl⟩
    · rw [leave, hk] at hleave
      cases hleave
      obtain ⟨hchord, hcollecting⟩ := s.leaveLayer_eq
      exact ⟨⟨(collects_leaveLayer hs).1, hcollecting, fun p q _ h =>
        kept_leaveLayer (GraceLedger.kept_coupled p q) h⟩, rfl, rfl, hchord⟩
  | _ => simp [hk, NodeKind.tag] at htag

/-- The trees of a measure. -/
theorem visits_completes {above : Option (Node α)} {f f' : Forest (Node α)}
    (h : Forest.Completes (alignPass c) above s f s' f') (hf : f.Nested)
    (hroots : ∀ b ∈ f.roots, b.tag = .staff ∨ b.tag = .layer ∨ b.tag = .control ∨
      b.tag = .element)
    (habove : ∀ a, above = some a → ∀ b ∈ f.roots, a.kind.accepts b.kind)
    (hs : s.collecting) (hgrids : s.grids ≠ []) (hchord : s.ChordOf above) :
    Visits c above s s' f f' := by
  induction h with
  | nil above s => exact .nil c above s
  | @skip above s s₁ s₂ b b₁ children siblings siblings' henter hbeside ih =>
    rw [Forest.roots, List.forall_mem_cons] at hroots
    have htag : b.tag = .control := by
      rcases hroots.1 with htag | htag | htag | htag
      · obtain ⟨staff, hb⟩ := Node.exists_staff htag
        simp [alignPass, enter, hb] at henter
      · obtain ⟨k, hb⟩ := Node.exists_layer htag
        simp [alignPass, enter, hb] at henter
      · exact htag
      · obtain ⟨e, hb⟩ := Node.exists_element htag
        cases (exists_of_enter_element hb hs henter (by decide)).1
    obtain ⟨k, hb⟩ := Node.exists_control htag
    obtain rfl := eq_nil_of_control hb hf.1
    obtain ⟨rfl, rfl, -⟩ := enter_of_control hb henter
    have hnone : Carries (fun _ _ => True) s₁ s₁ := ⟨.refl s₁, rfl, fun _ _ _ => id⟩
    refine .cons rfl (hnone.mono fun _ _ _ => trivial) (.nil c _ s₁) hnone rfl
      (Node.untimedAt_of_tag (by rw [htag]; decide)) ?_
    exact ih hf.2.2 hroots.2 (fun a ha b hb => habove a ha b (List.mem_cons_of_mem _ hb)) hs hgrids
      hchord
  | @walk above s s₁ s₂ s₃ s₄ b b₁ b₂ children siblings children₁ children₂ siblings' whole v henter
      hbelow hleave hgo hbeside ihbelow ihbeside =>
    rw [Forest.roots, List.forall_mem_cons] at hroots
    obtain ⟨htakes, hchildren, hsiblings⟩ := hf
    have hrest (hthrough : s.Collects s₃) (hcollecting : s₃.collecting = s.collecting)
        (hsame : s₃.layer.chord = s.layer.chord) : Visits c above s₃ s₄ siblings siblings' :=
      ihbeside hsiblings hroots.2 (fun a ha b hb => habove a ha b (List.mem_cons_of_mem _ hb))
        (hcollecting.trans hs) (hthrough.ne_nil_iff.2 hgrids) (hchord.congr hsame)
    by_cases htag : b.tag = .element
    · obtain ⟨e, hb⟩ := Node.exists_element htag
      obtain ⟨-, hs₁, hb₁, -⟩ := exists_of_enter_element hb hs henter (by decide)
      have hnotes : ∀ a d, above = some a → a.kind = .element (.chord d) →
          ∃ note, e = .note note := fun a d ha hd => by
        obtain ⟨note, hnote⟩ :=
          NodeKind.exists_note_of_chord (hd ▸ habove a ha b List.mem_cons_self)
        exact ⟨note, NodeKind.element.inj (hb.symm.trans hnote)⟩
      have hfirst : Carries (fun p q => (Forest.cons b children siblings).Coupling c.symbolsBelow p q
          (above.bind fun a => a.kind.element?)) s (s.enterElement c above b e).1 :=
        carries_enterElement hchord hb hnotes
      have hkind₁ := hb₁ ▸ (writes_enterElement c s b above e).kind
      have huntimed₁ := untimedAt_enterElement c s above b hb hgrids
      rw [← hs₁] at hfirst huntimed₁
      rw [← hb₁] at huntimed₁
      rw [leave_of_element (hkind₁.trans hb), Prod.mk.injEq, Prod.mk.injEq, Prod.mk.injEq] at hleave
      obtain ⟨rfl, rfl, rfl, -⟩ := hleave
      have hlast : Carries (fun _ _ => True) s₂ (s₂.leaveElement b₁ e).1 :=
        ⟨(fills_leaveElement s₂ b₁ e).toCollects, collecting_leaveElement s₂ b₁ e,
          fun p q _ h => by rwa [ledger_leaveElement]⟩
      obtain ⟨hwalked, hsame⟩ : Visits c (some b₁) s₁ s₂ children children₁ ∧
          (s₂.leaveElement b₁ e).1.layer.chord = s.layer.chord := by
        by_cases hplain : ∃ a d, above = some a ∧ a.kind = .element (.chord d)
        · -- a note of the open chord groups nothing
          obtain ⟨a, d, rfl, hd⟩ := hplain
          obtain ⟨note, rfl⟩ := hnotes a d rfl hd
          obtain ⟨o, hopen, hhandle, -⟩ := hchord.opened a d rfl hd
          obtain rfl := Forest.Symbolic.eq_nil_of_note hb htakes
          cases hbelow
          refine ⟨.nil _ _ _, ?_⟩
          rw [hs₁, enterElement_of_open hopen hhandle.symm]
          exact (draws_enterChordNote ..).1.chord
        · have hclosed : s.layer.chord = none :=
            hchord.closed fun a d ha hd => hplain ⟨a, d, ha, hd⟩
          have hopen := chordOf_enterElement c above hb hclosed
          rw [← hs₁, ← hb₁] at hopen
          have hwalked := ihbelow hchildren (fun n hn => ?_)
            (fun a ha n hn => Option.some.inj ha ▸ hkind₁ ▸ htakes n hn)
            (hfirst.collecting.trans hs) (hfirst.toCollects.ne_nil_iff.2 hgrids) hopen
          · refine ⟨hwalked, ?_⟩
            rw [chord_leaveElement (hkind₁.trans hb) (hopen.congr hwalked.chord), hclosed]
          · have hn := htakes n hn
            rw [hb] at hn
            rw [Node.tag]
            cases hk : n.kind <;> simp [hk, NodeKind.accepts, NodeKind.tag] at hn ⊢
      refine .cons hkind₁ hfirst hwalked hlast hsame (untimedAt_leaveElement huntimed₁ s₂ e)
        (hrest ?_ ?_ hsame)
      · exact hfirst.toCollects.trans (hwalked.toCollects.trans hlast.toCollects)
      · exact hlast.collecting.trans (hwalked.collecting.trans hfirst.collecting)
    · have hframe : b.tag = .staff ∨ b.tag = .layer := by
        rcases hroots.1 with h | h | h | h
        · exact .inl h
        · exact .inr h
        · obtain ⟨k, hb⟩ := Node.exists_control h
          cases (enter_of_control hb henter).2.2
        · exact absurd h htag
      have hclosed : s.layer.chord = none := hchord.closed fun a d ha hd => by
        obtain ⟨note, hnote⟩ :=
          NodeKind.exists_note_of_chord (hd ▸ habove a ha b List.mem_cons_self)
        exact absurd (by rw [Node.tag, hnote]; rfl) htag
      obtain ⟨hfirst, hkind₁, hclosed₁⟩ := (carries_frame hframe hs).1 henter
      have htag₁ : b₁.tag = b.tag := congrArg NodeKind.tag hkind₁
      have hwalked : Visits c (some b₁) s₁ s₂ children children₁ := by
        refine ihbelow hchildren (fun n hn => ?_) (fun a ha n hn => ?_) (hfirst.collecting.trans hs)
          (hfirst.toCollects.ne_nil_iff.2 hgrids)
          (chordOf_of_tag (hclosed₁ hclosed) (htag₁ ▸ htag))
        · have hn := htakes n hn
          rw [Node.tag] at hframe ⊢
          cases hk : b.kind <;> cases hk' : n.kind <;>
            simp [hk, hk', NodeKind.accepts, NodeKind.tag] at hn hframe ⊢
        · cases ha
          exact hkind₁ ▸ htakes n hn
      obtain ⟨hlast, rfl, rfl, hchord₃⟩ :=
        (carries_frame (htag₁ ▸ hframe) (hwalked.collecting.trans (hfirst.collecting.trans hs))).2
          hleave
      have hsame : s₃.layer.chord = s.layer.chord := by
        rw [hchord₃, hwalked.chord, hclosed₁ hclosed, hclosed]
      refine .cons hkind₁ (hfirst.mono fun _ _ _ => trivial) hwalked hlast hsame
        (Node.untimedAt_of_tag (htag₁ ▸ htag)) (hrest ?_ ?_ hsame)
      · exact hfirst.toCollects.trans (hwalked.toCollects.trans hlast.toCollects)
      · exact hlast.collecting.trans (hwalked.collecting.trans hfirst.collecting)

/-! ### The trees of a score -/

theorem layer_placeControl (beat last : Fraction) (s : AlignState α) (n : Node α) :
    (placeControl beat last s n).1.layer = s.layer := by
  rw [placeControl]
  split
  · rfl
  · dsimp only
    rw [updateGrid]
    split
    · split <;> split_ifs <;> rfl
    · split_ifs <;> rfl

theorem layer_placeControls (beat last : Fraction) : (f : Forest (Node α)) → (s : AlignState α) →
    (placeControls beat last s f).1.layer = s.layer
  | .nil, _ => rfl
  | .cons n _ siblings, s =>
      (layer_placeControls beat last siblings _).trans (layer_placeControl beat last s n)

/-- The end of a measure leaves the cursor alone. -/
theorem layer_leaveMeasure (c : AlignContext α) (s : AlignState α) (n : Node α) (m : Measure α)
    (below : Forest (Node α)) : (s.leaveMeasure c n m below).1.layer = s.layer ∧
      ((s.leaveMeasure c n m below).1.fault = none → s.fault = none) := by
  have hlayer := layer_placeControls s.signatures.meter.beatDuration
    (s.grids.headD m.grid).maxTime below s
  have hfault := (collects_placeControls s.signatures.meter.beatDuration
    (s.grids.headD m.grid).maxTime below s).1.fault
  rw [leaveMeasure]
  dsimp only
  split
  · exact ⟨hlayer, hfault⟩
  · exact ⟨hlayer, fun h => by cases h⟩

/-- Nothing above measures moves the cursor. -/
theorem layer_enter_of_outer (hn : IsOuter n) (hm : n.tag ≠ .measure) (hc : n.tag ≠ .control)
    {above : Option (Node α)} {v : Visit} (h : (alignPass c).enter s above n = (s₁, n', v)) :
    s₁.layer = s.layer := by
  obtain ⟨hs, hl, he⟩ := hn
  dsimp only [alignPass] at h
  rw [enter] at h
  rw [Node.tag] at hs hl he hm hc
  cases hk : n.kind with
  | change | document | page | system | systemBreak | pageBreak =>
    rw [hk] at h
    simp only [Prod.mk.injEq] at h
    exact h.1 ▸ rfl
  | measure | staff | layer | element | control => simp [hk, NodeKind.tag] at hs hl he hm hc

/-- What walking some trees above measures does. -/
structure Passes (under : Handle → List Handle) (s s' : AlignState α) (f f' : Forest (Node α)) :
    Prop where
  chord : s'.layer.chord = none
  coupled : ∀ p q, f.Coupling under p q none → s.ledger.Coupled p q → s'.ledger.Coupled p q
  untimed : ∀ n below m, Forest.HasTree n below f' → n.kind = .measure m →
    ∀ n' ∈ below.toList, n'.UntimedAt m.grid.Has

omit [Scalar α] in
/-- A tree that is entered, walked and left, and those behind it. -/
theorem Passes.cons {under : Handle → List Handle} {b b₂ : Node α}
    {below below' siblings siblings' : Forest (Node α)} (hb : b.kind.element? = none)
    (htree : ∀ p q, below.Coupling under p q none → s.ledger.Coupled p q → s₁.ledger.Coupled p q)
    (huntimed : ∀ n children m, Forest.HasTree n children (.tree b₂ below') → n.kind = .measure m →
      ∀ n' ∈ children.toList, n'.UntimedAt m.grid.Has)
    (hsiblings : Passes under s₁ s₂ siblings siblings') :
    Passes under s s₂ (.cons b below siblings) (.cons b₂ below' siblings') where
  chord := hsiblings.chord
  coupled p q h hs := by
    obtain ⟨-, -, -, hbelow, hbeside⟩ := h
    exact hsiblings.coupled p q hbeside (htree p q (hb ▸ hbelow) hs)
  untimed n children m h hn := by
    cases h with
    | here => exact huntimed _ _ m (.here .nil) hn
    | deeper _ h => exact huntimed _ _ m (.deeper .nil h) hn
    | beside _ _ h => exact hsiblings.untimed _ _ m h hn

/-- The trees of a score. -/
theorem passes_completes {above : Option (Node α)} {f f' : Forest (Node α)}
    (h : Forest.Completes (alignPass c) above s f s' f') (hf : f.Nested)
    (hroots : ∀ b ∈ f.roots, IsOuter b) (hchord : s.layer.chord = none) :
    Passes c.symbolsBelow s s' f f' := by
  induction h with
  | nil above s => exact ⟨hchord, fun _ _ _ => id, fun _ _ _ h => by cases h⟩
  | @skip above s s₁ s₂ b b₁ children siblings siblings' henter hbeside ih =>
    rw [Forest.roots, List.forall_mem_cons] at hroots
    obtain ⟨k, hb⟩ := exists_control_of_skip hroots.1 henter
    obtain rfl := eq_nil_of_control hb hf.1
    obtain ⟨rfl, rfl, -⟩ := enter_of_control hb henter
    refine .cons (by rw [hb]; rfl) (fun _ _ _ => id) (fun n children m hn hm => ?_)
      (ih hf.2.2 hroots.2 hchord)
    cases hn with
    | here => cases hb.symm.trans hm
    | deeper _ h | beside _ _ h => cases h
  | @walk above s s₁ s₂ s₃ s₄ b b₁ b₂ children siblings children₁ children₂ siblings' whole v henter
      hbelow hleave hgo hbeside ihbelow ihbeside =>
    rw [Forest.roots, List.forall_mem_cons] at hroots
    obtain ⟨htakes, hchildren, hsiblings⟩ := hf
    have hb : b.kind.element? = none := by
      have := hroots.1.2.2
      rw [Node.tag] at this
      cases hk : b.kind <;> simp [hk, NodeKind.tag] at this ⊢ <;> rfl
    by_cases hc : b.tag = .control
    · obtain ⟨k, hb⟩ := Node.exists_control hc
      cases (enter_of_control hb henter).2.2
    by_cases hm : b.tag = .measure
    · obtain ⟨m, hbm⟩ := NodeKind.exists_of_measure hm
      obtain ⟨⟨m', hb₁⟩, -, -, -, hcollecting, -⟩ := enter_of_measure_kind hbm henter
      obtain ⟨grid, -, hgrids₁, hfound₁⟩ := grid_of_enter_measure hbm henter
      have hlayer₁ : s₁.layer = s.layer := by
        simp only [alignPass, enter, hbm, enterMeasure, MeasureGrid.begin_empty,
          Prod.mk.injEq] at henter
        exact henter.1 ▸ rfl
      obtain ⟨rfl, rfl, rfl, hend⟩ := leave_of_measure hb₁ hleave hgo
      obtain ⟨hlayer₃, hfault₂⟩ := layer_leaveMeasure c s₂ b₁ m' children₁
      have hwalked : Visits c (some b₁) s₁ s₂ children children₁ := by
        refine visits_completes hbelow hchildren (fun n hn => ?_) (fun a ha n hn => ?_)
          hcollecting (by rw [hgrids₁]; exact List.cons_ne_nil _ _)
          (chordOf_of_tag (hlayer₁ ▸ hchord) (by rw [Node.tag, hb₁]; simp [NodeKind.tag]))
        · have := htakes n hn
          rw [hbm] at this
          rw [Node.tag]
          cases hk : n.kind <;> simp [hk, NodeKind.accepts, NodeKind.tag] at this ⊢
        · cases ha
          have := htakes n hn
          rw [hbm] at this
          rw [hb₁]
          cases hk : n.kind <;> simp [hk, NodeKind.accepts] at this ⊢
      have hgrow := hwalked.grids
      rw [hgrids₁] at hgrow
      obtain ⟨g, outer, hg, -, hgrids₂⟩ := List.forall₂_cons_left_iff.1 hgrow
      obtain ⟨closed, hnode, hgrown, hfound₃, hsame⟩ := grows_leaveMeasure hgrids₂ hend
      have hledger₁ : s₁.ledger = s.ledger := by rw [ledger, ledger, hlayer₁, hfound₁]
      have hledger₃ : (s₂.leaveMeasure c b₁ m' children₁).1.ledger = s₂.ledger := by
        rw [ledger, ledger, hlayer₃, hfound₃]
      have hchord₃ : (s₂.leaveMeasure c b₁ m' children₁).1.layer.chord = none := by
        rw [hlayer₃, hwalked.chord, hlayer₁, hchord]
      refine .cons hb (fun p q hpq hs => ?_) (fun n under k hn hk n' hn' => ?_)
        (ihbeside hsiblings hroots.2 hchord₃)
      · rw [hledger₃]
        exact hwalked.coupled p q (by rwa [Option.bind_some, hb₁]) (hledger₁ ▸ hs)
      · cases hn with
        | here =>
          rw [hnode] at hk
          obtain rfl := NodeKind.measure.inj hk
          by_cases htag : n'.tag = .element
          · obtain ⟨below, hbelow'⟩ := Forest.exists_hasTree hn'
            have hmem := (hsame n' below hbelow' (by rw [htag]; decide)).mem
            refine (hwalked.untimed n' hmem).mono fun key hoffers => hgrown.has key ?_
            obtain ⟨g', hg', hhas⟩ := hoffers key rfl (hfault₂ hend)
            rw [hgrids₂] at hg'
            exact Option.some.inj hg' ▸ hhas
          · exact Node.untimedAt_of_tag htag
        | deeper _ h =>
          have hin := hsame n under h (by rw [Node.tag, hk]; simp [NodeKind.tag])
          obtain ⟨n₀, hn₀, hkeeps⟩ := exists_mem_of_forall₂ (keeps_completes hbelow).toList hin.mem
          refine absurd (hkeeps.tag.symm.trans (by rw [Node.tag, hk]; rfl))
            (hchildren.tag_ne_measure (fun b hb => ?_) n₀ hn₀)
          have := htakes b hb
          rw [hbm] at this
          rw [Node.tag]
          cases hk : b.kind <;> simp [hk, NodeKind.accepts, NodeKind.tag] at this ⊢
        | beside _ _ h => cases h
    · obtain ⟨-, rfl, -⟩ := enter_of_outer hroots.1 hm hc henter
      obtain ⟨rfl, rfl, rfl⟩ := leave_of_tag hm hroots.1.2.1 hroots.1.2.2 hleave
      have houter := isOuter_of_accepts hroots.1 hm htakes
      have hlayer₁ := layer_enter_of_outer hroots.1 hm hc henter
      have hfound₁ := graceSlots_enter_of_outer hroots.1 hm hc henter
      have hwalked := ihbelow hchildren houter (hlayer₁ ▸ hchord)
      have hledger₁ : s₁.ledger = s.ledger := by rw [ledger, ledger, hlayer₁, hfound₁]
      refine .cons hb (fun p q hpq hs => hwalked.coupled p q hpq (hledger₁ ▸ hs))
        (fun n under k hn hk => ?_) (ihbeside hsiblings hroots.2 hwalked.chord)
      cases hn with
      | here => exact absurd (by rw [Node.tag, hk]; rfl) hm
      | deeper _ h => exact hwalked.untimed n under k h hk
      | beside _ _ h => cases h

end AlignState

end ScoreLayout
