import ScoreLayout.Proofs.Layout.LayerTimes
import ScoreLayout.Proofs.Layout.SymbolSlots

/-!
# The slots of a layer

Where alignment meets no fault, it books the symbols of a layer one after another in document order,
however beams, tuplets and chords are nested.

## Main results

* `AlignState.books_notes` — the notes of an open chord.
* `AlignState.books_symbols` — the symbols of a layer, or of a group in it.
-/

namespace ScoreLayout

variable {α : Type}

/-! ### What stands below a grace note -/

/-- Whether a function gives the handles below the symbols of a forest. -/
def Forest.HandlesBelow (under : Handle → List Handle) (f : Forest (Node α)) : Prop :=
  ∀ n below, HasTree n below f → n.tag = .element → under n.handle = below.toList.map Node.handle

namespace Forest

variable {f : Forest (Node α)} {r : TupletRatio} {chord : Option (Node α)}
  {under : Handle → List Handle}

theorem HandlesBelow.of_forall₂ {R : Node α → Node α → Prop} {f' : Forest (Node α)}
    (hf : f.HandlesBelow under) (h : Forall₂ R f f')
    (hR : ∀ n n', R n n' → n'.handle = n.handle ∧ n'.tag = n.tag) : f'.HandlesBelow under := by
  intro n' below' htree hn'
  obtain ⟨n, below, hn, hnn, hbelow⟩ := h.flip.hasTree htree
  obtain ⟨hhandle, htag⟩ := hR _ _ hnn
  rw [hhandle, hf n below hn (htag ▸ hn')]
  exact (map_eq_of_forall₂ (fun a b h => (hR b a h).1) hbelow.toList).symm

/-- The notes of a chord are symbols below it. -/
theorem exists_note (r : TupletRatio) (top : Node α) (hf : f.Symbolic)
    (hnotes : ∀ b ∈ f.roots, ∃ note, b.kind = .element (.note note)) {m : Node α}
    (hm : m ∈ f.toList) : ∃ x ∈ f.symbols r (some top), x.node = m ∧ x.chord = some top := by
  induction f with
  | nil => exact absurd hm List.not_mem_nil
  | cons n below siblings _ ih =>
    rw [roots, List.forall_mem_cons] at hnotes
    obtain ⟨⟨note, hn⟩, hnotes⟩ := hnotes
    obtain rfl := Symbolic.eq_nil_of_note hn hf.2.1
    rw [symbols_cons hn, symbols_nil, List.nil_append]
    rcases List.mem_cons.1 hm with rfl | hm
    · exact ⟨_, List.mem_cons_self, rfl, rfl⟩
    · obtain ⟨x, hx, h⟩ := ih hf.2.2.2 hnotes hm
      exact ⟨x, List.mem_cons_of_mem _ hx, h⟩

/-- Below a grace note stand the notes of a chord, or nothing. -/
theorem Symbolic.exists_below (hf : f.Symbolic) {y : Symbol α} (hy : y ∈ f.symbols r chord)
    (hgrace : y.IsGrace) : y.node.isGrace ∧ ∃ below, HasTree y.node below f ∧ ∀ m ∈ below.toList,
      ∃ x ∈ f.symbols r chord, x.node = m ∧ x.chord = some y.node := by
  induction f generalizing r chord with
  | nil => exact absurd hy List.not_mem_nil
  | cons n below siblings ihbelow ihsiblings =>
    obtain ⟨htag, htakes, hbelow, hsiblings⟩ := hf
    obtain ⟨e, hn⟩ := Node.exists_element htag
    rw [symbols_cons hn] at hy ⊢
    rcases List.mem_cons.1 hy with rfl | hy
    · refine ⟨by rw [Node.isGrace, hn]; exact hgrace.2, below, .here siblings, fun m hm => ?_⟩
      by_cases hchord : ∃ d, e = .chord d
      · obtain ⟨d, rfl⟩ := hchord
        rw [Node.asChord_eq_some hn]
        obtain ⟨x, hx, h⟩ := exists_note (n.ratioBelow r) n hbelow
          (fun b hb => NodeKind.exists_note_of_chord (hn ▸ htakes b hb)) hm
        exact ⟨x, List.mem_cons_of_mem _ (List.mem_append_left _ hx), h⟩
      · -- any other symbol with a duration holds nothing
        cases below with
        | nil => exact absurd hm List.not_mem_nil
        | cons b _ _ =>
          have htakes := htakes b List.mem_cons_self
          have hgrace := hgrace.2
          rw [hn] at htakes
          cases e <;> first | exact absurd ⟨_, rfl⟩ hchord | cases hgrace | skip
          all_goals cases hk : b.kind <;> simp [hk, NodeKind.accepts, Element.accepts] at htakes
    · rcases List.mem_append.1 hy with hy | hy
      · obtain ⟨hnode, under, htree, h⟩ := ihbelow hbelow hy
        refine ⟨hnode, under, .deeper _ htree, fun m hm => ?_⟩
        obtain ⟨x, hx, h⟩ := h m hm
        exact ⟨x, List.mem_cons_of_mem _ (List.mem_append_left _ hx), h⟩
      · obtain ⟨hnode, under, htree, h⟩ := ihsiblings hsiblings hy
        refine ⟨hnode, under, .beside _ _ htree, fun m hm => ?_⟩
        obtain ⟨x, hx, h⟩ := h m hm
        exact ⟨x, List.mem_cons_of_mem _ (List.mem_append_right _ hx), h⟩

/-- A symbol that is no note of a grace chord has nothing to do with the others. -/
theorem Symbolic.leaves (hf : f.Symbolic) (hhandles : (f.toList.map Node.handle).Nodup)
    (hunder : f.HandlesBelow under) {front back : List (Symbol α)} {x : Symbol α}
    (hsymbols : f.symbols r chord = front ++ x :: back)
    (hx : ∀ c, x.chord = some c → ¬ c.isGrace) :
    ∀ y ∈ front ++ back, GraceLedger.Leaves under x.node.handle y := by
  have hnodup : ((f.symbols r chord).map fun x => x.node.handle).Nodup := by
    have := map_node_symbols hf.tag r chord
    rw [← this, List.map_map] at hhandles
    exact hhandles
  intro y hy
  have hmem : y ∈ f.symbols r chord := by
    rw [hsymbols]
    exact List.mem_append.2 ((List.mem_append.1 hy).imp_right (List.mem_cons_of_mem x))
  refine ⟨fun heq => ?_, fun hgrace hin => ?_⟩
  · rw [hsymbols] at hnodup
    have hperm : (front ++ x :: back).Perm (x :: (front ++ back)) := List.perm_middle
    have hnodup := (hperm.map fun x => x.node.handle).nodup_iff.1 hnodup
    rw [List.map_cons, List.nodup_cons] at hnodup
    exact hnodup.1 (List.mem_map.2 ⟨y, hy, heq.symm⟩)
  · obtain ⟨hnode, below, htree, hbelow⟩ := hf.exists_below hmem hgrace
    rw [hunder _ _ htree (hf.tag _ htree.mem), List.mem_map] at hin
    obtain ⟨m, hm, heq⟩ := hin
    obtain ⟨x', hx', rfl, hchord⟩ := hbelow m hm
    have hsame : x' = x := List.inj_on_of_nodup_map hnodup hx'
      (hsymbols ▸ List.mem_append_right _ List.mem_cons_self) heq
    exact hx _ (hsame ▸ hchord) hnode

/-- Nor has a handle that stands elsewhere. -/
theorem Symbolic.leaves_of_not_mem (hf : f.Symbolic) (hunder : f.HandlesBelow under) {h : Handle}
    (hh : h ∉ f.toList.map Node.handle) :
    ∀ y ∈ f.symbols r chord, GraceLedger.Leaves under h y := by
  intro y hy
  have hmem := mem_of_mem_symbols hy
  refine ⟨fun heq => hh (heq ▸ List.mem_map_of_mem hmem), fun _ hin => ?_⟩
  obtain ⟨below, htree⟩ := exists_hasTree hmem
  rw [hunder _ _ htree (hf.tag _ hmem), List.mem_map] at hin
  obtain ⟨m, hm, rfl⟩ := hin
  exact hh (List.mem_map_of_mem (htree.mem_of_mem hm))

end Forest

/-- The symbols of a layer have the slots that they come to, some of them only in the books. -/
def Booked (found : List (Handle × SlotKey)) (has : SlotKey → Prop) (xs : List (Symbol α)) : Prop :=
  ∃ stop : Fraction, stop.value = (xs.map Symbol.time).sum ∧
    ∀ front x back, xs = front ++ x :: back → ∀ key, x.key? stop back = some key →
      has key ∧ (found.lookup x.node.handle).or x.node.layout.slot = some key

variable [Scalar α]

namespace AlignState

variable {c : AlignContext α} {s s' : AlignState α} {n n' : Node α} {e : Element}

omit [Scalar α] in
theorem sameSlot_leaveElement (s : AlignState α) (n : Node α) (e : Element) :
    n.SameSlot (s.leaveElement n e).2 := by
  unfold leaveElement
  dsimp only
  split_ifs <;> exact ⟨rfl, rfl, rfl⟩

omit [Scalar α] in
/-- A cursor that keeps its grace notes keeps the books. -/
theorem books_cursor {layer : LayerCursor α} (hlayer : layer.graces = s.layer.graces) :
    Books c s { s with layer := layer } [] :=
  .nil (collects_of_eq rfl rfl id) (by rw [ledger, ledger, hlayer]) rfl

/-- The notes of an open chord. -/
theorem books_notes {s : AlignState α} {f : Forest (Node α)} {above : Option (Node α)}
    {s' : AlignState α} {f' : Forest (Node α)}
    (h : Forest.Completes (alignPass c) above s f s' f') {a : Node α} (ha : above = some a)
    (hf : f.Symbolic) (hnotes : ∀ b ∈ f.roots, ∃ note, b.kind = .element (.note note))
    (hs : s.collecting) {o : OpenChord} (hopen : s.layer.chord = some o)
    (hhandle : a.handle = o.handle) {top : Node α} (ho : o.IsOf top)
    (hhas : ∀ key, o.slot = some key → s.Has key) (r : TupletRatio) :
    Books c s s' (f'.symbols r (some top)) := by
  induction h with
  | nil above s => exact .nil (.refl s) rfl rfl
  | @skip above s s₁ s₂ b b₁ children siblings siblings' henter _ _ =>
    obtain ⟨note, hb⟩ := hnotes b List.mem_cons_self
    cases (exists_of_enter_element hb hs henter (by decide)).1
  | @walk above s s₁ s₂ s₃ s₄ b b₁ b₂ children siblings children₁ children₂ siblings' whole v henter
      hbelow hleave _ hbeside _ ih =>
    subst ha
    rw [Forest.roots, List.forall_mem_cons] at hnotes
    obtain ⟨⟨note, hb⟩, hnotes⟩ := hnotes
    obtain ⟨-, htakes, -, hsiblings⟩ := hf
    obtain rfl := Forest.Symbolic.eq_nil_of_note hb htakes
    obtain ⟨-, rfl, rfl, -⟩ := exists_of_enter_element hb hs henter (by decide)
    have hnote : s.enterElement c (some a) b (.note note) = s.enterChordNote c o b note
        (c.metrics.element (.note note) c.unit (s.staffHeight c.unit)) := by
      unfold enterElement
      dsimp only
      rw [hopen]
      exact if_pos (congrArg some hhandle)
    have hsame : (s.enterChordNote c o b note
        (c.metrics.element (.note note) c.unit (s.staffHeight c.unit))).2.SameSlot
        (s.enterElement c (some a) b (.note note)).2 := hnote ▸ ⟨rfl, rfl, rfl⟩
    have hbooks := books_enterChordNote c b note
      (c.metrics.element (.note note) c.unit (s.staffHeight c.unit)) r ho hhas hsame
    rw [← hnote] at hbooks
    have hdraws := (draws_enterChordNote c s o b note
      (c.metrics.element (.note note) c.unit (s.staffHeight c.unit))).1
    rw [← hnote] at hdraws
    have hb₁ := (writes_enterElement c s b (some a) (.note note)).kind.trans hb
    cases hbelow
    -- a note groups nothing, so nothing happens when it is left
    rw [leave_of_element hb₁] at hleave
    obtain ⟨rfl, rfl, rfl, -⟩ : (s.enterElement c (some a) b (.note note)).1 = s₃ ∧
        (s.enterElement c (some a) b (.note note)).2 = b₂ ∧ Forest.nil = children₂ ∧ _ := by
      simpa [leaveElement, Element.isContainer] using hleave
    have hrest := ih rfl hsiblings hnotes (hdraws.collecting.trans hs) (hdraws.chord.trans hopen)
      fun key hkey => hbooks.has (hhas key hkey)
    rw [Forest.symbols_cons hb₁, Forest.symbols_nil, List.nil_append]
    exact hbooks.append hrest

/-- The symbols of a layer, or of a group in it. -/
theorem books_symbols {s : AlignState α} {f : Forest (Node α)} {above : Option (Node α)}
    {s' : AlignState α} {f' : Forest (Node α)}
    (h : Forest.Completes (alignPass c) above s f s' f') (hf : f.Symbolic)
    (hids : (f.toList.map Node.id).Nodup) (hs : s.collecting) (hgrids : s.grids ≠ [])
    (hfault : s.fault = none) (hclosed : s.layer.chord? = none) :
    Books c s s' (f'.symbols s.layer.tuplet none) := by
  induction h with
  | nil above s => exact .nil (.refl s) rfl rfl
  | @skip above s s₁ s₂ b b₁ children siblings siblings' henter _ _ =>
    obtain ⟨e, hb⟩ := Node.exists_element hf.1
    cases (exists_of_enter_element hb hs henter (by decide)).1
  | @walk above s s₁ s₂ s₃ s₄ b b₁ b₂ children siblings children₁ children₂ siblings' whole v henter
      hbelow hleave _ _ ihbelow ihbeside =>
    obtain ⟨htag, htakes, hchildren, hsiblings⟩ := hf
    obtain ⟨e, hb⟩ := Node.exists_element htag
    obtain ⟨hidsChildren, hidsSiblings⟩ := Forest.nodup_of_cons hids
    obtain ⟨-, hs₁, hb₁, hfault₁⟩ := exists_of_enter_element hb hs henter (by decide)
    have henters := enters_enterElement c s above b e hclosed
    have hwrites := writes_enterElement c s b above e
    have hsymbol : s.enterElement c above b e = s.enterSymbol c b e
        (c.metrics.element e c.unit (s.staffHeight c.unit)) := by
      unfold enterElement
      dsimp only
      rw [chord_eq_none_iff.1 hclosed]
    rw [← hs₁, ← hb₁] at henters
    rw [← hb₁] at hwrites
    have hkind₁ := hwrites.kind.trans hb
    rw [leave_of_element hkind₁, Prod.mk.injEq, Prod.mk.injEq, Prod.mk.injEq] at hleave
    obtain ⟨rfl, rfl, rfl, -⟩ := hleave
    have hkind₂ := (writes_leaveElement s₂ b₁ e).kind.trans hkind₁
    have hcollecting₁ := henters.collecting.trans hs
    have hfirst : Books c s s₁ [⟨(s₂.leaveElement b₁ e).2, e, s.layer.tuplet, none⟩] := by
      have hsame := s₂.sameSlot_leaveElement b₁ e
      rw [hb₁, hsymbol] at hsame
      rw [hs₁, hb₁, hsymbol]
      exact books_enterSymbol c s b e _ _ hsame
    have hgrids₁ := hfirst.ne_nil_iff.2 hgrids
    -- in a chord stand its notes, elsewhere symbols of the layer
    have hdeep : Books c s₁ s₂ (children₁.symbols
        ((s₂.leaveElement b₁ e).2.ratioBelow s.layer.tuplet) (s₂.leaveElement b₁ e).2.asChord) ∧
        (∃ g g' r top, s₁.Walked s₂ g g' r top) := by
      rw [← henters.tuplet hkind₂]
      by_cases hchord : ∃ d, e = .chord d
      · obtain ⟨d, rfl⟩ := hchord
        have hnotes : ∀ n ∈ children.roots, ∃ note, n.kind = .element (.note note) := fun n hn =>
          NodeKind.exists_note_of_chord (hb ▸ htakes n hn)
        rw [Node.asChord_eq_some hkind₂]
        have honset : (s₂.leaveElement b₁ (.chord d)).2.layout.onset = some s.layer.time :=
          (leaveElement_onset ..).trans henters.onset
        obtain ⟨o, hopen, hhandle, htime, hgrace, hslot⟩ := chord_enterTimed c s b (d := d)
          (c.metrics.element (.chord d) c.unit (s.staffHeight c.unit))
        rw [show (s.enterTimed c b (.chord d) d _).1 = s₁ by rw [hs₁, hsymbol]; rfl] at hopen
        have hplain : (s₂.leaveElement b₁ (.chord d)).2.isGrace = o.grace := by
          rw [Node.isGrace, hkind₂, hgrace]
          rfl
        have ho : o.IsOf (s₂.leaveElement b₁ (.chord d)).2 := ⟨htime ▸ honset, hplain, hslot⟩
        refine ⟨books_notes hbelow rfl hchildren hnotes hcollecting₁ hopen
          (hwrites.handle.trans hhandle.symm) ho (fun key hkey => ?_) _, ?_⟩
        · have hgraceless : ¬ o.grace := fun h => by rw [hslot, if_pos h] at hkey; cases hkey
          rw [hslot, if_neg hgraceless, Option.some.injEq] at hkey
          refine (hfirst.slots hfault₁ hgrids _ List.mem_cons_self
            (fun h => hgraceless (hgrace ▸ h.2)) 0 [] key ?_).2
          rw [Symbol.key?]
          dsimp only
          rw [if_neg (hgrace ▸ hgraceless),
            if_pos (show (Element.chord d).duration?.isSome from rfl), honset, ← hkey, htime]
          rfl
        · have hopen' : s₁.layer.chord? = some (b₁.handle, s.layer.time) := by
            rw [henters.chord, hwrites.handle]
            rfl
          exact ⟨_, _, .one, _, (walked_notes hbelow rfl hchildren hnotes hidsChildren hcollecting₁
            hfault₁ hopen' honset).1⟩
      · have hclosed₁ : s₁.layer.chord? = none := by
          rw [henters.chord, chordIn_eq_chord? hchord]
          exact hclosed
        rw [Node.asChord_eq_none hkind₂ hchord]
        exact ⟨ihbelow hchildren hidsChildren hcollecting₁ hgrids₁ hfault₁ hclosed₁, _, _, _, _,
          walked_symbols hbelow hchildren hidsChildren hcollecting₁ hfault₁ hclosed₁⟩
    obtain ⟨hdeep, g, g', r, top, hwalked⟩ := hdeep
    obtain ⟨chord, hleft, hchord⟩ := leaveElement_fst (s := s)
      (hwalked.tuplets.trans henters.tuplets) (hwalked.chord.trans henters.chord) hwrites.handle
      fun _ _ => hclosed
    rw [hleft] at ihbeside
    have hrest := ihbeside hsiblings hidsSiblings (hwalked.collecting.trans hcollecting₁)
      (hdeep.ne_nil_iff.2 hgrids₁) hwalked.fault (hchord.trans hclosed)
    have hcursor : Books c s₂ { s₂ with
        layer := { s₂.layer with tuplets := s.layer.tuplets, chord } } [] := books_cursor rfl
    rw [Forest.symbols_cons hkind₂]
    exact hfirst.append (hdeep.append (hcursor.append hrest))

/-! ### A whole layer -/

/-- The end of a layer gives the grace notes their slots that still wait. -/
theorem collects_leaveLayer (hs : s.collecting) :
    s.Collects s.leaveLayer ∧ s.leaveLayer.ledger = s.ledger.flush s.layer.time := by
  obtain ⟨hflush, hledger⟩ := s.collects_flushGraces s.layer.time
  rw [leaveLayer, if_pos hs, ledger_updateGrid]
  exact ⟨hflush.trans (collects_updateGrid (fun g _ hok => Except.ok.inj hok ▸ g.grows_extend _) _),
    hledger⟩

/-- A layer asks the time grid for slots of its symbols only. -/
theorem asks_layer {below below' : Forest (Node α)} {clef : Clef} (hs : s.collecting)
    (hgrids : s.grids ≠ []) (hfault : s.fault = none) (hbelow : below.Symbolic)
    (hids : (below.toList.map Node.id).Nodup) {above : Option (Node α)}
    (hwalk : Forest.Completes (alignPass c) above { s with layer := .ofClef clef } below s' below') :
    s.Asks s'.leaveLayer fun key => ∃ x ∈ below'.symbols .one none, x.AsksFor key := by
  have hwalked := walked_symbols hwalk hbelow hids hs hfault rfl
  have hbooks := books_symbols hwalk hbelow hids hs hgrids hfault rfl
  rw [leaveLayer, if_pos (hwalked.collecting.trans hs)]
  have hsymbols : s.Asks s' fun key => ∃ x ∈ below'.symbols .one none, x.AsksFor key := by
    refine hbooks.asked.mono fun key hkey => ?_
    -- at its start no grace notes wait
    obtain ⟨-, hwaiting⟩ | hask := hkey
    · exact absurd rfl hwaiting
    · exact hask
  refine hsymbols.trans (Asks.trans ((s'.asks_flushGraces s'.layer.time).mono fun key hkey => ?_)
    (asks_updateGrid (fun g g' hok key hkey => .inl ?_) _))
  · obtain ⟨hgrace, hwaiting⟩ := hkey
    rw [hbooks.ledger] at hwaiting
    obtain hnone | ⟨x, hx, hxgrace⟩ := GraceLedger.waiting_foldl hwaiting
    · exact absurd rfl hnone
    · exact ⟨x, hx, hxgrace.asksFor hgrace⟩
  · obtain rfl := Except.ok.inj hok
    exact hkey

/-- What alignment books for a layer. -/
theorem booked_layer {below below' : Forest (Node α)} {clef : Clef} (hs : s.collecting)
    (hgrids : s.grids ≠ []) (hfault : s.fault = none) (hbelow : below.Symbolic)
    (hids : (below.toList.map Node.id).Nodup) (hhandles : (below.toList.map Node.handle).Nodup)
    (hunder : below.HandlesBelow c.symbolsBelow) {above : Option (Node α)}
    (hwalk : Forest.Completes (alignPass c) above { s with layer := .ofClef clef } below s' below')
    (hend : s'.leaveLayer.fault = none)
    (hfree : ∀ h ∈ below.toList.map Node.handle, s.graceSlots.lookup h = none) :
    s.Collects s'.leaveLayer ∧
      (∀ h ∉ below.toList.map Node.handle,
        s'.leaveLayer.graceSlots.lookup h = s.graceSlots.lookup h) ∧
      Booked s'.leaveLayer.graceSlots s'.leaveLayer.Has (below'.symbols .one none) ∧
      ∀ x ∈ below'.symbols .one none, x.IsGrace →
        (s'.leaveLayer.graceSlots.lookup x.node.handle).isSome := by
  have hwalked := walked_symbols hwalk hbelow hids hs hfault rfl
  have hbooks := books_symbols hwalk hbelow hids hs hgrids hfault rfl
  obtain ⟨hleave, hflushed⟩ := collects_leaveLayer (hwalked.collecting.trans hs)
  have hsymbolic : below'.Symbolic := hbelow.of_kinds hwalked.nodes fun _ _ h => h.kind
  have hunder' := hunder.of_forall₂ hwalked.nodes fun _ _ h =>
    ⟨h.handle, congrArg NodeKind.tag h.kind⟩
  have hsame : below'.toList.map Node.handle = below.toList.map Node.handle :=
    (map_eq_of_forall₂ (fun _ _ h => h.handle.symm) hwalked.nodes.toList).symm
  -- no grace note of another layer waits
  have hapart {h : Handle} {slot : Option SlotKey} (hslot : s.graceSlots.lookup h = slot) :
      GraceLedger.Apart ⟨[], s.graceSlots⟩ h slot := ⟨nofun, hslot⟩
  have hledger : s'.leaveLayer.ledger = ((below'.symbols .one none).foldl
      (GraceLedger.step c.symbolsBelow) ⟨[], s.graceSlots⟩).flush s'.layer.time := by
    rw [hflushed, hbooks.ledger]
    rfl
  have hfound := congrArg GraceLedger.found hledger
  rw [show s'.leaveLayer.ledger.found = s'.leaveLayer.graceSlots from rfl] at hfound
  have hstart : s.Collects { s with layer := .ofClef clef } := collects_of_eq rfl rfl id
  have hall := hstart.trans (hbooks.toCollects.trans hleave)
  have hhandle : ∀ x ∈ below'.symbols .one none, s.graceSlots.lookup x.node.handle = none :=
    fun x hx => hfree _ (hsame ▸ List.mem_map_of_mem (Forest.mem_of_mem_symbols hx))
  have hlookup : ∀ front x back, below'.symbols .one none = front ++ x :: back → x.IsGrace →
      s'.leaveLayer.graceSlots.lookup x.node.handle =
        some (.ofGrace (leansOn s'.layer.time back) (gracesAhead back + 1)) := by
    intro front x back hxs hgrace
    have hleaves := hsymbolic.leaves (hsame ▸ hhandles) hunder' hxs fun top htop _ => by
      rw [hgrace.1] at htop
      cases htop
    rw [hfound, hxs]
    exact GraceLedger.lookup_of_grace hgrace (List.forall_mem_append.1 hleaves).2
  refine ⟨hall, fun h hh => ?_, ⟨s'.layer.time, ?_, fun front x back hxs key hkey => ?_⟩,
    fun x hx hgrace => ?_⟩
  · rw [hfound]
    exact ((hapart rfl).foldl (hsymbolic.leaves_of_not_mem hunder' (hsame ▸ hh))).flush _ |>.found
  · rw [hwalked.time]
    exact (congrArg (· + _) Fraction.value_zero).trans (zero_add _)
  · have hmem : x ∈ below'.symbols .one none := hxs ▸ List.mem_append_right _ List.mem_cons_self
    by_cases hgrace : x.IsGrace
    · obtain rfl : SlotKey.ofGrace (leansOn s'.layer.time back) (gracesAhead back + 1) = key := by
        rw [Symbol.key?, hgrace.1] at hkey
        dsimp only at hkey
        rw [if_pos hgrace.2] at hkey
        exact Option.some.inj hkey
      rw [hlookup front x back hxs hgrace]
      refine ⟨(hall.found hend hgrids (x.node.handle, _) ?_).resolve_left fun hin => ?_, rfl⟩
      · obtain ⟨l, l', hl, -⟩ := List.lookup_eq_some_iff.1 (hlookup front x back hxs hgrace)
        rw [hl]
        exact List.mem_append_right _ List.mem_cons_self
      · simpa using List.lookup_eq_none_iff.1 (hhandle x hmem) _ hin
    · have hleaves := hsymbolic.leaves (hsame ▸ hhandles) hunder' hxs fun top htop hgrace => by
        rw [Symbol.key?, htop] at hkey
        dsimp only at hkey
        rw [if_pos hgrace] at hkey
        cases hkey
      rw [List.forall_mem_append] at hleaves
      obtain ⟨hslot, hhas⟩ :=
        hbooks.slots (hleave.fault hend) hgrids x hmem hgrace s'.layer.time back key hkey
      refine ⟨hleave.has hhas, ?_⟩
      rw [hfound, hxs,
        GraceLedger.found_of_not_grace hgrace (hapart (hhandle x hmem)) hleaves.1 hleaves.2]
      exact hslot
  · obtain ⟨front, back, hxs⟩ := List.append_of_mem hx
    rw [hlookup front x back hxs hgrace]
    rfl

end AlignState

end ScoreLayout
