import ScoreLayout.Proofs.Grid.Alike
import ScoreLayout.Proofs.Layout.AlignmentSteps
import ScoreLayout.Proofs.Layout.GraceLedger

/-!
# The slot of a symbol

While alignment walks a layer it keeps the books on grace notes as `GraceLedger` does, and every slot
that it gives a symbol is one that its time grid draws. The grid draws nothing new that no symbol has
asked for.

## Main definitions

* `AlignState.ledger` — the books of a state.
* `AlignState.Collects` — what collecting slots does to a state.
* `AlignState.Asks` — what a step asks the time grid for.
* `AlignState.Books` — what entering some symbols does.

## Main results

* `AlignState.books_enterSymbol` — a symbol that is no note of an open chord.
* `AlignState.books_enterChordNote` — a note of an open chord.
-/

namespace ScoreLayout

variable {α : Type} [Scalar α]

omit [Scalar α] in
/-- The symbols below a handle. -/
def AlignContext.symbolsBelow (c : AlignContext α) (h : Handle) : List Handle :=
  ((c.document.descendants h).filter fun n => n.tag = .element).map Node.handle

omit [Scalar α] in
/-- Two states of one node, with one onset and one slot. -/
structure Node.SameSlot (n n' : Node α) : Prop where
  handle : n'.handle = n.handle
  onset : n'.layout.onset = n.layout.onset
  slot : n'.layout.slot = n.layout.slot

omit [Scalar α] in
/-- Whether an open chord is the one recorded on a node: it has the slot of its onset, but for a
grace chord. -/
structure OpenChord.IsOf (o : OpenChord) (top : Node α) : Prop where
  onset : top.layout.onset = some o.onset
  grace : top.isGrace = o.grace
  slot : o.slot = if o.grace then none else some (.ofKind o.onset .event)

omit [Scalar α] in
/-- Grids that grow, one by one. -/
def GrowAll (gs gs' : List (MeasureGrid α)) : Prop := List.Forall₂ MeasureGrid.Grows gs gs'

omit [Scalar α] in
theorem GrowAll.refl : (gs : List (MeasureGrid α)) → GrowAll gs gs
  | [] => .nil
  | g :: gs => .cons (.refl g) (GrowAll.refl gs)

omit [Scalar α] in
theorem GrowAll.trans {gs gs₁ gs₂ : List (MeasureGrid α)} (h : GrowAll gs gs₁)
    (h' : GrowAll gs₁ gs₂) : GrowAll gs gs₂ := by
  induction h generalizing gs₂ with
  | nil => exact h'
  | cons hg _ ih =>
    cases h' with
    | cons hg' hgs' => exact .cons (hg.trans hg') (ih hgs')

omit [Scalar α] in
/-- Whether a symbol may have asked for a slot: it groups nothing that takes time, and where the slot
is one for events it is a principal symbol that begins there. -/
structure Symbol.AsksFor (x : Symbol α) (key : SlotKey) : Prop where
  plain : x.element ≠ .beam ∧ ∀ num base, x.element ≠ .tuplet num base
  principal : key.kind = .event → x.IsPrincipal ∧
    ∃ onset, x.node.layout.onset = some onset ∧ (SlotKey.ofKind onset .event).Same key

omit [Scalar α] in
theorem Symbol.IsGrace.asksFor {x : Symbol α} (hx : x.IsGrace) {key : SlotKey}
    (hkey : key.kind = .grace) : x.AsksFor key where
  plain := by
    have hgrace := hx.2
    constructor
    · intro h
      rw [h] at hgrace
      cases hgrace
    · intro num base h
      rw [h] at hgrace
      cases hgrace
  principal h := by
    rw [hkey] at h
    cases h

namespace AlignState

omit [Scalar α] in
/-- The books of a state. -/
def ledger (s : AlignState α) : GraceLedger :=
  ⟨s.layer.graces.map fun g => g.map Drawn.handle, s.graceSlots⟩

omit [Scalar α] in
/-- Whether the innermost time grid draws something at a key. -/
def Has (s : AlignState α) (key : SlotKey) : Prop := ∃ g ∈ s.grids.head?, g.Has key

omit [Scalar α] in
/-- What collecting slots does to a state: its grids grow, and the slots that are found are drawn. -/
structure Collects (s s' : AlignState α) : Prop where
  grids : GrowAll s.grids s'.grids
  fault : s'.fault = none → s.fault = none
  found : s'.fault = none → s.grids ≠ [] →
    ∀ e ∈ s'.graceSlots, e ∈ s.graceSlots ∨ s'.Has e.2

/-! ### Collecting -/

section Collects

variable {s s₁ s₂ : AlignState α} {key : SlotKey}

omit [Scalar α] in
theorem Collects.has (h : s.Collects s₁) (hs : s.Has key) : s₁.Has key := by
  obtain ⟨g, hg, hkey⟩ := hs
  have hgrids := h.grids
  cases hs : s.grids with
  | nil => rw [hs] at hg; cases hg
  | cons g₀ outer =>
    rw [hs] at hg hgrids
    obtain rfl := Option.mem_some.1 hg
    obtain ⟨g', outer', hgrows, -, hgrids⟩ := List.forall₂_cons_left_iff.1 hgrids
    exact ⟨g', by rw [hgrids]; rfl, hgrows.has key hkey⟩

omit [Scalar α] in
theorem Collects.ne_nil_iff (h : s.Collects s₁) : s₁.grids ≠ [] ↔ s.grids ≠ [] := by
  have hlength := h.grids.length_eq
  rw [Ne, Ne, ← List.length_eq_zero_iff, ← List.length_eq_zero_iff, hlength]

omit [Scalar α] in
theorem collects_of_eq (hgrids : s₁.grids = s.grids) (hfound : s₁.graceSlots = s.graceSlots)
    (hfault : s₁.fault = none → s.fault = none) : s.Collects s₁ where
  grids := hgrids ▸ .refl s.grids
  fault := hfault
  found _ _ _ he := .inl (hfound ▸ he)

omit [Scalar α] in
theorem Collects.refl (s : AlignState α) : s.Collects s := collects_of_eq rfl rfl id

omit [Scalar α] in
theorem Collects.trans (h : s.Collects s₁) (h' : s₁.Collects s₂) : s.Collects s₂ where
  grids := h.grids.trans h'.grids
  fault := h.fault ∘ h'.fault
  found hfault hs e he := (h'.found hfault (h.ne_nil_iff.2 hs) e he).elim
    (fun he => (h.found (h'.fault hfault) hs e he).imp_right h'.has) .inr

omit [Scalar α] in
/-- Changing the innermost grid. -/
theorem collects_updateGrid {f : MeasureGrid α → Except GridFault (MeasureGrid α)}
    (hf : ∀ g g', f g = .ok g' → g.Grows g') (s : AlignState α) : s.Collects (s.updateGrid f) := by
  rw [updateGrid]
  split
  · rename_i g outer hgrids
    split
    · rename_i g' hg'
      refine ⟨?_, id, fun _ _ _ he => .inl he⟩
      rw [hgrids]
      exact .cons (hf g g' hg') (GrowAll.refl outer)
    · exact collects_of_eq rfl rfl fun hnone => by cases hnone
  · exact .refl s

omit [Scalar α] in
@[simp] theorem ledger_updateGrid (s : AlignState α)
    (f : MeasureGrid α → Except GridFault (MeasureGrid α)) :
    (s.updateGrid f).ledger = s.ledger := by
  rw [updateGrid]
  split
  · split <;> rfl
  · rfl

theorem collects_request (s : AlignState α) (key : SlotKey) : s.Collects (s.request key) :=
  s.collects_updateGrid fun _ _ hok => (MeasureGrid.grows_slot hok).1

/-- A slot that is asked for is drawn. -/
theorem has_request (hfault : (s.request key).fault = none) (hs : s.grids ≠ []) :
    (s.request key).Has key := by
  rw [request, updateGrid] at hfault ⊢
  cases hgrids : s.grids with
  | nil => exact absurd hgrids hs
  | cons g outer =>
    rw [hgrids] at hfault
    dsimp only at hfault ⊢
    cases hok : g.slot key with
    | ok g' => exact ⟨g', rfl, (MeasureGrid.grows_slot hok).2⟩
    | error e =>
      rw [hok] at hfault
      cases hfault

theorem collects_draw (s : AlignState α) (key : SlotKey) (rect : Option (Rect α)) :
    s.Collects (s.draw key rect) := by
  unfold draw
  split
  · exact s.collects_updateGrid fun g g' hok => Except.ok.inj hok ▸ g.grows_addFootprint ..
  · exact .refl s

@[simp] theorem ledger_draw (s : AlignState α) (key : SlotKey) (rect : Option (Rect α)) :
    (s.draw key rect).ledger = s.ledger := by
  unfold draw
  split
  · exact ledger_updateGrid ..
  · rfl

/-- A grace note with the symbols below it in a slot that is drawn. -/
theorem collects_placeGrace (s : AlignState α) (onset : Fraction) (rank : Nat)
    (g : PendingGrace α) : s.Collects (s.placeGrace onset rank g) ∧
      (s.placeGrace onset rank g).ledger =
        s.ledger.place (.ofGrace onset rank) (g.map Drawn.handle) := by
  have hfold (g : PendingGrace α) : ∀ s : AlignState α,
      (s.fault = none → s.grids ≠ [] → s.Has (.ofGrace onset rank)) →
      s.Collects (g.foldl (fun s d => { s.draw (.ofGrace onset rank) d.rect with
        graceSlots := (d.handle, .ofGrace onset rank) :: s.graceSlots }) s) ∧
      (g.foldl (fun s d => { s.draw (.ofGrace onset rank) d.rect with
        graceSlots := (d.handle, .ofGrace onset rank) :: s.graceSlots }) s).ledger =
        s.ledger.place (.ofGrace onset rank) (g.map Drawn.handle) := by
    induction g with
    | nil => exact fun s _ => ⟨.refl s, rfl⟩
    | cons d g ih =>
      intro s hs
      have hdraw := s.collects_draw (.ofGrace onset rank) d.rect
      have hstep : s.Collects { s.draw (.ofGrace onset rank) d.rect with
          graceSlots := (d.handle, .ofGrace onset rank) :: s.graceSlots } := by
        refine ⟨hdraw.grids, hdraw.fault, fun hfault hgrids e he => ?_⟩
        rcases List.mem_cons.1 he with rfl | he
        · exact .inr (hdraw.has (hs (hdraw.fault hfault) hgrids))
        · exact .inl he
      have hwaiting := congrArg GraceLedger.waiting (s.ledger_draw (.ofGrace onset rank) d.rect)
      obtain ⟨hrest, hledger⟩ := ih _ fun hfault hgrids =>
        hstep.has (hs (hstep.fault hfault) (hstep.ne_nil_iff.1 hgrids))
      refine ⟨hstep.trans hrest, hledger.trans ?_⟩
      rw [List.map_cons, GraceLedger.place, GraceLedger.place, List.foldl_cons]
      exact congrArg (GraceLedger.mk · _) hwaiting
  have hrequest := s.collects_request (.ofGrace onset rank)
  obtain ⟨hcollects, hledger⟩ := hfold g (s.request (.ofGrace onset rank)) fun hfault hgrids =>
    has_request hfault (hrequest.ne_nil_iff.1 hgrids)
  refine ⟨(s.collects_request _).trans hcollects, hledger.trans ?_⟩
  rw [request, ledger_updateGrid]

theorem collects_placeGraces (onset : Fraction) :
    (graces : List (PendingGrace α)) → (s : AlignState α) →
      s.Collects (s.placeGraces onset graces) ∧
        (s.placeGraces onset graces).ledger =
          s.ledger.placeAll onset (graces.map fun g => g.map Drawn.handle)
  | [], s => ⟨.refl s, rfl⟩
  | g :: rest, s => by
      obtain ⟨hfirst, hledger⟩ := s.collects_placeGrace onset (rest.length + 1) g
      obtain ⟨hrest, hledger'⟩ :=
        collects_placeGraces onset rest (s.placeGrace onset (rest.length + 1) g)
      refine ⟨hfirst.trans hrest, hledger'.trans ?_⟩
      rw [hledger, List.map_cons, GraceLedger.placeAll, List.length_map]

/-- All grace notes that wait get their slots. -/
theorem collects_flushGraces (s : AlignState α) (onset : Fraction) :
    s.Collects (s.flushGraces onset) ∧ (s.flushGraces onset).ledger = s.ledger.flush onset := by
  obtain ⟨hcollects, hledger⟩ := collects_placeGraces onset s.layer.graces
    { s with layer := { s.layer with graces := [] } }
  have hclear : s.Collects { s with layer := { s.layer with graces := [] } } :=
    collects_of_eq rfl rfl id
  exact ⟨hclear.trans hcollects, hledger⟩

theorem collects_record (s : AlignState α) (n : Node α) (onset time : Fraction) (y : α)
    (rect : Option (Rect α)) : s.Collects (s.record n onset time y rect).1 ∧
      (s.record n onset time y rect).1.ledger = s.ledger := by
  refine ⟨collects_of_eq rfl rfl id, ?_⟩
  rw [record, ledger, ledger]
  simp only [List.map_map, Function.comp_def, GraceLedger.mk.injEq, and_true]
  -- a note that is drawn again stays the same note
  refine List.map_congr_left fun g _ => List.map_congr_left fun d _ => ?_
  split_ifs with h
  · exact h.symm
  · rfl

theorem collects_assign (s : AlignState α) (n : Node α) (key : SlotKey) :
    s.Collects (s.assign n key).1 ∧ (s.assign n key).1.ledger = s.ledger.claim n.handle := by
  have hdraw := s.collects_draw key (drawn n).rect
  have hledger := s.ledger_draw key (drawn n).rect
  constructor
  · refine hdraw.trans ⟨.refl _, id, fun _ _ e he => .inl (List.mem_of_mem_filter he)⟩
  · rw [← hledger]
    rfl

omit [Scalar α] in
/-- Moving a layer on books nothing. -/
theorem collects_advance (s : AlignState α) (n : Node α) (time : Fraction) :
    s.Collects (s.advance n time).1 ∧ (s.advance n time).1.ledger = s.ledger ∧
      n.SameSlot (s.advance n time).2 := by
  rw [advance]
  split
  · exact ⟨collects_of_eq rfl rfl id, rfl, rfl, rfl, rfl⟩
  · rename_i reason _
    obtain ⟨refused, fault, heq, -, hfault⟩ := s.refuse_eq n (.ofWord reason)
    rw [heq]
    exact ⟨collects_of_eq rfl rfl fun h => (hfault h).1, rfl, rfl, rfl, rfl⟩

end Collects

/-! ### Asking for slots -/

section Asks

variable {s s₁ s₂ : AlignState α} {key : SlotKey} {P Q : SlotKey → Prop}

omit [Scalar α] in
/-- A step behind which the innermost time grid draws something new at some keys only. -/
def Asks (s s' : AlignState α) (P : SlotKey → Prop) : Prop := ∀ key, s'.Has key → s.Has key ∨ P key

omit [Scalar α] in
theorem asks_of_grids (hgrids : s₁.grids = s.grids) : s.Asks s₁ P := fun key h => by
  rw [Has, hgrids] at h
  exact .inl h

omit [Scalar α] in
theorem Asks.trans (h : s.Asks s₁ P) (h' : s₁.Asks s₂ P) : s.Asks s₂ P := fun key hkey =>
  (h' key hkey).elim (h key) .inr

omit [Scalar α] in
theorem Asks.mono (h : s.Asks s₁ P) (hP : ∀ key, P key → Q key) : s.Asks s₁ Q := fun key hkey =>
  (h key hkey).imp_right (hP key)

omit [Scalar α] in
/-- Changing the innermost grid. -/
theorem asks_updateGrid {f : MeasureGrid α → Except GridFault (MeasureGrid α)}
    (hf : ∀ g g', f g = .ok g' → ∀ key, g'.Has key → g.Has key ∨ P key) (s : AlignState α) :
    s.Asks (s.updateGrid f) P := by
  rw [updateGrid]
  split
  · rename_i g outer hgrids
    split
    · rename_i g' hg'
      rintro key ⟨_, ⟨rfl⟩, hkey⟩
      exact (hf g g' hg' key hkey).imp_left fun h => ⟨g, by rw [hgrids]; rfl, h⟩
    · exact asks_of_grids rfl
  · exact asks_of_grids rfl

theorem asks_request (s : AlignState α) (key : SlotKey) : s.Asks (s.request key) key.Same :=
  s.asks_updateGrid fun _ _ hok _ hkey => (MeasureGrid.has_slot_iff hok).1 hkey

theorem asks_draw (s : AlignState α) (key : SlotKey) (rect : Option (Rect α)) :
    s.Asks (s.draw key rect) P := by
  unfold draw
  split
  · refine s.asks_updateGrid fun g g' hok key' hkey => .inl ?_
    obtain rfl := Except.ok.inj hok
    rw [MeasureGrid.has_iff_outline] at hkey ⊢
    rwa [MeasureGrid.outline_addFootprint] at hkey
  · exact asks_of_grids rfl

theorem asks_assign (s : AlignState α) (n : Node α) (key : SlotKey) :
    s.Asks (s.assign n key).1 P := s.asks_draw key (drawn n).rect

theorem asks_assignAt (s : AlignState α) (n : Node α) (key : SlotKey) :
    s.Asks (s.assignAt n key).1 key.Same :=
  (s.asks_request key).trans ((s.request key).asks_assign n key)

/-- Grace notes ask for slots of their kind. -/
theorem asks_placeGrace (s : AlignState α) (onset : Fraction) (rank : Nat) (g : PendingGrace α) :
    s.Asks (s.placeGrace onset rank g) fun key => key.kind = .grace := by
  have hfold (g : PendingGrace α) : ∀ s : AlignState α,
      s.Asks (g.foldl (fun s d => { s.draw (.ofGrace onset rank) d.rect with
        graceSlots := (d.handle, .ofGrace onset rank) :: s.graceSlots }) s)
        fun key => key.kind = .grace := by
    induction g with
    | nil => exact fun s => asks_of_grids rfl
    | cons d g ih => exact fun s => (s.asks_draw (.ofGrace onset rank) d.rect).trans (ih _)
  have hrequest : s.Asks (s.request (.ofGrace onset rank)) fun key => key.kind = .grace :=
    (s.asks_request _).mono fun key hkey => hkey.kind.symm
  exact hrequest.trans (hfold g _)

theorem asks_placeGraces (onset : Fraction) : (graces : List (PendingGrace α)) →
    (s : AlignState α) → s.Asks (s.placeGraces onset graces) fun key => key.kind = .grace
  | [], _ => asks_of_grids rfl
  | _ :: rest, s => (s.asks_placeGrace onset _ _).trans (asks_placeGraces onset rest _)

theorem asks_flushGraces (s : AlignState α) (onset : Fraction) : s.Asks (s.flushGraces onset)
    fun key => key.kind = .grace ∧ s.ledger.waiting ≠ [] := by
  rw [flushGraces]
  cases hgraces : s.layer.graces with
  | nil => exact asks_of_grids rfl
  | cons g rest =>
    refine Asks.mono ?_ fun key hkey => ⟨hkey, by simp [ledger, hgraces]⟩
    exact asks_placeGraces onset (g :: rest) { s with layer := { s.layer with graces := [] } }

omit [Scalar α] in
theorem asks_advance (s : AlignState α) (n : Node α) (time : Fraction) :
    s.Asks (s.advance n time).1 P := by
  obtain ⟨reached, longest, refused, fault, n', heq, -⟩ := s.advance_eq n time
  exact asks_of_grids (by rw [heq])

omit [Scalar α] in
theorem asks_openChord (s : AlignState α) (n : Node α) (e : Element) (onset : Fraction)
    (slot : Option SlotKey) : s.Asks (s.openChord n e onset slot) P := by
  unfold openChord
  split <;> exact asks_of_grids rfl

/-- A timed symbol asks for a slot at once, but for a grace note. -/
theorem asks_drawTimed (c : AlignContext α) (s : AlignState α) (n : Node α) (grace : Bool)
    (onset time : Fraction) (y : α) (rect : Option (Rect α)) :
    s.Asks (s.drawTimed c n grace onset time y rect).1 fun key =>
      (key.kind = .grace ∧ s.ledger.waiting ≠ []) ∨
        ¬ grace ∧ (SlotKey.ofKind onset .event).Same key := by
  unfold drawTimed
  cases grace with
  | true => exact asks_of_grids rfl
  | false =>
    dsimp only
    generalize hr : s.record n onset time y _ = r
    have hgrids : r.1.grids = s.grids := hr ▸ rfl
    have hledger : r.1.ledger = s.ledger := hr ▸ (s.collects_record n onset time y _).2
    have hflush := (r.1.request (.ofKind onset .event)).asks_flushGraces onset
    rw [show (r.1.request (.ofKind onset .event)).ledger = s.ledger from
      (ledger_updateGrid ..).trans hledger] at hflush
    exact (asks_of_grids hgrids).trans <|
      ((r.1.asks_request (.ofKind onset .event)).mono fun _ hkey => .inr ⟨Bool.false_ne_true, hkey⟩).trans
        ((hflush.mono fun _ => .inl).trans (asks_assign _ _ _))

omit [Scalar α] in
/-- A symbol that asks for a slot of another kind than that of events. -/
theorem asksFor_of_kind {x : Symbol α} {time : Fraction} {kind : SlotKind}
    (hbeam : x.element ≠ .beam) (htuplet : ∀ num base, x.element ≠ .tuplet num base)
    (hkey : (SlotKey.ofKind time kind).Same key) (hkind : kind ≠ .event) : x.AsksFor key where
  plain := ⟨hbeam, htuplet⟩
  principal h := absurd (hkey.kind.trans h) hkind

end Asks

/-! ### Books -/

/-- What entering some symbols does: slots are collected, the books are kept symbol by symbol, and
the slot that a symbol gets at once is drawn. What is drawn beyond that is for grace notes. -/
structure Books (c : AlignContext α) (s s' : AlignState α) (xs : List (Symbol α)) : Prop extends
    Collects s s' where
  ledger : s'.ledger = xs.foldl (GraceLedger.step c.symbolsBelow) s.ledger
  slots : s'.fault = none → s.grids ≠ [] → ∀ x ∈ xs, ¬ x.IsGrace → ∀ stop back key,
    x.key? stop back = some key → x.node.layout.slot = some key ∧ s'.Has key
  asked : s.Asks s' fun key =>
    (key.kind = .grace ∧ s.ledger.waiting ≠ []) ∨ ∃ x ∈ xs, x.AsksFor key

variable {c : AlignContext α} {s s₁ s₂ : AlignState α} {xs ys : List (Symbol α)}

omit [Scalar α] in
theorem Books.nil (h : s.Collects s₁) (hledger : s₁.ledger = s.ledger)
    (hgrids : s₁.grids = s.grids) : Books c s s₁ [] where
  toCollects := h
  ledger := hledger
  slots _ _ _ hx := absurd hx List.not_mem_nil
  asked := asks_of_grids hgrids

omit [Scalar α] in
theorem Books.append (h : Books c s s₁ xs) (h' : Books c s₁ s₂ ys) : Books c s s₂ (xs ++ ys) where
  toCollects := h.toCollects.trans h'.toCollects
  ledger := by rw [h'.ledger, h.ledger, List.foldl_append]
  slots hfault hs x hx hgrace stop back key hkey := by
    rcases List.mem_append.1 hx with hx | hx
    · obtain ⟨hslot, hhas⟩ := h.slots (h'.fault hfault) hs x hx hgrace stop back key hkey
      exact ⟨hslot, h'.has hhas⟩
    · exact h'.slots hfault (h.ne_nil_iff.2 hs) x hx hgrace stop back key hkey
  asked := by
    refine (h.asked.mono fun key hkey => hkey.imp_right ?_).trans (h'.asked.mono fun key hkey => ?_)
    · rintro ⟨x, hx, hask⟩
      exact ⟨x, List.mem_append_left _ hx, hask⟩
    · rcases hkey with ⟨hgrace, hwaiting⟩ | ⟨x, hx, hask⟩
      · -- what waits now has waited before, or is one of the symbols
        rw [h.ledger] at hwaiting
        refine (GraceLedger.waiting_foldl hwaiting).imp (fun h => ⟨hgrace, h⟩) ?_
        rintro ⟨x, hx, hxgrace⟩
        exact ⟨x, List.mem_append_left _ hx, hxgrace.asksFor hgrace⟩
      · exact .inr ⟨x, List.mem_append_right _ hx, hask⟩

omit [Scalar α] in
/-- One symbol. -/
theorem Books.single {x : Symbol α} (h : s.Collects s₁)
    (hasked : s.Asks s₁ fun key => (key.kind = .grace ∧ s.ledger.waiting ≠ []) ∨ x.AsksFor key)
    (hledger : s₁.ledger = s.ledger.step c.symbolsBelow x)
    (hslots : s₁.fault = none → s.grids ≠ [] → ¬ x.IsGrace → ∀ stop back key,
      x.key? stop back = some key → x.node.layout.slot = some key ∧ s₁.Has key) :
    Books c s s₁ [x] where
  toCollects := h
  ledger := hledger
  slots hfault hs y hy := by
    obtain rfl := List.mem_singleton.1 hy
    exact hslots hfault hs
  asked := hasked.mono fun _ => Or.imp_right fun hask => ⟨x, List.mem_singleton_self x, hask⟩

/-! ### Entering a symbol -/

/-- What drawing a timed symbol books. -/
theorem collects_drawTimed (c : AlignContext α) (s : AlignState α) (n : Node α) (grace : Bool)
    (onset time : Fraction) (y : α) (rect : Option (Rect α))
    {r : AlignState α × Node α × Option SlotKey} (hr : s.drawTimed c n grace onset time y rect = r) :
    s.Collects r.1 ∧ r.2.1.layout.onset = some onset ∧ r.2.1.handle = n.handle ∧
      r.2.2 = (if grace then none else some (.ofKind onset .event)) ∧
      r.1.ledger = (if grace then s.ledger.wait (n.handle :: c.symbolsBelow n.handle)
        else (s.ledger.flush onset).claim n.handle) ∧
      (¬ grace → r.2.1.layout.slot = some (.ofKind onset .event) ∧
        (r.1.fault = none → s.grids ≠ [] → r.1.Has (.ofKind onset .event))) := by
  subst hr
  rw [drawTimed]
  obtain ⟨hrecord, hledger⟩ :=
    s.collects_record n onset time y (if grace then c.metrics.graceRect rect else rect)
  have hnode : (s.record n onset time y
      (if grace then c.metrics.graceRect rect else rect)).2.handle = n.handle ∧
      (s.record n onset time y
        (if grace then c.metrics.graceRect rect else rect)).2.layout.onset = some onset := ⟨rfl, rfl⟩
  generalize s.record n onset time y (if grace then c.metrics.graceRect rect else rect) = recorded
    at hrecord hledger hnode ⊢
  obtain ⟨s₁, n₁⟩ := recorded
  dsimp only at hrecord hledger hnode ⊢
  cases grace with
  | true =>
    refine ⟨hrecord.trans (collects_of_eq rfl rfl id), hnode.2, hnode.1, rfl, ?_, nofun⟩
    rw [if_pos rfl, if_pos rfl, ← hledger, ← hnode.1, GraceLedger.wait, ledger, ledger]
    simp only [List.map_append, List.map_cons, List.map_nil, pendingGrace, List.map_map]
    rfl
  | false =>
    have hrequest := s₁.collects_request (.ofKind onset .event)
    obtain ⟨hflush, hflushed⟩ := (s₁.request (.ofKind onset .event)).collects_flushGraces onset
    obtain ⟨hassign, hclaim⟩ := ((s₁.request (.ofKind onset .event)).flushGraces
      onset).collects_assign n₁ (.ofKind onset .event)
    refine ⟨hrecord.trans (hrequest.trans (hflush.trans hassign)), hnode.2, hnode.1, rfl, ?_,
      fun _ => ⟨rfl, fun hfault hs => ?_⟩⟩
    · refine hclaim.trans ?_
      rw [hflushed, request, ledger_updateGrid, hledger, hnode.1]
      rfl
    · exact (hflush.trans hassign).has
        (has_request (hflush.fault (hassign.fault hfault)) (hrecord.ne_nil_iff.2 hs))

omit [Scalar α] in
theorem collects_openChord (s : AlignState α) (n : Node α) (e : Element) (onset : Fraction)
    (slot : Option SlotKey) :
    s.Collects (s.openChord n e onset slot) ∧ (s.openChord n e onset slot).ledger = s.ledger := by
  unfold openChord
  split
  · exact ⟨collects_of_eq rfl rfl id, rfl⟩
  · exact ⟨.refl s, rfl⟩

/-- A timed symbol whose duration has been booked or refused. -/
theorem books_timed (c : AlignContext α) {s s₁ : AlignState α} {n n₂ : Node α} {e : Element}
    (onset time : Fraction) (y : α) (rect : Option (Rect α)) {ratio : TupletRatio}
    (he : e.duration?.isSome) (hs₁ : s.Collects s₁) (hgrids : s₁.grids = s.grids)
    (hledger : s₁.ledger = s.ledger) {r : AlignState α × Node α × Option SlotKey}
    (hr : s₁.drawTimed c n e.isGrace onset time y rect = r)
    (hn₂ : ((r.1.openChord r.2.1 e onset r.2.2).advance r.2.1 time).2.SameSlot n₂) :
    Books c s ((r.1.openChord r.2.1 e onset r.2.2).advance r.2.1 time).1 [⟨n₂, e, ratio, none⟩] := by
  obtain ⟨hdraw, honset, hhandle, -, hdrawn, hslot⟩ :=
    collects_drawTimed c s₁ n e.isGrace onset time y rect hr
  obtain ⟨hopen, hopened⟩ := r.1.collects_openChord r.2.1 e onset r.2.2
  obtain ⟨hadvance, hadvanced, hsame⟩ :=
    (r.1.openChord r.2.1 e onset r.2.2).collects_advance r.2.1 time
  have hn : n₂.handle = n.handle := hn₂.handle.trans (hsame.handle.trans hhandle)
  have honset₂ : n₂.layout.onset = some onset := hn₂.onset.trans (hsame.onset.trans honset)
  have hasks := asks_drawTimed c s₁ n e.isGrace onset time y rect
  rw [hr, hledger] at hasks
  refine .single (hs₁.trans (hdraw.trans (hopen.trans hadvance))) ?_ ?_ fun hfault hs hgrace stop
    back key hkey => ?_
  · refine (asks_of_grids hgrids).trans ((hasks.mono fun key hkey => hkey.imp_right ?_).trans
      ((r.1.asks_openChord r.2.1 e onset r.2.2).trans (asks_advance _ _ _)))
    rintro ⟨hplain, hkey⟩
    refine ⟨⟨?_, ?_⟩, fun _ => ⟨⟨rfl, he, hplain⟩, onset, honset₂, hkey⟩⟩
    · rintro rfl
      cases he
    · rintro num base rfl
      cases he
  · rw [hadvanced, hopened, hdrawn, hledger, GraceLedger.step]
    dsimp only
    rw [hn, honset₂, if_pos he, Option.getD_some]
  · have hplain : ¬ e.isGrace := fun h => hgrace ⟨rfl, h⟩
    rw [Symbol.key?] at hkey
    dsimp only at hkey
    rw [if_neg hplain, if_pos he, honset₂, Option.map_some, Option.some.injEq] at hkey
    subst hkey
    obtain ⟨hslot, hhas⟩ := hslot hplain
    exact ⟨hn₂.slot.trans (hsame.slot.trans hslot), (hopen.trans hadvance).has
      (hhas (hopen.fault (hadvance.fault hfault)) (hs₁.ne_nil_iff.2 hs))⟩

theorem books_enterTimed (c : AlignContext α) (s : AlignState α) (n : Node α) {n₂ : Node α}
    {e : Element} {d : Duration} (rect : Option (Rect α)) (ratio : TupletRatio)
    (he : e.duration? = some d) (hn₂ : (s.enterTimed c n e d rect).2.SameSlot n₂) :
    Books c s (s.enterTimed c n e d rect).1 [⟨n₂, e, ratio, none⟩] := by
  have hd : e.duration?.isSome := by rw [he]; rfl
  unfold enterTimed at hn₂ ⊢
  cases hadvance : d.advance s.layer.tuplet with
  | ok time =>
    rw [hadvance] at hn₂
    exact books_timed c s.layer.time time (s.symbolY c.unit e) rect hd (.refl s) rfl rfl rfl hn₂
  | error reason =>
    rw [hadvance] at hn₂
    obtain ⟨refused, fault, heq, -, hfault⟩ := s.refuse_eq n reason
    have hrefuse : s.Collects (s.refuse n reason) :=
      heq ▸ collects_of_eq rfl rfl fun h => (hfault h).1
    exact books_timed c s.layer.time 0 ((s.refuse n reason).symbolY c.unit e) rect hd hrefuse
      (heq ▸ rfl) (heq ▸ rfl) rfl hn₂

/-- A symbol in a slot that is asked for. -/
theorem collects_assignAt (s : AlignState α) (n : Node α) (key : SlotKey) :
    s.Collects (s.assignAt n key).1 ∧
      (s.assignAt n key).1.ledger = s.ledger.claim n.handle ∧
      ((s.assignAt n key).1.fault = none → s.grids ≠ [] → (s.assignAt n key).1.Has key) := by
  obtain ⟨hassign, hledger⟩ := (s.request key).collects_assign n key
  refine ⟨(s.collects_request key).trans hassign, ?_, fun hfault hs =>
    hassign.has (has_request (hassign.fault hfault) hs)⟩
  rw [assignAt, hledger, request, ledger_updateGrid]

theorem books_enterFullMeasure (c : AlignContext α) (s : AlignState α) (n : Node α) {n₂ : Node α}
    {e : Element} (rect : Option (Rect α)) (ratio : TupletRatio) (he : e.isFullMeasure)
    (hn₂ : (s.enterFullMeasure c n e rect).2.SameSlot n₂) :
    Books c s (s.enterFullMeasure c n e rect).1 [⟨n₂, e, ratio, none⟩] := by
  have hd : e.duration? = none := by cases e <;> first | rfl | cases he
  have hplain : ¬ e.isGrace := by rw [Element.isGrace, hd]; decide
  rw [enterFullMeasure] at hn₂ ⊢
  dsimp only at hn₂ ⊢
  obtain ⟨hrecord, hrecorded⟩ := s.collects_record n s.layer.time
    s.signatures.meter.measureDuration
    (s.symbolY c.unit e) rect
  generalize hr : s.record n s.layer.time s.signatures.meter.measureDuration
    (s.symbolY c.unit e) rect = r
    at hn₂ hrecord hrecorded ⊢
  obtain ⟨hassign, hassigned, hhas⟩ :=
    r.1.collects_assignAt r.2 (.ofKind s.layer.time .fullMeasure)
  obtain ⟨hadvance, hadvanced, hsame⟩ := (r.1.assignAt r.2
    (.ofKind s.layer.time .fullMeasure)).1.collects_advance
      (r.1.assignAt r.2 (.ofKind s.layer.time .fullMeasure)).2 s.signatures.meter.measureDuration
  have hn : n₂.handle = n.handle := hn₂.handle.trans (hsame.handle.trans (hr ▸ rfl))
  have honset : n₂.layout.onset = some s.layer.time := hn₂.onset.trans (hsame.onset.trans (hr ▸ rfl))
  have hslot : n₂.layout.slot = some (.ofKind s.layer.time .fullMeasure) :=
    hn₂.slot.trans hsame.slot
  have hasks := r.1.asks_assignAt r.2 (.ofKind s.layer.time .fullMeasure)
  refine .single (hrecord.trans (hassign.trans hadvance)) ?_ ?_ fun hfault hs _ stop back key hkey =>
    ?_
  · refine (asks_of_grids (hr ▸ rfl)).trans ((hasks.mono fun key hkey => .inr ?_).trans
      (asks_advance _ _ _))
    refine asksFor_of_kind ?_ ?_ hkey (by decide)
    all_goals cases e <;> simp_all [Element.isFullMeasure]
  · rw [hadvanced, hassigned, hrecorded, GraceLedger.step]
    dsimp only
    rw [if_neg hplain, hd, hn, ← hr]
    cases e <;> first | rfl | cases he
  · rw [Symbol.key?] at hkey
    dsimp only at hkey
    rw [if_neg hplain, hd, if_neg (by decide), if_pos he, honset, Option.map_some,
      Option.some.injEq] at hkey
    subst hkey
    exact ⟨hslot, hadvance.has (hhas (hadvance.fault hfault) (hrecord.ne_nil_iff.2 hs))⟩

/-- A symbol that takes no time and groups nothing. -/
theorem books_enterUntimed {c : AlignContext α} {s s₁ : AlignState α} (n : Node α) {n₂ : Node α}
    {e : Element} {kind : SlotKind} (rect : Option (Rect α)) (ratio : TupletRatio)
    (hs₁ : s.Collects s₁) (hgrids : s₁.grids = s.grids) (hledger : s₁.ledger = s.ledger)
    (hkind : kind ≠ .event) (htime : ¬ e.takesTime) (hgroups : ¬ e.isContainer)
    (hn₂ : (s₁.enterUntimed n kind rect).2.SameSlot n₂) :
    Books c s (s₁.enterUntimed n kind rect).1 [⟨n₂, e, ratio, none⟩] := by
  have hd : e.duration? = none := by cases e <;> first | rfl | exact absurd rfl htime
  have hplain : ¬ e.isGrace := by rw [Element.isGrace, hd]; decide
  rw [enterUntimed] at hn₂ ⊢
  dsimp only at hn₂ ⊢
  obtain ⟨hrecord, hrecorded⟩ := s₁.collects_record n s₁.layer.time 0 0 rect
  generalize hr : s₁.record n s₁.layer.time 0 0 rect = r at hn₂ hrecord hrecorded ⊢
  obtain ⟨hassign, hassigned, -⟩ := r.1.collects_assignAt r.2 (.ofKind s₁.layer.time kind)
  have hn : n₂.handle = n.handle := hn₂.handle.trans (hr ▸ rfl)
  have hr' : r.2.handle = n.handle := hr ▸ rfl
  have hasks := r.1.asks_assignAt r.2 (.ofKind s₁.layer.time kind)
  refine .single (hs₁.trans (hrecord.trans hassign)) ?_ ?_ fun _ _ _ stop back key hkey => ?_
  · refine (asks_of_grids ((hr ▸ rfl : r.1.grids = s₁.grids).trans hgrids)).trans
      (hasks.mono fun key hkey => .inr (asksFor_of_kind ?_ ?_ hkey hkind))
    all_goals cases e <;> simp_all [Element.isContainer]
  · rw [hassigned, hrecorded, hledger, GraceLedger.step, hr']
    dsimp only
    rw [if_neg hplain, hd, hn]
    cases e <;> first | rfl | exact absurd rfl htime | exact absurd rfl hgroups
  · rw [Symbol.key?] at hkey
    dsimp only at hkey
    rw [if_neg hplain, hd, if_neg (by decide)] at hkey
    have hfull : ¬ e.isFullMeasure := fun h => by
      cases e <;> first | exact htime rfl | cases h
    rw [if_neg hfull] at hkey
    cases hkey

/-- A beam or a tuplet. -/
theorem books_group {c : AlignContext α} {s s₁ : AlignState α} {n n₂ : Node α} {e : Element}
    {onset : Fraction} (ratio : TupletRatio) (hs₁ : s.Collects s₁) (hgrids : s₁.grids = s.grids)
    (hledger : s₁.ledger = s.ledger) (he : e = .beam ∨ ∃ num base, e = .tuplet num base) :
    Books c s (s₁.record n onset 0 0 none).1 [⟨n₂, e, ratio, none⟩] := by
  obtain ⟨hrecord, hrecorded⟩ := s₁.collects_record n onset 0 0 none
  refine .single (hs₁.trans hrecord) (asks_of_grids hgrids) ?_ fun _ _ _ stop back key hkey => ?_
  · rw [hrecorded, hledger]
    obtain rfl | ⟨num, base, rfl⟩ := he <;> rfl
  · obtain rfl | ⟨num, base, rfl⟩ := he <;> cases hkey

/-- A symbol that is no note of an open chord. -/
theorem books_enterSymbol (c : AlignContext α) (s : AlignState α) (n : Node α) {n₂ : Node α}
    (e : Element) (rect : Option (Rect α)) (ratio : TupletRatio)
    (hn₂ : (s.enterSymbol c n e rect).2.SameSlot n₂) :
    Books c s (s.enterSymbol c n e rect).1 [⟨n₂, e, ratio, none⟩] := by
  -- what follows compares steps that have been opened once
  unfold enterSymbol at hn₂ ⊢
  cases e with
  | note | rest | chord | space =>
    dsimp only at hn₂ ⊢
    exact books_enterTimed c s n rect ratio rfl hn₂
  | measureRest | multiRest =>
    dsimp only at hn₂ ⊢
    exact books_enterFullMeasure c s n rect ratio rfl hn₂
  | clef | key | meter | barLine =>
    dsimp only at hn₂ ⊢
    exact books_enterUntimed n rect ratio (collects_of_eq rfl rfl id) rfl rfl (by decide) nofun nofun
      hn₂
  | beam => exact books_group ratio (.refl s) rfl rfl (.inl rfl)
  | tuplet num base =>
    obtain ⟨refused, fault, heq, -, hfault⟩ := s.enterRatio_eq n num base
    dsimp only
    rw [heq]
    exact books_group ratio (collects_of_eq rfl rfl hfault) rfl rfl (.inr ⟨num, base, rfl⟩)

/-! ### Notes of a chord -/

/-- A note of an open chord. -/
theorem books_enterChordNote (c : AlignContext α) {s : AlignState α} {o : OpenChord} {top : Node α}
    (n : Node α) {n₂ : Node α} (note : Note) (rect : Option (Rect α)) (ratio : TupletRatio)
    (ho : o.IsOf top) (hhas : ∀ key, o.slot = some key → s.Has key)
    (hn₂ : (s.enterChordNote c o n note rect).2.SameSlot n₂) :
    Books c s (s.enterChordNote c o n note rect).1 [⟨n₂, .note note, ratio, some top⟩] := by
  have hslot := ho.slot
  rw [enterChordNote] at hn₂ ⊢
  dsimp only at hn₂ ⊢
  obtain ⟨hrecord, hrecorded⟩ := s.collects_record n o.onset 0
    (s.yOf c.unit (note.location s.layer.clef)) (if o.grace then c.metrics.graceRect rect else rect)
  generalize hr : s.record n o.onset 0 (s.yOf c.unit (note.location s.layer.clef))
    (if o.grace then c.metrics.graceRect rect else rect) = r at hn₂ hrecord hrecorded ⊢
  have hhandle : r.2.handle = n.handle := hr ▸ rfl
  have honset : r.2.layout.onset = some o.onset := hr ▸ rfl
  cases hgrace : o.grace with
  | true =>
    rw [hgrace, if_pos rfl] at hslot
    rw [hslot]
    refine .single hrecord (asks_of_grids (hr ▸ rfl)) ?_ fun _ _ _ stop back key hkey => ?_
    · rw [hrecorded, GraceLedger.step]
      dsimp only
      rw [ho.grace, hgrace, if_pos rfl]
    · rw [Symbol.key?] at hkey
      dsimp only at hkey
      rw [ho.grace, hgrace, if_pos rfl] at hkey
      cases hkey
  | false =>
    rw [hgrace, if_neg (by decide)] at hslot
    rw [hslot] at hn₂ ⊢
    dsimp only at hn₂ ⊢
    obtain ⟨hassign, hassigned⟩ := r.1.collects_assign r.2 (.ofKind o.onset .event)
    refine .single (hrecord.trans hassign) ((asks_of_grids (hr ▸ rfl)).trans (asks_assign _ _ _)) ?_
      fun _ _ _ stop back key hkey => ?_
    · rw [hassigned, hrecorded, GraceLedger.step]
      dsimp only
      rw [ho.grace, hgrace, if_neg (by decide), hhandle, hn₂.handle]
      exact congrArg s.ledger.claim hhandle.symm
    · rw [Symbol.key?] at hkey
      dsimp only at hkey
      rw [ho.grace, hgrace, if_neg (by decide), hn₂.onset] at hkey
      obtain rfl : SlotKey.ofKind o.onset .event = key := by
        have := honset ▸ hkey
        exact Option.some.inj this
      exact ⟨hn₂.slot, (hrecord.trans hassign).has (hhas _ hslot)⟩

/-- The chord that is open behind a chord that has been entered. -/
theorem chord_enterTimed (c : AlignContext α) (s : AlignState α) (n : Node α)
    {d : Duration} (rect : Option (Rect α)) :
    ∃ o, (s.enterTimed c n (.chord d) d rect).1.layer.chord = some o ∧ o.handle = n.handle ∧
      o.onset = s.layer.time ∧ o.grace = (Element.chord d).isGrace ∧
      o.slot = if o.grace then none else some (.ofKind o.onset .event) := by
  have hdrawn (time : Fraction) {s₁ : AlignState α} {y : α}
      {r : AlignState α × Node α × Option SlotKey}
      (hr : s₁.drawTimed c n (Element.chord d).isGrace s.layer.time time y rect = r) :
      ∃ o, ((r.1.openChord r.2.1 (.chord d) s.layer.time r.2.2).advance r.2.1 time).1.layer.chord =
          some o ∧ o.handle = n.handle ∧ o.onset = s.layer.time ∧
        o.grace = (Element.chord d).isGrace ∧
        o.slot = if o.grace then none else some (.ofKind o.onset .event) := by
    obtain ⟨-, -, hhandle, hslot, -⟩ := collects_drawTimed c s₁ n _ s.layer.time time y rect hr
    obtain ⟨reached, longest, refused, fault, n', heq, -⟩ :=
      (r.1.openChord r.2.1 (.chord d) s.layer.time r.2.2).advance_eq r.2.1 time
    rw [heq]
    exact ⟨_, rfl, hhandle, rfl, rfl, hslot⟩
  unfold enterTimed
  cases d.advance s.layer.tuplet with
  | ok time => exact hdrawn time rfl
  | error reason => exact hdrawn 0 rfl

end AlignState

end ScoreLayout
