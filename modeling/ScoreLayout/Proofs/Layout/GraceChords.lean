import ScoreLayout.Proofs.Layout.LayerSlots

/-!
# What the books on grace notes name

The books name timed symbols only: grace notes, and the notes of grace chords. A grace chord and its
notes wait together, so that the same slot is found for all of them.

## Main definitions

* `GraceLedger.Kept` — a property of the books that no entry disturbs.
* `GraceLedger.Within` — books that name no handles but some.
* `GraceLedger.Coupled` — books in which two handles share what is found.

## Main results

* `AlignState.kept_enterSymbol` — entering a symbol keeps such a property.
-/

namespace ScoreLayout

variable {α : Type}

namespace GraceLedger

variable {I : GraceLedger → Prop} {claims : Handle → Prop} {waits : List Handle → Prop}
  {L : GraceLedger}

/-- A property of the books that no entry disturbs, where symbols that get a slot at once, and grace
notes with what stands below them, satisfy some conditions. -/
structure Kept (I : GraceLedger → Prop) (claims : Handle → Prop) (waits : List Handle → Prop) :
    Prop where
  flush : ∀ {L}, I L → ∀ onset, I (L.flush onset)
  claim : ∀ {L}, I L → ∀ {h}, claims h → I (L.claim h)
  wait : ∀ {L}, I L → ∀ {g}, waits g → I (L.wait g)

/-- A symbol keeps such a property. -/
theorem Kept.step (hI : Kept I claims waits) (hL : I L) {below : Handle → List Handle}
    {x : Symbol α} (hclaim : ¬ x.IsGrace → claims x.node.handle)
    (hwait : x.IsGrace → waits (x.node.handle :: below x.node.handle)) : I (L.step below x) := by
  by_cases hgrace : x.IsGrace
  · rw [step_of_isGrace hgrace]
    exact hI.wait hL (hwait hgrace)
  · by_cases hprincipal : x.IsPrincipal
    · rw [step_of_isPrincipal hprincipal]
      exact hI.claim (hI.flush hL _) (hclaim hgrace)
    · rcases step_of_not below L hgrace hprincipal with heq | heq
      · rw [heq]
        exact hL
      · rw [heq]
        exact hI.claim hL (hclaim hgrace)

/-! ### Handles that are named -/

/-- Books that name no handles but some. -/
structure Within (T : Handle → Prop) (L : GraceLedger) : Prop where
  waiting : ∀ g ∈ L.waiting, ∀ h ∈ g, T h
  found : ∀ e ∈ L.found, T e.1

variable {T : Handle → Prop}

theorem Within.place (hL : L.Within T) (key : SlotKey) {g : List Handle} (hg : ∀ h ∈ g, T h) :
    (L.place key g).Within T := by
  refine ⟨hL.waiting, ?_⟩
  rw [GraceLedger.place]
  dsimp only
  have hfound := hL.found
  generalize L.found = found at hfound
  induction g generalizing found with
  | nil => exact hfound
  | cons h g ih =>
    rw [List.forall_mem_cons] at hg
    exact ih hg.2 _ (List.forall_mem_cons.2 ⟨hg.1, hfound⟩)

theorem Within.placeAll (hL : L.Within T) (onset : Fraction) {groups : List (List Handle)}
    (hg : ∀ g ∈ groups, ∀ h ∈ g, T h) : (L.placeAll onset groups).Within T := by
  induction groups generalizing L with
  | nil => exact hL
  | cons g rest ih =>
    rw [List.forall_mem_cons] at hg
    exact ih (hL.place _ hg.1) hg.2

theorem kept_within (T : Handle → Prop) :
    Kept (Within T) (fun _ => True) (fun g => ∀ h ∈ g, T h) where
  flush {L} hL onset := Within.placeAll (L := { L with waiting := [] }) ⟨nofun, hL.found⟩ onset
    hL.waiting
  claim hL _ _ := ⟨hL.waiting, fun e he => hL.found e (List.mem_of_mem_filter he)⟩
  wait hL _ hg := by
    refine ⟨fun g hmem => ?_, hL.found⟩
    rw [GraceLedger.wait, List.mem_append, List.mem_singleton] at hmem
    rcases hmem with hmem | rfl
    · exact hL.waiting g hmem
    · exact hg

/-- Nothing is found for a handle that the books do not name. -/
theorem Within.lookup_eq_none (hL : L.Within T) {h : Handle} (hh : ¬ T h) :
    L.found.lookup h = none := by
  rw [List.lookup_eq_none_iff]
  intro e he
  rw [bne_iff_ne]
  rintro rfl
  exact hh (hL.found e he)

/-! ### Handles that wait together -/

/-- Books in which two handles wait together and share what is found. -/
structure Coupled (p q : Handle) (L : GraceLedger) : Prop where
  waiting : ∀ g ∈ L.waiting, p ∈ g ↔ q ∈ g
  found : L.found.lookup q = L.found.lookup p

variable {p q : Handle}

theorem Coupled.placeAll (hL : L.Coupled p q) (onset : Fraction) {groups : List (List Handle)}
    (hg : ∀ g ∈ groups, p ∈ g ↔ q ∈ g) : (L.placeAll onset groups).Coupled p q := by
  induction groups generalizing L with
  | nil => exact hL
  | cons g rest ih =>
    rw [List.forall_mem_cons] at hg
    refine ih ⟨hL.waiting, ?_⟩ hg.2
    rw [lookup_place, lookup_place, hL.found]
    simp only [hg.1]

theorem kept_coupled (p q : Handle) :
    Kept (Coupled p q) (fun h => h ≠ p ∧ h ≠ q) (fun g => p ∈ g ↔ q ∈ g) where
  flush {L} hL onset := Coupled.placeAll (L := { L with waiting := [] }) ⟨nofun, hL.found⟩ onset
    hL.waiting
  claim hL h hne := by
    refine ⟨hL.waiting, ?_⟩
    rw [lookup_claim hne.2.symm, lookup_claim hne.1.symm]
    exact hL.found
  wait hL g hg := by
    refine ⟨fun g' hmem => ?_, hL.found⟩
    rw [GraceLedger.wait, List.mem_append, List.mem_singleton] at hmem
    rcases hmem with hmem | rfl
    · exact hL.waiting g' hmem
    · exact hg

end GraceLedger

/-! ### What alignment keeps of the books -/

variable [Scalar α]

namespace AlignState

variable {c : AlignContext α} {s : AlignState α} {n : Node α} {e : Element}
  {I : GraceLedger → Prop} {claims : Handle → Prop} {waits : List Handle → Prop}

/-- Entering a symbol that is no note of an open chord. -/
theorem kept_enterSymbol (hI : GraceLedger.Kept I claims waits) (hs : I s.ledger)
    (rect : Option (Rect α)) (hclaim : ¬ e.isGrace → claims n.handle)
    (hwait : e.isGrace → waits (n.handle :: c.symbolsBelow n.handle)) :
    I (s.enterSymbol c n e rect).1.ledger := by
  have hhandle := (writes_enterSymbol c s n e rect).handle
  rw [(books_enterSymbol c s n e rect .one ⟨rfl, rfl, rfl⟩).ledger, List.foldl_cons, List.foldl_nil]
  refine hI.step hs (fun hgrace => ?_) fun hgrace => ?_
  · exact hhandle ▸ hclaim fun h => hgrace ⟨rfl, h⟩
  · exact hhandle ▸ hwait hgrace.2

/-- Entering a note of an open chord. -/
theorem kept_enterChordNote (hI : GraceLedger.Kept I claims waits) (hs : I s.ledger)
    (c : AlignContext α) (o : OpenChord) (note : Note) (rect : Option (Rect α))
    (hclaim : o.slot.isSome → claims n.handle) : I (s.enterChordNote c o n note rect).1.ledger := by
  rw [enterChordNote]
  dsimp only
  obtain ⟨-, hrecorded⟩ := s.collects_record n o.onset 0
    (s.yOf c.unit (note.location s.layer.clef)) (if o.grace then c.metrics.graceRect rect else rect)
  generalize hr : s.record n o.onset 0 (s.yOf c.unit (note.location s.layer.clef))
    (if o.grace then c.metrics.graceRect rect else rect) = r at hrecorded ⊢
  have hhandle : r.2.handle = n.handle := hr ▸ rfl
  cases hslot : o.slot with
  | none =>
    dsimp only
    rw [hrecorded]
    exact hs
  | some key =>
    dsimp only
    rw [(r.1.collects_assign r.2 key).2, hrecorded, hhandle]
    exact hI.claim hs (hclaim (hslot ▸ rfl))

/-- Entering a symbol that may get a slot at once, be it a note of an open chord or not. -/
theorem kept_enterElement (hI : GraceLedger.Kept I claims waits) (hs : I s.ledger)
    (above : Option (Node α)) (hclaim : claims n.handle)
    (hwait : e.isGrace → waits (n.handle :: c.symbolsBelow n.handle)) :
    I (s.enterElement c above n e).1.ledger := by
  unfold enterElement
  dsimp only
  split
  · split_ifs
    · exact kept_enterChordNote hI hs c _ _ _ fun _ => hclaim
    · exact kept_enterSymbol hI hs _ (fun _ => hclaim) hwait
  · exact kept_enterSymbol hI hs _ (fun _ => hclaim) hwait

/-- The end of a layer. -/
theorem kept_leaveLayer (hI : GraceLedger.Kept I claims waits) (hs : I s.ledger) :
    I s.leaveLayer.ledger := by
  rw [leaveLayer]
  split_ifs
  · rw [ledger_updateGrid, (s.collects_flushGraces s.layer.time).2]
    exact hI.flush hs _
  · exact hs

end AlignState

end ScoreLayout
