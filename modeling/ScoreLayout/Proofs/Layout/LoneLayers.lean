import ScoreLayout.Proofs.Grid.Alike
import ScoreLayout.Proofs.Layout.SymbolSlots
import ScoreLayout.Proofs.Layout.TwinGrids
import ScoreLayout.Proofs.StaffLocations

/-!
# Layers on their own

Alignment walks the layers of a measure one after another with one state, but nothing that times a
symbol leaks from one layer into the next: a layer asks for the same slots, and records the same times
on its symbols, as it does on its own. Clefs, staves and what has been drawn before only say where a
symbol is drawn.

## Main definitions

* `Node.Synced` — two states of one node with one timing.
* `AlignState.Synced` — two states of the walk that go on with one timing.
* `Voice.walk` — a layer that is walked on its own.

## Main results

* `AlignState.Synced.enterElement`, `AlignState.Synced.leaveElement` — two walks at one symbol.
* `AlignState.synced_layer` — a layer of a measure is walked as it is on its own.
-/

namespace ScoreLayout

variable {α : Type}

/-- Two states of one node with one timing. -/
structure Node.Synced (n n' : Node α) : Prop where
  handle : n'.handle = n.handle
  kind : n'.kind = n.kind
  onset : n'.layout.onset = n.layout.onset
  duration : n'.layout.duration = n.layout.duration
  slot : n'.layout.slot = n.layout.slot
  ties : n'.layout.ties = n.layout.ties

theorem Node.Synced.refl (n : Node α) : n.Synced n := ⟨rfl, rfl, rfl, rfl, rfl, rfl⟩

theorem Node.Synced.symm {n n' : Node α} (h : n.Synced n') : n'.Synced n :=
  ⟨h.handle.symm, h.kind.symm, h.onset.symm, h.duration.symm, h.slot.symm, h.ties.symm⟩

theorem Node.Synced.trans {n₁ n₂ n₃ : Node α} (h : n₁.Synced n₂) (h' : n₂.Synced n₃) :
    n₁.Synced n₃ :=
  ⟨h'.handle.trans h.handle, h'.kind.trans h.kind, h'.onset.trans h.onset,
    h'.duration.trans h.duration, h'.slot.trans h.slot, h'.ties.trans h.ties⟩

/-- The handles of a waiting grace note and of the symbols below it. -/
abbrev PendingGrace.handles (g : PendingGrace α) : List Handle := g.map Drawn.handle

variable [Scalar α]

/-- A relation between time grids that asking both for a slot keeps, and that drawing does not
touch. -/
structure Slotwise (G : MeasureGrid α → MeasureGrid α → Prop) : Prop where
  slot : ∀ {g g'}, G g g' → ∀ key, ∃ a a', g.slot key = .ok a ∧ g'.slot key = .ok a' ∧ G a a'
  left : ∀ {g g'}, G g g' → ∀ key staff rect, G (g.addFootprint key staff rect) g'
  right : ∀ {g g'}, G g g' → ∀ key staff rect, G g (g'.addFootprint key staff rect)

namespace AlignState

omit [Scalar α] in
/-- A container that has no time of its own gets the time that has passed in it. -/
theorem snd_leaveElement (s : AlignState α) (n : Node α) (e : Element) :
    (s.leaveElement n e).2 =
      if e.isContainer ∧ n.layout.onset.getD 0 < s.layer.time ∧ n.layout.duration.Same 0 then
        n.mapLayout fun l =>
          { l with duration := (s.layer.time.sub? (n.layout.onset.getD 0)).getD 0 }
      else n := by
  unfold leaveElement
  cases e with
  | chord =>
    dsimp only
    by_cases hopen : s.layer.chord.map OpenChord.handle = some n.handle
    · rw [if_pos hopen]
    · rw [if_neg hopen]
  | _ => rfl

/-- Two states that go on with one timing: their layers have come to one time, inside the same
tuplets and the same chord, on a staff of the same lines, and the same grace notes wait. Of the
handles in `H` the books say the same. -/
structure Synced (G : MeasureGrid α → MeasureGrid α → Prop) (H : Handle → Prop) (lines : UInt8)
    (s t : AlignState α) : Prop where
  meter : t.signatures.meter = s.signatures.meter
  collecting : t.collecting = s.collecting
  ruled : s.lines = lines ∧ t.lines = lines
  time : t.layer.time = s.layer.time
  tuplets : t.layer.tuplets = s.layer.tuplets
  chord : t.layer.chord = s.layer.chord
  graces : t.layer.graces.map PendingGrace.handles = s.layer.graces.map PendingGrace.handles
  grids : List.Forall₂ G s.grids t.grids
  found : ∀ h, H h → t.graceSlots.lookup h = s.graceSlots.lookup h
  fault : t.fault = s.fault

namespace Synced

variable {G : MeasureGrid α → MeasureGrid α → Prop} {H : Handle → Prop} {lines : UInt8}
  {s t : AlignState α} {n n' : Node α} {c c' : AlignContext α}

section Fields

variable (h : Synced G H lines s t)

include h

omit [Scalar α]

theorem tuplet : t.layer.tuplet = s.layer.tuplet := by
  rw [LayerCursor.tuplet, h.tuplets, LayerCursor.tuplet]

theorem markDuration (n n' : Node α) (reason reason' : String) :
    Synced G H lines (s.markDuration n reason) (t.markDuration n' reason') :=
  ⟨h.meter, h.collecting, h.ruled, h.time, h.tuplets, h.chord, h.graces, h.grids, h.found, h.fault⟩

theorem refuse (n n' : Node α) (reason : DurationError) :
    Synced G H lines (s.refuse n reason) (t.refuse n' reason) := by
  rw [AlignState.refuse, AlignState.refuse]
  split
  · exact h.markDuration n n' ..
  · exact ⟨h.meter, h.collecting, h.ruled, h.time, h.tuplets, h.chord, h.graces, h.grids,
      h.found, rfl⟩

theorem advance (hn : n.Synced n') (time : Fraction) :
    Synced G H lines (s.advance n time).1 (t.advance n' time).1 ∧
      (s.advance n time).2.Synced (t.advance n' time).2 := by
  rw [AlignState.advance, AlignState.advance, h.time]
  split
  · exact ⟨⟨h.meter, h.collecting, h.ruled, rfl, h.tuplets, h.chord, h.graces, h.grids, h.found,
      h.fault⟩, hn⟩
  · exact ⟨h.refuse n n' _, hn.handle, hn.kind, hn.onset, rfl, hn.slot, hn.ties⟩

theorem enterRatio (n n' : Node α) (num base : UInt32) :
    Synced G H lines (s.enterRatio n num base).1 (t.enterRatio n' num base).1 ∧
      (t.enterRatio n' num base).2 = (s.enterRatio n num base).2 := by
  dsimp only [AlignState.enterRatio]
  rw [h.tuplet]
  split_ifs
  · exact ⟨h.markDuration n n' .., rfl⟩
  · split
    · exact ⟨h, rfl⟩
    · exact ⟨h.refuse n n' _, rfl⟩

theorem withChord (chord : Option OpenChord) : Synced G H lines
    { s with layer := { s.layer with chord } } { t with layer := { t.layer with chord } } :=
  ⟨h.meter, h.collecting, h.ruled, h.time, h.tuplets, rfl, h.graces, h.grids, h.found, h.fault⟩

theorem withTuplets (tuplets : List TupletRatio) : Synced G H lines
    { s with layer := { s.layer with tuplets } } { t with layer := { t.layer with tuplets } } :=
  ⟨h.meter, h.collecting, h.ruled, h.time, rfl, h.chord, h.graces, h.grids, h.found, h.fault⟩

theorem openChord (hn : n'.handle = n.handle) (e : Element) (onset : Fraction)
    (slot : Option SlotKey) :
    Synced G H lines (s.openChord n e onset slot) (t.openChord n' e onset slot) := by
  unfold AlignState.openChord
  split
  · rw [hn]
    exact h.withChord _
  · exact h

theorem withClef (clef clef' : Clef) : Synced G H lines
    { s with layer := { s.layer with clef } } { t with layer := { t.layer with clef := clef' } } :=
  ⟨h.meter, h.collecting, h.ruled, h.time, h.tuplets, h.chord, h.graces, h.grids, h.found, h.fault⟩

theorem withSignatures {signatures signatures' : Signatures}
    (hmeter : signatures'.meter = signatures.meter) :
    Synced G H lines { s with signatures } { t with signatures := signatures' } :=
  ⟨hmeter, h.collecting, h.ruled, h.time, h.tuplets, h.chord, h.graces, h.grids, h.found, h.fault⟩

/-- A location is in reach of both walks, or of none. -/
theorem reach (e : Element) : Synced G H lines (s.reach e) (t.reach e) := by
  have hlines : s.lines = t.lines := h.ruled.1.trans h.ruled.2.symm
  rw [s.reach_eq, t.reach_eq, ← hlines]
  split_ifs
  · exact h
  · exact ⟨h.meter, h.collecting, ⟨h.ruled.1, hlines ▸ h.ruled.1⟩, h.time, h.tuplets, h.chord,
      h.graces, h.grids, h.found, rfl⟩

/-- The end of a symbol. -/
theorem leaveElement (hn : n.Synced n') (e : Element) :
    Synced G H lines (s.leaveElement n e).1 (t.leaveElement n' e).1 ∧
      (s.leaveElement n e).2.Synced (t.leaveElement n' e).2 := by
  constructor
  · unfold AlignState.leaveElement
    cases e with
    | chord =>
      dsimp only
      rw [h.chord, hn.handle]
      split_ifs
      · exact h.withChord none
      · exact h
    | tuplet =>
      dsimp only
      rw [h.tuplets]
      exact h.withTuplets _
    | _ => exact h
  · rw [snd_leaveElement, snd_leaveElement, h.time, hn.onset, hn.duration]
    split_ifs
    · exact ⟨hn.handle, hn.kind, hn.onset, rfl, hn.slot, hn.ties⟩
    · exact hn

end Fields

theorem record (h : Synced G H lines s t) (n : Node α) {onset onset' : Fraction}
    (honset : onset' = onset) (advance : Fraction) (y y' : α) (rect rect' : Option (Rect α)) :
    Synced G H lines (s.record n onset advance y rect).1 (t.record n onset' advance y' rect').1 ∧
      (s.record n onset advance y rect).2.Synced (t.record n onset' advance y' rect').2 := by
  subst honset
  have hredraw (u : Drawn α → Drawn α) (hu : ∀ d, (u d).handle = d.handle)
      (graces : List (PendingGrace α)) : (graces.map fun g => g.map u).map PendingGrace.handles =
        graces.map PendingGrace.handles := by
    rw [List.map_map]
    refine List.map_congr_left fun g _ => ?_
    rw [Function.comp, PendingGrace.handles, List.map_map]
    exact List.map_congr_left fun d _ => hu d
  refine ⟨⟨h.meter, h.collecting, h.ruled, h.time, h.tuplets, h.chord, ?_, h.grids, h.found,
    h.fault⟩, ⟨rfl, rfl, rfl, rfl, rfl, rfl⟩⟩
  dsimp only [AlignState.record]
  rw [hredraw _ fun d => ?_, hredraw _ fun d => ?_]
  · exact h.graces
  all_goals
    split_ifs with heq
    · exact heq.symm
    · rfl

/-! ### Slots -/

section Slots

omit [Scalar α] in
theorem updateGrid {f f' : MeasureGrid α → Except GridFault (MeasureGrid α)}
    (h : Synced G H lines s t) (hf : ∀ g g', G g g' → ∃ a a', f g = .ok a ∧ f' g' = .ok a' ∧ G a a') :
    Synced G H lines (s.updateGrid f) (t.updateGrid f') := by
  rw [AlignState.updateGrid, AlignState.updateGrid]
  have hgrids := h.grids
  cases hs : s.grids with
  | nil =>
    rw [hs, List.forall₂_nil_left_iff] at hgrids
    rw [hgrids]
    exact h
  | cons g outer =>
    rw [hs] at hgrids
    obtain ⟨g', outer', hg, houter, ht⟩ := List.forall₂_cons_left_iff.1 hgrids
    obtain ⟨a, a', ha, ha', hstep⟩ := hf g g' hg
    rw [ht]
    dsimp only
    rw [ha, ha']
    exact ⟨h.meter, h.collecting, h.ruled, h.time, h.tuplets, h.chord, h.graces, .cons hstep houter,
      h.found, h.fault⟩

variable (hG : Slotwise G) (h : Synced G H lines s t)

include hG h

theorem request (key : SlotKey) : Synced G H lines (s.request key) (t.request key) :=
  h.updateGrid fun _ _ hg => hG.slot hg key

theorem draw (key : SlotKey) (rect rect' : Option (Rect α)) :
    Synced G H lines (s.draw key rect) (t.draw key rect') := by
  have hok (s : AlignState α) : (s.updateGrid fun g => .ok g) = s := by
    rw [AlignState.updateGrid]
    split
    · rename_i hgrids
      dsimp only
      rw [← hgrids]
    · rfl
  have hleft : Synced G H lines (s.draw key rect) t := by
    cases rect with
    | none => exact h
    | some r =>
      rw [← hok t]
      exact h.updateGrid fun g g' hg => ⟨_, _, rfl, rfl, hG.left hg key s.staff r⟩
  cases rect' with
  | none => exact hleft
  | some r =>
    rw [← hok (s.draw key rect)]
    exact hleft.updateGrid fun g g' hg => ⟨_, _, rfl, rfl, hG.right hg key t.staff r⟩

theorem placeGrace (onset : Fraction) (rank : Nat) {g g' : PendingGrace α}
    (hg : g'.handles = g.handles) :
    Synced G H lines (s.placeGrace onset rank g) (t.placeGrace onset rank g') := by
  rw [AlignState.placeGrace, AlignState.placeGrace]
  have hs := h.request hG (.ofGrace onset rank)
  generalize s.request (.ofGrace onset rank) = s at hs
  generalize t.request (.ofGrace onset rank) = t at hs
  induction g generalizing s t g' with
  | nil =>
    obtain rfl := List.map_eq_nil_iff.1 hg
    exact hs
  | cons d g ih =>
    obtain ⟨d', g', rfl, hd, hg⟩ := List.map_eq_cons_iff.1 hg
    rw [List.foldl_cons, List.foldl_cons]
    have hdrawn := hs.draw hG (.ofGrace onset rank) d.rect d'.rect
    refine ih hg _ _ ⟨hdrawn.meter, hdrawn.collecting, hdrawn.ruled, hdrawn.time, hdrawn.tuplets,
      hdrawn.chord, hdrawn.graces, hdrawn.grids, fun k hk => ?_, hdrawn.fault⟩
    dsimp only
    rw [List.lookup_cons, List.lookup_cons, hd, hs.found k hk]

theorem placeGraces (onset : Fraction) {graces graces' : List (PendingGrace α)}
    (hgraces : graces'.map PendingGrace.handles = graces.map PendingGrace.handles) :
    Synced G H lines (s.placeGraces onset graces) (t.placeGraces onset graces') := by
  induction graces generalizing s t graces' with
  | nil =>
    obtain rfl := List.map_eq_nil_iff.1 hgraces
    exact h
  | cons g rest ih =>
    obtain ⟨g', rest', rfl, hg, hrest⟩ := List.map_eq_cons_iff.1 hgraces
    have hlength := congrArg List.length hrest
    rw [List.length_map, List.length_map] at hlength
    rw [AlignState.placeGraces, AlignState.placeGraces, hlength]
    exact ih (h.placeGrace hG onset _ hg) hrest

theorem flushGraces (onset : Fraction) :
    Synced G H lines (s.flushGraces onset) (t.flushGraces onset) :=
  placeGraces hG (s := { s with layer := { s.layer with graces := [] } })
    (t := { t with layer := { t.layer with graces := [] } })
    ⟨h.meter, h.collecting, h.ruled, h.time, h.tuplets, h.chord, rfl, h.grids, h.found, h.fault⟩
    onset h.graces

theorem assign (hn : n.Synced n') (key : SlotKey) :
    Synced G H lines (s.assign n key).1 (t.assign n' key).1 ∧
      (s.assign n key).2.Synced (t.assign n' key).2 := by
  have hdrawn := h.draw hG key (drawn n).rect (drawn n').rect
  refine ⟨⟨hdrawn.meter, hdrawn.collecting, hdrawn.ruled, hdrawn.time, hdrawn.tuplets, hdrawn.chord,
    hdrawn.graces, hdrawn.grids, fun k hk => ?_, hdrawn.fault⟩,
    ⟨hn.handle, hn.kind, hn.onset, hn.duration, rfl, hn.ties⟩⟩
  dsimp only [AlignState.assign]
  rw [hn.handle]
  by_cases hkey : k = n.handle
  · subst hkey
    exact (GraceLedger.Apart.lookup_claim_self ⟨[], _⟩ n.handle).trans
      (GraceLedger.Apart.lookup_claim_self ⟨[], _⟩ n.handle).symm
  · exact (GraceLedger.lookup_claim (L := ⟨[], _⟩) hkey).trans
      ((hdrawn.found k hk).trans (GraceLedger.lookup_claim (L := ⟨[], _⟩) hkey).symm)

theorem assignAt (hn : n.Synced n') (key : SlotKey) :
    Synced G H lines (s.assignAt n key).1 (t.assignAt n' key).1 ∧
      (s.assignAt n key).2.Synced (t.assignAt n' key).2 :=
  (h.request hG key).assign hG hn key

/-! ### Symbols -/

theorem drawTimed (hbelow : c'.symbolsBelow n.handle = c.symbolsBelow n.handle) (grace : Bool)
    (onset time : Fraction) (y y' : α) (rect rect' : Option (Rect α)) :
    Synced G H lines (s.drawTimed c n grace onset time y rect).1
        (t.drawTimed c' n grace onset time y' rect').1 ∧
      (s.drawTimed c n grace onset time y rect).2.1.Synced
        (t.drawTimed c' n grace onset time y' rect').2.1 ∧
      (t.drawTimed c' n grace onset time y' rect').2.2 =
        (s.drawTimed c n grace onset time y rect).2.2 := by
  obtain ⟨hs, hn⟩ := h.record n rfl time y y' (if grace then c.metrics.graceRect rect else rect)
    (if grace then c'.metrics.graceRect rect' else rect')
  unfold AlignState.drawTimed
  dsimp only
  cases grace with
  | true =>
    have hpending (c : AlignContext α) (m : Node α) :
        PendingGrace.handles (pendingGrace c m) = m.handle :: c.symbolsBelow m.handle := by
      rw [PendingGrace.handles, pendingGrace, List.map_cons, List.map_map]
      rfl
    refine ⟨⟨hs.meter, hs.collecting, hs.ruled, hs.time, hs.tuplets, hs.chord, ?_, hs.grids,
      hs.found, hs.fault⟩, hn, rfl⟩
    simp only [↓reduceIte] at hs ⊢
    rw [List.map_append, List.map_append, hs.graces, List.map_singleton, List.map_singleton,
      hpending, hpending]
    exact congrArg (fun below => _ ++ [n.handle :: below]) hbelow
  | false =>
    obtain ⟨hs₁, hn₁⟩ :=
      ((hs.request hG (.ofKind onset .event)).flushGraces hG onset).assign hG hn
        (.ofKind onset .event)
    exact ⟨hs₁, hn₁, rfl⟩

/-- A timed symbol whose duration has been looked at. -/
theorem timed (hbelow : c'.symbolsBelow n.handle = c.symbolsBelow n.handle) (e : Element)
    (onset time : Fraction) (y y' : α) (rect rect' : Option (Rect α))
    {r r' : AlignState α × Node α × Option SlotKey}
    (hr : s.drawTimed c n e.isGrace onset time y rect = r)
    (hr' : t.drawTimed c' n e.isGrace onset time y' rect' = r') :
    Synced G H lines ((r.1.openChord r.2.1 e onset r.2.2).advance r.2.1 time).1
        ((r'.1.openChord r'.2.1 e onset r'.2.2).advance r'.2.1 time).1 ∧
      ((r.1.openChord r.2.1 e onset r.2.2).advance r.2.1 time).2.Synced
        ((r'.1.openChord r'.2.1 e onset r'.2.2).advance r'.2.1 time).2 := by
  obtain ⟨hs, hn, hslot⟩ := h.drawTimed hG hbelow e.isGrace onset time y y' rect rect'
  rw [hr, hr'] at hs hn hslot
  rw [hslot]
  exact (hs.openChord hn.handle e onset r.2.2).advance hn time

theorem enterTimed (hbelow : c'.symbolsBelow n.handle = c.symbolsBelow n.handle) (e : Element)
    (d : Duration) (rect rect' : Option (Rect α)) :
    Synced G H lines (s.enterTimed c n e d rect).1 (t.enterTimed c' n e d rect').1 ∧
      (s.enterTimed c n e d rect).2.Synced (t.enterTimed c' n e d rect').2 := by
  unfold AlignState.enterTimed
  rw [h.time, h.tuplet]
  cases d.advance s.layer.tuplet with
  | ok time =>
    exact h.timed hG hbelow e s.layer.time time (s.symbolY c.unit e) (t.symbolY c'.unit e) rect rect'
      rfl rfl
  | error reason =>
    exact (h.refuse n n reason).timed hG hbelow e s.layer.time 0
      ((s.refuse n reason).symbolY c.unit e) ((t.refuse n reason).symbolY c'.unit e) rect rect'
      rfl rfl

theorem enterFullMeasure (n : Node α) (e : Element) (rect rect' : Option (Rect α)) :
    Synced G H lines (s.enterFullMeasure c n e rect).1 (t.enterFullMeasure c' n e rect').1 ∧
      (s.enterFullMeasure c n e rect).2.Synced (t.enterFullMeasure c' n e rect').2 := by
  unfold AlignState.enterFullMeasure
  dsimp only
  rw [h.time, h.meter]
  obtain ⟨hs, hn⟩ := h.record n rfl s.signatures.meter.measureDuration (s.symbolY c.unit e)
    (t.symbolY c'.unit e) rect rect'
  obtain ⟨hs', hn'⟩ := hs.assignAt hG hn (.ofKind s.layer.time .fullMeasure)
  exact hs'.advance hn' _

theorem enterUntimed (n : Node α) (kind : SlotKind) (rect rect' : Option (Rect α)) :
    Synced G H lines (s.enterUntimed n kind rect).1 (t.enterUntimed n kind rect').1 ∧
      (s.enterUntimed n kind rect).2.Synced (t.enterUntimed n kind rect').2 := by
  unfold AlignState.enterUntimed
  dsimp only
  rw [h.time]
  obtain ⟨hs, hn⟩ := h.record n (rfl : s.layer.time = _) 0 0 0 rect rect'
  exact hs.assignAt hG hn _

/-- A symbol that is no note of an open chord. -/
theorem enterSymbol (hbelow : c'.symbolsBelow n.handle = c.symbolsBelow n.handle) (e : Element)
    (rect rect' : Option (Rect α)) :
    Synced G H lines (s.enterSymbol c n e rect).1 (t.enterSymbol c' n e rect').1 ∧
      (s.enterSymbol c n e rect).2.Synced (t.enterSymbol c' n e rect').2 := by
  cases e with
  | note | rest | chord | space =>
    rw [AlignState.enterSymbol, AlignState.enterSymbol]
    exact h.enterTimed hG hbelow _ _ rect rect'
  | measureRest | multiRest =>
    rw [AlignState.enterSymbol, AlignState.enterSymbol]
    exact h.enterFullMeasure hG n _ rect rect'
  | clef clef =>
    exact ((h.withClef clef clef).withSignatures (by
      rw [Signatures.meter_setClef, Signatures.meter_setClef]
      exact h.meter)).enterUntimed hG n .clef rect rect'
  | key key =>
    have hmeter : (t.signatures.apply ⟨none, some key, none⟩).meter =
        (s.signatures.apply ⟨none, some key, none⟩).meter := h.meter
    exact (h.withSignatures hmeter).enterUntimed hG n .key rect rect'
  | meter meter =>
    have hmeter : (t.signatures.apply ⟨none, none, some meter⟩).meter =
        (s.signatures.apply ⟨none, none, some meter⟩).meter := rfl
    exact (h.withSignatures hmeter).enterUntimed hG n .meter rect rect'
  | barLine form => exact h.enterUntimed hG n .barLine rect rect'
  | beam =>
    rw [AlignState.enterSymbol, AlignState.enterSymbol]
    exact h.record n h.time 0 0 0 none none
  | tuplet num base =>
    obtain ⟨hs, hratio⟩ := h.enterRatio n n num base
    unfold AlignState.enterSymbol
    dsimp only
    rw [hratio, hs.tuplets]
    exact (hs.withTuplets _).record n hs.time 0 0 0 none none

theorem enterChordNote (chord : OpenChord) (n : Node α) (note : Note)
    (rect rect' : Option (Rect α)) :
    Synced G H lines (s.enterChordNote c chord n note rect).1
        (t.enterChordNote c' chord n note rect').1 ∧
      (s.enterChordNote c chord n note rect).2.Synced
        (t.enterChordNote c' chord n note rect').2 := by
  obtain ⟨hs, hn⟩ := h.record n (rfl : chord.onset = _) 0 (s.yOf c.unit (note.location s.layer.clef))
    (t.yOf c'.unit (note.location t.layer.clef))
    (if chord.grace then c.metrics.graceRect rect else rect)
    (if chord.grace then c'.metrics.graceRect rect' else rect')
  unfold AlignState.enterChordNote
  dsimp only
  cases chord.slot with
  | some key => exact hs.assign hG hn key
  | none => exact ⟨hs, hn⟩

/-- A symbol inside a measure. It looks at the handle of what it stands in. -/
theorem enterElement {parent parent' : Option (Node α)}
    (hparent : parent'.map Node.handle = parent.map Node.handle)
    (hbelow : c'.symbolsBelow n.handle = c.symbolsBelow n.handle) (e : Element) :
    Synced G H lines (s.enterElement c parent n e).1 (t.enterElement c' parent' n e).1 ∧
      (s.enterElement c parent n e).2.Synced (t.enterElement c' parent' n e).2 := by
  have hsymbol := h.enterSymbol hG hbelow e (c.metrics.element e c.unit (s.staffHeight c.unit))
    (c'.metrics.element e c'.unit (t.staffHeight c'.unit))
  unfold AlignState.enterElement
  rw [h.chord, hparent]
  dsimp only
  split
  · split
    · exact h.enterChordNote hG ..
    · exact hsymbol
  · exact hsymbol

end Slots

end Synced

/-! ### Walks over symbols -/

section Walks

/-- Symbols do not close the time grid. -/
theorem collecting_enterElement (c : AlignContext α) (s : AlignState α) (parent : Option (Node α))
    (n : Node α) (e : Element) : (s.enterElement c parent n e).1.collecting = s.collecting := by
  unfold enterElement
  dsimp only
  split
  · split
    · exact (draws_enterChordNote ..).1.collecting
    · exact (enters_enterSymbol ..).collecting
  · exact (enters_enterSymbol ..).collecting

omit [Scalar α] in
theorem collecting_leaveElement (s : AlignState α) (n : Node α) (e : Element) :
    (s.leaveElement n e).1.collecting = s.collecting := by
  unfold leaveElement
  cases e with
  | chord =>
    dsimp only
    split_ifs <;> rfl
  | _ => rfl

variable {G : MeasureGrid α → MeasureGrid α → Prop} {H : Handle → Prop} {lines : UInt8}
  {c c' : AlignContext α}

/-- Two walks over symbols go on with one timing. -/
theorem parallel_synced (hG : Slotwise G) :
    Forest.Parallel (fun _ => False)
      (fun n n' : Node α => n' = n ∧ n.tag = .element ∧
        c'.symbolsBelow n.handle = c.symbolsBelow n.handle)
      (fun n n' => n.Synced n' ∧ n.tag = .element) Node.Synced
      (fun s t => Synced G H lines s t ∧ s.collecting) (fun s t => s.fault.isSome ∧ t.fault.isSome)
      (fun a a' => a'.map Node.handle = a.map Node.handle) (fun _ _ => True)
      (alignPass c) (alignPass c') where
  parent h := congrArg some h.1.handle
  enter {s t a a' n n' f g} hs ha hn _ _ := by
    obtain ⟨rfl, htag, hbelow⟩ := hn
    obtain ⟨hs, hcollecting⟩ := hs
    obtain ⟨e, he⟩ := Node.exists_element htag
    have hreached := hs.reach e
    obtain ⟨fault, heq⟩ := s.exists_reach e
    have hcollects : (s.reach e).collecting = s.collecting := by rw [heq]
    obtain ⟨hs', hn'⟩ := hreached.enterElement hG (c := c) (n := n') ha hbelow e
    have hv : ((t.reach e).enterElement c' a' n' e).1.outcome .proceed =
        ((s.reach e).enterElement c a n' e).1.outcome .proceed := by
      rw [outcome, outcome, hs'.fault]
    have hkind := (writes_enterElement c (s.reach e) n' a e).kind
    refine ⟨_, ((t.reach e).enterElement c' a' n' e).1, _, ((t.reach e).enterElement c' a' n' e).2, _,
      enter_of_element he hcollecting a, ?_, ?_⟩
    · rw [enter_of_element he (hs.collecting.trans hcollecting) a', hv]
    · rw [outcome]
      split_ifs with hfault
      · exact ⟨hfault, hs'.fault ▸ hfault⟩
      · have hkept := (collecting_enterElement c (s.reach e) a n' e).trans hcollects
        exact ⟨⟨hs', hkept.trans hcollecting⟩, hn', (congrArg NodeKind.tag hkind).trans htag⟩
  leaf _ h := h.elim
  leave {s t} w w' {n n' f g} hs hn hf := by
    obtain ⟨hs, hcollecting⟩ := hs
    obtain ⟨e, he⟩ := Node.exists_element hn.2
    obtain ⟨hs', hn'⟩ := hs.leaveElement hn.1 e
    exact ⟨_, _, _, _, f, g, .proceed, leave_of_element he w f,
      leave_of_element (hn.1.kind.trans he) w' g,
      ⟨hs', (collecting_leaveElement s n e).trans hcollecting⟩, hn', hf⟩

end Walks

/-! ### A layer on its own -/

/-- The state in which a layer is walked on its own: under a meter, on a staff of some lines, with an
empty time grid. -/
def lone (meter : MeterSig) (lines : UInt8) : AlignState α where
  signatures := { (default : Signatures) with meter }
  grids := [⟨[], .collecting, 0, [], false⟩]
  collecting := true
  staves := []
  staff := 1
  lines
  layer := .ofClef default
  longest := 0
  graceSlots := []
  marks := []
  fault := none

end AlignState

/-- A layer on a staff, under the meter that is in force at its start. -/
structure Voice (α : Type) where
  meter : MeterSig
  staff : UInt32
  layer : Node α
  below : Forest (Node α)

namespace Voice

variable (c : AlignContext α) (v : Voice α)

/-- The walk over a layer on its own. -/
def walk : AlignState α × Forest (Node α) × Visit :=
  v.below.runWithin (alignPass c) (some v.layer) id
    (AlignState.lone v.meter (c.linesOf v.staff))

/-- The state behind a layer on its own. -/
def ending : AlignState α := (v.walk c).1.leaveLayer

/-- A layer that meets no fault on its own. -/
structure Sound : Prop where
  walked : (v.walk c).2.2 ≠ .stop
  ended : (v.ending c).fault = none

end Voice

namespace MeasureGrid

theorem state_addFootprint (g : MeasureGrid α) (key : SlotKey) (staff : UInt32) (rect : Rect α) :
    (g.addFootprint key staff rect).state = g.state := by
  rw [addFootprint]
  split_ifs <;> rfl

omit [Scalar α] in
/-- Two open time grids, of which the second draws what the first does, and what had been drawn
before. -/
structure Beyond (before : SlotKey → Prop) (g g' : MeasureGrid α) : Prop where
  left : g.state = .collecting
  right : g'.state = .collecting
  drawn : g'.AllDrawn
  has : ∀ key, g'.Has key ↔ before key ∨ g.Has key

theorem slotwise_beyond (before : SlotKey → Prop) : Slotwise (Beyond (α := α) before) where
  slot {g g'} h key := by
    obtain ⟨a, ha, hstate⟩ := exists_slot h.left key
    obtain ⟨a', ha', hstate'⟩ := exists_slot h.right key
    refine ⟨a, a', ha, ha', hstate, hstate', h.drawn.slot ha', fun k => ?_⟩
    rw [has_slot_iff ha, has_slot_iff ha', h.has, or_assoc]
  left {g g'} h key staff rect := by
    refine ⟨(g.state_addFootprint key staff rect).trans h.left, h.right, h.drawn, fun k => ?_⟩
    rw [h.has, has_iff_outline, has_iff_outline, outline_addFootprint]
  right {g g'} h key staff rect := by
    refine ⟨h.left, (g'.state_addFootprint key staff rect).trans h.right,
      h.drawn.addFootprint key staff rect, fun k => ?_⟩
    rw [← h.has, has_iff_outline, has_iff_outline, outline_addFootprint]

end MeasureGrid

namespace AlignState

open MeasureGrid (Beyond slotwise_beyond)

variable {c c' : AlignContext α}

omit [Scalar α] in
theorem has_iff_of_grids {s : AlignState α} {g : MeasureGrid α} {outer : List (MeasureGrid α)}
    (h : s.grids = g :: outer) (key : SlotKey) : s.Has key ↔ g.Has key := by
  rw [Has, h]
  constructor
  · rintro ⟨_, hg, hhas⟩
    exact Option.some.inj hg ▸ hhas
  · exact fun hhas => ⟨g, rfl, hhas⟩

/-- The end of a layer. -/
theorem Synced.leaveLayer {before : SlotKey → Prop} {H : Handle → Prop} {lines : UInt8}
    {s t : AlignState α} (h : Synced (Beyond before) H lines s t) :
    Synced (Beyond before) H lines s.leaveLayer t.leaveLayer := by
  rw [AlignState.leaveLayer, AlignState.leaveLayer, h.collecting, h.time]
  split_ifs
  · exact (h.flushGraces (slotwise_beyond before) s.layer.time).updateGrid
      fun g g' hg => ⟨_, _, rfl, rfl, ⟨hg.left, hg.right, hg.drawn, hg.has⟩⟩
  · exact h

/-- A layer of a measure is walked as it is on its own. -/
theorem synced_layer {t : AlignState α} (hcollecting : t.collecting) (hfault : t.fault = none)
    {g : MeasureGrid α} (hgrids : t.grids = [g]) (hg : g.state = .collecting)
    (hdrawn : g.AllDrawn) {n n' : Node α}
    (hn : n'.handle = n.handle) {below : Forest (Node α)} (hbelow : below.Symbolic)
    (hunder : ∀ m ∈ below.toList, c'.symbolsBelow m.handle = c.symbolsBelow m.handle)
    (hfree : ∀ h ∈ below.toList.map Node.handle, t.graceSlots.lookup h = none) (clef : Clef)
    {staff : UInt32} (hlines : t.lines = c.linesOf staff)
    (around : Forest (Node α) → Forest (Node α)) :
    ∃ s' t' f f' v, (⟨t.signatures.meter, staff, n, below⟩ : Voice α).walk c = (s', f, v) ∧
      below.runWithin (alignPass c') (some n') around { t with layer := .ofClef clef } =
        (t', f', v) ∧
      (v = .stop → s'.fault.isSome ∧ t'.fault.isSome) ∧
      (v ≠ .stop →
        Synced (Beyond t.Has) (· ∈ below.toList.map Node.handle) (c.linesOf staff) s' t' ∧
          Forest.Forall₂ Node.Synced f f') := by
  have hstart : Synced (Beyond t.Has) (· ∈ below.toList.map Node.handle) (c.linesOf staff)
      (lone t.signatures.meter (c.linesOf staff)) { t with layer := .ofClef clef } := by
    refine ⟨rfl, hcollecting, ⟨rfl, hlines⟩, rfl, rfl, rfl, rfl, ?_, fun h hh => hfree h hh, hfault⟩
    dsimp only
    rw [hgrids]
    refine .cons ⟨rfl, hg, hdrawn, fun key => ?_⟩ .nil
    have hnone : ¬ (⟨[], .collecting, 0, [], false⟩ : MeasureGrid α).Has key := by
      rintro ⟨s, hs, -⟩
      exact absurd hs List.not_mem_nil
    rw [or_iff_left hnone, has_iff_of_grids hgrids]
  have hsame : Forest.Padded (fun _ => False) (fun m m' : Node α => m' = m ∧ m.tag = .element ∧
      c'.symbolsBelow m.handle = c.symbolsBelow m.handle) below below :=
    .of_forall₂ (.refl fun m hm => ⟨rfl, hbelow.tag m hm, hunder m hm⟩)
  obtain ⟨s', t', f, f', v, hs', ht', hv⟩ := (parallel_synced (slotwise_beyond t.Has)).runWithin hsame
    (fun _ _ _ => trivial) (a := some n) (o := some n') (congrArg some hn) id around ⟨hstart, rfl⟩
  refine ⟨s', t', f, f', v, hs', ht', ?_, ?_⟩
  · rintro rfl
    exact hv
  · intro hgo
    cases v with
    | stop => exact absurd rfl hgo
    | skipChildren | proceed => exact ⟨hv.1.1, hv.2.forall₂⟩

end AlignState

end ScoreLayout
