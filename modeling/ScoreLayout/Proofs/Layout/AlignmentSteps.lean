import ScoreLayout.Layout.Alignment
import ScoreLayout.Proofs.Fraction
import ScoreLayout.Proofs.Grid.Collecting

/-!
# What alignment does at a symbol

A symbol gets the time that its layer has come to as its onset, and moves the layer on by its
duration. Drawing it claims slots in the time grid, which stays open, and touches nothing that time
depends on.

## Main definitions

* `AlignState.Draws` — what drawing does to a state.
* `Element.given` — the duration that a symbol asks for, where it asks for one.
* `TupletRatio.inside` — the ratio inside a tuplet.
* `AlignState.Enters` — what entering a symbol does.

## Main results

* `AlignState.enters_enterSymbol` — a symbol that is no note of an open chord.
* `AlignState.draws_enterChordNote` — a note of an open chord.
-/

namespace ScoreLayout

variable {α : Type} [Scalar α]

namespace AlignState

/-! ### Drawing -/

/-- What drawing does to a state: it changes the time grids, which stay open, and the lists of grace
notes. It never clears a fault, and meets none while the grids are open. -/
structure Draws (s s' : AlignState α) : Prop where
  signatures : s'.signatures = s.signatures
  collecting : s'.collecting = s.collecting
  time : s'.layer.time = s.layer.time
  tuplets : s'.layer.tuplets = s.layer.tuplets
  chord : s'.layer.chord = s.layer.chord
  longest : s'.longest = s.longest
  marks : s'.marks = s.marks
  grids : (∀ g ∈ s.grids, g.Open) →
    (∀ g ∈ s'.grids, g.Open) ∧ s'.grids.map MeasureGrid.maxTime = s.grids.map MeasureGrid.maxTime
  fault : s'.fault = none → s.fault = none
  sane : (∀ g ∈ s.grids, g.Open) → s'.fault = s.fault

variable {s s₁ s₂ : AlignState α}

omit [Scalar α] in
theorem Draws.refl (s : AlignState α) : s.Draws s :=
  ⟨rfl, rfl, rfl, rfl, rfl, rfl, rfl, fun h => ⟨h, rfl⟩, id, fun _ => rfl⟩

omit [Scalar α] in
theorem Draws.trans (h : s.Draws s₁) (h' : s₁.Draws s₂) : s.Draws s₂ :=
  ⟨h'.signatures.trans h.signatures, h'.collecting.trans h.collecting, h'.time.trans h.time,
    h'.tuplets.trans h.tuplets, h'.chord.trans h.chord, h'.longest.trans h.longest,
    h'.marks.trans h.marks,
    fun ho => ⟨(h'.grids (h.grids ho).1).1, (h'.grids (h.grids ho).1).2.trans (h.grids ho).2⟩,
    h.fault ∘ h'.fault, fun ho => (h'.sane (h.grids ho).1).trans (h.sane ho)⟩

omit [Scalar α] in
theorem draws_updateGrid {f : MeasureGrid α → Except GridFault (MeasureGrid α)}
    (hok : ∀ g, g.Open → ∃ g', f g = .ok g')
    (hf : ∀ g g', g.Open → f g = .ok g' → g'.Open ∧ g'.maxTime = g.maxTime) :
    s.Draws (s.updateGrid f) := by
  rw [updateGrid]
  split
  · rename_i g outer hgrids
    split
    · rename_i g' hg'
      refine ⟨rfl, rfl, rfl, rfl, rfl, rfl, rfl, fun ho => ?_, id, fun _ => rfl⟩
      rw [hgrids, List.forall_mem_cons] at ho
      obtain ⟨hopen, hmax⟩ := hf g g' ho.1 hg'
      refine ⟨List.forall_mem_cons.2 ⟨hopen, ho.2⟩, ?_⟩
      rw [hgrids, List.map_cons, List.map_cons, hmax]
    · rename_i e he
      refine ⟨rfl, rfl, rfl, rfl, rfl, rfl, rfl, fun ho => ⟨ho, rfl⟩, fun h => absurd h (by simp),
        fun ho => ?_⟩
      rw [hgrids, List.forall_mem_cons] at ho
      obtain ⟨g', hg'⟩ := hok g ho.1
      rw [hg'] at he
      cases he
  · exact .refl s

theorem draws_request {key : SlotKey} (hkey : key.zone = .content) : s.Draws (s.request key) :=
  draws_updateGrid
    (fun _ hg => (MeasureGrid.exists_slot hg.state key).imp fun _ h => h.1)
    fun _ _ hg hok => hg.slot hkey hok

theorem draws_draw (s : AlignState α) (key : SlotKey) (rect : Option (Rect α)) :
    s.Draws (s.draw key rect) := by
  unfold draw
  split
  · refine draws_updateGrid (fun _ _ => ⟨_, rfl⟩) fun g g' hg hok => ?_
    rw [← Except.ok.inj hok]
    exact ⟨hg.addFootprint .., g.maxTime_addFootprint ..⟩
  · exact .refl s

omit [Scalar α] in
theorem draws_foldl {β : Type} {f : AlignState α → β → AlignState α}
    (hf : ∀ (s : AlignState α) b, s.Draws (f s b)) :
    (l : List β) → (s : AlignState α) → s.Draws (l.foldl f s)
  | [], s => .refl s
  | b :: l, s => (hf s b).trans (draws_foldl hf l (f s b))

theorem draws_placeGrace (s : AlignState α) (onset : Fraction) (rank : Nat) (g : PendingGrace α) :
    s.Draws (s.placeGrace onset rank g) := by
  refine (draws_request rfl).trans (draws_foldl (fun s d => ?_) g _)
  exact .trans (s.draws_draw (.ofGrace onset rank) d.rect)
    ⟨rfl, rfl, rfl, rfl, rfl, rfl, rfl, fun h => ⟨h, rfl⟩, id, fun _ => rfl⟩

theorem draws_placeGraces (onset : Fraction) : (graces : List (PendingGrace α)) →
    (s : AlignState α) → s.Draws (s.placeGraces onset graces)
  | [], s => .refl s
  | g :: rest, s => (s.draws_placeGrace onset _ g).trans (draws_placeGraces onset rest _)

omit [Scalar α] in
theorem draws_graces (s : AlignState α) (graces : List (PendingGrace α)) :
    s.Draws { s with layer := { s.layer with graces } } :=
  ⟨rfl, rfl, rfl, rfl, rfl, rfl, rfl, fun h => ⟨h, rfl⟩, id, fun _ => rfl⟩

theorem draws_flushGraces (s : AlignState α) (onset : Fraction) :
    s.Draws (s.flushGraces onset) :=
  (s.draws_graces []).trans (draws_placeGraces onset _ _)

theorem draws_record (s : AlignState α) (n : Node α) (onset time : Fraction) (y : α)
    (rect : Option (Rect α)) : s.Draws (s.record n onset time y rect).1 :=
  s.draws_graces _

theorem draws_assign (s : AlignState α) (n : Node α) (key : SlotKey) :
    s.Draws (s.assign n key).1 :=
  .trans (s.draws_draw key _)
    ⟨rfl, rfl, rfl, rfl, rfl, rfl, rfl, fun h => ⟨h, rfl⟩, id, fun _ => rfl⟩

theorem draws_assignAt (s : AlignState α) (n : Node α) {key : SlotKey}
    (hkey : key.zone = .content) : s.Draws (s.assignAt n key).1 :=
  (draws_request hkey).trans (draws_assign _ n key)

/-- A note of an open chord shares its onset and takes no time of its own. -/
theorem draws_enterChordNote (c : AlignContext α) (s : AlignState α) (chord : OpenChord)
    (n : Node α) (note : Note) (rect : Option (Rect α)) :
    s.Draws (s.enterChordNote c chord n note rect).1 ∧
      (s.enterChordNote c chord n note rect).2.layout.onset = some chord.onset ∧
      (s.enterChordNote c chord n note rect).2.layout.duration = 0 := by
  rw [enterChordNote]
  dsimp only
  split
  · exact ⟨(draws_record ..).trans (draws_assign ..), rfl, rfl⟩
  · exact ⟨draws_record .., rfl, rfl⟩

end AlignState

/-! ### Durations and ratios -/

/-- The duration that a symbol asks for under a ratio and a meter, where it asks for one. -/
def Element.given (e : Element) (ratio : TupletRatio) (meter : MeterSig) :
    Option (Except DurationError Fraction) :=
  match e with
  | .note { duration := d, .. } | .rest d _ | .chord d | .space d => some (d.advance ratio)
  | .measureRest _ _ | .multiRest _ _ => some (.ok meter.measureDuration)
  | .beam | .tuplet _ _ | .clef _ | .key _ | .meter _ | .barLine _ => none

/-- The ratio inside a tuplet. One with a zero term, or whose product does not fit, counts for
nothing. -/
def TupletRatio.inside (r : TupletRatio) (num base : UInt32) : TupletRatio :=
  if num = 0 ∨ base = 0 then r
  else
    match r.combine num.toNat base.toNat with
    | .ok ratio => ratio
    | .error _ => r

/-- The meter behind a symbol. -/
def Element.meterAfter (e : Element) (meter : MeterSig) : MeterSig :=
  (e.change?.bind SignatureChange.meter).getD meter

/-- The ratios inside a symbol. -/
def LayerCursor.tupletsIn (c : LayerCursor α) (e : Element) : List TupletRatio :=
  match e with
  | .tuplet num base => c.tuplet.inside num base :: c.tuplets
  | _ => c.tuplets

/-- The chord whose notes are being visited, and its onset. -/
def LayerCursor.chord? (c : LayerCursor α) : Option (Handle × Fraction) :=
  c.chord.map fun chord => (chord.handle, chord.onset)

/-- The chord whose notes stand below a symbol, and its onset. -/
def LayerCursor.chordIn (c : LayerCursor α) (n : Node α) (e : Element) :
    Option (Handle × Fraction) :=
  match e with
  | .chord _ => some (n.handle, c.time)
  | _ => c.chord?

/-- Whether a mark says of a node that its duration takes no time. -/
def Mark.RefusesDuration (id : String) (k : Mark) : Prop :=
  k.node = some id ∧ k.kind = Mark.Kind.invalidDuration.id

namespace AlignState

omit [Scalar α] in
/-- A duration that is given moves the layer on, unless there is none or it leads too far: then the
symbol is marked and takes no time. -/
def Advances (s : AlignState α) (id : String) (given : Except DurationError Fraction)
    (s' : AlignState α) (duration : Fraction) : Prop :=
  s'.marks = s.marks ∧ given = .ok duration ∧ s.layer.time.add duration = .ok s'.layer.time ∨
    (∃ new, new ≠ [] ∧ s'.marks = s.marks ++ new ∧ ∀ k ∈ new, k.RefusesDuration id) ∧ duration = 0 ∧
      (s.layer.time.add 0 = .ok s'.layer.time ∨ s'.layer.time = s.layer.time)

omit [Scalar α] in
/-- What entering a symbol does that is no note of an open chord. -/
structure Enters (s : AlignState α) (n : Node α) (e : Element) (s' : AlignState α) (n' : Node α) :
    Prop where
  onset : n'.layout.onset = some s.layer.time
  meter : s'.signatures.meter = e.meterAfter s.signatures.meter
  collecting : s'.collecting = s.collecting
  tuplets : s'.layer.tuplets = s.layer.tupletsIn e
  chord : s'.layer.chord? = s.layer.chordIn n e
  timed : s'.fault = none → ∀ given, e.given s.layer.tuplet s.signatures.meter = some given →
    s.Advances n.id given s' n'.layout.duration
  untimed : e.given s.layer.tuplet s.signatures.meter = none →
    s'.layer.time = s.layer.time ∧ n'.layout.duration = 0
  longest : s'.fault = none → 0 ≤ s.longest.value →
    s'.longest.value = max s.longest.value n'.layout.duration.value
  marks : ∃ new, s'.marks = s.marks ++ new ∧ ∀ k ∈ new, k.node = some n.id
  grids : (∀ g ∈ s.grids, g.Open) →
    (∀ g ∈ s'.grids, g.Open) ∧ s'.grids.map MeasureGrid.maxTime = s.grids.map MeasureGrid.maxTime
  fault : s'.fault = none → s.fault = none

/-! ### Moving on -/

omit [Scalar α] in
/-- A duration that is refused is marked, or the walk breaks down. -/
theorem refuse_eq (s : AlignState α) (n : Node α) (reason : DurationError) : ∃ refused fault,
    s.refuse n reason = { s with marks := s.marks ++ refused, fault } ∧
      (∀ k ∈ refused, k.RefusesDuration n.id) ∧
      (fault = none → s.fault = none ∧ refused ≠ []) := by
  rw [refuse]
  split
  · exact ⟨[_], s.fault, rfl, List.forall_mem_singleton.2 ⟨rfl, rfl⟩,
      fun h => ⟨h, List.cons_ne_nil _ _⟩⟩
  · exact ⟨[], some .breakdown, by rw [List.append_nil], nofun, nofun⟩

omit [Scalar α] in
/-- The layer moved on: it comes to the sum of the times, or the symbol is marked and takes no
time. -/
theorem advance_eq (s : AlignState α) (n : Node α) (time : Fraction) :
    ∃ reached longest refused fault n', s.advance n time =
        ({ s with layer := { s.layer with time := reached }, longest, fault,
                  marks := s.marks ++ refused }, n') ∧
      n'.layout.onset = n.layout.onset ∧ (∀ k ∈ refused, k.RefusesDuration n.id) ∧
      (fault = none → s.fault = none ∧
        (refused = [] ∧ n' = n ∧ s.layer.time.add time = .ok reached ∧
            longest = s.longest.max time ∨
          refused ≠ [] ∧ n'.layout.duration = 0 ∧ reached = s.layer.time ∧
            longest = s.longest)) := by
  rw [advance]
  split
  · rename_i reached hreached
    exact ⟨reached, _, [], s.fault, n, by rw [List.append_nil], rfl, nofun,
      fun h => ⟨h, .inl ⟨rfl, rfl, hreached, rfl⟩⟩⟩
  · rename_i reason _
    obtain ⟨refused, fault, heq, hrefused, hfault⟩ := s.refuse_eq n (.ofWord reason)
    rw [heq]
    exact ⟨s.layer.time, s.longest, refused, fault, _, rfl, rfl, hrefused,
      fun h => ⟨(hfault h).1, .inr ⟨(hfault h).2, rfl, rfl, rfl⟩⟩⟩

/-! ### Entering a symbol -/

omit [Scalar α] in
/-- A symbol with a duration: it is drawn, perhaps after its duration has been refused, and then the
layer moves on. -/
theorem enters_advance {s s₁ s₂ : AlignState α} {n n₂ : Node α} {e : Element} {time : Fraction}
    {given : Except DurationError Fraction} {refused : List Mark} {fault : Option Fault}
    {chord : Option OpenChord} (hmeter : e.meterAfter s.signatures.meter = s.signatures.meter)
    (htuplets : s.layer.tupletsIn e = s.layer.tuplets)
    (hgiven : e.given s.layer.tuplet s.signatures.meter = some given)
    (hs₁ : s₁ = { s with marks := s.marks ++ refused, fault })
    (hrefused : ∀ k ∈ refused, k.RefusesDuration n.id)
    (hfault : fault = none → s.fault = none ∧
      (refused = [] ∧ given = .ok time ∨ refused ≠ [] ∧ time = 0))
    (hdraws : s₁.Draws s₂) (honset : n₂.layout.onset = some s.layer.time)
    (hduration : n₂.layout.duration = time) (hid : n₂.id = n.id)
    (hchord : chord.map (fun c => (c.handle, c.onset)) = s.layer.chordIn n e) :
    s.Enters n e (AlignState.advance { s₂ with layer := { s₂.layer with chord } } n₂ time).1
      (AlignState.advance { s₂ with layer := { s₂.layer with chord } } n₂ time).2 := by
  subst hs₁
  have htime : s₂.layer.time = s.layer.time := hdraws.time
  obtain ⟨reached, longest, refused', fault', n', heq, honset', hrefused', hfault'⟩ :=
    AlignState.advance_eq { s₂ with layer := { s₂.layer with chord } } n₂ time
  dsimp only at hfault'
  rw [heq]
  rw [hid] at hrefused'
  rw [htime] at hfault'
  have hnew : ∀ k ∈ refused ++ refused', k.RefusesDuration n.id :=
    List.forall_mem_append.2 ⟨hrefused, hrefused'⟩
  have hmarks : s₂.marks ++ refused' = s.marks ++ (refused ++ refused') := by
    rw [hdraws.marks, List.append_assoc]
  refine ⟨honset'.trans honset, ?_, hdraws.collecting, ?_, hchord, fun h g hg => ?_, fun h => ?_,
    fun h hlongest => ?_, ⟨_, hmarks, fun k hk => (hnew k hk).1⟩, hdraws.grids, fun h => ?_⟩
  · rw [hmeter]
    exact congrArg Signatures.meter hdraws.signatures
  · rw [htuplets]
    exact hdraws.tuplets
  · obtain rfl := Option.some.inj (hgiven.symm.trans hg)
    obtain ⟨h₂, hmoves⟩ := hfault' h
    obtain ⟨-, hbooked⟩ := hfault (hdraws.fault h₂)
    rcases hmoves with ⟨rfl, rfl, hadd, -⟩ | ⟨hne, hzero, rfl, -⟩
    · rcases hbooked with ⟨rfl, hok⟩ | ⟨hne, rfl⟩
      · exact .inl ⟨by simpa using hmarks, hduration.symm ▸ hok, hduration.symm ▸ hadd⟩
      · exact .inr ⟨⟨_, by simpa using hne, hmarks, hnew⟩, hduration, .inl hadd⟩
    · exact .inr ⟨⟨_, by simp [hne], hmarks, hnew⟩, hzero, .inr rfl⟩
  · rw [hgiven] at h
    cases h
  · rcases (hfault' h).2 with ⟨-, rfl, -, rfl⟩ | ⟨-, hzero, -, rfl⟩
    · rw [Fraction.value_max, hduration, hdraws.longest]
    · rw [hzero, Fraction.value_zero, hdraws.longest, max_eq_left hlongest]
  · exact (hfault (hdraws.fault (hfault' h).1)).1

/-- A timed symbol drawn in its slot, or waiting for it as a grace note. -/
def drawTimed (c : AlignContext α) (s : AlignState α) (n : Node α) (grace : Bool)
    (onset time : Fraction) (y : α) (rect : Option (Rect α)) :
    AlignState α × Node α × Option SlotKey :=
  let (s, n) := s.record n onset time y (if grace then c.metrics.graceRect rect else rect)
  if grace then
    let graces := s.layer.graces ++ [pendingGrace c n]
    ({ s with layer := { s.layer with graces } }, n, none)
  else
    let key := SlotKey.ofKind onset .event
    let (s, n) := ((s.request key).flushGraces onset).assign n key
    (s, n, some key)

theorem draws_drawTimed (c : AlignContext α) (s : AlignState α) (n : Node α) (grace : Bool)
    (onset time : Fraction) (y : α) (rect : Option (Rect α)) :
    s.Draws (s.drawTimed c n grace onset time y rect).1 ∧
      (s.drawTimed c n grace onset time y rect).2.1.layout.onset = some onset ∧
      (s.drawTimed c n grace onset time y rect).2.1.layout.duration = time ∧
      (s.drawTimed c n grace onset time y rect).2.1.id = n.id ∧
      (s.drawTimed c n grace onset time y rect).2.1.handle = n.handle := by
  unfold drawTimed
  dsimp only
  split
  · exact ⟨(draws_record ..).trans (draws_graces _ _), rfl, rfl, rfl, rfl⟩
  · exact ⟨(draws_record ..).trans ((draws_request rfl).trans ((draws_flushGraces ..).trans
      (draws_assign ..))), rfl, rfl, rfl, rfl⟩

omit [Scalar α] in
/-- The state with the chord open whose notes are visited next. -/
def openChord (s : AlignState α) (n : Node α) (e : Element) (onset : Fraction)
    (slot : Option SlotKey) : AlignState α :=
  match e with
  | .chord _ =>
    let chord : OpenChord := ⟨n.handle, onset, slot, e.isGrace⟩
    { s with layer := { s.layer with chord := some chord } }
  | _ => s

/-- A timed symbol whose duration has been booked or refused. -/
theorem enters_timed (c : AlignContext α) {s s₁ : AlignState α} (n : Node α) {e : Element}
    {d : Duration} (time : Fraction) {refused : List Mark} {fault : Option Fault} (y : α)
    (rect : Option (Rect α)) (he : e.duration? = some d)
    (hs₁ : s₁ = { s with marks := s.marks ++ refused, fault })
    (hrefused : ∀ k ∈ refused, k.RefusesDuration n.id)
    (hfault : fault = none → s.fault = none ∧
      (refused = [] ∧ d.advance s.layer.tuplet = .ok time ∨ refused ≠ [] ∧ time = 0))
    {r : AlignState α × Node α × Option SlotKey}
    (hr : s₁.drawTimed c n e.isGrace s.layer.time time y rect = r) :
    s.Enters n e ((r.1.openChord r.2.1 e s.layer.time r.2.2).advance r.2.1 time).1
      ((r.1.openChord r.2.1 e s.layer.time r.2.2).advance r.2.1 time).2 := by
  obtain ⟨hdraws, honset, hduration, hid, hhandle⟩ :=
    s₁.draws_drawTimed c n e.isGrace s.layer.time time y rect
  rw [hr] at hdraws honset hduration hid hhandle
  have hsame : r.1.layer.chord.map (fun c => (c.handle, c.onset)) = s.layer.chord? := by
    rw [hdraws.chord, hs₁]
    rfl
  cases e with
  | chord =>
    cases he
    exact enters_advance rfl rfl rfl hs₁ hrefused hfault hdraws honset hduration hid
      (congrArg some (Prod.ext hhandle rfl))
  | note | rest | space =>
    cases he
    exact enters_advance rfl rfl rfl hs₁ hrefused hfault hdraws honset hduration hid hsame
  | measureRest | multiRest | beam | tuplet | clef | key | meter | barLine => cases he

theorem enters_enterTimed (c : AlignContext α) (s : AlignState α) (n : Node α) {e : Element}
    {d : Duration} (rect : Option (Rect α)) (he : e.duration? = some d) :
    s.Enters n e (s.enterTimed c n e d rect).1 (s.enterTimed c n e d rect).2 := by
  unfold enterTimed
  cases hadvance : d.advance s.layer.tuplet with
  | ok time =>
    have hs : s = { s with marks := s.marks ++ [], fault := s.fault } := by rw [List.append_nil]
    exact enters_timed c n time (s.symbolY c.unit e) rect he hs nofun
      (fun h => ⟨h, .inl ⟨rfl, hadvance⟩⟩) rfl
  | error reason =>
    obtain ⟨refused, fault, heq, hrefused, hfault⟩ := s.refuse_eq n reason
    exact enters_timed c n 0 ((s.refuse n reason).symbolY c.unit e) rect he heq hrefused
      (fun h => ⟨(hfault h).1, .inr ⟨(hfault h).2, rfl⟩⟩) rfl

theorem enters_enterFullMeasure (c : AlignContext α) (s : AlignState α) (n : Node α) {e : Element}
    (rect : Option (Rect α)) (he : e.isFullMeasure) :
    s.Enters n e (s.enterFullMeasure c n e rect).1 (s.enterFullMeasure c n e rect).2 := by
  have hdraws : s.Draws ((s.record n s.layer.time s.signatures.meter.measureDuration
      (s.symbolY c.unit e) rect).1.assignAt
        (s.record n s.layer.time s.signatures.meter.measureDuration
          (s.symbolY c.unit e) rect).2
        (.ofKind s.layer.time .fullMeasure)).1 :=
    (draws_record ..).trans (draws_assignAt _ _ rfl)
  have hbooked : s = { s with marks := s.marks ++ [], fault := s.fault } := by
    rw [List.append_nil]
  have hfault : s.fault = none → s.fault = none ∧ (([] : List Mark) = [] ∧
      (.ok s.signatures.meter.measureDuration : Except DurationError Fraction) =
        .ok s.signatures.meter.measureDuration ∨
      ([] : List Mark) ≠ [] ∧ s.signatures.meter.measureDuration = 0) :=
    fun h => ⟨h, .inl ⟨rfl, rfl⟩⟩
  cases e with
  | measureRest | multiRest =>
    exact enters_advance rfl rfl rfl hbooked nofun hfault hdraws rfl rfl rfl
      (congrArg (Option.map fun c : OpenChord => (c.handle, c.onset)) hdraws.chord)
  | note | rest | chord | space | beam | tuplet | clef | key | meter | barLine => cases he

omit [Scalar α] in
/-- A symbol that takes no time is no longer than the longest. -/
theorem longest_of_zero {s s' : AlignState α} {n' : Node α} (h : s'.longest = s.longest)
    (hzero : n'.layout.duration = 0) (hlongest : 0 ≤ s.longest.value) :
    s'.longest.value = max s.longest.value n'.layout.duration.value := by
  rw [h, hzero, Fraction.value_zero, max_eq_left hlongest]

/-- What entering a symbol does that takes no time and groups nothing. -/
theorem enters_enterUntimed {s s₁ : AlignState α} (n : Node α) {e : Element} {kind : SlotKind}
    (rect : Option (Rect α)) (hkind : kind.zone = .content)
    (hmeter : s₁.signatures.meter = e.meterAfter s.signatures.meter)
    (hs₁ : s.Draws { s₁ with signatures := s.signatures })
    (htuplets : s.layer.tupletsIn e = s.layer.tuplets) (hchord : s.layer.chordIn n e = s.layer.chord?)
    (hgiven : e.given s.layer.tuplet s.signatures.meter = none) :
    s.Enters n e (s₁.enterUntimed n kind rect).1 (s₁.enterUntimed n kind rect).2 := by
  have hdraws : s₁.Draws (s₁.enterUntimed n kind rect).1 :=
    (draws_record ..).trans (draws_assignAt _ _ hkind)
  refine ⟨congrArg some hs₁.time, ?_, hdraws.collecting.trans hs₁.collecting, ?_, ?_,
    fun _ g hg => ?_, fun _ => ⟨hdraws.time.trans hs₁.time, rfl⟩,
    fun _ => longest_of_zero (hdraws.longest.trans hs₁.longest) rfl, ⟨[], ?_, nofun⟩, fun h => ?_,
    fun h => hs₁.fault (hdraws.fault h)⟩
  · rw [hdraws.signatures, hmeter]
  · rw [htuplets]
    exact hdraws.tuplets.trans hs₁.tuplets
  · rw [hchord]
    exact congrArg (Option.map fun c : OpenChord => (c.handle, c.onset))
      (hdraws.chord.trans hs₁.chord)
  · rw [hgiven] at hg
    cases hg
  · rw [List.append_nil]
    exact hdraws.marks.trans hs₁.marks
  · obtain ⟨hopen, hmax⟩ := hs₁.grids h
    obtain ⟨hopen', hmax'⟩ := hdraws.grids hopen
    exact ⟨hopen', hmax'.trans hmax⟩

omit [Scalar α] in
/-- The ratio inside a tuplet is found, or the tuplet is marked. -/
theorem enterRatio_eq (s : AlignState α) (n : Node α) (num base : UInt32) : ∃ refused fault,
    s.enterRatio n num base =
        ({ s with marks := s.marks ++ refused, fault }, s.layer.tuplet.inside num base) ∧
      (∀ k ∈ refused, k.node = some n.id) ∧ (fault = none → s.fault = none) := by
  rw [enterRatio, TupletRatio.inside]
  split_ifs with hzero
  · exact ⟨[_], s.fault, rfl, List.forall_mem_singleton.2 rfl, id⟩
  · cases s.layer.tuplet.combine num.toNat base.toNat with
    | ok ratio => exact ⟨[], s.fault, by rw [List.append_nil], nofun, id⟩
    | error reason =>
      obtain ⟨refused, fault, heq, hrefused, hfault⟩ := s.refuse_eq n reason
      exact ⟨refused, fault, congrArg (·, s.layer.tuplet) heq, fun k hk => (hrefused k hk).1,
        fun h => (hfault h).1⟩

/-- What entering a symbol does that is no note of an open chord. -/
theorem enters_enterSymbol (c : AlignContext α) (s : AlignState α) (n : Node α) (e : Element)
    (rect : Option (Rect α)) :
    s.Enters n e (s.enterSymbol c n e rect).1 (s.enterSymbol c n e rect).2 := by
  cases e with
  | note | rest | chord | space => exact enters_enterTimed c s n rect rfl
  | measureRest | multiRest => exact enters_enterFullMeasure c s n rect rfl
  | clef | key | meter | barLine =>
    exact enters_enterUntimed n rect rfl rfl
      ⟨rfl, rfl, rfl, rfl, rfl, rfl, rfl, fun h => ⟨h, rfl⟩, id, fun _ => rfl⟩ rfl rfl rfl
  | beam =>
    exact ⟨rfl, rfl, rfl, rfl, rfl, fun _ _ hg => (by cases hg), fun _ => ⟨rfl, rfl⟩,
      fun _ => longest_of_zero rfl rfl, ⟨[], (List.append_nil _).symm, nofun⟩, fun h => ⟨h, rfl⟩, id⟩
  | tuplet num base =>
    obtain ⟨refused, fault, heq, hrefused, hfault⟩ := s.enterRatio_eq n num base
    rw [enterSymbol, heq]
    exact ⟨rfl, rfl, rfl, rfl, rfl, fun _ _ hg => (by cases hg), fun _ => ⟨rfl, rfl⟩,
      fun _ => longest_of_zero rfl rfl, ⟨refused, rfl, hrefused⟩, fun h => ⟨h, rfl⟩, hfault⟩

/-! ### Locations out of reach -/

omit [Scalar α] in
/-- Before a symbol is drawn, the walk may break down. -/
theorem reach_cases (s : AlignState α) (e : Element) :
    s.reach e = s ∨ s.reach e = { s with fault := some .breakdown } := by
  rw [reach]
  split
  · exact ite_eq_or_eq ..
  · exact .inl rfl

omit [Scalar α] in
theorem exists_reach (s : AlignState α) (e : Element) : ∃ fault, s.reach e = { s with fault } := by
  obtain heq | heq := s.reach_cases e
  · exact ⟨s.fault, heq⟩
  · exact ⟨_, heq⟩

omit [Scalar α] in
/-- Where the walk goes on, the location of a symbol has changed nothing. -/
theorem reach_of_fault {s : AlignState α} {e : Element} (h : (s.reach e).fault = none) :
    s.reach e = s :=
  (s.reach_cases e).resolve_right fun hbreakdown => by rw [hbreakdown] at h; cases h

/-- Entering a symbol clears no fault. -/
theorem fault_enterElement {c : AlignContext α} {s : AlignState α} {above : Option (Node α)}
    {n : Node α} {e : Element}
    (h : (s.enterElement c above n e).1.fault = none) :
    s.fault = none := by
  unfold enterElement at h
  dsimp only at h
  split at h
  · split_ifs at h
    · exact (draws_enterChordNote ..).1.fault h
    · exact (enters_enterSymbol ..).fault h
  · exact (enters_enterSymbol ..).fault h

/-! ### Leaving a symbol -/

omit [Scalar α] in
/-- The end of a symbol closes what its start has opened. -/
theorem leaveElement_fst {s s' : AlignState α} {n n' : Node α} {e : Element}
    (htuplets : s'.layer.tuplets = s.layer.tupletsIn e)
    (hchord : s'.layer.chord? = s.layer.chordIn n e) (hhandle : n'.handle = n.handle)
    (hplain : ∀ d, e = .chord d → s.layer.chord? = none) :
    ∃ chord, (s'.leaveElement n' e).1 =
        { s' with layer := { s'.layer with tuplets := s.layer.tuplets, chord } } ∧
      chord.map (fun c => (c.handle, c.onset)) = s.layer.chord? := by
  cases e with
  | chord d =>
    have hopen : s'.layer.chord.map OpenChord.handle = some n'.handle := by
      have := congrArg (Option.map Prod.fst) hchord
      rw [LayerCursor.chord?, Option.map_map] at this
      exact this.trans (congrArg some hhandle.symm)
    refine ⟨none, ?_, (hplain d rfl).symm⟩
    rw [← show s'.layer.tuplets = s.layer.tuplets from htuplets]
    exact if_pos hopen
  | tuplet =>
    refine ⟨s'.layer.chord, ?_, hchord⟩
    rw [← show s'.layer.tuplets.tail = s.layer.tuplets by rw [htuplets]; rfl]
    rfl
  | note | rest | space | measureRest | multiRest | beam | clef | key | meter | barLine =>
    refine ⟨s'.layer.chord, ?_, hchord⟩
    rw [← show s'.layer.tuplets = s.layer.tuplets from htuplets]
    rfl

omit [Scalar α] in
theorem leaveElement_onset (s : AlignState α) (n : Node α) (e : Element) :
    (s.leaveElement n e).2.layout.onset = n.layout.onset := by
  unfold leaveElement
  dsimp only
  split_ifs <;> rfl

omit [Scalar α] in
/-- Only a container that has no time of its own gets the time that has passed in it. -/
theorem leaveElement_snd {s : AlignState α} {n : Node α} {e : Element} {onset : Fraction}
    (honset : n.layout.onset = some onset)
    (h : ¬ (e.isContainer ∧ onset < s.layer.time ∧ n.layout.duration.Same 0)) :
    (s.leaveElement n e).2 = n := by
  have htime : (s.leaveElement n e).1.layer.time = s.layer.time := by
    unfold leaveElement
    dsimp only
    split
    · split_ifs <;> rfl
    · rfl
    · rfl
  unfold leaveElement at htime ⊢
  dsimp only at htime ⊢
  rw [htime, honset]
  exact if_neg h

/-! ### Stopping -/

omit [Scalar α] in
/-- Nothing but a fault stops the walk. -/
theorem isSome_fault_of_outcome {s : AlignState α} (h : s.outcome .proceed = .stop) :
    s.fault.isSome := by
  rw [outcome] at h
  split_ifs at h with hfault
  exact hfault

variable (c : AlignContext α) (s : AlignState α)

theorem isSome_fault_of_enter_stop {a : Option (Node α)} {n : Node α}
    (h : (s.enter c a n).2.2 = .stop) : (s.enter c a n).1.fault.isSome := by
  unfold enter at h ⊢
  split at h
  case h_7 => exact isSome_fault_of_outcome h
  case h_10 =>
    split_ifs at h ⊢
    exact isSome_fault_of_outcome h
  all_goals cases h

theorem isSome_fault_of_leave_stop {n : Node α} {f : Forest (Node α)}
    (h : (s.leave c n f).2.2.2 = .stop) : (s.leave c n f).1.fault.isSome := by
  unfold leave at h ⊢
  split at h
  · exact isSome_fault_of_outcome h
  · exact isSome_fault_of_outcome h
  all_goals cases h

end AlignState

end ScoreLayout
