import ScoreLayout.Proofs.Onsets

/-!
# The signatures in force

Alignment carries the clefs, the key and the meter along, with a second copy of the clef in the
cursor of the layer. What it writes down of them is a fold: the signatures at a measure, and the clef
behind the height of a note, are the score definition changed by everything that stands before.

## Main definitions

* `Forest.onStaves` — the nodes in document order, each with the staff around it.
* `Signatures.after`, `Signatures.afterAll` — the signatures behind a node, and behind several.
* `Node.SignedAt` — a node that has written down the signatures before it.
* `AlignState.bearings` — what the walk knows of the place that it has come to.

## Main results

* `AlignState.bearings_enterElement` — a symbol changes the bearings by what it says.
* `AlignState.signs_symbols`, `AlignState.signs_staves`, `AlignState.signs_score` — the walk folds.
* `Document.Reachable.signed_align` — the same of every document that a caller comes to.
-/

namespace ScoreLayout

variable {α : Type}

/-! ### The fold -/

/-- The staff around what stands below a node. -/
def Node.staffBelow (n : Node α) (staff : Option UInt32) : Option UInt32 :=
  match n.kind with
  | .staff s => some s.n
  | _ => staff

/-- The nodes in document order, each with the number of the staff around it. -/
def Forest.onStaves : Option UInt32 → Forest (Node α) → List (Option UInt32 × Node α)
  | _, .nil => []
  | staff, .cons n below siblings =>
    (staff, n) :: (below.onStaves (n.staffBelow staff) ++ siblings.onStaves staff)

namespace Signatures

/-- The signatures behind a node. A clef counts for the staff around it only. -/
def after (s : Signatures) (staff : Option UInt32) (n : Node α) : Signatures :=
  match n.kind with
  | .change change => s.applyChange change
  | .element (.clef clef) => staff.elim s fun k => s.setClef k clef
  | .element (.key key) => { s with key }
  | .element (.meter meter) => { s with meter }
  | _ => s

/-- The signatures behind several nodes. -/
def afterAll (s : Signatures) (nodes : List (Option UInt32 × Node α)) : Signatures :=
  nodes.foldl (fun s x => s.after x.1 x.2) s

@[simp] theorem afterAll_nil (s : Signatures) :
    s.afterAll ([] : List (Option UInt32 × Node α)) = s := rfl

@[simp] theorem afterAll_cons (s : Signatures) (x : Option UInt32 × Node α)
    (nodes : List (Option UInt32 × Node α)) :
    s.afterAll (x :: nodes) = (s.after x.1 x.2).afterAll nodes := rfl

@[simp] theorem afterAll_append (s : Signatures) (nodes nodes' : List (Option UInt32 × Node α)) :
    s.afterAll (nodes ++ nodes') = (s.afterAll nodes).afterAll nodes' :=
  List.foldl_append

@[simp] theorem clef_setClef (s : Signatures) (n : UInt32) (c : Clef) : (s.setClef n c).clef n = c := by
  simp [clef, setClef]

end Signatures

variable [Scalar α]

/-- A node that has written down the signatures before it: a measure as a whole, a note the clef of
its staff, by which it takes its height. -/
structure Node.SignedAt (definition : ScoreDefinition) (unit : α) (s : Signatures)
    (staff : Option UInt32) (n : Node α) : Prop where
  measure : ∀ m, n.kind = .measure m → m.signatures = s
  note : ∀ note, n.kind = .element (.note note) → ∃ k, staff = some k ∧
    n.layout.y = locToY (note.location (s.clef k)) (definition.linesOf k) unit

/-- Nodes that have written down the signatures before them, where the first comes behind some. -/
def SignedFrom (definition : ScoreDefinition) (unit : α) : Signatures →
    List (Option UInt32 × Node α) → Prop
  | _, [] => True
  | s, x :: nodes =>
    x.2.SignedAt definition unit s x.1 ∧ SignedFrom definition unit (s.after x.1 x.2) nodes

section SignedFrom

variable {definition : ScoreDefinition} {unit : α}

theorem signedFrom_append {nodes nodes' : List (Option UInt32 × Node α)} {s : Signatures} :
    SignedFrom definition unit s (nodes ++ nodes') ↔
      SignedFrom definition unit s nodes ∧ SignedFrom definition unit (s.afterAll nodes) nodes' := by
  induction nodes generalizing s with
  | nil => simp [SignedFrom]
  | cons x nodes ih => simp [SignedFrom, ih, and_assoc]

/-- Every node finds the signatures as those before it have left them. -/
theorem signedFrom_iff {nodes : List (Option UInt32 × Node α)} {s : Signatures} :
    SignedFrom definition unit s nodes ↔ ∀ before staff n behind,
      nodes = before ++ (staff, n) :: behind →
        n.SignedAt definition unit (s.afterAll before) staff := by
  constructor
  · rintro h before staff n behind rfl
    exact (signedFrom_append.1 h).2.1
  · intro h
    induction nodes generalizing s with
    | nil => trivial
    | cons x nodes ih =>
      refine ⟨h [] x.1 x.2 nodes rfl, ih fun before staff n behind hnodes => ?_⟩
      exact h (x :: before) staff n behind (congrArg (x :: ·) hnodes)

end SignedFrom

/-! ### Nodes that say the same -/

omit [Scalar α] in
/-- Nodes with the same content and the same height. -/
structure Node.SameReading (n n' : Node α) : Prop where
  kind : n'.kind = n.kind
  y : n'.layout.y = n.layout.y

namespace Node.SameReading

variable {definition : ScoreDefinition} {unit : α} {n n' : Node α}

omit [Scalar α] in
theorem refl (n : Node α) : n.SameReading n := ⟨rfl, rfl⟩

omit [Scalar α] in
theorem staffBelow (h : n.SameReading n') (staff : Option UInt32) :
    n'.staffBelow staff = n.staffBelow staff := by
  rw [Node.staffBelow, h.kind, Node.staffBelow]

omit [Scalar α] in
theorem after (h : n.SameReading n') (s : Signatures) (staff : Option UInt32) :
    s.after staff n' = s.after staff n := by
  rw [Signatures.after, h.kind, Signatures.after]

theorem signedAt (h : n.SameReading n') {s : Signatures} {staff : Option UInt32}
    (hn : n.SignedAt definition unit s staff) : n'.SignedAt definition unit s staff where
  measure m hm := hn.measure m (h.kind ▸ hm)
  note note hnote := h.y ▸ hn.note note (h.kind ▸ hnote)

end Node.SameReading

section SameReading

variable {definition : ScoreDefinition} {unit : α} {f f' : Forest (Node α)}

omit [Scalar α] in
theorem Forest.Forall₂.afterAll_onStaves (h : Forest.Forall₂ Node.SameReading f f')
    (staff : Option UInt32) (s : Signatures) :
    s.afterAll (f'.onStaves staff) = s.afterAll (f.onStaves staff) := by
  induction h generalizing staff s with
  | nil => rfl
  | cons hn _ _ hbelow hsiblings =>
    simp [Forest.onStaves, hn.staffBelow, hn.after, hbelow, hsiblings]

theorem Forest.Forall₂.signedFrom (h : Forest.Forall₂ Node.SameReading f f')
    {staff : Option UInt32} {s : Signatures}
    (hf : SignedFrom definition unit s (f.onStaves staff)) :
    SignedFrom definition unit s (f'.onStaves staff) := by
  induction h generalizing staff s with
  | nil => trivial
  | cons hn hb _ hbelow hsiblings =>
    obtain ⟨hfirst, hrest⟩ := hf
    obtain ⟨hc, hs⟩ := signedFrom_append.1 hrest
    refine ⟨hn.signedAt hfirst, signedFrom_append.2 ?_⟩
    rw [hn.staffBelow, hn.after, hb.afterAll_onStaves]
    exact ⟨hbelow hc, hsiblings hs⟩

end SameReading

/-! ### The bearings of the walk -/

/-- What the walk knows of the place that it has come to. -/
structure Bearings where
  signatures : Signatures
  collecting : Bool
  /-- The staves met in the measure. -/
  staves : List UInt32
  staff : UInt32
  lines : UInt8
  /-- The clef of the layer. -/
  clef : Clef

/-- The bearings behind a symbol. -/
def Bearings.after (b : Bearings) : Element → Bearings
  | .clef clef => { b with signatures := b.signatures.setClef b.staff clef, clef }
  | .key key => { b with signatures := { b.signatures with key } }
  | .meter meter => { b with signatures := { b.signatures with meter } }
  | _ => b

namespace AlignState

omit [Scalar α] in
/-- What the walk knows of its place. -/
def bearings (s : AlignState α) : Bearings :=
  ⟨s.signatures, s.collecting, s.staves, s.staff, s.lines, s.layer.clef⟩

variable (s : AlignState α) (n : Node α)

omit [Scalar α] in
@[simp] theorem bearings_updateGrid (f : MeasureGrid α → Except GridFault (MeasureGrid α)) :
    (s.updateGrid f).bearings = s.bearings := by
  rw [updateGrid]
  split
  · split <;> rfl
  · rfl

@[simp] theorem bearings_request (key : SlotKey) : (s.request key).bearings = s.bearings :=
  s.bearings_updateGrid _

@[simp] theorem bearings_draw (key : SlotKey) (rect : Option (Rect α)) :
    (s.draw key rect).bearings = s.bearings := by
  cases rect with
  | none => rfl
  | some r => exact s.bearings_updateGrid _

@[simp] theorem bearings_placeGrace (onset : Fraction) (rank : Nat) (g : PendingGrace α) :
    (s.placeGrace onset rank g).bearings = s.bearings := by
  have hfold : ∀ (s : AlignState α), (g.foldl (fun s d =>
      { s.draw (.ofGrace onset rank) d.rect with
        graceSlots := (d.handle, .ofGrace onset rank) :: s.graceSlots }) s).bearings =
          s.bearings := by
    induction g with
    | nil => exact fun _ => rfl
    | cons d g ih => exact fun s => (ih _).trans (s.bearings_draw _ d.rect)
  exact (hfold _).trans (s.bearings_request _)

@[simp] theorem bearings_placeGraces (onset : Fraction) (graces : List (PendingGrace α)) :
    (s.placeGraces onset graces).bearings = s.bearings := by
  induction graces generalizing s with
  | nil => rfl
  | cons g rest ih => rw [placeGraces, ih, bearings_placeGrace]

@[simp] theorem bearings_flushGraces (onset : Fraction) :
    (s.flushGraces onset).bearings = s.bearings :=
  bearings_placeGraces _ onset _

@[simp] theorem bearings_record (onset advance : Fraction) (y : α) (rect : Option (Rect α)) :
    (s.record n onset advance y rect).1.bearings = s.bearings := rfl

@[simp] theorem bearings_assign (key : SlotKey) : (s.assign n key).1.bearings = s.bearings :=
  s.bearings_draw key _

@[simp] theorem bearings_assignAt (key : SlotKey) : (s.assignAt n key).1.bearings = s.bearings := by
  rw [assignAt, bearings_assign, bearings_request]

omit [Scalar α] in
@[simp] theorem bearings_refuse (reason : DurationError) :
    (s.refuse n reason).bearings = s.bearings := by
  rw [refuse]
  split <;> rfl

omit [Scalar α] in
/-- Moving on changes neither the bearings nor the height of a symbol. -/
@[simp] theorem bearings_advance (time : Fraction) :
    (s.advance n time).1.bearings = s.bearings := by
  rw [advance]
  split
  · rfl
  · exact s.bearings_refuse n _

omit [Scalar α] in
@[simp] theorem y_advance (time : Fraction) :
    (s.advance n time).2.layout.y = n.layout.y := by
  rw [advance]
  split <;> rfl

omit [Scalar α] in
@[simp] theorem bearings_openChord (e : Element) (onset : Fraction) (slot : Option SlotKey) :
    (s.openChord n e onset slot).bearings = s.bearings := by
  cases e <;> rfl

theorem bearings_drawTimed (c : AlignContext α) (grace : Bool) (onset time : Fraction) (y : α)
    (rect : Option (Rect α)) :
    (s.drawTimed c n grace onset time y rect).1.bearings = s.bearings ∧
      (s.drawTimed c n grace onset time y rect).2.1.layout.y = y := by
  cases grace with
  | true => exact ⟨rfl, rfl⟩
  | false =>
    refine ⟨?_, rfl⟩
    calc (s.drawTimed c n false onset time y rect).1.bearings
        = ((s.record n onset time y rect).1.request (.ofKind onset .event)).bearings :=
          (bearings_assign ..).trans (bearings_flushGraces ..)
      _ = s.bearings := bearings_request ..

/-- A timed symbol; a note takes its height by the clef of the layer. -/
theorem bearings_enterTimed (c : AlignContext α) (e : Element) (d : Duration)
    (rect : Option (Rect α)) :
    (s.enterTimed c n e d rect).1.bearings = s.bearings ∧
      (s.enterTimed c n e d rect).2.layout.y = s.symbolY c.unit e := by
  -- the duration may be refused first, which the bearings do not show
  have hdrawn : ∀ (s₁ : AlignState α) (time : Fraction), s₁.bearings = s.bearings →
      let r := s₁.drawTimed c n e.isGrace s.layer.time time (s₁.symbolY c.unit e) rect
      ((r.1.openChord r.2.1 e s.layer.time r.2.2).advance r.2.1 time).1.bearings = s.bearings ∧
        ((r.1.openChord r.2.1 e s.layer.time r.2.2).advance r.2.1 time).2.layout.y =
          s.symbolY c.unit e := by
    intro s₁ time hs₁ r
    obtain ⟨hbearings, hy⟩ :=
      s₁.bearings_drawTimed n c e.isGrace s.layer.time time (s₁.symbolY c.unit e) rect
    have hlines : s₁.lines = s.lines := congrArg Bearings.lines hs₁
    have hclef : s₁.layer.clef = s.layer.clef := congrArg Bearings.clef hs₁
    rw [bearings_advance, bearings_openChord, y_advance]
    refine ⟨hbearings.trans hs₁, hy.trans ?_⟩
    cases e <;> simp only [symbolY, location?, yOf, hlines, hclef]
  rw [enterTimed]
  cases d.advance s.layer.tuplet with
  | ok time => exact hdrawn s time rfl
  | error reason => exact hdrawn (s.refuse n reason) 0 (s.bearings_refuse n reason)

theorem bearings_enterFullMeasure (c : AlignContext α) (e : Element) (rect : Option (Rect α)) :
    (s.enterFullMeasure c n e rect).1.bearings = s.bearings :=
  (bearings_advance ..).trans (bearings_assignAt ..)

theorem bearings_enterUntimed (kind : SlotKind) (rect : Option (Rect α)) :
    (s.enterUntimed n kind rect).1.bearings = s.bearings :=
  bearings_assignAt ..

theorem bearings_enterChordNote (c : AlignContext α) (chord : OpenChord) (note : Note)
    (rect : Option (Rect α)) :
    (s.enterChordNote c chord n note rect).1.bearings = s.bearings ∧
      (s.enterChordNote c chord n note rect).2.layout.y =
        s.yOf c.unit (note.location s.layer.clef) := by
  rw [enterChordNote]
  dsimp only
  split
  · exact ⟨bearings_assign .., rfl⟩
  · exact ⟨rfl, rfl⟩

/-- A symbol that is no note of an open chord. -/
theorem bearings_enterSymbol (c : AlignContext α) (e : Element) (rect : Option (Rect α)) :
    (s.enterSymbol c n e rect).1.bearings = s.bearings.after e := by
  cases e with
  | note | rest | chord | space =>
    rw [enterSymbol]
    exact (bearings_enterTimed ..).1
  | measureRest | multiRest =>
    rw [enterSymbol]
    exact bearings_enterFullMeasure ..
  | clef | key | meter | barLine =>
    rw [enterSymbol]
    exact bearings_enterUntimed ..
  | beam => rfl
  | tuplet num base =>
    rw [enterSymbol]
    obtain ⟨refused, fault, heq, -⟩ := s.enterRatio_eq n num base
    rw [heq]
    rfl

/-- A symbol changes the bearings by what it says. -/
theorem bearings_enterElement (c : AlignContext α) (parent : Option (Node α)) (e : Element) :
    (s.enterElement c parent n e).1.bearings = s.bearings.after e := by
  unfold enterElement
  dsimp only
  split
  · split_ifs
    · exact (bearings_enterChordNote ..).1
    · exact bearings_enterSymbol ..
  · exact bearings_enterSymbol ..

/-- A note takes its height by the clef of its layer, in a chord and outside. -/
theorem y_enterElement (c : AlignContext α) (parent : Option (Node α)) (note : Note) :
    (s.enterElement c parent n (.note note)).2.layout.y =
      locToY (note.location s.bearings.clef) s.bearings.lines c.unit := by
  unfold enterElement
  dsimp only
  split
  · rename_i hnote
    cases hnote
    split_ifs
    · exact (bearings_enterChordNote ..).2
    · rw [enterSymbol]
      exact (bearings_enterTimed ..).2
  · rw [enterSymbol]
    exact (bearings_enterTimed ..).2

omit [Scalar α] in
theorem bearings_leaveElement (e : Element) : (s.leaveElement n e).1.bearings = s.bearings := by
  unfold leaveElement
  dsimp only
  split
  · split_ifs <;> rfl
  · rfl
  · rfl

omit [Scalar α] in
theorem sameReading_leaveElement (e : Element) : n.SameReading (s.leaveElement n e).2 := by
  unfold leaveElement
  dsimp only
  -- closing a chord or a tuplet changes the state alone
  repeat' split
  all_goals exact ⟨rfl, rfl⟩

theorem bearings_leaveLayer : s.leaveLayer.bearings = s.bearings := by
  rw [leaveLayer]
  split_ifs
  · rw [bearings_updateGrid, bearings_flushGraces]
  · rfl

theorem bearings_placeControl (beat last : Fraction) :
    (placeControl beat last s n).1.bearings = s.bearings ∧
      n.SameReading (placeControl beat last s n).2 := by
  rw [placeControl]
  split
  · exact ⟨rfl, .refl n⟩
  · refine ⟨?_, rfl, rfl⟩
    rw [bearings_updateGrid]
    split_ifs <;> rfl

theorem bearings_placeControls (beat last : Fraction) : (f : Forest (Node α)) →
    (s : AlignState α) → (placeControls beat last s f).1.bearings = s.bearings ∧
      Forest.Forall₂ Node.SameReading f (placeControls beat last s f).2
  | .nil, _ => ⟨rfl, .nil⟩
  | .cons n below siblings, s => by
      obtain ⟨hfirst, hn⟩ := s.bearings_placeControl n beat last
      obtain ⟨hrest, hsiblings⟩ :=
        bearings_placeControls beat last siblings (placeControl beat last s n).1
      exact ⟨hrest.trans hfirst, .cons hn (.refl fun b _ => .refl b) hsiblings⟩

end AlignState

/-! ### The walk -/

/-- The bearings inside a layer: the second copy of the clef is in step with the first. -/
structure Bearings.Sound (definition : ScoreDefinition) (b : Bearings) : Prop where
  collecting : b.collecting
  lines : b.lines = definition.linesOf b.staff
  clef : b.clef = b.signatures.clef b.staff

namespace Bearings

variable {definition : ScoreDefinition} {b : Bearings}

theorem staff_after (b : Bearings) (e : Element) : (b.after e).staff = b.staff := by
  cases e <;> rfl

theorem Sound.after (h : b.Sound definition) (e : Element) : (b.after e).Sound definition := by
  cases e with
  | clef clef => exact ⟨h.collecting, h.lines, (Signatures.clef_setClef ..).symm⟩
  | _ => exact ⟨h.collecting, h.lines, h.clef⟩

omit [Scalar α] in
theorem signatures_after {n : Node α} {e : Element} (hn : n.kind = .element e) (b : Bearings) :
    (b.after e).signatures = b.signatures.after (some b.staff) n := by
  rw [Signatures.after, hn]
  cases e <;> rfl

end Bearings

namespace AlignState

variable {c : AlignContext α} {staff : Option UInt32} {s s₁ s₂ s' : AlignState α} {n n' : Node α}
  {below siblings f : Forest (Node α)} {b b₁ b' : Signatures}

/-- What the walk makes of some trees below a staff: it folds the signatures over them, and they
have written them down. -/
structure Signs (c : AlignContext α) (staff : Option UInt32) (b b' : Signatures)
    (f : Forest (Node α)) : Prop where
  signatures : b' = b.afterAll (f.onStaves staff)
  signed : SignedFrom c.document.definition c.unit b (f.onStaves staff)

theorem Signs.nil (c : AlignContext α) (staff : Option UInt32) (b : Signatures) :
    Signs c staff b b .nil := ⟨rfl, trivial⟩

/-- A tree, and those behind it. -/
theorem Signs.cons (hn : n.SignedAt c.document.definition c.unit b staff)
    (hbelow : Signs c (n.staffBelow staff) (b.after staff n) b₁ below)
    (hsiblings : Signs c staff b₁ b' siblings) : Signs c staff b b' (.cons n below siblings) := by
  obtain ⟨rfl, hsigned⟩ := hbelow
  obtain ⟨rfl, hsigned'⟩ := hsiblings
  exact ⟨(Signatures.afterAll_append ..).symm, hn, signedFrom_append.2 ⟨hsigned, hsigned'⟩⟩

theorem Signs.of_sameReading (h : Signs c staff b b' f) {f' : Forest (Node α)}
    (hf : Forest.Forall₂ Node.SameReading f f') : Signs c staff b b' f' :=
  ⟨h.signatures.trans (hf.afterAll_onStaves staff _).symm, hf.signedFrom h.signed⟩

/-- Only measures and notes write the signatures down. -/
theorem signedAt_of_tag {definition : ScoreDefinition} {unit : α} (hm : n.tag ≠ .measure)
    (he : n.tag ≠ .element) : n.SignedAt definition unit b staff where
  measure _ h := absurd (congrArg NodeKind.tag h) hm
  note _ h := absurd (congrArg NodeKind.tag h) he

omit [Scalar α] in
/-- Only a staff changes what staff one is on. -/
theorem staffBelow_of_tag (hn : n.tag ≠ .staff) (staff : Option UInt32) :
    n.staffBelow staff = staff := by
  rw [Node.staffBelow]
  split
  · rename_i h
    exact absurd (congrArg NodeKind.tag h) hn
  · rfl

omit [Scalar α] in
/-- Only changes and symbols say something of the signatures. -/
theorem after_of_tag (hc : n.tag ≠ .change) (he : n.tag ≠ .element) (b : Signatures)
    (staff : Option UInt32) : b.after staff n = b := by
  rw [Node.tag] at hc he
  rw [Signatures.after]
  cases hk : n.kind <;> rw [hk] at hc he <;>
    first | rfl | exact absurd rfl hc | exact absurd rfl he

/-- A node that says nothing of the signatures, with the trees behind it. -/
theorem Signs.passed (hm : n.tag ≠ .measure) (he : n.tag ≠ .element) (hc : n.tag ≠ .change)
    (hbelow : Signs c (n.staffBelow staff) b b₁ below) (hsiblings : Signs c staff b₁ b' siblings) :
    Signs c staff b b' (.cons n below siblings) :=
  .cons (signedAt_of_tag hm he) (by rwa [after_of_tag hc he]) hsiblings

/-- The symbols of a layer, or of a group in it. -/
theorem signs_symbols {above : Option (Node α)} {f' : Forest (Node α)}
    (h : Forest.Completes (alignPass c) above s f s' f') (hf : f.Symbolic)
    (hs : s.bearings.Sound c.document.definition) :
    Signs c (some s.staff) s.signatures s'.signatures f' ∧
      s'.bearings.Sound c.document.definition ∧ s'.staff = s.staff := by
  induction h with
  | nil => exact ⟨.nil .., hs, rfl⟩
  | skip henter _ _ =>
    obtain ⟨e, hn⟩ := Node.exists_element hf.1
    cases (exists_of_enter_element hn hs.collecting henter (by decide)).1
  | @walk above s s₁ s₂ s₃ s₄ n n₁ n₂ children siblings children₁ children₂ siblings' whole v henter
      _ hleave _ _ ihbelow ihbeside =>
    obtain ⟨htag, -, hchildren, hsiblings⟩ := hf
    obtain ⟨e, hn⟩ := Node.exists_element htag
    obtain ⟨-, hs₁, hn₁, -⟩ := exists_of_enter_element hn hs.collecting henter (by decide)
    have hkind := (writes_enterElement c s n above e).kind.trans hn
    have henters := s.bearings_enterElement n c above e
    rw [← hn₁] at hkind
    rw [← hs₁] at henters
    rw [leave_of_element hkind, Prod.mk.injEq, Prod.mk.injEq, Prod.mk.injEq] at hleave
    obtain ⟨rfl, rfl, rfl, -⟩ := hleave
    have hleaves := s₂.bearings_leaveElement n₁ e
    have hreads := s₂.sameReading_leaveElement n₁ e
    have hkind₂ := hreads.kind.trans hkind
    have htag₂ : (s₂.leaveElement n₁ e).2.tag = .element := congrArg NodeKind.tag hkind₂
    -- the staff stays the same on the way
    have hstaff₁ : s₁.staff = s.staff :=
      (congrArg Bearings.staff henters).trans (s.bearings.staff_after e)
    obtain ⟨hbelow, hsound₂, hstaff₂⟩ := ihbelow hchildren (henters ▸ hs.after e)
    have hstaff₃ : (s₂.leaveElement n₁ e).1.staff = s.staff :=
      (congrArg Bearings.staff hleaves).trans (hstaff₂.trans hstaff₁)
    obtain ⟨hbeside, hsound, hstaff⟩ := ihbeside hsiblings (hleaves ▸ hsound₂)
    rw [hstaff₁, ← staffBelow_of_tag (by rw [htag₂]; decide) (some s.staff),
      show s₁.signatures = s.signatures.after (some s.staff) (s₂.leaveElement n₁ e).2 from
        (congrArg Bearings.signatures henters).trans (Bearings.signatures_after hkind₂ _)] at hbelow
    rw [hstaff₃, show (s₂.leaveElement n₁ e).1.signatures = s₂.signatures from
      congrArg Bearings.signatures hleaves] at hbeside
    refine ⟨.cons (hreads.signedAt ⟨fun m hm => ?_, fun note hnote => ?_⟩) hbelow hbeside, hsound,
      hstaff.trans hstaff₃⟩
    · cases hkind.symm.trans hm
    · cases hkind.symm.trans hnote
      refine ⟨s.staff, rfl, ?_⟩
      rw [hn₁, s.y_enterElement n c above note, hs.clef, hs.lines]
      rfl

/-- The layers of a staff. -/
theorem signs_layers {above : Option (Node α)} {f' : Forest (Node α)}
    (h : Forest.Completes (alignPass c) above s f s' f') (hf : f.Nested)
    (hroots : ∀ n ∈ f.roots, n.tag = .layer) (hs : s.collecting)
    (hlines : s.lines = c.document.definition.linesOf s.staff) :
    Signs c (some s.staff) s.signatures s'.signatures f' ∧ s'.collecting := by
  induction h with
  | nil => exact ⟨.nil .., hs⟩
  | skip henter _ _ =>
    obtain ⟨k, hn⟩ := Node.exists_layer (hroots _ List.mem_cons_self)
    simp [alignPass, enter, hn] at henter
  | @walk above s s₁ s₂ s₃ s₄ n n₁ n₂ children siblings children₁ children₂ siblings' whole v henter
      hbelow hleave hgo _ _ ihbeside =>
    rw [Forest.roots, List.forall_mem_cons] at hroots
    obtain ⟨htakes, hchildren, hsiblings⟩ := hf
    obtain ⟨k, hn⟩ := Node.exists_layer hroots.1
    obtain ⟨hkind, rfl⟩ := enter_of_layer hn henter
    obtain ⟨rfl, rfl, rfl, -⟩ := leave_of_layer (hkind.trans hn) hleave hgo
    have htag : n₂.tag = .layer := congrArg NodeKind.tag (hkind.trans hn)
    have hsymbols : children.Symbolic := hchildren.symbolic fun b hb =>
      NodeKind.tag_of_layer hroots.1 (htakes b hb)
    -- the cursor starts with the clef of the staff
    obtain ⟨hwalked, hsound, hstaff⟩ := signs_symbols hbelow hsymbols ⟨hs, hlines, rfl⟩
    have hleaves := s₂.bearings_leaveLayer
    have hstaff₃ : s₂.leaveLayer.staff = s.staff := (congrArg Bearings.staff hleaves).trans hstaff
    obtain ⟨hrest, hcollecting⟩ := ihbeside hsiblings hroots.2
      ((congrArg Bearings.collecting hleaves).trans hsound.collecting)
      ((congrArg Bearings.lines hleaves).trans
        (hsound.lines.trans (congrArg _ (hstaff.trans hstaff₃.symm))))
    rw [hstaff₃, show s₂.leaveLayer.signatures = s₂.signatures from
      congrArg Bearings.signatures hleaves] at hrest
    rw [← staffBelow_of_tag (by rw [htag]; decide : n₂.tag ≠ .staff) (some s.staff)] at hwalked
    exact ⟨.passed (by rw [htag]; decide) (by rw [htag]; decide) (by rw [htag]; decide) hwalked
      hrest, hcollecting⟩

/-- The staves of a measure, and the control elements among them. -/
theorem signs_staves {above : Option (Node α)} {f' : Forest (Node α)}
    (h : Forest.Completes (alignPass c) above s f s' f') (hf : f.Nested)
    (hroots : ∀ n ∈ f.roots, n.tag = .staff ∨ n.tag = .control) (hs : s.collecting) :
    Signs c none s.signatures s'.signatures f' := by
  induction h with
  | nil => exact .nil ..
  | skip henter _ ih =>
    rw [Forest.roots, List.forall_mem_cons] at hroots
    obtain htag | htag := hroots.1
    · obtain ⟨staff, hn⟩ := Node.exists_staff htag
      simp [alignPass, enter, hn] at henter
    · obtain ⟨k, hn⟩ := Node.exists_control htag
      obtain rfl := eq_nil_of_control hn hf.1
      obtain ⟨rfl, rfl, -⟩ := enter_of_control hn henter
      exact .passed (by rw [htag]; decide) (by rw [htag]; decide) (by rw [htag]; decide) (.nil ..)
        (ih hf.2.2 hroots.2 hs)
  | @walk above s s₁ s₂ s₃ s₄ n n₁ n₂ children siblings children₁ children₂ siblings' whole v henter
      hbelow hleave hgo _ _ ihbeside =>
    rw [Forest.roots, List.forall_mem_cons] at hroots
    obtain ⟨htakes, hchildren, hsiblings⟩ := hf
    obtain htag | htag := hroots.1
    · obtain ⟨staff, hn⟩ := Node.exists_staff htag
      have hlayers : ∀ b ∈ children.roots, b.tag = .layer := fun b hb => by
        have := htakes b hb
        rw [hn] at this
        rw [Node.tag]
        cases hk : b.kind <;> simp [hk, NodeKind.accepts, NodeKind.tag] at this ⊢
      dsimp only [alignPass] at henter
      rw [enter, hn] at henter
      simp only [enterStaff, Prod.mk.injEq] at henter
      obtain ⟨rfl, rfl, -⟩ := henter
      have htag₂ : (n.mapLayout fun l => { l with staff := some staff.n }).tag = .staff := htag
      obtain ⟨rfl, rfl, rfl⟩ := leave_of_tag (by rw [htag₂]; decide) (by rw [htag₂]; decide)
        (by rw [htag₂]; decide) hleave
      obtain ⟨hwalked, hcollecting⟩ := signs_layers hbelow hchildren hlayers hs rfl
      have hstaff : (n.mapLayout fun l => { l with staff := some staff.n }).staffBelow none =
          some staff.n := by
        rw [Node.staffBelow, Node.mapLayout, hn]
      exact .passed (by rw [htag₂]; decide) (by rw [htag₂]; decide) (by rw [htag₂]; decide)
        (hstaff.symm ▸ hwalked) (ihbeside hsiblings hroots.2 hcollecting)
    · obtain ⟨k, hn⟩ := Node.exists_control htag
      cases (enter_of_control hn henter).2.2

/-- Entering a measure writes the signatures down. -/
theorem signatures_of_measure {m : Measure α} (hn : n.kind = .measure m) {above : Option (Node α)}
    {v : Visit} (h : (alignPass c).enter s above n = (s₁, n', v)) :
    (∃ m', n'.kind = .measure m' ∧ m'.signatures = s.signatures) ∧ s₁.signatures = s.signatures ∧
      s₁.collecting := by
  dsimp only [alignPass] at h
  rw [enter, hn] at h
  simp only [enterMeasure, MeasureGrid.begin_empty, Prod.mk.injEq] at h
  obtain ⟨rfl, rfl, -⟩ := h
  exact ⟨⟨_, rfl, rfl⟩, rfl, rfl⟩

/-- Leaving a measure closes its time grid and places its control elements. -/
theorem signatures_leaveMeasure (s : AlignState α) (c : AlignContext α) (below : Forest (Node α))
    {m : Measure α} (hn : n.kind = .measure m) :
    (s.leaveMeasure c n m below).1.signatures = s.signatures ∧
      (∃ m', (s.leaveMeasure c n m below).2.1.kind = .measure m' ∧ m'.signatures = m.signatures) ∧
      Forest.Forall₂ Node.SameReading below (s.leaveMeasure c n m below).2.2 := by
  rw [leaveMeasure]
  obtain ⟨hbearings, hbelow⟩ := bearings_placeControls s.signatures.meter.beatDuration
    (s.grids.headD m.grid).maxTime below s
  have hsignatures := congrArg Bearings.signatures hbearings
  dsimp only
  split
  · exact ⟨hsignatures, ⟨_, rfl, rfl⟩, hbelow⟩
  · exact ⟨hsignatures, ⟨m, hn, rfl⟩, hbelow⟩

/-- Entering a node above measures, or beside them, follows the signatures. -/
theorem signatures_of_outer (hn : IsOuter n) (hm : n.tag ≠ .measure)
    {above : Option (Node α)} {v : Visit} (h : (alignPass c).enter s above n = (s₁, n', v)) :
    s₁.signatures = s.signatures.after none n := by
  obtain ⟨hs, hl, he⟩ := hn
  dsimp only [alignPass] at h
  rw [enter] at h
  rw [Node.tag] at hs hl he hm
  rw [Signatures.after]
  cases hk : n.kind with
  | measure | staff | layer | element => simp [hk, NodeKind.tag] at hs hl he hm
  | _ =>
    rw [hk] at h
    simp only [Prod.mk.injEq] at h
    obtain ⟨rfl, -⟩ := h
    rfl

/-- The trees of a score. -/
theorem signs_score {above : Option (Node α)} {f' : Forest (Node α)}
    (h : Forest.Completes (alignPass c) above s f s' f') (hf : f.Nested)
    (hroots : ∀ n ∈ f.roots, IsOuter n) : Signs c none s.signatures s'.signatures f' := by
  induction h with
  | nil => exact .nil ..
  | @skip above s s₁ s₂ n n₁ children siblings siblings' henter _ ih =>
    rw [Forest.roots, List.forall_mem_cons] at hroots
    obtain ⟨k, hn⟩ := exists_control_of_skip hroots.1 henter
    have htag : n.tag = .control := congrArg NodeKind.tag hn
    obtain rfl := eq_nil_of_control hn hf.1
    obtain ⟨rfl, rfl, -⟩ := enter_of_control hn henter
    exact .passed (by rw [htag]; decide) (by rw [htag]; decide) (by rw [htag]; decide) (.nil ..)
      (ih hf.2.2 hroots.2)
  | @walk above s s₁ s₂ s₃ s₄ n n₁ n₂ children siblings children₁ children₂ siblings' whole v henter
      hbelow hleave hgo _ ihbelow ihbeside =>
    rw [Forest.roots, List.forall_mem_cons] at hroots
    obtain ⟨htakes, hchildren, hsiblings⟩ := hf
    have hrest := ihbeside hsiblings hroots.2
    by_cases hm : n.tag = .measure
    · obtain ⟨m, hn⟩ := NodeKind.exists_of_measure hm
      obtain ⟨⟨m₁, hn₁, hwritten⟩, hsignatures, hcollecting⟩ := signatures_of_measure hn henter
      obtain ⟨rfl, rfl, rfl, -⟩ := leave_of_measure hn₁ hleave hgo
      have hstaves := fun b hb => tag_of_accepts_measure hm (htakes b hb)
      have hwalked := signs_staves hbelow hchildren hstaves hcollecting
      obtain ⟨hsignatures₃, ⟨m₂, hn₂, hkept⟩, hsame⟩ :=
        s₂.signatures_leaveMeasure c children₁ hn₁
      have htag₂ : (s₂.leaveMeasure c n₁ m₁ children₁).2.1.tag = .measure :=
        congrArg NodeKind.tag hn₂
      rw [hsignatures₃] at hrest
      rw [hsignatures, ← staffBelow_of_tag (by rw [htag₂]; decide) none,
        ← after_of_tag (by rw [htag₂]; decide) (by rw [htag₂]; decide) s.signatures none] at hwalked
      refine .cons ⟨fun m' hm' => ?_, fun note hnote => ?_⟩ (hwalked.of_sameReading hsame) hrest
      · obtain rfl := NodeKind.measure.inj (hn₂.symm.trans hm')
        exact hkept.trans hwritten
      · cases hn₂.symm.trans hnote
    · by_cases hc : n.tag = .control
      · obtain ⟨k, hn⟩ := Node.exists_control hc
        cases (enter_of_control hn henter).2.2
      obtain ⟨-, rfl, -⟩ := enter_of_outer hroots.1 hm hc henter
      have hsignatures := signatures_of_outer hroots.1 hm henter
      obtain ⟨rfl, rfl, rfl⟩ := leave_of_tag hm hroots.1.2.1 hroots.1.2.2 hleave
      have houter := isOuter_of_accepts hroots.1 hm htakes
      have hwalked := ihbelow hchildren houter
      rw [hsignatures] at hwalked
      exact .cons (signedAt_of_tag hm hroots.1.2.2) (by rwa [staffBelow_of_tag hroots.1.1]) hrest

end AlignState

/-! ### Documents -/

namespace Document

omit [Scalar α] in
theorem sameReading_applyGraceSlots (n : Node α) (slots : List (Handle × SlotKey)) :
    n.SameReading (AlignState.applyGraceSlots slots n) := by
  rw [AlignState.applyGraceSlots]
  split
  · exact ⟨rfl, rfl⟩
  · exact .refl n

/-- Whether all nodes of a document have written down the signatures before them: the score
definition changed by everything that stands before. -/
def Signed (d : Document α) (unit : α) : Prop :=
  ∀ before staff n behind, d.score.onStaves none = before ++ (staff, n) :: behind →
    n.SignedAt d.definition unit ((Signatures.ofDefinition d.definition).afterAll before) staff

/-- Alignment that meets no fault folds the signatures. -/
theorem WellFormed.signed_align {d : Document α} (hd : d.WellFormed) {metrics : GlyphMetrics α}
    {unit : α} (hok : (d.align metrics unit).fault = none) :
    (d.align metrics unit).document.Signed unit := by
  obtain ⟨s, score, hwalk, -, -, -, hscore⟩ := exists_align hok
  have hsigns := AlignState.signs_score hwalk hd.nested_score hd.isOuter_root
  have hreads : Forest.Forall₂ Node.SameReading score
      (score.map (AlignState.applyGraceSlots s.graceSlots)) :=
    .map_right _ fun n _ => sameReading_applyGraceSlots n s.graceSlots
  have hsigned := hreads.signedFrom hsigns.signed
  rw [← hscore] at hsigned
  intro before staff n behind hnodes
  rw [(d.sameTree_align metrics unit).definition]
  exact signedFrom_iff.1 hsigned before staff n behind hnodes

/-- Whatever a caller comes to, alignment that meets no fault folds the signatures. -/
theorem Reachable.signed_of_align {d : Document α} (h : d.Reachable) {metrics : GlyphMetrics α}
    {unit : α} (hok : (d.align metrics unit).fault = none) :
    (d.align metrics unit).document.Signed unit :=
  h.wellFormed.signed_align hok

/-- A clef inside a beam counts for the notes behind it and for the next measure, a meter between
the measures for the latter only. -/
theorem Reachable.signed_of_clef_in_beam : ∃ d : Document ℚ, d.Reachable ∧
    (d.align .default 9).fault = none ∧ (d.align .default 9).document.Signed 9 ∧
    ((d.align .default 9).document.score.toList.filterMap fun n => n.kind.measure?).map
      (fun m => (m.signatures.clef 1, m.signatures.meter)) =
        [(.treble, ⟨4, 4⟩), (.bass, ⟨3, 4⟩)] ∧
    ((d.align .default 9).document.score.toList.filter fun n => n.tag = .element).map
      (fun n => n.layout.y) = [0, 90, 0, -18] := by
  have hlayer := (((Reachable.ofDefinition (α := ℚ) default).contentSystem.add 2
    (.measure (.ofNumber 1))).add 3 (.staff ⟨1, false⟩)).add 4 (.layer 1)
  have hbeam := (((hlayer.add 5 (.element .beam)).add 6
    (.element (.note ⟨.ofValue .eighth, ⟨.c, 4, none⟩, none, false⟩))).add 6
    (.element (.clef .bass))).add 6
    (.element (.note ⟨.ofValue .eighth, ⟨.c, 4, none⟩, none, false⟩))
  have hd := (hbeam.add 2 (.change ⟨none, some ⟨3, 4⟩, []⟩)).add 2 (.measure (.ofNumber 2))
  have hprepared := hd.pass .default .prepare (by decide +kernel)
  refine ⟨_, hprepared, ?_, hprepared.signed_of_align ?_, ?_, ?_⟩
  · decide +kernel
  · decide +kernel
  · decide +kernel
  · decide +kernel

end Document

end ScoreLayout
