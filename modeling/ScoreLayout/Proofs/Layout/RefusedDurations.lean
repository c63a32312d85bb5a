import ScoreLayout.Proofs.Breakdowns
import ScoreLayout.Proofs.Layout.Symbols

/-!
# Durations that alignment refuses

A symbol is refused where its duration cannot be resolved, or where the sum of its duration and the
time that its layer has come to does not fit; a tuplet is refused where its ratio counts for nothing.
Entering a symbol reports it once if it is refused, and not at all otherwise. A symbol whose duration
has been refused asks for a time of zero, which always fits, so that no symbol is reported twice.

## Main definitions

* `Element.IsRefused`, `Symbol.IsRefused` — the symbols that are refused.
* `refusals` — the marks on durations among some marks.
* `ReportsFrom`, `Forest.Reported` — the marks on the symbols of a layer, and of all layers.
* `AlignState.Reports` — what entering a symbol reports.

## Main results

* `AlignState.reports_enterSymbol` — a symbol that is no note of an open chord.
-/

namespace ScoreLayout

variable {α : Type}

/-- A time over a positive denominator stays as it is when nothing is added. -/
theorem Fraction.exists_add_zero {a : Fraction} (ha : 0 < a.den) : ∃ sum, a.add 0 = .ok sum := by
  obtain ⟨sum, hsum⟩ := exists_reduced? a.num_fits a.den_fits ha
  have hword {z : ℤ} (hz : FitsWord z) : word? z = some z := word?_eq_some_iff.2 ⟨rfl, hz⟩
  have hgcd : (Int.gcd a.den (0 : Fraction).den : ℤ) = 1 := by
    rw [show (0 : Fraction).den = 1 from rfl, Int.gcd_one_right]
    rfl
  have hterms : commonTerms? a 0 = some (a.num, 0, a.den) := by
    rw [commonTerms?, hgcd, show (0 : Fraction).den = 1 from rfl, show (0 : Fraction).num = 0 from rfl]
    simp only [Int.ediv_one, mul_one, mul_zero, hword a.den_fits, Option.bind_eq_bind,
      Option.bind_some, Int.ediv_self a.den_ne_zero, one_mul, hword a.num_fits,
      hword (show FitsWord 0 by decide)]
    rfl
  rw [add, hgcd, if_neg (not_not.2 (by decide)), hterms]
  dsimp only
  rw [add_zero, hword a.num_fits]
  dsimp only
  exact ⟨sum, by rw [hsum]⟩

/-! ### Refused symbols -/

/-- Whether a symbol is refused under a ratio and a meter when its layer has come to a time. Grace
notes ask for no time. -/
def Element.IsRefused (e : Element) (ratio : TupletRatio) (meter : MeterSig) (time : Fraction) : Prop :=
  match e with
  | .tuplet num base =>
    num = 0 ∨ base = 0 ∨ ∃ why, ratio.combine num.toNat base.toNat = .error why
  | e =>
    ¬ e.isGrace ∧ (∃ why, e.time? ratio meter = some (.error why)) ∨
      ∃ given why, e.given ratio meter = some (.ok given) ∧ time.add given = .error why

/-- Whether a symbol of a layer is refused under a meter. The notes of a chord never are. -/
def Symbol.IsRefused (x : Symbol α) (meter : MeterSig) : Prop :=
  x.chord = none ∧ ∃ onset, x.node.layout.onset = some onset ∧
    x.element.IsRefused x.ratio meter onset

/-- The marks on durations among some marks. -/
def refusals (marks : List Mark) : List Mark :=
  marks.filter fun k => k.kind = Mark.Kind.invalidDuration.id

theorem refusals_append (marks marks' : List Mark) :
    refusals (marks ++ marks') = refusals marks ++ refusals marks' := List.filter_append ..

/-- The marks on some symbols that are reached under a meter: one for each that is refused, in
document order. -/
inductive ReportsFrom : MeterSig → List (Symbol α) → List Mark → Prop
  | nil (meter : MeterSig) : ReportsFrom meter [] []
  | refused {meter : MeterSig} {x : Symbol α} {rest : List (Symbol α)} {k : Mark} {marks : List Mark}
      (hx : x.IsRefused meter) (hk : k.RefusesDuration x.node.id)
      (hrest : ReportsFrom (x.node.meterAfter meter) rest marks) :
      ReportsFrom meter (x :: rest) (k :: marks)
  | taken {meter : MeterSig} {x : Symbol α} {rest : List (Symbol α)} {marks : List Mark}
      (hx : ¬ x.IsRefused meter) (hrest : ReportsFrom (x.node.meterAfter meter) rest marks) :
      ReportsFrom meter (x :: rest) marks

theorem ReportsFrom.append {meter : MeterSig} {l l' : List (Symbol α)} {marks marks' : List Mark}
    (h : ReportsFrom meter l marks)
    (h' : ReportsFrom (runningMeter meter (l.map Symbol.node)) l' marks') :
    ReportsFrom meter (l ++ l') (marks ++ marks') := by
  induction h with
  | nil => exact h'
  | refused hx hk _ ih => exact .refused hx hk (ih h')
  | taken hx _ ih => exact .taken hx (ih h')

theorem ReportsFrom.refusals_eq {meter : MeterSig} {l : List (Symbol α)} {marks : List Mark}
    (h : ReportsFrom meter l marks) : refusals marks = marks := by
  refine List.filter_eq_self.2 ?_
  induction h with
  | nil => exact fun _ hk => absurd hk List.not_mem_nil
  | refused _ hk _ ih => exact List.forall_mem_cons.2 ⟨decide_eq_true hk.2, ih⟩
  | taken _ _ ih => exact ih

/-- Marks come in document order, and they name symbols. -/
theorem ReportsFrom.sublist {meter : MeterSig} {l : List (Symbol α)} {marks : List Mark}
    (h : ReportsFrom meter l marks) :
    (marks.map Mark.node).Sublist (l.map fun x => some x.node.id) := by
  induction h with
  | nil => exact .slnil
  | refused _ hk _ ih =>
    rw [List.map_cons, List.map_cons, hk.1]
    exact ih.cons_cons _
  | taken _ _ ih => exact ih.cons _

theorem exists_append_cons_iff {β : Type} {y : β} {l : List β} {P : List β → β → Prop} :
    (∃ front x back, y :: l = front ++ x :: back ∧ P front x) ↔
      P [] y ∨ ∃ front x back, l = front ++ x :: back ∧ P (y :: front) x := by
  constructor
  · rintro ⟨front, x, back, heq, h⟩
    cases front with
    | nil =>
      obtain ⟨rfl, rfl⟩ := List.cons.inj heq
      exact .inl h
    | cons z front =>
      obtain ⟨rfl, rfl⟩ := List.cons.inj heq
      exact .inr ⟨front, x, back, rfl, h⟩
  · rintro (h | ⟨front, x, back, rfl, h⟩)
    · exact ⟨[], y, l, rfl, h⟩
    · exact ⟨y :: front, x, back, rfl, h⟩

/-- The symbols that marks name are those that are refused. -/
theorem ReportsFrom.mem_iff {meter : MeterSig} {l : List (Symbol α)} {marks : List Mark}
    (h : ReportsFrom meter l marks) {id : String} : some id ∈ marks.map Mark.node ↔
      ∃ front x back, l = front ++ x :: back ∧ x.node.id = id ∧
        x.IsRefused (runningMeter meter (front.map Symbol.node)) := by
  induction h with
  | nil => simp
  | @refused meter x rest k marks hx hk _ ih =>
    rw [exists_append_cons_iff, List.map_cons, List.mem_cons, hk.1, Option.some.injEq, ih]
    exact or_congr ⟨fun heq => ⟨heq.symm, hx⟩, fun h => h.1.symm⟩ Iff.rfl
  | @taken meter x rest marks hx _ ih =>
    rw [exists_append_cons_iff, ih]
    exact (or_iff_right fun h => hx h.2).symm

theorem Symbol.SameTiming.isRefused {x x' : Symbol α} (h : x.SameTiming x') {meter : MeterSig} :
    x'.IsRefused meter ↔ x.IsRefused meter := by
  rw [IsRefused, IsRefused, h.chord_eq_none, h.node.onset h.ne_control, h.element, h.ratio]

theorem ReportsFrom.of_sameTiming {l l' : List (Symbol α)} (h : List.Forall₂ Symbol.SameTiming l l')
    {meter : MeterSig} {marks : List Mark} (hl : ReportsFrom meter l marks) :
    ReportsFrom meter l' marks := by
  induction h generalizing meter marks with
  | nil => exact hl
  | cons hx _ ih =>
    cases hl with
    | refused hrefused hk hrest =>
      exact .refused (hx.isRefused.2 hrefused) (hx.node.id ▸ hk) (hx.node.meterAfter _ ▸ ih hrest)
    | taken htaken hrest =>
      exact .taken (mt hx.isRefused.1 htaken) (hx.node.meterAfter _ ▸ ih hrest)

/-- The marks on the symbols of all layers of a forest that is reached under a meter. -/
inductive Forest.Reported : MeterSig → Forest (Node α) → List Mark → Prop
  | nil (meter : MeterSig) : Reported meter .nil []
  | layer {meter : MeterSig} {n : Node α} {below siblings : Forest (Node α)}
      {deep beside : List Mark} (hn : n.tag = .layer)
      (hbelow : ReportsFrom (n.meterAfter meter) (below.symbols .one none) deep)
      (hsiblings : Reported (runningMeter (n.meterAfter meter) below.toList) siblings beside) :
      Reported meter (.cons n below siblings) (deep ++ beside)
  | frame {meter : MeterSig} {n : Node α} {below siblings : Forest (Node α)}
      {deep beside : List Mark} (hn : n.tag ≠ .layer)
      (hbelow : Reported (n.meterAfter meter) below deep)
      (hsiblings : Reported (runningMeter (n.meterAfter meter) below.toList) siblings beside) :
      Reported meter (.cons n below siblings) (deep ++ beside)

/-- A tree, and those behind it. -/
theorem Forest.Reported.cons {meter : MeterSig} {n : Node α} {below siblings : Forest (Node α)}
    {marks marks' : List Mark} (h : (Forest.tree n below).Reported meter marks)
    (h' : siblings.Reported (runningMeter meter (n :: below.toList)) marks') :
    (Forest.cons n below siblings).Reported meter (marks ++ marks') := by
  cases h with
  | layer hn hbelow hsiblings =>
    cases hsiblings
    rw [List.append_nil]
    exact .layer hn hbelow h'
  | frame hn hbelow hsiblings =>
    cases hsiblings
    rw [List.append_nil]
    exact .frame hn hbelow h'

/-! ### Entering a symbol -/

namespace AlignState

/-- What the state after a symbol reports of it: one refused duration, or nothing. -/
def Reports (s s' : AlignState α) (id : String) (refused : Prop) : Prop :=
  refused ∧ (∃ k, s'.marks = s.marks ++ [k] ∧ k.RefusesDuration id) ∨ ¬ refused ∧ s'.marks = s.marks

variable {s s₁ s₂ : AlignState α} {n : Node α} {e : Element} {time : Fraction}

theorem refuse_layer (s : AlignState α) (n : Node α) (why : DurationError) :
    (s.refuse n why).layer = s.layer := by
  rw [refuse]
  split <;> rfl

/-- A refusal that is survived is one report. -/
theorem refuse_eq_of_fault {why : DurationError} (h : (s.refuse n why).fault = none) : ∃ k,
    s.refuse n why = { s with marks := s.marks ++ [k] } ∧ k.RefusesDuration n.id := by
  rw [refuse] at h ⊢
  cases hmessage : why.message? with
  | some text => exact ⟨_, rfl, rfl, rfl⟩
  | none =>
    rw [hmessage] at h
    cases h

/-- Moving the layer on reports a sum that does not fit. -/
theorem reports_advance (hfault : (s.advance n time).1.fault = none) (hden : 0 < s.layer.time.den) :
    0 < (s.advance n time).1.layer.time.den ∧
      s.Reports (s.advance n time).1 n.id (∃ why, s.layer.time.add time = .error why) := by
  rw [advance] at hfault ⊢
  cases hadd : s.layer.time.add time with
  | ok total =>
    refine ⟨Fraction.den_pos_of_add hadd, .inr ⟨?_, rfl⟩⟩
    rintro ⟨why, hwhy⟩
    cases hwhy
  | error why =>
    rw [hadd] at hfault
    obtain ⟨k, heq, hk⟩ := refuse_eq_of_fault hfault
    dsimp only
    rw [heq]
    exact ⟨hden, .inl ⟨⟨why, rfl⟩, k, rfl, hk⟩⟩

/-- The same behind steps that report nothing. -/
theorem reports_advance_of_eq {n₂ : Node α} (hfault : (s₂.advance n₂ time).1.fault = none)
    (htime : s₂.layer.time = s.layer.time) (hmarks : s₂.marks = s.marks) (hid : n₂.id = n.id)
    (hden : 0 < s.layer.time.den) : s₂.fault = none ∧
      0 < (s₂.advance n₂ time).1.layer.time.den ∧
        s.Reports (s₂.advance n₂ time).1 n.id (∃ why, s.layer.time.add time = .error why) := by
  obtain ⟨hpos, hreports⟩ := reports_advance hfault (htime ▸ hden)
  obtain ⟨reached, longest, refused, fault, n', heq, -, -, hkept⟩ := s₂.advance_eq n₂ time
  rw [heq] at hfault
  refine ⟨(hkept hfault).1, hpos, ?_⟩
  rwa [Reports, hmarks, hid, htime] at hreports

variable [Scalar α]

/-- A timed symbol that is drawn, and moves its layer on. -/
theorem reports_timed (c : AlignContext α) (s : AlignState α) (n : Node α) (e : Element)
    {onset : Fraction} (honset : onset = s.layer.time) (time : Fraction) (y : α)
    (rect : Option (Rect α)) {r : AlignState α × Node α × Option SlotKey}
    (hr : s.drawTimed c n e.isGrace onset time y rect = r)
    (hfault : ((r.1.openChord r.2.1 e onset r.2.2).advance r.2.1 time).1.fault = none)
    (hden : 0 < onset.den) : s.fault = none ∧
      0 < ((r.1.openChord r.2.1 e onset r.2.2).advance r.2.1 time).1.layer.time.den ∧
        s.Reports ((r.1.openChord r.2.1 e onset r.2.2).advance r.2.1 time).1 n.id
          (∃ why, onset.add time = .error why) := by
  obtain ⟨hdraws, -, -, hid, -⟩ := s.draws_drawTimed c n e.isGrace onset time y rect
  rw [hr] at hdraws hid
  obtain ⟨htime, hmarks, hsame⟩ : (r.1.openChord r.2.1 e onset r.2.2).layer.time = r.1.layer.time ∧
      (r.1.openChord r.2.1 e onset r.2.2).marks = r.1.marks ∧
        (r.1.openChord r.2.1 e onset r.2.2).fault = r.1.fault := by
    unfold openChord
    split <;> exact ⟨rfl, rfl, rfl⟩
  rw [hdraws.time] at htime
  rw [hdraws.marks] at hmarks
  subst honset
  obtain ⟨hnone, hreports⟩ := reports_advance_of_eq hfault htime hmarks hid hden
  exact ⟨hdraws.fault (hsame ▸ hnone), hreports⟩

/-- A symbol with a duration of its own. -/
theorem reports_enterTimed (c : AlignContext α) (s : AlignState α) (n : Node α) {e : Element}
    {d : Duration} (rect : Option (Rect α)) (he : e.duration? = some d)
    (hfault : (s.enterTimed c n e d rect).1.fault = none) (hden : 0 < s.layer.time.den) :
    0 < (s.enterTimed c n e d rect).1.layer.time.den ∧ s.Reports (s.enterTimed c n e d rect).1 n.id
      (e.IsRefused s.layer.tuplet s.signatures.meter s.layer.time) := by
  have hrefused : e.IsRefused s.layer.tuplet s.signatures.meter s.layer.time ↔
      (∃ why, d.advance s.layer.tuplet = .error why) ∨
        ∃ given why, d.advance s.layer.tuplet = .ok given ∧ s.layer.time.add given = .error why := by
    have hgrace : e.isGrace = d.grace := by rw [Element.isGrace, he]; rfl
    have hasks : e.time? s.layer.tuplet s.signatures.meter = some (d.resolve s.layer.tuplet) ∧
        e.given s.layer.tuplet s.signatures.meter = some (d.advance s.layer.tuplet) := by
      cases e <;> cases he <;> exact ⟨rfl, rfl⟩
    have hkind : ∀ num base, e ≠ .tuplet num base := by
      rintro num base rfl
      cases he
    rw [Element.IsRefused]
    · rw [hasks.1, hasks.2, hgrace, Duration.advance]
      by_cases hd : d.grace <;> simp [hd]
    · exact hkind
  have hbooked {given : Fraction} (h : d.advance s.layer.tuplet = .ok given) :
      e.IsRefused s.layer.tuplet s.signatures.meter s.layer.time ↔
        ∃ why, s.layer.time.add given = .error why := by
    rw [hrefused, h]
    constructor
    · rintro (⟨why, hwhy⟩ | ⟨given', why, heq, hwhy⟩)
      · cases hwhy
      · exact ⟨why, Except.ok.inj heq ▸ hwhy⟩
    · rintro ⟨why, hwhy⟩
      exact .inr ⟨given, why, rfl, hwhy⟩
  unfold enterTimed at hfault ⊢
  cases hadvance : d.advance s.layer.tuplet with
  | ok given =>
    rw [hadvance] at hfault
    rw [hbooked hadvance]
    exact (reports_timed c s n e rfl given (s.symbolY c.unit e) rect rfl hfault hden).2
  | error why =>
    rw [hadvance] at hfault
    obtain ⟨hnone, hpos, hreports⟩ := reports_timed c (s.refuse n why) n e
      (congrArg LayerCursor.time (s.refuse_layer n why)).symm 0 ((s.refuse n why).symbolY c.unit e)
      rect rfl hfault hden
    obtain ⟨k, heq, hk⟩ := refuse_eq_of_fault hnone
    obtain ⟨sum, hsum⟩ := Fraction.exists_add_zero hden
    refine ⟨hpos, .inl ⟨hrefused.2 (.inl ⟨why, hadvance⟩), k, ?_, hk⟩⟩
    -- adding nothing always fits
    rcases hreports with ⟨⟨why', hwhy⟩, -⟩ | ⟨-, hmarks⟩
    · rw [hsum] at hwhy
      cases hwhy
    · exact hmarks.trans (congrArg AlignState.marks heq)

/-- A rest that fills its measure. -/
theorem reports_enterFullMeasure (c : AlignContext α) (s : AlignState α) (n : Node α) {e : Element}
    (rect : Option (Rect α)) (he : e.isFullMeasure)
    (hfault : (s.enterFullMeasure c n e rect).1.fault = none) (hden : 0 < s.layer.time.den) :
    0 < (s.enterFullMeasure c n e rect).1.layer.time.den ∧
      s.Reports (s.enterFullMeasure c n e rect).1 n.id
        (e.IsRefused s.layer.tuplet s.signatures.meter s.layer.time) := by
  have hrefused : e.IsRefused s.layer.tuplet s.signatures.meter s.layer.time ↔
      ∃ why, s.layer.time.add s.signatures.meter.measureDuration = .error why := by
    cases e <;> simp [Element.isFullMeasure] at he <;>
      simp [Element.IsRefused, Element.time?, Element.given]
  rw [hrefused]
  have hdraws := (draws_record s n s.layer.time s.signatures.meter.measureDuration
    (s.symbolY c.unit e) rect).trans
      (draws_assignAt _ (s.record n s.layer.time s.signatures.meter.measureDuration
        (s.symbolY c.unit e) rect).2
          (show (SlotKey.ofKind s.layer.time .fullMeasure).zone = .content from rfl))
  exact (reports_advance_of_eq hfault hdraws.time hdraws.marks rfl hden).2

theorem marks_enterUntimed (s : AlignState α) (n : Node α) {kind : SlotKind}
    (hkind : kind.zone = .content) (rect : Option (Rect α)) :
    (s.enterUntimed n kind rect).1.marks = s.marks := by
  have hkey : (SlotKey.ofKind s.layer.time kind).zone = .content := hkind
  exact (draws_assignAt (s.record n s.layer.time 0 0 rect).1 _ hkey).marks

/-- A symbol that is no note of an open chord. -/
theorem reports_enterSymbol (c : AlignContext α) (s : AlignState α) (n : Node α) (e : Element)
    (rect : Option (Rect α)) (hfault : (s.enterSymbol c n e rect).1.fault = none)
    (hden : 0 < s.layer.time.den) :
    0 < (s.enterSymbol c n e rect).1.layer.time.den ∧ s.Reports (s.enterSymbol c n e rect).1 n.id
      (e.IsRefused s.layer.tuplet s.signatures.meter s.layer.time) := by
  have hquiet (hgroup : e.given s.layer.tuplet s.signatures.meter = none)
      (hkind : ∀ num base, e ≠ .tuplet num base)
      (hmarks : (s.enterSymbol c n e rect).1.marks = s.marks) :
      0 < (s.enterSymbol c n e rect).1.layer.time.den ∧ s.Reports (s.enterSymbol c n e rect).1 n.id
        (e.IsRefused s.layer.tuplet s.signatures.meter s.layer.time) := by
    refine ⟨((enters_enterSymbol c s n e rect).untimed hgroup).1 ▸ hden, .inr ⟨?_, hmarks⟩⟩
    cases e <;> simp [Element.given] at hgroup <;>
      first
        | exact absurd rfl (hkind _ _)
        | simp [Element.IsRefused, Element.given, Element.time?]
  cases e with
  | note | rest | chord | space =>
    rw [enterSymbol] at hfault ⊢
    exact reports_enterTimed c s n rect rfl hfault hden
  | measureRest | multiRest =>
    rw [enterSymbol] at hfault ⊢
    exact reports_enterFullMeasure c s n rect rfl hfault hden
  | clef | key | meter | barLine =>
    exact hquiet rfl (by simp) (marks_enterUntimed _ n rfl rect)
  | beam => exact hquiet rfl (by simp) rfl
  | tuplet num base =>
    refine ⟨((enters_enterSymbol c s n (.tuplet num base) rect).untimed rfl).1 ▸ hden, ?_⟩
    show s.Reports (s.enterRatio n num base).1 n.id _
    have hfault : (s.enterRatio n num base).1.fault = none := hfault
    rw [enterRatio] at hfault ⊢
    by_cases hzero : num = 0 ∨ base = 0
    · rw [if_pos hzero]
      exact .inl ⟨hzero.imp id .inl, _, rfl, rfl, rfl⟩
    · rw [if_neg hzero] at hfault ⊢
      rw [not_or] at hzero
      cases hcombine : s.layer.tuplet.combine num.toNat base.toNat with
      | ok ratio =>
        refine .inr ⟨?_, rfl⟩
        rintro (h | h | ⟨why, h⟩)
        · exact hzero.1 h
        · exact hzero.2 h
        · rw [hcombine] at h
          cases h
      | error why =>
        rw [hcombine] at hfault
        obtain ⟨k, heq, hk⟩ := refuse_eq_of_fault hfault
        exact .inl ⟨.inr (.inr ⟨why, hcombine⟩), k, congrArg AlignState.marks heq, hk⟩

end AlignState

end ScoreLayout
