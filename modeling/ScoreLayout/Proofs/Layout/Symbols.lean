import ScoreLayout.Proofs.Fraction
import ScoreLayout.Proofs.Layout.AlignmentSteps

/-!
# The symbols of a layer

The symbols of a layer in document order, each with the ratio of the tuplets around it and the chord
that it is a note of. Their times are sums: a symbol begins where the durations before it end.

## Main definitions

* `Symbol`, `Forest.symbols` — the symbols of a layer.
* `Symbol.time` — the time by which a symbol moves its layer on.
* `Symbol.TimedAt` — what is recorded on a symbol at a time.
* `TimedFrom` — the same of all symbols of a layer, one after another.

## Main results

* `timedFrom_iff` — every symbol begins at the sum of the durations before it.
* `Forest.Forall₂.symbols`, `Symbol.SameTiming.timedAt` — nothing but kinds, onsets and durations
  matters.
-/

namespace ScoreLayout

variable {α : Type}

/-! ### Symbols -/

/-- A symbol of a layer, with the ratio of the tuplets around it and the chord right above it. -/
structure Symbol (α : Type) where
  node : Node α
  element : Element
  ratio : TupletRatio
  chord : Option (Node α)

namespace Node

/-- The node, if it is a chord. -/
def asChord (n : Node α) : Option (Node α) :=
  match n.kind with
  | .element (.chord _) => some n
  | _ => none

theorem tag_of_asChord {n c : Node α} (h : n.asChord = some c) : c.tag = .element := by
  rw [asChord] at h
  split at h
  · rename_i hk
    rw [← Option.some.inj h, tag, hk]
    rfl
  · cases h

theorem asChord_eq_some {n : Node α} {d : Duration} (hn : n.kind = .element (.chord d)) :
    n.asChord = some n := by
  rw [asChord, hn]

theorem asChord_eq_none {n : Node α} {e : Element} (hn : n.kind = .element e)
    (he : ¬ ∃ d, e = .chord d) : n.asChord = none := by
  rw [asChord, hn]
  cases e <;> first | rfl | exact absurd ⟨_, rfl⟩ he

/-- The ratio below a node inside tuplets of a ratio. -/
def ratioBelow (n : Node α) (r : TupletRatio) : TupletRatio :=
  match n.kind with
  | .element (.tuplet num base) => r.inside num base
  | _ => r

/-- The meter behind a node. -/
def meterAfter (n : Node α) (meter : MeterSig) : MeterSig :=
  match n.kind with
  | .change c => c.meter.getD meter
  | .element e => e.meterAfter meter
  | _ => meter

end Node

/-- The meter behind some nodes. -/
def runningMeter (meter : MeterSig) (nodes : List (Node α)) : MeterSig :=
  nodes.foldl (fun meter n => n.meterAfter meter) meter

theorem runningMeter_cons (meter : MeterSig) (n : Node α) (nodes : List (Node α)) :
    runningMeter meter (n :: nodes) = runningMeter (n.meterAfter meter) nodes := rfl

theorem runningMeter_append (meter : MeterSig) (nodes nodes' : List (Node α)) :
    runningMeter meter (nodes ++ nodes') = runningMeter (runningMeter meter nodes) nodes' :=
  List.foldl_append

/-- The symbols of a forest in document order, inside tuplets of a ratio and perhaps below a
chord. -/
def Forest.symbols : TupletRatio → Option (Node α) → Forest (Node α) → List (Symbol α)
  | _, _, .nil => []
  | r, chord, .cons n below siblings =>
    (n.kind.element?.map fun e => ⟨n, e, r, chord⟩).toList ++
      (below.symbols (n.ratioBelow r) n.asChord ++ siblings.symbols r chord)

/-- The time that a symbol is given under a ratio and a meter, grace or not, where it is given
one. -/
def Element.time? (e : Element) (ratio : TupletRatio) (meter : MeterSig) :
    Option (Except DurationError Fraction) :=
  match e with
  | .note { duration := d, .. } | .rest d _ | .chord d | .space d => some (d.resolve ratio)
  | .measureRest _ _ | .multiRest _ _ => some (.ok meter.measureDuration)
  | .beam | .tuplet _ _ | .clef _ | .key _ | .meter _ | .barLine _ => none

/-- Whether a symbol takes time. -/
def Element.takesTime : Element → Bool
  | .note _ | .rest _ _ | .chord _ | .space _ | .measureRest _ _ | .multiRest _ _ => true
  | .beam | .tuplet _ _ | .clef _ | .key _ | .meter _ | .barLine _ => false

namespace Symbol

/-- Whether a symbol moves its layer on: the notes of a chord do not. -/
def MovesOn (x : Symbol α) : Prop := x.element.takesTime ∧ x.chord = none

instance (x : Symbol α) : Decidable x.MovesOn :=
  inferInstanceAs (Decidable (_ ∧ x.chord = none))

/-- The time by which a symbol moves its layer on. -/
def time (x : Symbol α) : ℚ := if x.MovesOn then x.node.layout.duration.value else 0

/-- What is recorded on a symbol that its layer comes to at a time, under a meter and with these
marks. -/
structure TimedAt (x : Symbol α) (marks : List Mark) (meter : MeterSig) (t : ℚ) : Prop where
  /-- The onset is the time come to. -/
  onset : x.chord = none → ∃ onset, x.node.layout.onset = some onset ∧ onset.value = t
  /-- A note of a chord shares its onset. -/
  chord : ∀ c, x.chord = some c →
    x.node.layout.onset = c.layout.onset ∧ x.node.layout.duration = 0
  /-- A grace note takes no time, nor does a symbol whose duration is refused. -/
  none : x.MovesOn →
    x.element.isGrace ∨ (∃ k ∈ marks, k.RefusesDuration x.node.id) → x.node.layout.duration = 0
  /-- Any other takes the time that it is given. -/
  given : x.MovesOn → ¬ x.element.isGrace → ¬ (∃ k ∈ marks, k.RefusesDuration x.node.id) →
    x.element.time? x.ratio meter = some (.ok x.node.layout.duration)

end Symbol

/-- Symbols that are reached one after another, the first at a time under a meter. -/
def TimedFrom (marks : List Mark) : MeterSig → ℚ → List (Symbol α) → Prop
  | _, _, [] => True
  | meter, t, x :: rest =>
    x.TimedAt marks meter t ∧ TimedFrom marks (x.node.meterAfter meter) (t + x.time) rest

variable {marks : List Mark} {meter : MeterSig} {t : ℚ}

theorem timedFrom_append {l l' : List (Symbol α)} :
    TimedFrom marks meter t (l ++ l') ↔ TimedFrom marks meter t l ∧
      TimedFrom marks (runningMeter meter (l.map Symbol.node)) (t + (l.map Symbol.time).sum) l' := by
  induction l generalizing meter t with
  | nil => simp [TimedFrom, runningMeter]
  | cons x l ih =>
    rw [List.cons_append, TimedFrom, TimedFrom, ih, and_assoc, List.map_cons, List.map_cons,
      List.sum_cons, ← add_assoc]
    rfl

/-- Every symbol begins at the sum of the durations before it. -/
theorem timedFrom_iff {l : List (Symbol α)} :
    TimedFrom marks meter t l ↔ ∀ before x after, l = before ++ x :: after →
      x.TimedAt marks (runningMeter meter (before.map Symbol.node))
        (t + (before.map Symbol.time).sum) := by
  constructor
  · rintro h before x after rfl
    exact (timedFrom_append.1 h).2.1
  · intro h
    induction l generalizing meter t with
    | nil => trivial
    | cons x l ih =>
      refine ⟨by simpa [runningMeter] using h [] x l rfl, ih fun before y after hl => ?_⟩
      have hy := h (x :: before) y after (congrArg (x :: ·) hl)
      rwa [List.map_cons, List.map_cons, List.sum_cons, ← add_assoc] at hy

/-! ### Symbols of forests -/

namespace Forest

@[simp] theorem symbols_nil (r : TupletRatio) (chord : Option (Node α)) :
    (nil : Forest (Node α)).symbols r chord = [] := rfl

theorem symbols_cons {n : Node α} {e : Element} (he : n.kind = .element e) (r : TupletRatio)
    (chord : Option (Node α)) (below siblings : Forest (Node α)) :
    (cons n below siblings).symbols r chord = ⟨n, e, r, chord⟩ ::
      (below.symbols (n.ratioBelow r) n.asChord ++ siblings.symbols r chord) := by
  rw [symbols, he]
  rfl

theorem mem_of_mem_symbols {f : Forest (Node α)} {r : TupletRatio} {chord : Option (Node α)}
    {x : Symbol α} (hx : x ∈ f.symbols r chord) : x.node ∈ f.toList := by
  induction f generalizing r chord with
  | nil => exact absurd hx List.not_mem_nil
  | cons n below siblings hbelow hsiblings =>
    rw [symbols, List.mem_append, List.mem_append, Option.mem_toList, Option.map_eq_some_iff] at hx
    rw [toList, List.mem_cons, List.mem_append]
    rcases hx with ⟨e, -, rfl⟩ | hx | hx
    · exact .inl rfl
    · exact .inr (.inl (hbelow hx))
    · exact .inr (.inr (hsiblings hx))

/-- Where all nodes are symbols, they are the nodes in document order. -/
theorem map_node_symbols {f : Forest (Node α)} (hf : ∀ n ∈ f.toList, n.tag = .element)
    (r : TupletRatio) (chord : Option (Node α)) : (f.symbols r chord).map Symbol.node = f.toList := by
  induction f generalizing r chord with
  | nil => rfl
  | cons n below siblings hbelow hsiblings =>
    simp only [toList, List.mem_cons, List.mem_append, or_imp, forall_and, forall_eq] at hf
    obtain ⟨e, he⟩ : ∃ e, n.kind = .element e := by
      have := hf.1
      rw [Node.tag] at this
      cases hk : n.kind <;> rw [hk] at this <;> first | exact ⟨_, rfl⟩ | cases this
    rw [symbols_cons he, List.map_cons, List.map_append, hbelow hf.2.1, hsiblings hf.2.2, toList]

end Forest

/-! ### What matters for the times -/

/-- Two states of one node with the same times. The times of control elements do not matter. -/
structure Node.SameTiming (n n' : Node α) : Prop where
  id : n'.id = n.id
  kind : n'.kind = n.kind
  onset : n.tag ≠ .control → n'.layout.onset = n.layout.onset
  duration : n.tag ≠ .control → n'.layout.duration = n.layout.duration

namespace Node.SameTiming

variable {n n' : Node α}

theorem refl (n : Node α) : n.SameTiming n := ⟨rfl, rfl, fun _ => rfl, fun _ => rfl⟩

theorem tag (h : n.SameTiming n') : n'.tag = n.tag := congrArg NodeKind.tag h.kind

theorem meterAfter (h : n.SameTiming n') (meter : MeterSig) :
    n'.meterAfter meter = n.meterAfter meter := by
  rw [Node.meterAfter, Node.meterAfter, h.kind]

theorem ratioBelow (h : n.SameTiming n') (r : TupletRatio) : n'.ratioBelow r = n.ratioBelow r := by
  rw [Node.ratioBelow, Node.ratioBelow, h.kind]

theorem asChord (h : n.SameTiming n') : Option.Rel Node.SameTiming n.asChord n'.asChord := by
  rw [Node.asChord, Node.asChord, h.kind]
  split
  · exact .some h
  · exact .none

end Node.SameTiming

/-- Two states of one symbol with the same times. -/
structure Symbol.SameTiming (x x' : Symbol α) : Prop where
  tag : x.node.tag = .element
  node : x.node.SameTiming x'.node
  element : x'.element = x.element
  ratio : x'.ratio = x.ratio
  chord : Option.Rel Node.SameTiming x.chord x'.chord
  chordTag : ∀ c, x.chord = some c → c.tag = .element

namespace Symbol.SameTiming

variable {x x' : Symbol α}

theorem ne_control (h : x.SameTiming x') : x.node.tag ≠ .control := by
  rw [h.tag]
  decide

theorem chord_eq_none (h : x.SameTiming x') : x'.chord = none ↔ x.chord = none := by
  have hchord := h.chord
  generalize x.chord = chord at hchord ⊢
  generalize x'.chord = chord' at hchord ⊢
  cases hchord <;> simp

theorem movesOn (h : x.SameTiming x') : x'.MovesOn ↔ x.MovesOn := by
  rw [MovesOn, MovesOn, h.element, h.chord_eq_none]

theorem time (h : x.SameTiming x') : x'.time = x.time := by
  rw [Symbol.time, Symbol.time, h.node.duration h.ne_control]
  simp only [h.movesOn]

theorem timedAt (h : x.SameTiming x') (hx : x.TimedAt marks meter t) :
    x'.TimedAt marks meter t := by
  have honset := h.node.onset h.ne_control
  have hduration := h.node.duration h.ne_control
  refine ⟨fun hc => ?_, fun c' hc' => ?_, fun hm hnone => ?_, fun hm hgrace hmarked => ?_⟩
  · rw [honset]
    exact hx.onset (h.chord_eq_none.1 hc)
  · have hchord := h.chord
    rw [hc'] at hchord
    obtain ⟨c, hc, hcc⟩ : ∃ c, x.chord = some c ∧ c.SameTiming c' := by
      cases hx : x.chord <;> rw [hx] at hchord <;> cases hchord
      exact ⟨_, rfl, ‹_›⟩
    rw [honset, hduration, hcc.onset (by rw [h.chordTag c hc]; decide)]
    exact hx.chord c hc
  · rw [hduration]
    rw [h.element, h.node.id] at hnone
    exact hx.none (h.movesOn.1 hm) hnone
  · rw [h.element] at hgrace ⊢
    rw [h.node.id] at hmarked
    rw [h.ratio, hduration]
    exact hx.given (h.movesOn.1 hm) hgrace hmarked

end Symbol.SameTiming

theorem Forest.Forall₂.symbols {f f' : Forest (Node α)} (h : Forest.Forall₂ Node.SameTiming f f')
    {r : TupletRatio} {chord chord' : Option (Node α)}
    (hchord : Option.Rel Node.SameTiming chord chord')
    (htag : ∀ c, chord = some c → c.tag = .element) :
    List.Forall₂ Symbol.SameTiming (f.symbols r chord) (f'.symbols r chord') := by
  induction h generalizing r chord chord' with
  | nil => exact .nil
  | @cons n n' below siblings below' siblings' hn _ _ hbelow hsiblings =>
    have hrest : List.Forall₂ Symbol.SameTiming
        (below.symbols (n.ratioBelow r) n.asChord ++ siblings.symbols r chord)
        (below'.symbols (n'.ratioBelow r) n'.asChord ++ siblings'.symbols r chord') := by
      rw [hn.ratioBelow]
      exact List.rel_append (hbelow hn.asChord fun c hc => Node.tag_of_asChord hc)
        (hsiblings hchord htag)
    rw [Forest.symbols, Forest.symbols, hn.kind]
    cases he : n.kind.element? with
    | none => exact hrest
    | some e =>
      have htagn : n.tag = .element := by
        rw [Node.tag]
        cases hk : n.kind <;> rw [hk] at he <;> first | rfl | cases he
      exact .cons ⟨htagn, hn, rfl, rfl, hchord, htag⟩ hrest

end ScoreLayout
