import ScoreLayout.Proofs.Forest.Walk
import ScoreLayout.Proofs.Forest.Surgery
import ScoreLayout.Proofs.Layout.Frame
import ScoreLayout.Proofs.Layout.RefusedDurations

/-!
# The times of a layer

Alignment walks the symbols of a layer with a cursor. Where the walk meets no fault, every symbol
records the time that the durations before it add up to, however beams, tuplets and chords are
nested.

## Main definitions

* `Forest.Nested`, `Forest.Symbolic` — trees of nodes that take each other, and of symbols.
* `longestOf` — the longest of a time and of those by which some symbols move their layers on.
* `AlignState.Walked` — what walking some symbols does to a state, and what it records on them.

## Main results

* `AlignState.walked_notes` — the notes of an open chord.
* `AlignState.walked_symbols` — the symbols of a layer, or of a group in it.
-/

namespace ScoreLayout

variable {α : Type}

/-! ### Trees of symbols -/

/-- Trees of nodes, each of which takes those right below it. -/
def Forest.Nested : Forest (Node α) → Prop
  | .nil => True
  | .cons n below siblings =>
    (∀ b ∈ below.roots, n.kind.accepts b.kind) ∧ below.Nested ∧ siblings.Nested

/-- Trees of symbols, each of which takes those right below it. -/
def Forest.Symbolic : Forest (Node α) → Prop
  | .nil => True
  | .cons n below siblings =>
    n.tag = .element ∧ (∀ b ∈ below.roots, n.kind.accepts b.kind) ∧ below.Symbolic ∧
      siblings.Symbolic

namespace Node

variable {n : Node α}

/-- The symbol of a node that is one. -/
theorem exists_element (hn : n.tag = .element) : ∃ e, n.kind = .element e := by
  rw [tag] at hn
  cases hk : n.kind <;> simp_all [NodeKind.tag]

/-- The content of a node that is a staff. -/
theorem exists_staff (hn : n.tag = .staff) : ∃ staff, n.kind = .staff staff := by
  rw [tag] at hn
  cases hk : n.kind <;> simp_all [NodeKind.tag]

/-- The number of a node that is a layer. -/
theorem exists_layer (hn : n.tag = .layer) : ∃ k, n.kind = .layer k := by
  rw [tag] at hn
  cases hk : n.kind <;> simp_all [NodeKind.tag]

/-- The control element of a node that is one. -/
theorem exists_control (hn : n.tag = .control) : ∃ k, n.kind = .control k := by
  rw [tag] at hn
  cases hk : n.kind <;> simp_all [NodeKind.tag]

end Node

/-- The only group that takes time of its own is a chord. -/
theorem Element.exists_chord {e : Element} (hgroups : e.isContainer) (htime : e.takesTime) :
    ∃ d, e = .chord d := by
  cases e <;> simp_all [isContainer, takesTime]

theorem Element.given_of_not_takesTime {e : Element} (h : ¬ e.takesTime) (r : TupletRatio)
    (meter : MeterSig) : e.given r meter = none := by
  cases e <;> simp_all [takesTime, given]

/-- The duration of a symbol that takes time is its own, also if it is a group. -/
theorem Element.isTimed_of_takesTime {n : Node α} {e : Element} (hn : n.kind = .element e)
    (h : e.takesTime) : n.isTimed := by
  rw [Node.isTimed, hn]
  cases e <;> simp_all [takesTime, isContainer, duration?]

/-- A chord takes notes only. -/
theorem NodeKind.exists_note_of_chord {d : Duration} {k : NodeKind α}
    (h : (NodeKind.element (.chord d)).accepts k) : ∃ note, k = .element (.note note) := by
  cases k with
  | element e => cases e <;> first | exact ⟨_, rfl⟩ | cases h
  | _ => cases h

/-- A layer takes symbols only. -/
theorem NodeKind.tag_of_layer {n b : Node α} (hn : n.tag = .layer) (h : n.kind.accepts b.kind) :
    b.tag = .element := by
  rw [Node.tag] at hn ⊢
  cases hk : n.kind <;> cases hk' : b.kind <;> simp [hk, hk', accepts, tag] at hn h ⊢

namespace Forest

theorem nodup_of_cons {β κ : Type} {key : β → κ} {b : β} {below siblings : Forest β}
    (h : ((cons b below siblings).toList.map key).Nodup) :
    (below.toList.map key).Nodup ∧ (siblings.toList.map key).Nodup := by
  rw [toList, List.map_cons, List.map_append, List.nodup_cons, List.nodup_append] at h
  exact ⟨h.2.1, h.2.2.1⟩

theorem Symbolic.tag {f : Forest (Node α)} (hf : f.Symbolic) : ∀ n ∈ f.toList, n.tag = .element := by
  induction f with
  | nil => exact fun n hn => absurd hn List.not_mem_nil
  | cons n below siblings hbelow hsiblings =>
    obtain ⟨hn, -, hb, hs⟩ := hf
    simp only [toList, List.mem_cons, List.mem_append, or_imp, forall_and, forall_eq]
    exact ⟨hn, hbelow hb, hsiblings hs⟩

/-- Two states of the same symbols. -/
theorem Symbolic.of_kinds {R : Node α → Node α → Prop} {f f' : Forest (Node α)} (hf : f.Symbolic)
    (h : Forall₂ R f f') (hR : ∀ n n', R n n' → n'.kind = n.kind) : f'.Symbolic := by
  induction h with
  | nil => trivial
  | cons hn hb _ hbelow hsiblings =>
    obtain ⟨htag, htakes, hc, hs⟩ := hf
    refine ⟨?_, fun b' hb' => ?_, hbelow hc, hsiblings hs⟩
    · rw [Node.tag, hR _ _ hn]
      exact htag
    · obtain ⟨b, hmem, hbb⟩ := exists_mem_of_forall₂ hb.roots hb'
      rw [hR _ _ hn, hR _ _ hbb]
      exact htakes b hmem

theorem Nested.symbolic {f : Forest (Node α)} (hf : f.Nested)
    (hroots : ∀ b ∈ f.roots, b.tag = .element) : f.Symbolic := by
  induction f with
  | nil => trivial
  | cons n below siblings hbelow hsiblings =>
    obtain ⟨htakes, hb, hs⟩ := hf
    rw [roots, List.forall_mem_cons] at hroots
    refine ⟨hroots.1, htakes, hbelow hb fun b hmem => ?_, hsiblings hs hroots.2⟩
    have hdepth := NodeKind.depth_le_of_accepts (htakes b hmem)
    have htag : n.kind.tag = .element := hroots.1
    rw [htag] at hdepth
    show b.kind.tag = .element
    generalize b.kind.tag = tag at hdepth
    cases tag <;> simp_all [NodeTag.depth]

theorem nested_of_links {f : Forest (Node α)}
    (hlinks : ∀ a b, (some a, b) ∈ f.links none → a.kind.accepts b.kind) : f.Nested := by
  induction f with
  | nil => trivial
  | cons n below siblings hbelow hsiblings =>
    refine ⟨fun b hb => ?_, hbelow fun a b hl => ?_, hsiblings fun a b hl => ?_⟩
    · exact hlinks n b
        (List.mem_cons_of_mem _ (List.mem_append_left _ (link_of_mem_roots (some n) hb)))
    · exact hlinks a b
        (List.mem_cons_of_mem _ (List.mem_append_left _ (mem_links_of_mem_links_none hl (some n))))
    · exact hlinks a b (List.mem_cons_of_mem _ (List.mem_append_right _ hl))

/-- A note holds nothing. -/
theorem Symbolic.eq_nil_of_note {n : Node α} {note : Note} (hn : n.kind = .element (.note note))
    {below : Forest (Node α)} (hb : ∀ b ∈ below.roots, n.kind.accepts b.kind) : below = .nil := by
  cases below with
  | nil => rfl
  | cons b _ _ =>
    have := hb b List.mem_cons_self
    rw [hn] at this
    cases hk : b.kind <;> simp [hk, NodeKind.accepts, Element.accepts] at this

end Forest

/-! ### The longest times -/

/-- No number is greater than the greatest. -/
theorem le_foldl_max : {l : List ℚ} → {a : ℚ} → a ≤ l.foldl max a ∧ ∀ q ∈ l, q ≤ l.foldl max a
  | [], _ => ⟨le_rfl, fun _ hq => absurd hq List.not_mem_nil⟩
  | b :: l, a => by
      obtain ⟨hstart, hrest⟩ := le_foldl_max (l := l) (a := max a b)
      rw [List.foldl_cons, List.forall_mem_cons]
      exact ⟨(le_max_left a b).trans hstart, (le_max_right a b).trans hstart, hrest⟩

/-- The longest of a time and of those by which some symbols move their layers on. -/
def longestOf (t : ℚ) (l : List (Node α)) : ℚ :=
  ((l.filter Node.isTimed).map fun n => n.layout.duration.value).foldl max t

section

variable {n : Node α} {l l' : List (Node α)} {t : ℚ}

theorem longestOf_append : longestOf t (l ++ l') = longestOf (longestOf t l) l' := by
  rw [longestOf, List.filter_append, List.map_append, List.foldl_append, longestOf, longestOf]

theorem longestOf_cons : longestOf t (n :: l) = longestOf (longestOf t [n]) l :=
  longestOf_append (l := [n])

theorem longestOf_of_timed (hn : n.isTimed) : longestOf t [n] = max t n.layout.duration.value := by
  rw [longestOf, List.filter_cons_of_pos hn]
  rfl

theorem longestOf_of_untimed (hn : ¬ n.isTimed) : longestOf t [n] = t := by
  rw [longestOf, List.filter_cons_of_neg hn]
  rfl

theorem longestOf_nonneg (ht : 0 ≤ t) : 0 ≤ longestOf t l :=
  ht.trans le_foldl_max.1

/-- Only symbols move their layers on. -/
theorem Node.not_isTimed_of_tag (hn : n.tag ≠ .element) : ¬ n.isTimed := by
  rw [tag] at hn
  rw [isTimed]
  cases hk : n.kind <;> simp_all [NodeKind.tag]

end

/-! ### Changing the marks -/

/-- Whether some of the marks say of a node that its duration takes no time. -/
def Refused (marks : List Mark) (id : String) : Prop := ∃ k ∈ marks, k.RefusesDuration id

theorem Symbol.TimedAt.of_refused {x : Symbol α} {marks marks' : List Mark} {meter : MeterSig}
    {t : ℚ} (hx : x.TimedAt marks meter t)
    (h : Refused marks' x.node.id ↔ Refused marks x.node.id) : x.TimedAt marks' meter t where
  onset := hx.onset
  chord := hx.chord
  none hm hnone := hx.none hm (hnone.imp_right h.1)
  given hm hgrace hmarked := hx.given hm hgrace (mt h.2 hmarked)

/-- Only marks on the symbols matter. -/
theorem TimedFrom.of_refused {l : List (Symbol α)} {marks marks' : List Mark}
    (h : ∀ x ∈ l, Refused marks' x.node.id ↔ Refused marks x.node.id) :
    {meter : MeterSig} → {t : ℚ} → TimedFrom marks meter t l → TimedFrom marks' meter t l := by
  induction l with
  | nil => exact fun _ => trivial
  | cons x l ih =>
    rw [List.forall_mem_cons] at h
    exact fun hl => ⟨hl.1.of_refused h.1, ih h.2 hl.2⟩

theorem refused_append {marks marks' : List Mark} {id : String} :
    Refused (marks ++ marks') id ↔ Refused marks id ∨ Refused marks' id := by
  simp only [Refused, List.mem_append, or_and_right, exists_or]

/-- Marks on some nodes say nothing of others. -/
theorem refused_append_left {marks marks' : List Mark} {id : String} (h : ¬ Refused marks' id) :
    Refused (marks ++ marks') id ↔ Refused marks id := by
  rw [refused_append, or_iff_left h]

theorem refused_append_right {marks marks' : List Mark} {id : String} (h : ¬ Refused marks id) :
    Refused (marks ++ marks') id ↔ Refused marks' id := by
  rw [refused_append, or_iff_right h]

theorem not_refused_nil (id : String) : ¬ Refused [] id := by
  rintro ⟨k, hk, -⟩
  exact List.not_mem_nil hk

variable [Scalar α]

namespace AlignState

/-! ### Callbacks at symbols -/

variable {c : AlignContext α} {s s' : AlignState α} {n n' : Node α} {e : Element}

/-- While no chord is open, a symbol is no note of one. -/
theorem enterElement_of_closed (c : AlignContext α) (above : Option (Node α)) (n : Node α)
    (e : Element) (hs : s.layer.chord = none) : s.enterElement c above n e =
      s.enterSymbol c n e (c.metrics.element e c.unit (s.staffHeight c.unit)) := by
  unfold enterElement
  dsimp only
  rw [hs]

theorem enter_of_element (he : n.kind = .element e) (hs : s.collecting)
    (above : Option (Node α)) : (alignPass c).enter s above n =
      (((s.reach e).enterElement c above n e).1, ((s.reach e).enterElement c above n e).2,
        ((s.reach e).enterElement c above n e).1.outcome .proceed) := by
  dsimp only [alignPass]
  rw [enter, he]
  dsimp only
  rw [if_pos hs]

theorem leave_of_element (he : n.kind = .element e)
    (whole : Node α → Forest (Node α) → Forest (Node α)) (below : Forest (Node α)) :
    (alignPass c).leave s whole n below =
      ((s.leaveElement n e).1, (s.leaveElement n e).2, below, .proceed) := by
  dsimp only [alignPass]
  rw [leave, he]

omit [Scalar α] in
theorem outcome_proceed {s : AlignState α} {v : Visit} (h : s.outcome .proceed = v)
    (hv : v ≠ .stop) : v = .proceed ∧ s.fault = none := by
  rw [outcome] at h
  split_ifs at h with hfault
  · exact absurd h.symm hv
  · exact ⟨h.symm, by simpa using hfault⟩

/-- What entering a symbol comes to where the walk goes on. -/
theorem exists_of_enter_element (he : n.kind = .element e) (hs : s.collecting)
    {above : Option (Node α)} {v : Visit} (h : (alignPass c).enter s above n = (s', n', v))
    (hv : v ≠ .stop) : v = .proceed ∧ s' = (s.enterElement c above n e).1 ∧
      n' = (s.enterElement c above n e).2 ∧ s'.fault = none := by
  rw [enter_of_element he hs, Prod.mk.injEq, Prod.mk.injEq] at h
  obtain ⟨rfl, rfl, hout⟩ := h
  obtain ⟨hv, hfault⟩ := outcome_proceed hout hv
  have hreach : s.reach e = s := reach_of_fault (fault_enterElement hfault)
  rw [hreach] at hfault ⊢
  exact ⟨hv, rfl, rfl, hfault⟩

omit [Scalar α] in
theorem Writes.kind (h : Writes n n') : n'.kind = n.kind := by
  obtain ⟨box, layout, rfl, -⟩ := h
  rfl

omit [Scalar α] in
theorem Writes.id (h : Writes n n') : n'.id = n.id := by
  obtain ⟨box, layout, rfl, -⟩ := h
  rfl

omit [Scalar α] in
theorem Writes.handle (h : Writes n n') : n'.handle = n.handle := by
  obtain ⟨box, layout, rfl, -⟩ := h
  rfl

omit [Scalar α] in
theorem Writes.meterAfter (h : Writes n n') (meter : MeterSig) :
    n'.meterAfter meter = n.meterAfter meter := by
  rw [Node.meterAfter, Node.meterAfter, h.kind]

/-! ### One symbol -/

omit [Scalar α] in
/-- What is recorded on a symbol when it is entered, and where the layer has come to then. -/
theorem Enters.timedAt (h : s.Enters n e s' n') (hfault : s'.fault = none) (hid : n'.id = n.id) :
    ∃ new, s'.marks = s.marks ++ new ∧ (∀ id, Refused new id → id = n.id) ∧
      Symbol.TimedAt ⟨n', e, s.layer.tuplet, none⟩ new s.signatures.meter s.layer.time.value ∧
      s'.layer.time.value =
        s.layer.time.value + Symbol.time ⟨n', e, s.layer.tuplet, none⟩ := by
  obtain ⟨new, hmarks, hnew⟩ := h.marks
  have honset : ∃ onset, n'.layout.onset = some onset ∧ onset.value = s.layer.time.value :=
    ⟨_, h.onset, rfl⟩
  refine ⟨new, hmarks, fun id ⟨k, hk, hrefuses⟩ =>
    Option.some.inj (hrefuses.1.symm.trans (hnew k hk)), ?_⟩
  rw [Symbol.time]
  cases hgiven : e.given s.layer.tuplet s.signatures.meter with
  | none =>
    have hstill : ¬ Symbol.MovesOn ⟨n', e, s.layer.tuplet, none⟩ := fun hm => by
      have := hm.1
      cases e <;> simp_all [Element.given, Element.takesTime]
    obtain ⟨htime, -⟩ := h.untimed hgiven
    refine ⟨⟨fun _ => honset, fun _ hc => (by cases hc), fun hm => absurd hm hstill, fun hm => absurd hm hstill⟩, ?_⟩
    rw [if_neg hstill, htime, add_zero]
  | some given =>
    have hmoves : Symbol.MovesOn ⟨n', e, s.layer.tuplet, none⟩ := by
      refine ⟨?_, rfl⟩
      cases e <;> first | rfl | cases hgiven
    rw [if_pos hmoves]
    rcases h.timed hfault given hgiven with ⟨hsame, hok, hadd⟩ | ⟨⟨new', hne, hmarks', hrefused⟩,
      hzero, hstay⟩
    · obtain rfl : new = [] := by simpa using hmarks.symm.trans hsame
      refine ⟨⟨fun _ => honset, fun _ hc => (by cases hc), fun _ hnone => ?_, fun _ hgrace _ => ?_⟩,
        Fraction.value_of_add hadd⟩
      · obtain hgrace := hnone.resolve_right (by rintro ⟨k, hk, -⟩; exact absurd hk List.not_mem_nil)
        have hzero : given = .ok 0 := by
          cases e <;> simp_all [Element.given, Element.isGrace, Element.duration?, Duration.advance]
        rw [hok] at hzero
        exact Except.ok.inj hzero
      · rw [hok] at hgiven
        show e.time? s.layer.tuplet s.signatures.meter = some (.ok n'.layout.duration)
        rw [← hgiven]
        cases e <;> first
          | rfl
          | (rw [Element.isGrace, Element.duration?, Option.map_some, Option.getD_some] at hgrace
             exact congrArg some (if_neg hgrace).symm)
    · obtain rfl : new = new' := List.append_cancel_left (hmarks.symm.trans hmarks')
      obtain ⟨k, hk⟩ := List.exists_mem_of_ne_nil new hne
      refine ⟨⟨fun _ => honset, fun _ hc => (by cases hc), fun _ _ => hzero, fun _ _ hfree => ?_⟩, ?_⟩
      · exact absurd ⟨k, hk, hid ▸ hrefused k hk⟩ hfree
      · show s'.layer.time.value = s.layer.time.value + n'.layout.duration.value
        rw [hzero, Fraction.value_zero, add_zero]
        rcases hstay with hadd | hstay
        · rw [Fraction.value_of_add hadd, Fraction.value_zero, add_zero]
        · rw [hstay]

/-! ### Several symbols -/

/-- What entering one symbol does to a state, and what is recorded on it. -/
structure Takes (s s' : AlignState α) (n : Node α) (x : Symbol α) : Prop where
  meter : s'.signatures.meter = x.node.meterAfter s.signatures.meter
  collecting : s'.collecting = s.collecting
  time : s'.layer.time.value = s.layer.time.value + x.time
  longest : 0 ≤ s.longest.value → s'.longest.value = longestOf s.longest.value [x.node]
  timed : ∃ new, s'.marks = s.marks ++ new ∧ (∀ id, Refused new id → id = n.id) ∧
    x.TimedAt new s.signatures.meter s.layer.time.value
  reports : 0 < s.layer.time.den →
    0 < s'.layer.time.den ∧ s.Reports s' n.id (x.IsRefused s.signatures.meter)
  grids : (∀ g ∈ s.grids, g.Open) →
    (∀ g ∈ s'.grids, g.Open) ∧ s'.grids.map MeasureGrid.maxTime = s.grids.map MeasureGrid.maxTime

/-- What walking some symbols does to a state, and what it records on them. They stand below tuplets
of a ratio, and perhaps below a chord. -/
structure Walked (s s' : AlignState α) (f f' : Forest (Node α)) (r : TupletRatio)
    (above : Option (Node α)) : Prop where
  meter : s'.signatures.meter = runningMeter s.signatures.meter f'.toList
  collecting : s'.collecting = s.collecting
  tuplets : s'.layer.tuplets = s.layer.tuplets
  chord : s'.layer.chord? = s.layer.chord?
  fault : s'.fault = none
  time : s'.layer.time.value = s.layer.time.value + ((f'.symbols r above).map Symbol.time).sum
  longest : 0 ≤ s.longest.value → s'.longest.value = longestOf s.longest.value f'.toList
  timed : ∃ new, s'.marks = s.marks ++ new ∧
    (∀ id, Refused new id → id ∈ f.toList.map Node.id) ∧
    TimedFrom new s.signatures.meter s.layer.time.value (f'.symbols r above)
  reports : 0 < s.layer.time.den → 0 < s'.layer.time.den ∧ ∃ new, s'.marks = s.marks ++ new ∧
    ReportsFrom s.signatures.meter (f'.symbols r above) new
  grids : (∀ g ∈ s.grids, g.Open) →
    (∀ g ∈ s'.grids, g.Open) ∧ s'.grids.map MeasureGrid.maxTime = s.grids.map MeasureGrid.maxTime
  nodes : Forest.Forall₂ Writes f f'

variable {f f' : Forest (Node α)} {r : TupletRatio} {above : Option (Node α)}

omit [Scalar α] in
theorem Walked.nil (hfault : s.fault = none) : s.Walked s .nil .nil r above where
  meter := rfl
  collecting := rfl
  tuplets := rfl
  chord := rfl
  fault := hfault
  time := by simp
  longest _ := rfl
  timed := ⟨[], (List.append_nil _).symm, fun id h => absurd h (not_refused_nil id), trivial⟩
  reports h := ⟨h, [], (List.append_nil _).symm, .nil _⟩
  grids h := ⟨h, rfl⟩
  nodes := .nil

omit [Scalar α] in
theorem Walked.map_node_symbols {s s' : AlignState α} (h : s.Walked s' f f' r above)
    (hf : f.Symbolic) : (f'.symbols r above).map Symbol.node = f'.toList := by
  refine Forest.map_node_symbols (fun n' hn' => ?_) r above
  obtain ⟨n, hn, hw⟩ := exists_mem_of_forall₂ h.nodes.toList hn'
  rw [Node.tag, hw.kind]
  exact hf.tag n hn

omit [Scalar α] in
/-- One symbol, what stands below it, and what comes behind it. -/
theorem Walked.cons {s s₁ s₂ s₄ : AlignState α} {n n₂ : Node α} {e : Element}
    {below below' siblings siblings' : Forest (Node α)} {layer : LayerCursor α}
    (he : n₂.kind = .element e) (hn : Writes n n₂)
    (hids : ((Forest.cons n below siblings).toList.map Node.id).Nodup) (hsymbolic : below.Symbolic)
    (hfirst : s.Takes s₁ n ⟨n₂, e, r, above⟩)
    (hbelow : s₁.Walked s₂ below below' (n₂.ratioBelow r) n₂.asChord)
    (htime : layer.time = s₂.layer.time) (htuplets : layer.tuplets = s.layer.tuplets)
    (hchord : layer.chord? = s.layer.chord?)
    (hsiblings : AlignState.Walked { s₂ with layer := layer } s₄ siblings siblings' r above) :
    s.Walked s₄ (.cons n below siblings) (.cons n₂ below' siblings') r above := by
  obtain ⟨new₁, hmarks₁, hnew₁, htimed₁⟩ := hfirst.timed
  obtain ⟨new₂, hmarks₂, hnew₂, htimed₂⟩ := hbelow.timed
  obtain ⟨new₃, hmarks₃, hnew₃, htimed₃⟩ := hsiblings.timed
  rw [Forest.toList, List.map_cons, List.map_append, List.nodup_cons, List.nodup_append] at hids
  obtain ⟨hnotin, -, -, hdisjoint⟩ := hids
  rw [List.mem_append, not_or] at hnotin
  have hids' {f f' : Forest (Node α)} (h : Forest.Forall₂ Writes f f') {r : TupletRatio}
      {above : Option (Node α)} {x : Symbol α} (hx : x ∈ f'.symbols r above) :
      x.node.id ∈ f.toList.map Node.id := by
    rw [map_eq_of_forall₂ (fun _ _ hw => hw.id.symm) h.toList]
    exact List.mem_map_of_mem (Forest.mem_of_mem_symbols hx)
  -- the marks on one part of the forest say nothing of the others
  have hrest : TimedFrom (new₁ ++ (new₂ ++ new₃)) s₁.signatures.meter s₁.layer.time.value
      (below'.symbols (n₂.ratioBelow r) n₂.asChord ++ siblings'.symbols r above) := by
    rw [timedFrom_append, hbelow.map_node_symbols hsymbolic, ← hbelow.meter, ← hbelow.time]
    constructor
    · refine htimed₂.of_refused fun x hx => ?_
      have hx := hids' hbelow.nodes hx
      rw [refused_append_right fun h => hnotin.1 (hnew₁ _ h ▸ hx),
        refused_append_left fun h => hdisjoint _ hx _ (hnew₃ _ h) rfl]
    · rw [← htime]
      refine htimed₃.of_refused fun x hx => ?_
      have hx := hids' hsiblings.nodes hx
      rw [refused_append_right fun h => hnotin.2 (hnew₁ _ h ▸ hx),
        refused_append_right fun h => hdisjoint _ (hnew₂ _ h) _ hx rfl]
  have hsymbols := Forest.symbols_cons he r above below' siblings'
  refine ⟨?_, hsiblings.collecting.trans (hbelow.collecting.trans hfirst.collecting),
    hsiblings.tuplets.trans htuplets, hsiblings.chord.trans hchord, hsiblings.fault, ?_,
    fun hlongest => ?_, ⟨new₁ ++ (new₂ ++ new₃), ?_, ?_, ?_⟩, fun hden => ?_, fun hopen => ?_,
    .cons hn hbelow.nodes hsiblings.nodes⟩
  · rw [hsiblings.meter, Forest.toList, runningMeter_cons, runningMeter_append]
    dsimp only
    rw [hbelow.meter, hfirst.meter]
  · rw [hsiblings.time, hsymbols, List.map_cons, List.map_append, List.sum_cons, List.sum_append]
    dsimp only
    rw [htime, hbelow.time, hfirst.time]
    ring
  · rw [Forest.toList, longestOf_cons, longestOf_append, ← hfirst.longest hlongest]
    have hlongest₁ : 0 ≤ s₁.longest.value := hfirst.longest hlongest ▸ longestOf_nonneg hlongest
    rw [← hbelow.longest hlongest₁]
    exact hsiblings.longest (hbelow.longest hlongest₁ ▸ longestOf_nonneg hlongest₁)
  · rw [hmarks₃]
    dsimp only
    rw [hmarks₂, hmarks₁]
    simp
  · intro id h
    rw [refused_append, refused_append] at h
    rw [Forest.toList, List.map_cons, List.map_append, List.mem_cons, List.mem_append]
    exact h.imp (hnew₁ id) (Or.imp (hnew₂ id) (hnew₃ id))
  · rw [hsymbols, TimedFrom]
    rw [hfirst.meter, hfirst.time] at hrest
    refine ⟨htimed₁.of_refused (refused_append_left ?_), hrest⟩
    rw [refused_append, not_or, show (⟨n₂, e, r, above⟩ : Symbol α).node.id = n.id from hn.id]
    exact ⟨fun h => hnotin.1 (hnew₂ _ h), fun h => hnotin.2 (hnew₃ _ h)⟩
  · obtain ⟨hden₁, hreport⟩ := hfirst.reports hden
    obtain ⟨hden₂, deep, hdeep, hreports₂⟩ := hbelow.reports hden₁
    obtain ⟨hden₄, beside, hbeside, hreports₃⟩ := hsiblings.reports (htime ▸ hden₂)
    have hrest : ReportsFrom (n₂.meterAfter s.signatures.meter)
        (below'.symbols (n₂.ratioBelow r) n₂.asChord ++ siblings'.symbols r above)
        (deep ++ beside) := by
      rw [hfirst.meter] at hreports₂
      refine hreports₂.append ?_
      rwa [hbelow.map_node_symbols hsymbolic, ← hfirst.meter, ← hbelow.meter]
    rw [hsymbols]
    refine ⟨hden₄, ?_⟩
    dsimp only at hbeside
    rcases hreport with ⟨hrefused, k, hk, hkid⟩ | ⟨htaken, hmarks⟩
    · refine ⟨k :: (deep ++ beside), ?_, .refused hrefused (hn.id ▸ hkid) hrest⟩
      rw [hbeside, hdeep, hk]
      simp
    · refine ⟨deep ++ beside, ?_, .taken htaken hrest⟩
      rw [hbeside, hdeep, hmarks, List.append_assoc]
  · obtain ⟨hopen₁, hmax₁⟩ := hfirst.grids hopen
    obtain ⟨hopen₂, hmax₂⟩ := hbelow.grids hopen₁
    obtain ⟨hopen₃, hmax₃⟩ := hsiblings.grids hopen₂
    exact ⟨hopen₃, hmax₃.trans (hmax₂.trans hmax₁)⟩

/-! ### The notes of a chord -/

omit [Scalar α] in
theorem chord_eq_none_iff {s : AlignState α} : s.layer.chord? = none ↔ s.layer.chord = none := by
  rw [LayerCursor.chord?, Option.map_eq_none_iff]

/-- Entering a note of the chord that is open. -/
theorem takes_enterElement_note {a : Node α} {note : Note} {onset : Fraction}
    (hopen : s.layer.chord? = some (a.handle, onset)) (hn : n.kind = .element (.note note))
    {top : Node α} (htop : top.layout.onset = some onset) :
    s.Takes (s.enterElement c (some a) n (.note note)).1 n
        ⟨(s.enterElement c (some a) n (.note note)).2, .note note, r, some top⟩ ∧
      s.Draws (s.enterElement c (some a) n (.note note)).1 := by
  obtain ⟨chord, hchord, heq⟩ := Option.map_eq_some_iff.1 hopen
  obtain ⟨hhandle, rfl⟩ := Prod.mk.inj heq
  have henter : s.enterElement c (some a) n (.note note) = s.enterChordNote c chord n note
      (c.metrics.element (.note note) c.unit (s.staffHeight c.unit)) := by
    unfold enterElement
    dsimp only
    rw [hchord]
    exact if_pos (congrArg some hhandle.symm)
  have hwrites := writes_enterElement c s n (some a) (.note note)
  obtain ⟨hdraws, honset, hzero⟩ := draws_enterChordNote c s chord n note
    (c.metrics.element (.note note) c.unit (s.staffHeight c.unit))
  rw [← henter] at hdraws honset hzero
  generalize s.enterElement c (some a) n (.note note) = entered at hdraws honset hzero hwrites ⊢
  have hstill : ¬ Symbol.MovesOn ⟨entered.2, .note note, r, some top⟩ := fun hm => by cases hm.2
  refine ⟨⟨?_, hdraws.collecting, ?_, fun hlongest => ?_,
    ⟨[], ?_, fun id h => absurd h (not_refused_nil id),
    fun h => (by cases h), fun above h => ?_,
    fun hm => absurd hm hstill, fun hm => absurd hm hstill⟩, fun hden => ?_, hdraws.grids⟩, hdraws⟩
  · rw [hdraws.signatures, Node.meterAfter, hwrites.kind, hn]
    rfl
  · rw [hdraws.time, Symbol.time, if_neg hstill, add_zero]
  · rw [longestOf_of_timed (by rw [Node.isTimed, hwrites.kind, hn]; rfl)]
    exact longest_of_zero hdraws.longest hzero hlongest
  · rw [hdraws.marks, List.append_nil]
  · obtain rfl := Option.some.inj h
    exact ⟨honset.trans htop.symm, hzero⟩
  · exact ⟨hdraws.time ▸ hden, .inr ⟨fun hx => (by cases hx.1), hdraws.marks⟩⟩

/-- The notes of an open chord. -/
theorem walked_notes {s : AlignState α} {f : Forest (Node α)} {above : Option (Node α)}
    {s' : AlignState α} {f' : Forest (Node α)}
    (h : Forest.Completes (alignPass c) above s f s' f') {a : Node α} (ha : above = some a)
    (hf : f.Symbolic) (hnotes : ∀ b ∈ f.roots, ∃ note, b.kind = .element (.note note))
    (hids : (f.toList.map Node.id).Nodup) (hs : s.collecting) (hfault : s.fault = none)
    {onset : Fraction} (hopen : s.layer.chord? = some (a.handle, onset)) {top : Node α}
    (htop : top.layout.onset = some onset) :
    s.Walked s' f f' r (some top) ∧ s'.layer.time = s.layer.time := by
  induction h with
  | nil above s => exact ⟨.nil hfault, rfl⟩
  | @skip above s s₁ s₂ b b₁ children siblings siblings' henter _ _ =>
    obtain ⟨note, hb⟩ := hnotes b List.mem_cons_self
    cases (exists_of_enter_element hb hs henter (by decide)).1
  | @walk above s s₁ s₂ s₃ s₄ b b₁ b₂ children siblings children₁ children₂ siblings' whole v henter
      hbelow hleave _ hbeside _ ih =>
    subst ha
    rw [Forest.roots, List.forall_mem_cons] at hnotes
    obtain ⟨⟨note, hb⟩, hnotes⟩ := hnotes
    obtain ⟨-, htakes, -, hsiblings⟩ := hf
    obtain rfl := Forest.Symbolic.eq_nil_of_note hb htakes
    obtain ⟨-, rfl, rfl, hfault₁⟩ := exists_of_enter_element hb hs henter (by decide)
    obtain ⟨hfirst, hdraws⟩ := takes_enterElement_note (c := c) (r := r) hopen hb htop
    have hwrites := writes_enterElement c s b (some a) (.note note)
    have hb₁ := hwrites.kind.trans hb
    cases hbelow
    -- a note groups nothing, so nothing happens when it is left
    rw [leave_of_element hb₁] at hleave
    obtain ⟨rfl, rfl, rfl, -⟩ : (s.enterElement c (some a) b (.note note)).1 = s₃ ∧
        (s.enterElement c (some a) b (.note note)).2 = b₂ ∧ Forest.nil = children₂ ∧ _ := by
      simpa [leaveElement, Element.isContainer] using hleave
    have hchord : (s.enterElement c (some a) b (.note note)).1.layer.chord? = s.layer.chord? :=
      congrArg (Option.map fun o : OpenChord => (o.handle, o.onset)) hdraws.chord
    obtain ⟨hrest, htime⟩ := ih rfl hsiblings hnotes (Forest.nodup_of_cons hids).2
      (hdraws.collecting.trans hs) hfault₁ (hchord.trans hopen)
    exact ⟨.cons hb₁ hwrites hids trivial hfirst (.nil hfault₁) rfl hdraws.tuplets hchord hrest,
      htime.trans hdraws.time⟩

/-! ### The symbols of a layer -/

/-- Entering a symbol while no chord is open. -/
theorem enters_enterElement (c : AlignContext α) (s : AlignState α) (above : Option (Node α))
    (n : Node α) (e : Element) (hclosed : s.layer.chord? = none) :
    s.Enters n e (s.enterElement c above n e).1 (s.enterElement c above n e).2 := by
  rw [enterElement_of_closed c above n e (chord_eq_none_iff.1 hclosed)]
  exact enters_enterSymbol ..

omit [Scalar α] in
/-- A symbol that has a time of its own keeps it when it is left: in a chord no time passes. -/
theorem Enters.leave_eq {s₂ : AlignState α} (h : s.Enters n e s' n') (hfault : s'.fault = none)
    (hid : n'.id = n.id) (hmoves : e.takesTime) (hchord : ∀ d, e = .chord d →
      s₂.layer.time = s'.layer.time) : (s₂.leaveElement n' e).2 = n' := by
  refine leaveElement_snd h.onset fun ⟨hcontainer, hlt, hzero⟩ => ?_
  obtain ⟨d, rfl⟩ := Element.exists_chord hcontainer hmoves
  obtain ⟨-, -, -, -, htime⟩ := h.timedAt hfault hid
  rw [Symbol.time, if_pos ⟨hmoves, rfl⟩] at htime
  rw [Fraction.same_iff_value, Fraction.value_zero] at hzero
  rw [hchord d rfl, Fraction.lt_iff_value, htime] at hlt
  dsimp only at hlt
  rw [hzero, add_zero] at hlt
  exact lt_irrefl _ hlt

omit [Scalar α] in
/-- Entering a symbol while no chord is open, with what leaving it makes of it. -/
theorem Enters.takes {s₂ : AlignState α} (h : s.Enters n e s' n') (hfault : s'.fault = none)
    (hid : n'.id = n.id) (hkind : n'.kind = .element e) (hchord : ∀ d, e = .chord d →
      s₂.layer.time = s'.layer.time)
    (hreports : 0 < s.layer.time.den → 0 < s'.layer.time.den ∧
      s.Reports s' n.id (e.IsRefused s.layer.tuplet s.signatures.meter s.layer.time)) :
    s.Takes s' n ⟨(s₂.leaveElement n' e).2, e, s.layer.tuplet, none⟩ := by
  have hrefused : Symbol.IsRefused ⟨(s₂.leaveElement n' e).2, e, s.layer.tuplet, none⟩
      s.signatures.meter ↔ e.IsRefused s.layer.tuplet s.signatures.meter s.layer.time := by
    have honset := (leaveElement_onset s₂ n' e).trans h.onset
    rw [Symbol.IsRefused, and_iff_right rfl]
    dsimp only
    rw [honset]
    simp
  rw [← hrefused] at hreports
  obtain ⟨new, hmarks, hnew, htimed, htime⟩ := h.timedAt hfault hid
  have hmeter : (s₂.leaveElement n' e).2.meterAfter s.signatures.meter =
      e.meterAfter s.signatures.meter := by
    rw [(writes_leaveElement s₂ n' e).meterAfter, Node.meterAfter, hkind]
  by_cases hmoves : e.takesTime
  · have heq := h.leave_eq hfault hid hmoves hchord
    rw [heq] at hmeter ⊢
    rw [heq] at hreports
    refine ⟨h.meter.trans hmeter.symm, h.collecting, htime, fun hlongest => ?_,
      ⟨new, hmarks, hnew, htimed⟩, hreports, h.grids⟩
    rw [longestOf_of_timed (Element.isTimed_of_takesTime hkind hmoves)]
    exact h.longest hfault hlongest
  · have hstill (m : Node α) : ¬ Symbol.MovesOn ⟨m, e, s.layer.tuplet, none⟩ := fun hm =>
      hmoves hm.1
    refine ⟨h.meter.trans hmeter.symm, h.collecting, ?_, fun hlongest => ?_,
      ⟨new, hmarks, hnew, fun _ => ?_, fun _ hc => (by cases hc), fun hm => absurd hm (hstill _), fun hm => absurd hm (hstill _)⟩,
      hreports, h.grids⟩
    · rw [htime, Symbol.time, Symbol.time, if_neg (hstill _), if_neg (hstill _)]
    · obtain ⟨-, hzero⟩ := h.untimed (Element.given_of_not_takesTime hmoves _ _)
      rw [h.longest hfault hlongest, hzero, Fraction.value_zero, max_eq_left hlongest]
      by_cases hcontainer : e.isContainer
      · refine (longestOf_of_untimed ?_).symm
        rw [Node.isTimed, (writes_leaveElement s₂ n' e).kind, hkind]
        cases e <;> simp_all [Element.isContainer, Element.takesTime, Element.duration?]
      · -- no group is left as it was entered
        rw [leaveElement_snd h.onset fun hgroup => hcontainer hgroup.1, longestOf_of_timed, hzero,
          Fraction.value_zero, max_eq_left hlongest]
        rw [Node.isTimed, hkind]
        simp [hcontainer]
    · rw [leaveElement_onset]
      exact htimed.onset rfl

omit [Scalar α] in
theorem chordIn_eq_chord? {l : LayerCursor α} (he : ¬ ∃ d, e = .chord d) :
    l.chordIn n e = l.chord? := by
  cases e <;> first | rfl | exact absurd ⟨_, rfl⟩ he

omit [Scalar α] in
theorem Enters.tuplet {s₁ : AlignState α} {n₁ : Node α} (h : s.Enters n e s₁ n₁)
    (he : n'.kind = .element e) : s₁.layer.tuplet = n'.ratioBelow s.layer.tuplet := by
  rw [LayerCursor.tuplet, h.tuplets, Node.ratioBelow, he]
  cases e <;> rfl

/-- The symbols of a layer, or of a group in it. -/
theorem walked_symbols {s : AlignState α} {f : Forest (Node α)} {above : Option (Node α)}
    {s' : AlignState α} {f' : Forest (Node α)}
    (h : Forest.Completes (alignPass c) above s f s' f') (hf : f.Symbolic)
    (hids : (f.toList.map Node.id).Nodup) (hs : s.collecting) (hfault : s.fault = none)
    (hclosed : s.layer.chord? = none) : s.Walked s' f f' s.layer.tuplet none := by
  induction h with
  | nil above s => exact .nil hfault
  | @skip above s s₁ s₂ b b₁ children siblings siblings' henter _ _ =>
    obtain ⟨e, hb⟩ := Node.exists_element hf.1
    cases (exists_of_enter_element hb hs henter (by decide)).1
  | @walk above s s₁ s₂ s₃ s₄ b b₁ b₂ children siblings children₁ children₂ siblings' whole v henter
      hbelow hleave _ _ ihbelow ihbeside =>
    obtain ⟨htag, htakes, hchildren, hsiblings⟩ := hf
    obtain ⟨e, hb⟩ := Node.exists_element htag
    obtain ⟨hidsChildren, hidsSiblings⟩ := Forest.nodup_of_cons hids
    obtain ⟨-, hs₁, hb₁, hfault₁⟩ := exists_of_enter_element hb hs henter (by decide)
    have henters := enters_enterElement c s above b e hclosed
    have hwrites := writes_enterElement c s b above e
    rw [← hs₁, ← hb₁] at henters
    rw [← hb₁] at hwrites
    have hkind₁ := hwrites.kind.trans hb
    rw [leave_of_element hkind₁, Prod.mk.injEq, Prod.mk.injEq, Prod.mk.injEq] at hleave
    obtain ⟨rfl, rfl, rfl, -⟩ := hleave
    have hwrites₂ := writes_leaveElement s₂ b₁ e
    have hkind₂ := hwrites₂.kind.trans hkind₁
    have hcollecting₁ := henters.collecting.trans hs
    -- in a chord stand its notes, elsewhere symbols of the layer
    have hwalked : s₁.Walked s₂ children children₁
        ((s₂.leaveElement b₁ e).2.ratioBelow s.layer.tuplet) (s₂.leaveElement b₁ e).2.asChord ∧
          ∀ d, e = .chord d → s₂.layer.time = s₁.layer.time := by
      rw [← henters.tuplet hkind₂]
      by_cases hchord : ∃ d, e = .chord d
      · obtain ⟨d, rfl⟩ := hchord
        have hnotes : ∀ n ∈ children.roots, ∃ note, n.kind = .element (.note note) := fun n hn =>
          NodeKind.exists_note_of_chord (hb ▸ htakes n hn)
        rw [Node.asChord_eq_some hkind₂]
        have hopen : s₁.layer.chord? = some (b₁.handle, s.layer.time) := by
          rw [henters.chord, hwrites.handle]
          rfl
        obtain ⟨hwalked, htime⟩ := walked_notes hbelow rfl hchildren hnotes hidsChildren
          hcollecting₁ hfault₁ hopen ((leaveElement_onset ..).trans henters.onset)
        exact ⟨hwalked, fun _ _ => htime⟩
      · have hclosed₁ : s₁.layer.chord? = none := by
          rw [henters.chord, chordIn_eq_chord? hchord]
          exact hclosed
        rw [Node.asChord_eq_none hkind₂ hchord]
        exact ⟨ihbelow hchildren hidsChildren hcollecting₁ hfault₁ hclosed₁,
          fun d hd => absurd ⟨d, hd⟩ hchord⟩
    obtain ⟨hwalked, htime⟩ := hwalked
    obtain ⟨chord, hleft, hchord⟩ := leaveElement_fst (s := s)
      (hwalked.tuplets.trans henters.tuplets) (hwalked.chord.trans henters.chord) hwrites.handle
      fun _ _ => hclosed
    rw [hleft] at ihbeside
    have hrest := ihbeside hsiblings hidsSiblings (hwalked.collecting.trans hcollecting₁)
      hwalked.fault (hchord.trans hclosed)
    refine .cons hkind₂ (hwrites.trans hwrites₂) hids hchildren
      (henters.takes hfault₁ hwrites.id hkind₁ htime fun hden => ?_) hwalked ?_ ?_ ?_ hrest
    · rw [hs₁, enterElement_of_closed c above b e (chord_eq_none_iff.1 hclosed)] at hfault₁ ⊢
      exact reports_enterSymbol c s b e _ hfault₁ hden
    · rfl
    · rfl
    · exact hchord

end AlignState

end ScoreLayout
