import ScoreLayout.Proofs.Grid.Order
import ScoreLayout.Proofs.Layout.GraceLedger

/-!
# The order of the slots of a layer

Of two timed symbols of a layer the later one has the later slot, or the same, with three exceptions:
a full-measure rest stands before everything else of its time, and so before what comes before it in
the layer and takes no time; a grace note stands before the principal symbols of the time that it
leans on; and of grace notes of one time the ones with the larger distance stand first.

## Main definitions

* `Symbol.slotTime` — the time of the slot of a timed symbol.
* `Symbol.Overtakes` — the exceptions.
* `Timeline` — the symbols of a layer, one after another.

## Main results

* `Timeline.place_lt_iff` — slots are out of order where one symbol overtakes another.
-/

namespace ScoreLayout

/-! ### Keys within the content -/

/-- Keys of one zone are ordered by time, then by kind, then by distance. -/
theorem SlotKey.place_lt_iff {k k' : SlotKey} (hzone : k.zone = k'.zone) :
    k.place < k'.place ↔ k.time.value < k'.time.value ∨ k.time.value = k'.time.value ∧
      (k.kind.rank < k'.kind.rank ∨ k.kind.rank = k'.kind.rank ∧ k'.graceRank < k.graceRank) := by
  simp only [place, hzone, Prod.Lex.toLex_lt_toLex, lt_self_iff_false, true_and, false_or,
    OrderDual.toDual_lt_toDual]

variable {α : Type}

/-! ### What grace notes lean on -/

theorem leansOn_append (stop : Fraction) (l l' : List (Symbol α)) :
    leansOn stop (l ++ l') = leansOn (leansOn stop l') l := by
  induction l with
  | nil => rfl
  | cons y l ih => rw [List.cons_append, leansOn, leansOn, ih]

namespace Symbol

/-- The time at which a symbol begins. -/
def begins (x : Symbol α) : ℚ := (x.node.layout.onset.getD 0).value

/-- The time of the slot of a timed symbol, with the symbols behind it. -/
def slotTime (stop : Fraction) (back : List (Symbol α)) (x : Symbol α) : ℚ :=
  if x.element.isGrace then (leansOn stop back).value else x.begins

end Symbol

theorem leansOn_le {stop : Fraction} {l : List (Symbol α)} {t : ℚ} (hstop : stop.value ≤ t)
    (hl : ∀ x ∈ l, x.begins ≤ t) : (leansOn stop l).value ≤ t := by
  induction l with
  | nil => exact hstop
  | cons y l ih =>
    rw [List.forall_mem_cons] at hl
    rw [leansOn]
    split_ifs
    · exact hl.1
    · exact ih hl.2

theorem le_leansOn {stop : Fraction} {l : List (Symbol α)} {t : ℚ} (hstop : t ≤ stop.value)
    (hl : ∀ x ∈ l, t ≤ x.begins) : t ≤ (leansOn stop l).value := by
  induction l with
  | nil => exact hstop
  | cons y l ih =>
    rw [List.forall_mem_cons] at hl
    rw [leansOn]
    split_ifs
    · exact hl.1
    · exact ih hl.2

/-! ### Timed symbols -/

namespace Symbol

variable {x : Symbol α}

/-- A full-measure rest has no duration of its own. -/
theorem duration?_of_isFullMeasure (hx : x.element.isFullMeasure) : x.element.duration? = none := by
  generalize x.element = e at hx
  cases e <;> first | rfl | cases hx

theorem not_isGrace_of_isFullMeasure (hx : x.element.isFullMeasure) : ¬ x.element.isGrace := by
  rw [Element.isGrace, duration?_of_isFullMeasure hx]
  exact Bool.false_ne_true

theorem IsPrincipal.not_isFullMeasure (hx : x.IsPrincipal) : ¬ x.element.isFullMeasure := by
  intro hfull
  have hduration := hx.2.1
  rw [duration?_of_isFullMeasure hfull] at hduration
  cases hduration

theorem IsGrace.not_isFullMeasure (hx : x.IsGrace) : ¬ x.element.isFullMeasure := fun hfull =>
  not_isGrace_of_isFullMeasure hfull hx.2

/-- A timed symbol is a grace note, a principal symbol or a full-measure rest. -/
theorem MovesOn.cases (hx : x.MovesOn) :
    x.IsGrace ∨ x.IsPrincipal ∨ x.element.isFullMeasure := by
  obtain ⟨htimed, hchord⟩ := hx
  have hduration : x.element.duration?.isSome ∨ x.element.isFullMeasure := by
    generalize x.element = e at htimed
    cases e <;> first | exact .inl rfl | exact .inr rfl | cases htimed
  by_cases hgrace : x.element.isGrace
  · exact .inl ⟨hchord, hgrace⟩
  · exact .inr (hduration.imp_left fun hduration => ⟨hchord, hduration, hgrace⟩)

/-- The slot of a timed symbol. -/
def slotKey (stop : Fraction) (back : List (Symbol α)) (x : Symbol α) : SlotKey :=
  if x.element.isGrace then .ofGrace (leansOn stop back) (gracesAhead back + 1)
  else .ofKind (x.node.layout.onset.getD 0) (if x.element.isFullMeasure then .fullMeasure else .event)

theorem value_time_slotKey (x : Symbol α) (stop : Fraction) (back : List (Symbol α)) :
    (x.slotKey stop back).time.value = x.slotTime stop back := by
  rw [slotKey, slotTime]
  split_ifs <;> rfl

theorem zone_slotKey (x : Symbol α) (stop : Fraction) (back : List (Symbol α)) :
    (x.slotKey stop back).zone = .content := by
  rw [slotKey]
  split_ifs <;> rfl

theorem IsGrace.slotKey_eq (hx : x.IsGrace) (stop : Fraction) (back : List (Symbol α)) :
    x.slotKey stop back = .ofGrace (leansOn stop back) (gracesAhead back + 1) := if_pos hx.2

theorem IsPrincipal.slotKey_eq (hx : x.IsPrincipal) (stop : Fraction) (back : List (Symbol α)) :
    x.slotKey stop back = .ofKind (x.node.layout.onset.getD 0) .event := by
  rw [slotKey, if_neg hx.2.2, if_neg hx.not_isFullMeasure]

theorem slotKey_of_isFullMeasure (hx : x.element.isFullMeasure) (stop : Fraction)
    (back : List (Symbol α)) :
    x.slotKey stop back = .ofKind (x.node.layout.onset.getD 0) .fullMeasure := by
  rw [slotKey, if_neg (not_isGrace_of_isFullMeasure hx), if_pos hx]

/-- Every timed symbol that has an onset comes to a slot. -/
theorem MovesOn.key?_eq (hx : x.MovesOn) (honset : x.node.layout.onset.isSome) (stop : Fraction)
    (back : List (Symbol α)) : x.key? stop back = some (x.slotKey stop back) := by
  obtain ⟨a, ha⟩ := Option.isSome_iff_exists.1 honset
  rw [key?, hx.2, slotKey, ha]
  dsimp only [Option.map_some, Option.getD_some]
  rcases hx.cases with hgrace | hprincipal | hfull
  · rw [if_pos hgrace.2, if_pos hgrace.2]
  · rw [if_neg hprincipal.2.2, if_neg hprincipal.2.2, if_pos hprincipal.2.1,
      if_neg hprincipal.not_isFullMeasure]
  · have hgrace := not_isGrace_of_isFullMeasure hfull
    rw [if_neg hgrace, if_neg hgrace, duration?_of_isFullMeasure hfull, if_neg (by simp),
      if_pos hfull, if_pos hfull]

/-- Whether a timed symbol `y` has an earlier slot than the timed symbol `x` before it, with what
stands between them and behind. -/
inductive Overtakes (stop : Fraction) (x : Symbol α) (middle : List (Symbol α)) (y : Symbol α)
    (back : List (Symbol α)) : Prop
  /-- A full-measure rest stands before everything else that has its time or a later one. -/
  | fullMeasure (hx : ¬ x.element.isFullMeasure) (hy : y.element.isFullMeasure)
      (htime : y.slotTime stop back ≤ x.slotTime stop (middle ++ y :: back))
  /-- A grace note stands before a principal symbol of the time that it leans on. -/
  | grace (hx : x.IsPrincipal) (hy : y.IsGrace)
      (htime : y.slotTime stop back = x.slotTime stop (middle ++ y :: back))
  /-- Of grace notes that lean on one time the farther one stands first. -/
  | graces (hx : x.IsGrace) (hy : y.IsGrace)
      (htime : y.slotTime stop back = x.slotTime stop (middle ++ y :: back))
      (hahead : gracesAhead (middle ++ y :: back) < gracesAhead back)

end Symbol

/-! ### Layers -/

/-- The symbols of a layer begin one after another, and none behind the end of the layer. -/
structure Timeline (stop : Fraction) (xs : List (Symbol α)) : Prop where
  onset : ∀ x ∈ xs, x.node.layout.onset.isSome
  ordered : xs.Pairwise fun x y => x.begins ≤ y.begins
  within : ∀ x ∈ xs, x.begins ≤ stop.value

namespace Timeline

variable {stop : Fraction} {front middle back : List (Symbol α)} {x y : Symbol α}
  (h : Timeline stop (front ++ x :: (middle ++ y :: back)))

include h

/-- Nothing begins before what comes before it. -/
theorem begins_le : (∀ z ∈ middle, x.begins ≤ z.begins) ∧ x.begins ≤ y.begins ∧
    (∀ z ∈ back, x.begins ≤ z.begins) ∧ (∀ z ∈ middle, z.begins ≤ y.begins) ∧
    (∀ z ∈ middle, ∀ z' ∈ back, z.begins ≤ z'.begins) ∧ ∀ z ∈ back, y.begins ≤ z.begins := by
  have hordered := h.ordered
  simp only [List.pairwise_append, List.pairwise_cons, List.forall_mem_append,
    List.forall_mem_cons] at hordered
  obtain ⟨-, ⟨⟨hm, hy, hb⟩, -, ⟨hyb, -⟩, hmid⟩, -⟩ := hordered
  exact ⟨hm, hy, hb, fun z hz => (hmid z hz).1, fun z hz => (hmid z hz).2, hyb⟩

/-- The slot of a symbol that is no grace note is at its onset, and no slot behind it is earlier. -/
theorem begins_le_slotTime : x.begins ≤ y.slotTime stop back := by
  obtain ⟨-, hy, hb, -⟩ := h.begins_le
  rw [Symbol.slotTime]
  split_ifs
  · exact le_leansOn (h.within x (by simp)) hb
  · exact hy

/-- A grace note leans on nothing that is behind the next principal symbol. -/
theorem slotTime_le (hy : ¬ y.element.isFullMeasure) (hmoves : y.MovesOn) :
    x.slotTime stop (middle ++ y :: back) ≤ y.slotTime stop back := by
  obtain ⟨-, hxy, hxb, hmy, hmb, hyb⟩ := h.begins_le
  by_cases hgrace : x.element.isGrace
  · rw [Symbol.slotTime, if_pos hgrace, leansOn_append, leansOn]
    rcases hmoves.cases with hygrace | hyprincipal | hfull
    · rw [if_neg hygrace.not_isPrincipal, Symbol.slotTime, if_pos hygrace.2]
      exact leansOn_le le_rfl fun z hz => le_leansOn (h.within z (by simp [hz])) (hmb z hz)
    · rw [if_pos hyprincipal, Symbol.slotTime, if_neg hyprincipal.2.2]
      exact leansOn_le le_rfl hmy
    · exact absurd hfull hy
  · rw [Symbol.slotTime, if_neg hgrace]
    exact h.begins_le_slotTime

/-- Slots are out of order where one symbol overtakes another. -/
theorem place_lt_iff (hx : x.MovesOn) (hy : y.MovesOn) :
    (y.slotKey stop back).place < (x.slotKey stop (middle ++ y :: back)).place ↔
      x.Overtakes stop middle y back := by
  rw [SlotKey.place_lt_iff ((y.zone_slotKey ..).trans (x.zone_slotKey ..).symm),
    Symbol.value_time_slotKey, Symbol.value_time_slotKey]
  constructor
  · intro hlt
    have hle := hlt.elim le_of_lt fun heq => heq.1.le
    rcases hy.cases with hgrace | hprincipal | hfull
    · obtain ⟨heq, hkinds⟩ := hlt.resolve_left (h.slotTime_le hgrace.not_isFullMeasure hy).not_gt
      rcases hx.cases with hgrace' | hprincipal' | hfull'
      · refine .graces hgrace' hgrace heq ?_
        simpa [hgrace.slotKey_eq, hgrace'.slotKey_eq, SlotKey.ofGrace] using hkinds
      · exact .grace hprincipal' hgrace heq
      · simp [hgrace.slotKey_eq, Symbol.slotKey_of_isFullMeasure hfull', SlotKey.ofGrace,
          SlotKey.ofKind, SlotKind.rank] at hkinds
    · obtain ⟨-, hkinds⟩ := hlt.resolve_left (h.slotTime_le hprincipal.not_isFullMeasure hy).not_gt
      rcases hx.cases with hgrace' | hprincipal' | hfull'
      · simp [hprincipal.slotKey_eq, hgrace'.slotKey_eq, SlotKey.ofGrace, SlotKey.ofKind,
          SlotKind.rank] at hkinds
      · simp [hprincipal.slotKey_eq, hprincipal'.slotKey_eq, SlotKey.ofKind] at hkinds
      · simp [hprincipal.slotKey_eq, Symbol.slotKey_of_isFullMeasure hfull', SlotKey.ofKind,
          SlotKind.rank] at hkinds
    · by_cases hfull' : x.element.isFullMeasure
      · have hnot := Symbol.not_isGrace_of_isFullMeasure hfull'
        have hlate : x.slotTime stop (middle ++ y :: back) ≤ y.slotTime stop back := by
          rw [Symbol.slotTime, if_neg hnot]
          exact h.begins_le_slotTime
        simp [Symbol.slotKey_of_isFullMeasure hfull, Symbol.slotKey_of_isFullMeasure hfull',
          SlotKey.ofKind, hlate.not_gt] at hlt
      · exact .fullMeasure hfull' hfull hle
  · rintro (⟨hx', hy', htime⟩ | ⟨hx', hy', htime⟩ | ⟨hx', hy', htime, hahead⟩)
    · refine htime.lt_or_eq.imp_right fun htime => ⟨htime, .inl ?_⟩
      rcases hx.cases with hgrace | hprincipal | hfull
      · rw [Symbol.slotKey_of_isFullMeasure hy', hgrace.slotKey_eq]
        exact (by decide : SlotKind.fullMeasure.rank < SlotKind.grace.rank)
      · rw [Symbol.slotKey_of_isFullMeasure hy', hprincipal.slotKey_eq]
        exact (by decide : SlotKind.fullMeasure.rank < SlotKind.event.rank)
      · exact absurd hfull hx'
    · refine .inr ⟨htime, .inl ?_⟩
      rw [hy'.slotKey_eq, hx'.slotKey_eq]
      exact (by decide : SlotKind.grace.rank < SlotKind.event.rank)
    · refine .inr ⟨htime, .inr ?_⟩
      rw [hy'.slotKey_eq, hx'.slotKey_eq]
      exact ⟨rfl, Nat.succ_lt_succ hahead⟩

end Timeline

end ScoreLayout
