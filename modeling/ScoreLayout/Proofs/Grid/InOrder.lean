import Mathlib.Data.List.Chain
import ScoreLayout.Proofs.Grid.Framed
import ScoreLayout.Proofs.Grid.Placing
import ScoreLayout.Proofs.Grid.Stretching

/-!
# Positions in order

In exact arithmetic the slots of a placed grid stand in the order of their keys. Drawn slots do since
no gap is narrower than nothing. A slot for control elements only stands between its drawn
neighbours, because its time lies between theirs: the left barline stands at zero and the right one
at the end of the measure, and the time of a control element is neither before nor behind.

## Main definitions

* `MeasureGrid.Sprung` — a grid whose gaps are not narrower than their floors.
* `MeasureGrid.InOrder` — slots whose positions are in order.

## Main results

* `MeasureGrid.isChain_placeTimestamps` — slots for control elements stand between their neighbours.
* `MeasureGrid.Sprung.inOrder_place` — the positions of a grid that is placed.
* `MeasureGrid.sprung_space` — ideal gaps.
-/

namespace ScoreLayout

variable {K : Type} [ExactField K]

/-! ### Times in exact arithmetic -/

namespace Fraction

theorem toScalar_eq (a : Fraction) : (a.toScalar : K) = (a.value : K) := by
  rw [value, Rat.cast_div, Rat.cast_intCast, Rat.cast_intCast]
  rfl

/-- The time between two fractions is their difference. -/
theorem span_eq (a b : Fraction) : (a.span b : K) = ((b.value - a.value : ℚ) : K) := by
  rw [span]
  split
  · rename_i length hlength
    rw [toScalar_eq, value_of_sub? hlength]
  · rw [toScalar_eq, toScalar_eq, Rat.cast_sub]

end Fraction

namespace MeasureGrid

variable {g g' : MeasureGrid K} {least : K}

/-! ### Interpolation -/

section Between

variable {p n : Slot K} {t t' : Fraction}

/-- Later times are placed further to the right. -/
theorem between_mono (hx : p.x ≤ n.x) (ht : t.value ≤ t'.value) :
    between (some p) (some n) t ≤ between (some p) (some n) t' := by
  rw [between, between, Fraction.span_eq, Fraction.span_eq, Fraction.span_eq, ExactField.zero_eq]
  split_ifs with hspan
  · have hpart : ((t.value - p.key.time.value : ℚ) : K) ≤ ((t'.value - p.key.time.value : ℚ) : K) :=
      Rat.cast_le.2 (sub_le_sub_right ht _)
    have hdistance := sub_nonneg.2 hx
    gcongr
  · exact le_rfl

theorem le_between (hx : p.x ≤ n.x) (ht : p.key.time.value ≤ t.value) :
    p.x ≤ between (some p) (some n) t := by
  refine le_trans ?_ (between_mono hx ht)
  rw [between]
  split_ifs
  · rw [Fraction.span_eq, sub_self, Rat.cast_zero, mul_zero, zero_div, add_zero]
  · exact le_rfl

theorem between_le (hx : p.x ≤ n.x) (ht : t.value ≤ n.key.time.value) :
    between (some p) (some n) t ≤ n.x := by
  refine (between_mono hx ht).trans ?_
  rw [between]
  split_ifs with hspan
  · rw [ExactField.zero_eq] at hspan
    rw [mul_div_assoc, div_self hspan.ne', mul_one, add_sub_cancel]
  · exact hx

end Between

/-- Behind a drawn slot, slots for control elements only stand between their neighbours, if the drawn
slots stand in order and times are in order. -/
theorem isChain_placeTimestamps {p : Slot K} {rest : List (Slot K)}
    (hx : (p :: rest.filter fun s => ¬ s.timestampOnly).Pairwise fun s t => s.x ≤ t.x)
    (ht : (p :: rest).Pairwise fun s t => s.timestampOnly ∨ t.timestampOnly →
      s.key.time.value ≤ t.key.time.value)
    (hend : ∀ s, rest.getLast? = some s → ¬ s.timestampOnly) :
    (p :: placeTimestamps (some p) rest).IsChain fun s t => s.x ≤ t.x := by
  induction rest generalizing p with
  | nil => exact .singleton p
  | cons s rest ih =>
    rw [placeTimestamps]
    split_ifs with hs
    · rw [List.filter_cons_of_neg (by simpa using hs)] at hx
      have hne : rest ≠ [] := fun hnil => hend s (by rw [hnil]; rfl) hs
      obtain ⟨r, rest, rfl⟩ := List.exists_cons_of_ne_nil hne
      -- the next drawn slot
      obtain ⟨n, hn⟩ : ∃ n, ((r :: rest).find? fun t => ¬ t.timestampOnly) = some n := by
        rw [← Option.isSome_iff_exists, List.find?_isSome]
        obtain ⟨l, hl⟩ : ∃ l, (r :: rest).getLast? = some l :=
          ⟨_, List.getLast?_eq_some_getLast hne⟩
        exact ⟨l, List.mem_of_getLast? hl, by
          simpa using hend l (by rw [List.getLast?_cons_cons, hl])⟩
      have hmem := List.mem_of_find?_eq_some hn
      have hdrawn : ¬ n.timestampOnly := by simpa using List.find?_some hn
      rw [List.pairwise_cons, List.pairwise_cons] at ht
      have hpn : p.x ≤ n.x :=
        (List.pairwise_cons.1 hx).1 n (List.mem_filter.2 ⟨hmem, by simpa using hdrawn⟩)
      have hps := ht.1 s List.mem_cons_self (.inr hs)
      have hsn := ht.2.1 n hmem (.inl hs)
      have hrest := ih hx (List.pairwise_cons.2
        ⟨fun t htmem => ht.1 t (List.mem_cons_of_mem s htmem), ht.2.2⟩)
        fun l hl => hend l (by rw [List.getLast?_cons_cons, hl])
      rw [hn, List.isChain_cons_cons]
      refine ⟨le_between hpn hps, List.isChain_cons.2 ⟨fun y hy => ?_, (List.isChain_cons.1 hrest).2⟩⟩
      -- behind it stands a slot of the same interval, or its end
      rw [placeTimestamps] at hy
      by_cases hr : r.timestampOnly
      · rw [if_pos hr, List.head?_cons, Option.mem_some_iff] at hy
        rw [List.find?_cons_of_neg (by simpa using hr)] at hn
        rw [← hy, hn]
        exact between_mono hpn (ht.2.1 r List.mem_cons_self (.inl hs))
      · rw [if_neg hr, List.head?_cons, Option.mem_some_iff] at hy
        rw [List.find?_cons_of_pos (by simpa using hr), Option.some.injEq] at hn
        rw [← hy, hn]
        exact between_le hpn hsn
    · rw [List.filter_cons_of_pos (by simpa using hs)] at hx
      rw [List.pairwise_cons] at hx ht
      refine List.isChain_cons_cons.2 ⟨hx.1 s List.mem_cons_self, ih hx.2 ht.2 fun l hl => ?_⟩
      cases rest with
      | nil => cases hl
      | cons r rest => exact hend l (by rw [List.getLast?_cons_cons, hl])

/-! ### Gaps above their floors -/

/-- A grid with a gap between any two drawn slots that follow each other. No gap is narrower than its
floor, and the floor behind content is at least so wide. -/
structure Sprung (least : K) (g : MeasureGrid K) : Prop where
  gaps : g.gaps.length + 1 = g.drawnSlots.length
  elastic : ∀ gap ∈ g.gaps, 0 ≤ gap.floor ∧ gap.Elastic
  apart : ∀ p ∈ (g.drawnSlots.map Slot.key).zip g.gaps, p.1.zone = .content → least ≤ p.2.floor

/-- Slots whose positions are in order. -/
structure InOrder (least : K) (g : MeasureGrid K) : Prop where
  start : g.slots.head?.map Slot.x = some 0
  rising : g.slots.Pairwise fun s t => s.x ≤ t.x
  /-- A slot for control elements only stands between the closest drawn slots. -/
  between : ∀ front s back, g.slots = front ++ s :: back → s.timestampOnly → ∃ p n,
    (front.filter fun s => ¬ s.timestampOnly).getLast? = some p ∧
      (back.filter fun s => ¬ s.timestampOnly).head? = some n ∧ p.x ≤ s.x ∧ s.x ≤ n.x
  /-- Drawn slots that follow content keep a distance from it. -/
  apart : ∀ front p n back, g.drawnSlots = front ++ p :: n :: back → p.key.zone = .content →
    least ≤ n.x - p.x

/-- Where drawn slots stand at the running sums of gaps, neighbours are a gap apart. -/
theorem exists_gap_of_scanl {x : K} : {slots : List (Slot K)} → {gaps : List (Gap K)} →
    (slots.map Slot.x = (gaps.map Gap.width).scanl (· + ·) x) → {front : List (Slot K)} →
    {p n : Slot K} → {back : List (Slot K)} → slots = front ++ p :: n :: back →
      ∃ gap, (p, gap) ∈ slots.zip gaps ∧ n.x = p.x + gap.width := by
  intro slots gaps h front
  induction front generalizing slots gaps x with
  | nil =>
    rintro p n back rfl
    cases gaps with
    | nil => simp at h
    | cons gap gaps =>
      rw [List.map_cons, List.scanl_cons] at h
      simp only [List.nil_append, List.map_cons, List.cons.injEq] at h
      have hnext := congrArg List.head? h.2
      rw [List.head?_cons, List.head?_scanl, Option.some.injEq] at hnext
      exact ⟨gap, by simp, by rw [hnext, h.1]⟩
  | cons c front ih =>
    rintro p n back rfl
    cases gaps with
    | nil => simp at h
    | cons gap gaps =>
      rw [List.map_cons, List.scanl_cons, List.cons_append, List.map_cons, List.cons.injEq] at h
      obtain ⟨gap', hmem, heq⟩ := ih h.2 rfl
      exact ⟨gap', by rw [List.cons_append, List.zip_cons_cons]; exact List.mem_cons_of_mem _ hmem, heq⟩

omit [ExactField K] in
/-- A framed grid begins and ends with drawn slots. -/
theorem Framed.exists_ends {last : Fraction} (h : g.Framed last) : ∃ first rest final,
    g.slots = first :: rest ∧ rest.getLast? = some final ∧ first.timestampOnly = false ∧
      final.timestampOnly = false := by
  obtain ⟨inner, houtline, -⟩ := h.outline
  rw [MeasureGrid.outline, opening, List.append_assoc, List.cons_append] at houtline
  obtain ⟨first, rest, hslots, hfirst, hrest⟩ := List.map_eq_cons_iff.1 houtline
  have hlast : (rest.map fun s => (s.key, s.timestampOnly)).getLast? =
      some (.ofKind last .measureEnd, false) := by
    rw [hrest, ← List.append_assoc, closing, List.getLast?_append]
    rfl
  rw [List.getLast?_map, Option.map_eq_some_iff] at hlast
  obtain ⟨final, hfinal, heq⟩ := hlast
  exact ⟨first, rest, final, hslots, hfinal, congrArg Prod.snd hfirst, congrArg Prod.snd heq⟩

omit [ExactField K] in
theorem map_key_drawnSlots (g : MeasureGrid K) :
    g.drawnSlots.map Slot.key = (g.outline.filter fun s => ¬ s.2).map Prod.fst := by
  rw [outline, List.filter_map, List.map_map]
  rfl

namespace Sprung

/-- Gaps above their floors are not narrower than nothing. -/
theorem sound (h : g.Sprung least) : ∀ gap ∈ g.gaps, gap.Sound := by
  intro gap hgap
  obtain ⟨hfloor, helastic⟩ := h.elastic gap hgap
  exact ⟨ExactField.nonneg_iff.2 (hfloor.trans helastic.floor), ExactField.nonneg_iff.2 hfloor,
    fun _ => le_rfl⟩

/-- Only the gaps and the keys of the slots matter. -/
theorem of_outline (h : g.Sprung least) (houtline : g'.outline = g.outline)
    (hgaps : g'.gaps = g.gaps) : g'.Sprung least where
  gaps := by
    rw [hgaps, length_drawnSlots, houtline, ← length_drawnSlots]
    exact h.gaps
  elastic := hgaps ▸ h.elastic
  apart := by
    rw [hgaps, map_key_drawnSlots, houtline, ← map_key_drawnSlots]
    exact h.apart

/-- Behind the first slot of a grid that is placed, slots stand in order. -/
theorem rising_place {last : Fraction} (h : g.Sprung least) (hg : g.Framed last)
    (hok : g.place = .ok g') : g'.slots.Pairwise fun s t => s.x ≤ t.x := by
  rw [place] at hok
  split at hok
  · rename_i slots hslots
    rw [← Except.ok.inj hok]
    have hframed : Framed { g with slots } last := hg.of_outline (outlines_placeDrawn hslots)
    obtain ⟨first, rest, final, heq, hlast, hfirst, hfinal⟩ := hframed.exists_ends
    dsimp only at heq
    subst heq
    have hrising := rising_placeDrawn _ h.sound hslots
    rw [Rising, List.filter_cons_of_pos (by simpa using hfirst)] at hrising
    show (placeTimestamps none (first :: rest)).Pairwise _
    rw [placeTimestamps, if_neg (by simp [hfirst])]
    refine List.isChain_iff_pairwise.1 (isChain_placeTimestamps ?_ ?_ fun s hs => ?_)
    · exact hrising.imp fun hst => ExactField.atMost_iff.1 hst.2
    · refine List.Pairwise.imp_of_mem (fun {s t} hs ht hplace hstamp => ?_) hframed.sorted
      exact hframed.time_le hs ht hplace hstamp
    · obtain rfl := Option.some.inj (hlast.symm.trans hs)
      simp [hfinal]
  · cases hok

/-- The positions of a grid that is placed. -/
theorem inOrder_place {last : Fraction} (h : g.Sprung least) (hg : g.Framed last)
    (hok : g.place = .ok g') : g'.InOrder least := by
  have hplaced := placed_place h.gaps hok
  have hrising := h.rising_place hg hok
  have hsprung := h.of_outline (sameShape_place hok).outline (gaps_place hok)
  obtain ⟨first, rest, final, hslots, hlast, hfirst, hfinal⟩ :=
    (hg.of_outline (sameShape_place hok).outline).exists_ends
  refine ⟨?_, hrising, fun front s back heq hs => ?_, fun front p n back heq hp => ?_⟩
  · have hhead := congrArg List.head? hplaced.positions
    rw [drawnSlots, hslots, List.filter_cons_of_pos (by simpa using hfirst), List.map_cons,
      List.head?_cons, List.head?_scanl, ExactField.zero_eq] at hhead
    rw [hslots]
    exact hhead
  · -- the first slot stands before, and the last one behind
    have hfront : front.filter (fun s => ¬ s.timestampOnly) ≠ [] := by
      cases front with
      | nil =>
        obtain ⟨rfl, -⟩ := List.cons.inj (hslots.symm.trans heq)
        cases hs.symm.trans hfirst
      | cons c front =>
        obtain ⟨rfl, -⟩ := List.cons.inj (hslots.symm.trans heq)
        rw [List.filter_cons_of_pos (by simpa using hfirst)]
        exact List.cons_ne_nil _ _
    have hback : back.filter (fun s => ¬ s.timestampOnly) ≠ [] := by
      have hends : (front ++ s :: back).getLast? = some final := by
        rw [← heq, hslots, List.getLast?_cons, hlast]
        rfl
      rw [List.getLast?_append, List.getLast?_cons, Option.some_or, Option.some.injEq] at hends
      cases hb : back.getLast? with
      | none =>
        rw [hb] at hends
        obtain rfl : s = final := hends
        cases hs.symm.trans hfinal
      | some b =>
        rw [hb] at hends
        obtain rfl : b = final := hends
        exact List.ne_nil_of_mem (List.mem_filter.2 ⟨List.mem_of_getLast? hb, by simp [hfinal]⟩)
    obtain ⟨p, hp⟩ : ∃ p, (front.filter fun s => ¬ s.timestampOnly).getLast? = some p :=
      ⟨_, List.getLast?_eq_some_getLast hfront⟩
    obtain ⟨n, hn⟩ : ∃ n, (back.filter fun s => ¬ s.timestampOnly).head? = some n :=
      ⟨_, List.head?_eq_some_head hback⟩
    have hpmem := List.mem_of_mem_filter (List.mem_of_getLast? hp)
    have hnmem := List.mem_of_mem_filter (List.mem_of_head? hn)
    rw [heq, List.pairwise_append, List.pairwise_cons] at hrising
    exact ⟨p, n, hp, hn, hrising.2.2 p hpmem s List.mem_cons_self, hrising.2.1.1 n hnmem⟩
  · obtain ⟨gap, hmem, hdistance⟩ := exists_gap_of_scanl hplaced.positions heq
    have hfloor := hsprung.apart (p.key, gap) (by
      rw [List.zip_map_left]
      exact List.mem_map_of_mem (f := Prod.map Slot.key id) hmem) hp
    rw [hdistance, add_sub_cancel_left]
    exact hfloor.trans (hsprung.elastic gap (List.of_mem_zip hmem).2).2.floor

end Sprung

/-! ### Ideal gaps -/

/-- Ideal gaps stand between slots that follow each other. -/
theorem exists_of_mem_zip_idealGaps {p : Spacing K} {key : SlotKey} {gap : Gap K} :
    {slots : List (Slot K)} → (key, gap) ∈ (slots.map Slot.key).zip (idealGaps p slots) →
      ∃ front s n back, slots = front ++ s :: n :: back ∧ s.key = key ∧ gap = s.gapTo n p
  | [], h => by cases h
  | [s], h => by simp [idealGaps] at h
  | s :: n :: rest, h => by
      rw [idealGaps, List.map_cons, List.zip_cons_cons, List.mem_cons, Prod.mk.injEq] at h
      rcases h with ⟨rfl, rfl⟩ | h
      · exact ⟨[], s, n, rest, rfl, rfl, rfl⟩
      · obtain ⟨front, s', n', back, heq, hkey, hgap⟩ := exists_of_mem_zip_idealGaps h
        exact ⟨s :: front, s', n', back, by rw [heq, List.cons_append], hkey, hgap⟩

omit [ExactField K] in
/-- What follows content at once among the drawn slots neither opens the measure nor ends it: the
right barline stands between content and the end. -/
theorem Framed.next_of_content {last : Fraction} (h : g.Framed last) {front back : List (Slot K)}
    {s n : Slot K} (heq : g.drawnSlots = front ++ s :: n :: back) (hs : s.key.zone = .content) :
    n.key.kind ≠ .measureEnd ∧ n.key.zone ≠ .left := by
  have hplace {a b : SlotKey} (hzone : a.zone.rank < b.zone.rank) : a.place < b.place :=
    SlotKey.compare_eq_lt_iff.1 (SlotKey.compare_eq_lt_of_zone hzone)
  have hsorted : g.drawnSlots.Pairwise fun s t => s.key.place < t.key.place := h.sorted.filter _
  have hdrawn {t : Slot K} (ht : t ∈ g.drawnSlots) : t ∈ g.slots := List.mem_of_mem_filter ht
  obtain ⟨inner, houtline, -⟩ := h.outline
  obtain ⟨r, hr, hkey⟩ := List.mem_map.1 (show (SlotKey.ofKind last .rightBarLine, false) ∈ g.outline by
    rw [houtline]
    simp [closing])
  obtain ⟨hrkey, hrdrawn⟩ := Prod.mk.inj hkey
  have hrmem : r ∈ g.drawnSlots := List.mem_filter.2 ⟨hr, by simp [hrdrawn]⟩
  have hrzone : r.key.zone = .right := by rw [hrkey]; rfl
  have hn : n ∈ g.slots := hdrawn (by rw [heq]; simp)
  rw [heq] at hsorted hrmem
  rw [List.pairwise_append, List.pairwise_cons, List.pairwise_cons] at hsorted
  obtain ⟨-, ⟨hnext, hback, -⟩, hfront⟩ := hsorted
  refine ⟨fun hend => ?_, fun hleft => ?_⟩
  · have hnzone : n.key.zone = .right := by rw [SlotKey.zone, hend]; rfl
    have hntime : n.key.time = last := by
      rcases h.cases hn with ⟨hzone, -⟩ | hzone | ⟨-, htime, -⟩
      · cases hzone.symm.trans hnzone
      · cases hzone.symm.trans hnzone
      · exact htime
    have hrn : r.key.place < n.key.place := by
      refine SlotKey.place_lt_of_kind (hrzone.trans hnzone.symm) ?_ ?_
      · rw [hntime, hrkey]
        rfl
      · rw [hend, hrkey]
        exact Nat.lt_succ_self _
    simp only [List.mem_append, List.mem_cons] at hrmem
    rcases hrmem with hmem | rfl | rfl | hmem
    · refine (hfront r hmem s List.mem_cons_self).not_gt (hplace ?_)
      rw [hs, hrzone]
      decide
    · cases hs.symm.trans hrzone
    · exact lt_irrefl _ hrn
    · exact hrn.not_gt (hback r hmem)
  · refine (hnext n List.mem_cons_self).not_gt (hplace ?_)
    rw [hs, hleft]
    decide

/-- The floor of the gap behind content is the least distance of slots of content. -/
theorem floor_gapTo {p : Spacing K} {s n : Slot K} (hs : s.key.zone = .content)
    (hn : n.key.kind ≠ .measureEnd ∧ n.key.zone ≠ .left) :
    (s.gapTo n p).floor = p.minSlotWidth := by
  have hfloor : s.floorBetween n p = p.minSlotWidth := by
    rw [Slot.floorBetween, hs]
    cases hzone : n.key.zone with
    | left => exact absurd hzone hn.2
    | content => rfl
    | right => rfl
  rw [Slot.gapTo, if_neg hn.1]
  dsimp only
  rw [hfloor, Scalar.max_eq_max, Scalar.min_eq_min]
  exact min_eq_left (le_max_right _ _)

/-- The ideal gaps of a framed grid, and the positions that it gets from them. -/
theorem sprung_space {p : Spacing K} (hp : p.InRange) {last : Fraction} (hg : g.Framed last)
    (hok : g.space p = .ok g') : g'.Sprung p.minSlotWidth ∧ g'.InOrder p.minSlotWidth := by
  rw [space] at hok
  split_ifs at hok
  obtain ⟨g₁, hplace, hok⟩ := except_bind_eq_ok.1 hok
  obtain rfl := Except.ok.inj hok
  have hideal : Sprung p.minSlotWidth { g with gaps := idealGaps p g.drawnSlots } := by
    refine ⟨?_, fun gap hgap => ⟨?_, elastic_idealGaps hp _ gap hgap⟩, fun q hq hzone => ?_⟩
    · obtain ⟨first, rest, final, hslots, -, hfirst, -⟩ := hg.exists_ends
      show (idealGaps p g.drawnSlots).length + 1 = g.drawnSlots.length
      rw [length_idealGaps, drawnSlots, hslots, List.filter_cons_of_pos (by simpa using hfirst)]
      rfl
    · exact ExactField.nonneg_iff.1 (sound_idealGaps hp _ gap hgap).floor
    · obtain ⟨front, s, n, back, heq, hkey, hgap⟩ := exists_of_mem_zip_idealGaps hq
      have hs : s.key.zone = .content := hkey ▸ hzone
      rw [hgap, floor_gapTo hs (hg.next_of_content heq hs)]
  have hframed : Framed { g with gaps := idealGaps p g.drawnSlots } last := hg.of_outline rfl
  have hsprung := hideal.of_outline (sameShape_place hplace).outline (gaps_place hplace)
  have horder := hideal.inOrder_place hframed hplace
  exact ⟨⟨hsprung.gaps, hsprung.elastic, hsprung.apart⟩,
    ⟨horder.start, horder.rising, horder.between, horder.apart⟩⟩

/-! ### Justified gaps -/

end MeasureGrid

namespace Gap

variable {α : Type} [Scalar α]

/-- Distributing an amount keeps what is read off the gaps beside their widths. -/
theorem map_distribute {β : Type} (f : Gap α → β) (hf : ∀ (g : Gap α) width, f { g with width } = f g)
    (gaps : List (Gap α)) (extra : α) : (distribute gaps extra).1.map f = gaps.map f := by
  have hrounds : (rounds : Nat) → (gaps : List (Gap α)) → (remaining : α) →
      (distributeRounds rounds gaps remaining).1.map f = gaps.map f := by
    intro rounds
    induction rounds with
    | zero => exact fun _ _ => rfl
    | succ rounds ih =>
      intro gaps remaining
      rw [distributeRounds]
      dsimp only
      split_ifs
      · rfl
      · rfl
      · rw [ih, distributeRound, List.map_map]
        refine List.map_congr_left fun g _ => ?_
        rw [Function.comp_apply]
        split_ifs
        · exact hf g _
        · rfl
  exact hrounds _ gaps extra

end Gap

/-- Gaps for a sprung grid: they have its floors, and are not narrower. -/
theorem MeasureGrid.Sprung.applyGaps {g g' : MeasureGrid K} {least : K} {last : Fraction}
    (h : g.Sprung least) (hg : g.Framed last) {gaps : List (Gap K)}
    (hfloors : gaps.map Gap.floor = g.gaps.map Gap.floor) (hgaps : ∀ gap ∈ gaps, gap.Elastic)
    (hok : g.applyGaps gaps = .ok g') : g'.Sprung least ∧ g'.InOrder least := by
  rw [MeasureGrid.applyGaps] at hok
  split_ifs at hok with hlength
  have hsprung : Sprung least { g with gaps } := by
    refine ⟨?_, fun gap hgap => ⟨?_, hgaps gap hgap⟩, fun q hq hzone => ?_⟩
    · show gaps.length + 1 = g.drawnSlots.length
      rw [hlength, h.gaps]
    · have hmem := List.mem_map_of_mem (f := Gap.floor) hgap
      rw [hfloors] at hmem
      obtain ⟨gap₀, hgap₀, heq⟩ := List.mem_map.1 hmem
      exact heq ▸ (h.elastic gap₀ hgap₀).1
    · have hmem : Prod.map id Gap.floor q ∈ (g.drawnSlots.map Slot.key).zip (gaps.map Gap.floor) := by
        rw [List.zip_map_right]
        exact List.mem_map_of_mem hq
      rw [hfloors, List.zip_map_right] at hmem
      obtain ⟨q₀, hq₀, heq⟩ := List.mem_map.1 hmem
      obtain ⟨hkey, hfloor⟩ := Prod.mk.inj heq
      exact hfloor ▸ h.apart q₀ hq₀ ((congrArg SlotKey.zone hkey).trans hzone)
  have hframed : Framed { g with gaps } last := hg.of_outline rfl
  exact ⟨hsprung.of_outline (sameShape_place hok).outline (gaps_place hok),
    hsprung.inOrder_place hframed hok⟩

end ScoreLayout
