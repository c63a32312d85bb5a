import ScoreLayout.Proofs.Grid.Alike
import ScoreLayout.Proofs.Grid.Placing
import ScoreLayout.Proofs.Layout.AlignmentFaults
import ScoreLayout.Proofs.LowestTerms

/-!
# Time grids that draw the same

A time-stamped control element asks for a slot between those of the symbols. Such a slot takes no
part in what is drawn: closing the grid, its ideal gaps and the positions of its drawn slots come out
the same with and without it. The one slot for a control element that is drawn later is that at the
start of a measure without symbols. It is then the slot that would have been made there anyway.

## Main definitions

* `MeasureGrid.Stampable` — an open grid whose slots for control elements only hold nothing yet.
* `MeasureGrid.DrawsSame` — two grids with the same drawn slots.
* `MeasureGrid.SameColumns` — two grids with the same drawn slots at the same positions.

## Main results

* `MeasureGrid.Stampable.timestampSlot` — a slot for a control element.
* `MeasureGrid.Stampable.finish` — closing a grid in view of its drawn slots.
* `MeasureGrid.DrawsSame.space`, `MeasureGrid.SameColumns.applyGaps` — ideal positions, and
  justified ones.
-/

namespace ScoreLayout

variable {α : Type}

namespace MeasureGrid

/-! ### Drawn slots among all slots -/

/-- Slots in strict order. -/
abbrev Ascending (slots : List (Slot α)) : Prop :=
  slots.Pairwise fun s t => s.key.place < t.key.place

/-- The slots that something is drawn at. -/
abbrev drawnOf (slots : List (Slot α)) : List (Slot α) := slots.filter fun s => ¬ s.timestampOnly

theorem drawnOf_cons_of_drawn {s : Slot α} (hs : s.timestampOnly = false) (rest : List (Slot α)) :
    drawnOf (s :: rest) = s :: drawnOf rest := List.filter_cons_of_pos (by simp [hs])

theorem drawnOf_cons_of_stamp {s : Slot α} (hs : s.timestampOnly = true) (rest : List (Slot α)) :
    drawnOf (s :: rest) = drawnOf rest := List.filter_cons_of_neg (by simp [hs])

/-- Something is drawn within the timed content if one of the drawn slots lies there. -/
theorem hasContent_eq_any (g : MeasureGrid α) :
    g.hasContent = g.drawnSlots.any fun s => s.key.zone = .content := by
  rw [hasContent, drawnSlots, List.any_filter]
  congr 1
  funext s
  cases s.timestampOnly <;> simp

variable [Scalar α] {key : SlotKey} {s : Slot α} {slots : List (Slot α)}

/-- The slots with that of a key drawn, which is made if it is missing. -/
def claimSlot (key : SlotKey) (slots : List (Slot α)) : List (Slot α) :=
  modifySlot key (fun s => { s with timestampOnly := false }) (insertSlot key false slots)

theorem slot_eq {g : MeasureGrid α} (h : g.state = .collecting) (key : SlotKey) :
    g.slot key = .ok { g with slots := claimSlot key g.slots } := if_pos h

theorem claimSlot_cons_of_lt (hs : s.key.place < key.place) (rest : List (Slot α)) :
    claimSlot key (s :: rest) = s :: claimSlot key rest := by
  have hlt := SlotKey.compare_eq_lt_iff.2 hs
  rw [claimSlot, insertSlot, hlt]
  dsimp only
  rw [modifySlot, List.map_cons, if_neg (by rw [hlt]; decide)]
  rfl

/-- A slot that is there is claimed. -/
theorem claimSlot_cons_of_same (hs : s.key.Same key) (hrest : Ascending (s :: slots)) :
    claimSlot key (s :: slots) = { s with timestampOnly := false } :: slots := by
  have hne : ∀ t ∈ slots, t.key.compare key ≠ .eq := fun t ht hsame => by
    refine absurd ((List.pairwise_cons.1 hrest).1 t ht) ?_
    rw [SlotKey.same_iff_place.1 hs, SlotKey.same_iff_place.1 (show t.key.Same key from hsame)]
    exact lt_irrefl _
  have hinsert : insertSlot key false (s :: slots) = s :: slots := by
    rw [insertSlot, show s.key.compare key = .eq from hs]
  rw [claimSlot, hinsert, modifySlot, List.map_cons,
    if_pos (show s.key.compare key = .eq from hs), ← modifySlot, modifySlot_of_ne hne]

/-- A slot that comes before all others. -/
theorem claimSlot_of_lt (h : ∀ s ∈ slots, key.place < s.key.place) :
    claimSlot key slots = Slot.ofKey key false :: slots := by
  have hne : ∀ s ∈ slots, s.key.compare key ≠ .eq := fun s hs hsame =>
    (h s hs).ne (SlotKey.same_iff_place.1 (show s.key.Same key from hsame)).symm
  have hinsert : insertSlot key false slots = Slot.ofKey key false :: slots := by
    cases slots with
    | nil => rfl
    | cons s rest => rw [insertSlot, SlotKey.compare_eq_gt_iff.2 (h s List.mem_cons_self)]
  have hself : (Slot.ofKey key false : Slot α).key.compare key = .eq := SlotKey.compare_self key
  rw [claimSlot, hinsert, modifySlot, List.map_cons, if_pos hself, ← modifySlot,
    modifySlot_of_ne hne]
  rfl

/-- A slot that is not drawn has been there. -/
theorem mem_of_mem_claimSlot (h : s ∈ claimSlot key slots) (hs : s.timestampOnly = true) :
    s ∈ slots := by
  obtain ⟨t, ht, rfl⟩ := List.mem_map.1 h
  split_ifs at hs ⊢
  rcases mem_insertSlot ht with ht | rfl
  · exact ht
  · cases hs

/-- What is drawn once a slot is claimed follows from what has been drawn, as long as the slot, where
it is there for control elements only, is still as it has been made. -/
theorem drawnOf_claimSlot (hslots : Ascending slots)
    (hstamp : ∀ s ∈ slots, s.timestampOnly = true → s.key.Same key → s = Slot.ofKey key true) :
    drawnOf (claimSlot key slots) = claimSlot key (drawnOf slots) := by
  induction slots with
  | nil =>
    have hnone : ∀ s ∈ ([] : List (Slot α)), key.place < s.key.place := by simp
    show drawnOf (claimSlot key []) = claimSlot key []
    rw [claimSlot_of_lt hnone, drawnOf_cons_of_drawn rfl]
    rfl
  | cons s rest ih =>
    have hbehind := (List.pairwise_cons.1 hslots).1
    rw [List.forall_mem_cons] at hstamp
    rcases lt_trichotomy s.key.place key.place with hlt | heq | hgt
    · rw [claimSlot_cons_of_lt hlt]
      have hrest := ih hslots.of_cons hstamp.2
      cases hs : s.timestampOnly with
      | false =>
        rw [drawnOf_cons_of_drawn hs, drawnOf_cons_of_drawn hs, claimSlot_cons_of_lt hlt, hrest]
      | true => rw [drawnOf_cons_of_stamp hs, drawnOf_cons_of_stamp hs, hrest]
    · have hsame := SlotKey.same_iff_place.2 heq
      rw [claimSlot_cons_of_same hsame hslots, drawnOf_cons_of_drawn rfl]
      cases hs : s.timestampOnly with
      | false =>
        have hdrawn : Ascending (s :: drawnOf rest) :=
          drawnOf_cons_of_drawn hs rest ▸ hslots.sublist List.filter_sublist
        rw [drawnOf_cons_of_drawn hs, claimSlot_cons_of_same hsame hdrawn]
      | true =>
        have hlater : ∀ t ∈ drawnOf rest, key.place < t.key.place := fun t ht =>
          heq ▸ hbehind t (List.mem_of_mem_filter ht)
        rw [drawnOf_cons_of_stamp hs, claimSlot_of_lt hlater, hstamp.1 hs hsame]
        rfl
    · have hlater : ∀ t ∈ s :: rest, key.place < t.key.place :=
        List.forall_mem_cons.2 ⟨hgt, fun t ht => hgt.trans (hbehind t ht)⟩
      rw [claimSlot_of_lt hlater, drawnOf_cons_of_drawn rfl,
        claimSlot_of_lt fun t ht => hlater t (List.mem_of_mem_filter ht)]

/-- A further slot for a control element is not drawn. -/
theorem drawnOf_insertSlot (key : SlotKey) (slots : List (Slot α)) :
    drawnOf (insertSlot key true slots) = drawnOf slots := by
  induction slots with
  | nil => rfl
  | cons s rest ih =>
    rw [insertSlot]
    split
    · cases hs : s.timestampOnly with
      | false => rw [drawnOf_cons_of_drawn hs, drawnOf_cons_of_drawn hs, ih]
      | true => rw [drawnOf_cons_of_stamp hs, drawnOf_cons_of_stamp hs, ih]
    · rfl
    · rw [drawnOf_cons_of_stamp rfl]

/-! ### Collecting -/

/-- An open grid with its slots in order, whose slots for control elements only are as they have been
made. At the start of the measure there is at most one of them. -/
structure Stampable (g : MeasureGrid α) : Prop where
  state : g.state = .collecting
  sorted : g.Sorted
  stamps : ∀ s ∈ g.slots, s.timestampOnly = true →
    ∃ time : Fraction, time.Elapsed ∧ s = Slot.ofKey (.ofKind time .event) true

namespace Stampable

variable {g : MeasureGrid α} (h : g.Stampable)

theorem of_allDrawn (hstate : g.state = .collecting) (hsorted : g.Sorted) (hdrawn : g.AllDrawn) :
    g.Stampable :=
  ⟨hstate, hsorted, fun s hs hstamp => absurd (hdrawn s hs) (by simp [hstamp])⟩

include h

/-- A slot for a control element draws nothing. -/
theorem timestampSlot {time : Fraction} (htime : time.Elapsed) :
    ∃ a, g.timestampSlot time = .ok a ∧ a.Stampable ∧ a.drawnSlots = g.drawnSlots ∧
      a.maxTime = g.maxTime := by
  obtain ⟨a, ha⟩ := exists_timestampSlot h.state time
  refine ⟨a, ha, ?_⟩
  have hsorted := (grows_timestampSlot ha).sorted h.sorted
  rw [MeasureGrid.timestampSlot] at ha
  split_ifs at ha
  · exact Except.ok.inj ha ▸ ⟨h, rfl, rfl⟩
  · obtain rfl := Except.ok.inj ha
    refine ⟨⟨h.state, hsorted, fun s hs hstamp => ?_⟩, drawnOf_insertSlot _ g.slots, rfl⟩
    rcases mem_insertSlot hs with hs | rfl
    · exact h.stamps s hs hstamp
    · exact ⟨time, htime, rfl⟩

/-- A slot for a symbol is drawn like without control elements, if it is no event behind the start. -/
theorem slot (key : SlotKey) (hkey : key.kind = .event → key = .ofKind 0 .event) :
    g.slot key = .ok { g with slots := claimSlot key g.slots } ∧
      Stampable { g with slots := claimSlot key g.slots } ∧
      drawnOf (claimSlot key g.slots) = claimSlot key g.drawnSlots := by
  have hslot := slot_eq h.state key
  refine ⟨hslot, ⟨h.state, (grows_slot hslot).1.sorted h.sorted, fun s hs hstamp =>
    h.stamps s (mem_of_mem_claimSlot hs hstamp) hstamp⟩, drawnOf_claimSlot h.sorted ?_⟩
  intro s hs hstamp hsame
  obtain ⟨time, htime, rfl⟩ := h.stamps s hs hstamp
  obtain rfl := hkey hsame.kind.symm
  rw [htime.eq_zero ((SlotKey.same_ofKind_iff.1 hsame).trans Fraction.value_zero)]

end Stampable

/-- The drawn slots of a grid that is closed at some time. -/
def closedSlots (maxTime : Fraction) (drawn : List (Slot α)) : List (Slot α) :=
  let content := if drawn.any fun s => s.key.zone = .content then drawn
    else claimSlot (.ofKind 0 .event) drawn
  claimSlot (.ofKind maxTime .measureEnd) (claimSlot (.ofKind maxTime .rightBarLine) content)

/-- What a closed grid draws follows from what it has drawn before. -/
theorem Stampable.finish {g : MeasureGrid α} (h : g.Stampable) :
    ∃ a, g.finish = .ok a ∧ a.Sorted ∧ a.drawnSlots = closedSlots g.maxTime g.drawnSlots := by
  have hends {g : MeasureGrid α} (h : g.Stampable) : ∃ a, (do
      let g ← g.slot (.ofKind g.maxTime .rightBarLine)
      let g ← g.slot (.ofKind g.maxTime .measureEnd)
      return { g with state := .aligned }) = Except.ok a ∧ a.Sorted ∧
        a.drawnSlots = claimSlot (.ofKind g.maxTime .measureEnd)
          (claimSlot (.ofKind g.maxTime .rightBarLine) g.drawnSlots) := by
    obtain ⟨hok, h₁, hdrawn⟩ :=
      h.slot (.ofKind g.maxTime .rightBarLine) (by simp [SlotKey.ofKind])
    obtain ⟨hok', h₂, hdrawn'⟩ :=
      h₁.slot (.ofKind g.maxTime .measureEnd) (by simp [SlotKey.ofKind])
    exact ⟨_, except_bind_eq_ok.2 ⟨_, hok, except_bind_eq_ok.2 ⟨_, hok', rfl⟩⟩, h₂.sorted,
      hdrawn'.trans (congrArg _ hdrawn)⟩
  rw [MeasureGrid.finish, closedSlots, ← hasContent_eq_any]
  by_cases hcontent : g.hasContent
  · rw [if_pos hcontent, if_pos hcontent]
    exact hends h
  · obtain ⟨hok, h₁, hdrawn⟩ := h.slot (.ofKind 0 .event) fun _ => rfl
    obtain ⟨a, ha, hsorted, hclosed⟩ := hends h₁
    rw [if_neg hcontent, if_neg hcontent]
    exact ⟨a, except_bind_eq_ok.2 ⟨_, hok, ha⟩, hsorted,
      hclosed.trans (congrArg (fun slots => claimSlot _ (claimSlot _ slots)) hdrawn)⟩

/-! ### Closed grids -/

omit [Scalar α] in
/-- What changes slots in other respects leaves the drawn ones drawn. -/
theorem drawnOf_modifySlot {f : Slot α → Slot α} (hf : ∀ s, (f s).timestampOnly = s.timestampOnly)
    (key : SlotKey) (slots : List (Slot α)) :
    drawnOf (modifySlot key f slots) = modifySlot key f (drawnOf slots) := by
  rw [modifySlot, modifySlot, drawnOf, drawnOf, List.filter_map]
  refine congrArg (List.map _) (List.filter_congr fun s _ => ?_)
  rw [Function.comp_apply]
  split_ifs
  · rw [hf]
  · rfl

omit [Scalar α] in
theorem drawnOf_unplaced [Scalar α] (slots : List (Slot α)) :
    (drawnOf slots).map Slot.unplaced = drawnOf (slots.map Slot.unplaced) := by
  rw [drawnOf, drawnOf, List.filter_map]
  rfl

/-- Two grids in order with the same drawn slots. -/
structure DrawsSame {α : Type} (g g' : MeasureGrid α) : Prop where
  drawn : g'.drawnSlots = g.drawnSlots
  sorted : g.Sorted
  sorted' : g'.Sorted

/-- Two closed grids in order with the same drawn slots at the same places. -/
structure SameColumns {α : Type} [Scalar α] (g g' : MeasureGrid α) : Prop extends DrawsSame g g' where
  gaps : g'.gaps = g.gaps
  placed : g.Placed
  closed : g.Closed
  closed' : g'.Closed

variable {g g' a a' : MeasureGrid α}

theorem drawnSlots_addFootprint (g : MeasureGrid α) (key : SlotKey) (staff : UInt32) (rect : Rect α) :
    (g.addFootprint key staff rect).drawnSlots = if rect.IsEmpty then g.drawnSlots else
      modifySlot key (fun s => { s with footprints := s.footprints ++ [⟨staff, rect⟩] })
        g.drawnSlots := by
  rw [addFootprint]
  split_ifs
  · rfl
  · exact drawnOf_modifySlot
      (f := fun s => { s with footprints := s.footprints ++ [⟨staff, rect⟩] }) (fun _ => rfl) key
      g.slots

/-- Something is drawn at the same slot. -/
theorem DrawsSame.addFootprint (h : g.DrawsSame g') (key : SlotKey) (staff : UInt32)
    (rect : Rect α) : (g.addFootprint key staff rect).DrawsSame (g'.addFootprint key staff rect) where
  drawn := by rw [drawnSlots_addFootprint, drawnSlots_addFootprint, h.drawn]
  sorted := (g.grows_addFootprint key staff rect).sorted h.sorted
  sorted' := (g'.grows_addFootprint key staff rect).sorted h.sorted'

/-- Two grids that draw the same and are placed by the same gaps. -/
theorem DrawsSame.sameColumns (h : g.DrawsSame g') (hg : g.Closed) (hg' : g'.Closed)
    (hslots : a.slots.map Slot.unplaced = g.slots.map Slot.unplaced)
    (hslots' : a'.slots.map Slot.unplaced = g'.slots.map Slot.unplaced) (hgaps : a'.gaps = a.gaps)
    (ha : a.Placed) (ha' : a'.Placed) : a.SameColumns a' where
  drawn := by
    have hunplaced : a'.drawnSlots.map Slot.unplaced = a.drawnSlots.map Slot.unplaced := by
      rw [drawnSlots, drawnSlots, ← drawnOf, ← drawnOf, drawnOf_unplaced, drawnOf_unplaced, hslots,
        hslots', ← drawnOf_unplaced, ← drawnOf_unplaced]
      exact congrArg _ h.drawn
    have hpositions : a'.drawnSlots.map Slot.x = a.drawnSlots.map Slot.x := by
      rw [ha.positions, ha'.positions, hgaps]
    -- a slot is what it is without its position, and its position
    have hsplit : Function.Injective fun s : Slot α => (s.unplaced, s.x) := by
      rintro ⟨key, x, timestampOnly, footprints⟩ ⟨key', x', timestampOnly', footprints'⟩ h
      simp only [Slot.unplaced, Prod.mk.injEq, Slot.mk.injEq] at h ⊢
      exact ⟨h.1.1, h.2, h.1.2.2⟩
    refine List.map_injective_iff.2 hsplit ?_
    rw [← List.zip_map', ← List.zip_map', hunplaced, hpositions]
  sorted := sorted_of_outline (outline_of_unplaced hslots) h.sorted
  sorted' := sorted_of_outline (outline_of_unplaced hslots') h.sorted'
  gaps := hgaps
  placed := ha
  closed := by rwa [Closed, outline_of_unplaced hslots]
  closed' := by rwa [Closed, outline_of_unplaced hslots']

/-- Ideal positions follow from the drawn slots. -/
theorem DrawsSame.space (h : g.DrawsSame g') (hg : g.Finished) (hg' : g'.Finished) {p : Spacing α}
    (ha : g.space p = .ok a) (ha' : g'.space p = .ok a') : a.SameColumns a' := by
  refine h.sameColumns hg.closed hg'.closed (unplaced_space ha) (unplaced_space ha') ?_
    (placed_space ha hg.drawn) (placed_space ha' hg'.drawn)
  obtain ⟨slots, hspace⟩ := exists_space p hg.state
  obtain ⟨slots', hspace'⟩ := exists_space p hg'.state
  rw [← Except.ok.inj (hspace.symm.trans ha), ← Except.ok.inj (hspace'.symm.trans ha'), h.drawn]

namespace SameColumns

variable (h : g.SameColumns g')

include h

theorem placed' : g'.Placed :=
  ⟨by rw [h.gaps, h.drawn, h.placed.gaps], by rw [h.gaps, h.drawn, h.placed.positions]⟩

/-- Other gaps are taken by both grids. -/
theorem applyGaps {gaps : List (Gap α)} (ha : g.applyGaps gaps = .ok a)
    (ha' : g'.applyGaps gaps = .ok a') : a.SameColumns a' := by
  refine h.sameColumns h.closed h.closed' (unplaced_applyGaps ha) (unplaced_applyGaps ha') ?_
    (h.placed.applyGaps ha) (h.placed'.applyGaps ha')
  rw [MeasureGrid.applyGaps] at ha ha'
  split_ifs at ha ha'
  rw [gaps_place ha, gaps_place ha']

theorem width : g'.width = g.width := by
  have hwidth {g : MeasureGrid α} (hplaced : g.Placed) (hclosed : g.Closed) :
      g.width = Scalar.sum (g.gaps.map Gap.width) := by
    obtain ⟨first, front, right, last, houtline, -⟩ := hclosed
    have hlast : g.outline.getLast? = some (last, false) := by
      rw [houtline, show [(right, false), (last, false)] = [(right, false)] ++ [(last, false)] from rfl,
        ← List.append_assoc, List.getLast?_concat]
    rw [outline, List.getLast?_map, Option.map_eq_some_iff] at hlast
    obtain ⟨s, hs, hdrawn⟩ := hlast
    exact hplaced.width hs (Prod.mk.inj hdrawn).2
  rw [hwidth h.placed h.closed, hwidth h.placed' h.closed', h.gaps]

/-- What is drawn stands at the same place. -/
theorem xOf?_eq (hkey : g.Has key) : g'.xOf? key = g.xOf? key := by
  obtain ⟨s, hs, hsame, hdrawn⟩ := hkey
  have hs' : s ∈ g'.slots := by
    have hmem : s ∈ g.drawnSlots := List.mem_filter.2 ⟨hs, by simp [hdrawn]⟩
    rw [← h.drawn] at hmem
    exact List.mem_of_mem_filter hmem
  rw [xOf?, xOf?, h.sorted.get?_eq hs hsame, h.sorted'.get?_eq hs' hsame]

end SameColumns

end MeasureGrid

end ScoreLayout
