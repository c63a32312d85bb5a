import Mathlib.Tactic.Ring
import ScoreLayout.Proofs.Grid.Stretching
import ScoreLayout.StaffStack

/-!
# Staves that keep their distance

A staff takes the band from what is drawn highest on it to what is drawn lowest. In exact arithmetic
stacked staves keep their bands apart, with hidden staves in between or not, and widening the gaps
moves the bands further apart.

## Main definitions

* `StaffSlot.top`, `StaffSlot.bottom` — the band of a staff.
* `StaffStack.Grows` — a stack in which no staff has lost room.
* `StaffStack.HasRoom` — a stack with room for an extent on a staff.
* `StaffStack.Apart` — a stack in which the bands of visible staves keep their distance.

## Main results

* `StaffStack.Proper.apart_stack` — stacking keeps the bands apart.
* `StaffStack.Apart.justify` — so does widening the gaps.
-/

namespace ScoreLayout

variable {K : Type} [ExactField K]

theorem Scalar.le_max_left (a b : K) : a ≤ Scalar.max a b :=
  le_sup_left.trans_eq (Scalar.max_eq_max a b).symm

theorem Scalar.le_max_right (a b : K) : b ≤ Scalar.max a b :=
  le_sup_right.trans_eq (Scalar.max_eq_max a b).symm

namespace StaffSlot

/-- The upper end of the band of a staff. -/
def top (s : StaffSlot K) : K := s.y - s.above

/-- The lower end of the band of a staff. -/
def bottom (s : StaffSlot K) : K := s.y + s.height + s.below

/-- A staff with room for an extent given below its top line; a hidden staff needs none. -/
def HasRoom (s : StaffSlot K) (top bottom : K) : Prop :=
  s.hidden ∨ (-top ≤ s.above ∧ bottom - s.height ≤ s.below)

/-- A staff of no negative size. -/
structure Proper (s : StaffSlot K) : Prop where
  height : 0 ≤ s.height
  above : 0 ≤ s.above
  below : 0 ≤ s.below

/-- Two states of one staff, where the second has the room of the first. -/
structure Grows (s s' : StaffSlot K) : Prop where
  staff : s'.staff = s.staff
  height : s'.height = s.height
  above : s.above ≤ s'.above
  below : s.below ≤ s'.below
  hidden : s.hidden → s'.hidden

variable {s s' s₁ : StaffSlot K} {top bottom : K}

theorem Grows.refl (s : StaffSlot K) : s.Grows s := ⟨rfl, rfl, le_rfl, le_rfl, id⟩

theorem Grows.trans (h : s.Grows s') (h' : s'.Grows s₁) : s.Grows s₁ :=
  ⟨h'.staff.trans h.staff, h'.height.trans h.height, h.above.trans h'.above,
    h.below.trans h'.below, h'.hidden ∘ h.hidden⟩

theorem Grows.proper (h : s.Grows s') (hs : s.Proper) : s'.Proper :=
  ⟨h.height ▸ hs.height, hs.above.trans h.above, hs.below.trans h.below⟩

theorem HasRoom.grows (hs : s.HasRoom top bottom) (h : s.Grows s') : s'.HasRoom top bottom := by
  obtain hhidden | ⟨habove, hbelow⟩ := hs
  · exact .inl (h.hidden hhidden)
  · exact .inr ⟨habove.trans h.above, h.height ▸ hbelow.trans h.below⟩

theorem grows_addExtent (s : StaffSlot K) (top bottom : K) : s.Grows (s.addExtent top bottom) := by
  rw [addExtent]
  split_ifs with hhidden
  · exact .refl s
  · exact ⟨rfl, rfl, Scalar.le_max_left .., Scalar.le_max_left .., id⟩

theorem hasRoom_addExtent (s : StaffSlot K) (top bottom : K) :
    (s.addExtent top bottom).HasRoom top bottom := by
  rw [addExtent]
  split_ifs with hhidden
  · exact .inl hhidden
  · exact .inr ⟨Scalar.le_max_right .., Scalar.le_max_right ..⟩

/-- What has room on a visible staff lies in its band. -/
theorem HasRoom.within (h : s.HasRoom top bottom) (hs : ¬ s.hidden) :
    s.top ≤ s.y + top ∧ s.y + bottom ≤ s.bottom := by
  obtain ⟨habove, hbelow⟩ := h.resolve_left hs
  rw [StaffSlot.top, StaffSlot.bottom]
  constructor <;> linarith

end StaffSlot

namespace StaffStack

/-- Two states of one stack, where the second has the room of the first on every staff. -/
def Grows (s s' : StaffStack K) : Prop :=
  ∀ n slot, s.get? n = some slot → ∃ slot', s'.get? n = some slot' ∧ slot.Grows slot'

/-- A stack with room for an extent on a staff. -/
def HasRoom (s : StaffStack K) (n : UInt32) (top bottom : K) : Prop :=
  ∃ slot, s.get? n = some slot ∧ slot.HasRoom top bottom

/-- A stack with every staff once, none of negative size. -/
structure Proper (s : StaffStack K) : Prop where
  nodup : (s.staves.map StaffSlot.staff).Nodup
  slots : ∀ slot ∈ s.staves, slot.Proper

/-- Staves between `low` and `stop`, the visible ones `spacing` apart. -/
structure Within (spacing low : K) (slots : List (StaffSlot K)) (stop : K) : Prop where
  within : ∀ slot ∈ slots, ¬ slot.hidden → low ≤ slot.top ∧ slot.bottom ≤ stop
  pairwise : slots.Pairwise fun a b => ¬ a.hidden → ¬ b.hidden → a.bottom + spacing ≤ b.top

/-- A stack with its staves inside of it, the visible ones `spacing` apart. -/
structure Apart (spacing : K) (s : StaffStack K) : Prop extends
    Within spacing 0 s.staves s.height where
  nodup : (s.staves.map StaffSlot.staff).Nodup
  height : 0 ≤ s.height

variable {s s' s₁ : StaffStack K} {n : UInt32} {top bottom spacing : K}

namespace Grows

theorem refl (s : StaffStack K) : s.Grows s := fun _ slot h => ⟨slot, h, .refl slot⟩

theorem trans (h : s.Grows s') (h' : s'.Grows s₁) : s.Grows s₁ := by
  intro n slot hslot
  obtain ⟨slot', hslot', hgrows⟩ := h n slot hslot
  obtain ⟨slot₁, hslot₁, hgrows'⟩ := h' n slot' hslot'
  exact ⟨slot₁, hslot₁, hgrows.trans hgrows'⟩

/-- Staves that grow one by one. -/
theorem of_forall₂ (h : List.Forall₂ StaffSlot.Grows s.staves s'.staves) : s.Grows s' := by
  obtain ⟨staves, height⟩ := s
  obtain ⟨staves', height'⟩ := s'
  intro n slot hslot
  rw [get?] at hslot ⊢
  dsimp only at h hslot ⊢
  induction h with
  | nil => cases hslot
  | @cons a b _ _ hab _ ih =>
    by_cases hn : a.staff = n
    · rw [List.find?_cons_of_pos (by simpa using hn)] at hslot
      obtain rfl := Option.some.inj hslot
      exact ⟨b, List.find?_cons_of_pos (by simpa [hab.staff] using hn), hab⟩
    · rw [List.find?_cons_of_neg (by simpa using hn)] at hslot
      obtain ⟨slot', hslot', hgrows⟩ := ih hslot
      exact ⟨slot', by rw [List.find?_cons_of_neg (by simpa [hab.staff] using hn), hslot'], hgrows⟩

theorem isSome (h : s.Grows s') (hs : (s.get? n).isSome) : (s'.get? n).isSome := by
  obtain ⟨slot, hslot⟩ := Option.isSome_iff_exists.1 hs
  obtain ⟨slot', hslot', -⟩ := h n slot hslot
  exact Option.isSome_iff_exists.2 ⟨slot', hslot'⟩

end Grows

theorem HasRoom.grows (hs : s.HasRoom n top bottom) (h : s.Grows s') : s'.HasRoom n top bottom := by
  obtain ⟨slot, hslot, hroom⟩ := hs
  obtain ⟨slot', hslot', hgrows⟩ := h n slot hslot
  exact ⟨slot', hslot', hroom.grows hgrows⟩

omit [ExactField K] in
/-- The staves of a stack are found by their numbers. -/
theorem get?_of_mem (hs : (s.staves.map StaffSlot.staff).Nodup) {slot : StaffSlot K}
    (h : slot ∈ s.staves) : s.get? slot.staff = some slot := by
  rw [get?]
  generalize s.staves = slots at hs h
  induction slots with
  | nil => exact absurd h List.not_mem_nil
  | cons a rest ih =>
    rw [List.map_cons, List.nodup_cons] at hs
    rcases List.mem_cons.1 h with rfl | h
    · exact List.find?_cons_of_pos (by simp)
    · have hne : a.staff ≠ slot.staff := fun heq => hs.1 (heq ▸ List.mem_map_of_mem h)
      rw [List.find?_cons_of_neg (by simpa using hne)]
      exact ih hs.2 h

/-- Staves that grow one by one stay proper. -/
theorem Proper.of_forall₂ (hs : s.Proper)
    (h : List.Forall₂ StaffSlot.Grows s.staves s'.staves) : s'.Proper where
  nodup := by
    have hmap : s'.staves.map StaffSlot.staff = s.staves.map StaffSlot.staff :=
      (map_eq_of_forall₂ (fun _ _ hab => hab.staff.symm) h).symm
    exact hmap ▸ hs.nodup
  slots slot hslot := by
    obtain ⟨slot₀, hslot₀, hgrows⟩ := exists_mem_of_forall₂ h hslot
    exact hgrows.proper (hs.slots slot₀ hslot₀)

theorem proper_empty : (empty : StaffStack K).Proper :=
  ⟨List.nodup_nil, fun _ h => absurd h List.not_mem_nil⟩

/-! ### What adds room -/

theorem grows_ensure (s : StaffStack K) (n : UInt32) (height : K) (hidden : Bool) :
    s.Grows (s.ensure n height hidden) := by
  rw [ensure]
  split_ifs with hn
  · exact .refl s
  · intro k slot hslot
    refine ⟨slot, ?_, .refl slot⟩
    rw [get?] at hslot ⊢
    rw [List.find?_append, hslot, Option.some_or]

theorem isSome_ensure (s : StaffStack K) (n : UInt32) (height : K) (hidden : Bool) :
    ((s.ensure n height hidden).get? n).isSome := by
  rw [ensure]
  split_ifs with hn
  · exact hn
  · rw [get?, List.find?_append]
    simp [StaffSlot.new]

theorem Proper.ensure (hs : s.Proper) (n : UInt32) {height : K} (hheight : 0 ≤ height)
    (hidden : Bool) : (s.ensure n height hidden).Proper := by
  rw [StaffStack.ensure]
  split_ifs with hn
  · exact hs
  · have hzero := (ExactField.zero_eq (K := K)).ge
    refine ⟨?_, fun slot hslot => ?_⟩
    · rw [List.map_append, List.map_singleton]
      refine List.nodup_append.2 ⟨hs.nodup, List.nodup_singleton _, fun k hk k' hk' heq => hn ?_⟩
      obtain ⟨slot, hslot, rfl⟩ := List.mem_map.1 hk
      obtain rfl : slot.staff = n := heq.trans (List.mem_singleton.1 hk')
      rw [get?_of_mem hs.nodup hslot]
      rfl
    · rcases List.mem_append.1 hslot with hslot | hslot
      · exact hs.slots slot hslot
      · rw [List.mem_singleton.1 hslot]
        exact ⟨hheight, hzero, hzero⟩

/-- Changing one staff, where this takes no room from it. -/
theorem forall₂_modify (s : StaffStack K) (n : UInt32) {f : StaffSlot K → StaffSlot K}
    (hf : ∀ slot : StaffSlot K, slot.Grows (f slot)) :
    List.Forall₂ StaffSlot.Grows s.staves (s.modify n f).staves := by
  rw [modify, List.forall₂_map_right_iff, List.forall₂_same]
  intro slot _
  split_ifs
  · exact hf slot
  · exact .refl slot

/-- An extent that has been added has room, if its staff is one of the stack. -/
theorem hasRoom_modify {slot : StaffSlot K} (h : s.get? n = some slot) (top bottom : K) :
    (s.modify n fun slot => slot.addExtent top bottom).HasRoom n top bottom := by
  rw [HasRoom, get?, modify]
  rw [get?] at h
  generalize s.staves = slots at h ⊢
  induction slots with
  | nil => cases h
  | cons a rest ih =>
    by_cases hn : a.staff = n
    · refine ⟨a.addExtent top bottom, ?_, StaffSlot.hasRoom_addExtent ..⟩
      rw [List.map_cons, if_pos hn]
      exact List.find?_cons_of_pos (by simpa [(a.grows_addExtent top bottom).staff] using hn)
    · rw [List.find?_cons_of_neg (by simpa using hn)] at h
      obtain ⟨slot', hslot', hroom⟩ := ih h
      refine ⟨slot', ?_, hroom⟩
      rw [List.map_cons, if_neg hn, List.find?_cons_of_neg (by simpa using hn)]
      exact hslot'

/-! ### Stacking -/

/-- Placing staves changes nothing but their places. -/
theorem forall₂_placeFrom (spacing : K) : (slots : List (StaffSlot K)) → (first : Bool) → (y : K) →
    List.Forall₂ StaffSlot.Grows slots (placeFrom spacing slots first y).1
  | [], _, _ => .nil
  | slot :: rest, first, y => by
      rw [placeFrom]
      dsimp only
      split_ifs
      · exact .cons ⟨rfl, rfl, le_rfl, le_rfl, id⟩ (forall₂_placeFrom spacing rest first y)
      all_goals exact .cons ⟨rfl, rfl, le_rfl, le_rfl, id⟩ (forall₂_placeFrom spacing rest false _)

/-- Staves placed one after another from `y` on. -/
theorem within_placeFrom (hspacing : 0 ≤ spacing) : (slots : List (StaffSlot K)) →
    (first : Bool) → (y : K) → (∀ slot ∈ slots, slot.Proper) →
      y ≤ (placeFrom spacing slots first y).2 ∧
        Within spacing (if first then y else y + spacing) (placeFrom spacing slots first y).1
          (placeFrom spacing slots first y).2
  | [], _, y, _ => ⟨le_rfl, fun _ h => absurd h List.not_mem_nil, .nil⟩
  | slot :: rest, first, y, hslots => by
      obtain ⟨hslot, hrest⟩ := List.forall_mem_cons.1 hslots
      rw [placeFrom]
      dsimp only
      by_cases hhidden : slot.hidden
      · obtain ⟨hle, hwithin, hpairwise⟩ := within_placeFrom hspacing rest first y hrest
        rw [if_pos hhidden]
        refine ⟨hle, fun a ha hvisible => ?_, .cons (fun b _ h => absurd hhidden h) hpairwise⟩
        rcases List.mem_cons.1 ha with rfl | ha
        · exact absurd hhidden hvisible
        · exact hwithin a ha hvisible
      · rw [if_neg hhidden]
        generalize hstart : (if first then y else y + spacing) = start
        have hstart : y ≤ start := by
          rw [← hstart]
          split_ifs
          · exact le_rfl
          · exact le_add_of_nonneg_right hspacing
        -- the others begin below the band of the first
        generalize hend : start + slot.above + (slot.height + slot.below) = stop
        have hstop : start ≤ stop := by linarith [hslot.above, hslot.height, hslot.below]
        obtain ⟨hle, hwithin, hpairwise⟩ := within_placeFrom hspacing rest false stop hrest
        have htop : start + slot.above - slot.above = start := add_sub_cancel_right ..
        have hbottom : start + slot.above + slot.height + slot.below = stop := by
          rw [← hend, add_assoc]
        refine ⟨(hstart.trans hstop).trans hle, fun a ha hvisible => ?_, .cons (fun b hb _ h => ?_)
          hpairwise⟩
        · rcases List.mem_cons.1 ha with rfl | ha
          · exact ⟨htop.ge, hbottom.trans_le hle⟩
          · obtain ⟨hlow, hhigh⟩ := hwithin a ha hvisible
            exact ⟨(hstop.trans (le_add_of_nonneg_right hspacing)).trans hlow, hhigh⟩
        · exact (congrArg (· + spacing) hbottom).trans_le (hwithin b hb h).1

theorem stack_eq (s : StaffStack K) (spacing : K) : s.stack spacing =
    ⟨(placeFrom spacing s.staves true 0).1, (placeFrom spacing s.staves true 0).2⟩ := by
  rw [stack, ExactField.zero_eq]

theorem grows_stack (s : StaffStack K) (spacing : K) :
    List.Forall₂ StaffSlot.Grows s.staves (s.stack spacing).staves :=
  s.stack_eq spacing ▸ forall₂_placeFrom spacing s.staves true 0

/-- Stacked staves keep their distance. -/
theorem Proper.apart_stack (hs : s.Proper) (hspacing : 0 ≤ spacing) :
    (s.stack spacing).Apart spacing := by
  obtain ⟨hle, hwithin⟩ := within_placeFrom hspacing s.staves true 0 hs.slots
  have hnodup := (hs.of_forall₂ (s.grows_stack spacing)).nodup
  rw [stack_eq] at hnodup ⊢
  exact ⟨hwithin, hnodup, hle⟩

/-! ### Widening the gaps -/

variable {perGap : K}

theorem le_shiftFrom (hgap : 0 ≤ perGap) : (slots : List (StaffSlot K)) → (first : Bool) →
    (shift : K) → shift ≤ (shiftFrom perGap slots first shift).2
  | [], _, _ => le_rfl
  | slot :: rest, first, shift => by
      rw [shiftFrom]
      refine le_trans ?_ (le_shiftFrom hgap rest _ _)
      split_ifs
      · exact le_rfl
      · exact le_add_of_nonneg_right hgap

/-- Moving staves changes nothing but their places. -/
theorem forall₂_shiftFrom (perGap : K) : (slots : List (StaffSlot K)) → (first : Bool) →
    (shift : K) → List.Forall₂ StaffSlot.Grows slots (shiftFrom perGap slots first shift).1
  | [], _, _ => .nil
  | slot :: rest, first, shift => by
      rw [shiftFrom]
      exact .cons ⟨rfl, rfl, le_rfl, le_rfl, id⟩ (forall₂_shiftFrom perGap rest _ _)

/-- The total by which visible staves are moved apart. -/
theorem shiftFrom_snd (perGap : K) : (slots : List (StaffSlot K)) → (first : Bool) → (shift : K) →
    (shiftFrom perGap slots first shift).2 = shift + ((slots.filter fun slot => ¬ slot.hidden).length -
      (if first then 1 else 0) : ℕ) * perGap
  | [], first, shift => by simp [shiftFrom]
  | slot :: rest, first, shift => by
      rw [shiftFrom]
      dsimp only
      rw [shiftFrom_snd perGap rest]
      by_cases hhidden : slot.hidden
      · simp [hhidden]
      · cases first with
        | true => simp [hhidden]
        | false =>
          simp [hhidden]
          ring

/-- Staves moved further down one after another. -/
theorem within_shiftFrom (hgap : 0 ≤ perGap) {low stop : K} : (slots : List (StaffSlot K)) →
    (first : Bool) → (shift : K) → Within spacing low slots stop →
      Within spacing (low + shift) (shiftFrom perGap slots first shift).1
        (stop + (shiftFrom perGap slots first shift).2)
  | [], _, _, _ => ⟨fun _ h => absurd h List.not_mem_nil, .nil⟩
  | slot :: rest, first, shift, h => by
      obtain ⟨hslot, hrest⟩ := List.forall_mem_cons.1 h.within
      obtain ⟨hfirst, hpairwise⟩ := List.pairwise_cons.1 h.pairwise
      rw [shiftFrom]
      dsimp only
      generalize hmoved : (if slot.hidden = true ∨ first = true then shift else shift + perGap) = moved
      have hmoved : shift ≤ moved := by
        rw [← hmoved]
        split_ifs
        · exact le_rfl
        · exact le_add_of_nonneg_right hgap
      have hlast := le_shiftFrom hgap rest (first && slot.hidden) moved
      have hothers := within_shiftFrom hgap rest (first && slot.hidden) moved ⟨hrest, hpairwise⟩
      have htop : slot.y + moved - slot.above = slot.top + moved := add_sub_right_comm ..
      have hbottom : slot.y + moved + slot.height + slot.below = slot.bottom + moved := by
        rw [StaffSlot.bottom]
        ring
      refine ⟨fun a ha hvisible => ?_, .cons (fun b hb hvisible hb' => ?_) hothers.pairwise⟩
      · rcases List.mem_cons.1 ha with rfl | ha
        · obtain ⟨hlow, hhigh⟩ := hslot hvisible
          exact ⟨(add_le_add hlow hmoved).trans_eq htop.symm,
            hbottom.trans_le (add_le_add hhigh hlast)⟩
        · obtain ⟨hlow, hhigh⟩ := hothers.within a ha hvisible
          exact ⟨(add_le_add_right hmoved low).trans hlow, hhigh⟩
      · -- the others begin below the band of the first, and move at least as far
        have hafter : Within spacing (slot.bottom + spacing) rest stop :=
          ⟨fun b hb hb' => ⟨hfirst b hb hvisible hb', (hrest b hb hb').2⟩, hpairwise⟩
        have hbelow := within_shiftFrom hgap rest (first && slot.hidden) moved hafter
        refine le_trans ?_ (hbelow.within b hb hb').1
        rw [← add_right_comm]
        exact (congrArg (· + spacing) hbottom).le

theorem justify_eq (s : StaffStack K) (perGap : K) : s.justify perGap =
    ⟨(shiftFrom perGap s.staves true 0).1, s.height + (shiftFrom perGap s.staves true 0).2⟩ := by
  rw [justify, ExactField.zero_eq]

/-- Widening the gaps takes no room from any staff. -/
theorem grows_justify (s : StaffStack K) (perGap : K) :
    List.Forall₂ StaffSlot.Grows s.staves (s.justify perGap).staves :=
  s.justify_eq perGap ▸ forall₂_shiftFrom perGap s.staves true 0

/-- A stack grows by its gaps. -/
theorem height_justify (s : StaffStack K) (perGap : K) :
    (s.justify perGap).height = s.height + s.gapCount * perGap := by
  rw [justify_eq, shiftFrom_snd, zero_add, if_pos rfl]
  rfl

/-- Widened gaps keep staves apart. -/
theorem Apart.justify (hs : s.Apart spacing) (hgap : 0 ≤ perGap) :
    (s.justify perGap).Apart spacing := by
  have hwithin := within_shiftFrom hgap s.staves true 0 hs.toWithin
  have hlast := le_shiftFrom hgap s.staves true 0
  rw [zero_add] at hwithin
  refine ⟨?_, ?_, ?_⟩
  · rw [justify_eq]
    exact hwithin
  · have hmap := map_eq_of_forall₂ (fun _ _ hab => StaffSlot.Grows.staff hab)
      (s.grows_justify perGap).flip
    exact hmap ▸ hs.nodup
  · rw [height_justify]
    exact add_nonneg hs.height (mul_nonneg (Nat.cast_nonneg _) hgap)

end StaffStack

end ScoreLayout
