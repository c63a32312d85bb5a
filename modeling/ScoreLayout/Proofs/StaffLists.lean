import Mathlib.Data.List.Induction
import Mathlib.Data.List.Nodup
import ScoreLayout.Layout.Stacking

/-!
# The staves that a system lists

A system lists the staves of the score definition first, and then those that its measures have
beyond them, each staff once. A staff is hidden where the definition hides it, or where the system
has it and hides it in every measure that does.

## Main definitions

* `StaffStack.outline` — the staves that have a place, each with whether it is hidden.
* `outlineOf`, `shownIn` — what a system lists, and which of its staves are shown in some measure.
* `ScoreDefinition.HasStaff`, `ScoreDefinition.HidesStaff` — the staves of a system, and those that
  are hidden in it.
* `StaffStack.Lists` — a stack with a place for each of these staves.

## Main results

* `StaffStack.lists_of_outline` — what a system lists is what it has.
-/

namespace ScoreLayout

/-! ### Listing staves -/

theorem lookup_cons_eq_ite {β γ : Type} [DecidableEq β] (k i : β) (c : γ) (l : List (β × γ)) :
    ((i, c) :: l).lookup k = if k = i then some c else l.lookup k := by
  rw [List.lookup_cons]
  by_cases hk : k = i
  · rw [if_pos hk, beq_iff_eq.2 hk]
  · rw [if_neg hk, beq_false_of_ne hk]

/-- A list of staves with a further one, unless it is listed already. -/
def listStaff (l : List (UInt32 × Bool)) (x : UInt32 × Bool) : List (UInt32 × Bool) :=
  if x.1 ∈ l.map Prod.fst then l else l ++ [x]

theorem mem_foldl_listStaff {x : UInt32 × Bool} (xs l : List (UInt32 × Bool)) :
    x ∈ xs.foldl listStaff l ↔ x ∈ l ∨ x.1 ∉ l.map Prod.fst ∧ xs.lookup x.1 = some x.2 := by
  induction xs generalizing l with
  | nil => simp
  | cons y xs ih =>
    obtain ⟨k, hidden⟩ := x
    obtain ⟨i, b⟩ := y
    rw [List.foldl_cons, ih, listStaff, lookup_cons_eq_ite]
    dsimp only
    by_cases hi : i ∈ l.map Prod.fst
    · rw [if_pos hi]
      by_cases hk : k = i
      · subst hk
        simp only [hi, not_true_eq_false, false_and]
      · rw [if_neg hk]
    · rw [if_neg hi]
      by_cases hk : k = i
      · subst hk
        have hno : (k, hidden) ∉ l := fun h => hi (List.mem_map.2 ⟨_, h, rfl⟩)
        simp [hno, eq_comm, hi]
      · simp [hk]

theorem nodup_foldl_listStaff (xs : List (UInt32 × Bool)) {l : List (UInt32 × Bool)}
    (h : (l.map Prod.fst).Nodup) : ((xs.foldl listStaff l).map Prod.fst).Nodup := by
  induction xs generalizing l with
  | nil => exact h
  | cons x xs ih =>
    refine ih ?_
    rw [listStaff]
    split_ifs with hx
    · exact h
    · rw [List.map_append, List.map_singleton]
      exact h.append (List.nodup_singleton _) (List.disjoint_singleton.2 hx)

/-- What a system lists before any staff is hidden for its measures. -/
def outlineOf (D : ScoreDefinition) (staves : List Staff) : List (UInt32 × Bool) :=
  (D.staves.map (fun s => (s.n, s.hidden)) ++ staves.map fun s => (s.n, false)).foldl listStaff []

theorem outlineOf_concat (D : ScoreDefinition) (staves : List Staff) (s : Staff) :
    outlineOf D (staves ++ [s]) = listStaff (outlineOf D staves) (s.n, false) := by
  rw [outlineOf, List.map_append, ← List.append_assoc, List.foldl_append]
  rfl

theorem mem_outlineOf {D : ScoreDefinition} {staves : List Staff} {x : UInt32 × Bool} :
    x ∈ outlineOf D staves ↔ (∃ s, D.staff? x.1 = some s ∧ s.hidden = x.2) ∨
      D.staff? x.1 = none ∧ (∃ s ∈ staves, s.n = x.1) ∧ x.2 = false := by
  have hdefined : (definitions : List StaffDefinition) →
      (definitions.map fun s => (s.n, s.hidden)).lookup x.1 =
        (definitions.find? fun s => s.n = x.1).map StaffDefinition.hidden := by
    intro definitions
    induction definitions with
    | nil => rfl
    | cons s definitions ih =>
      rw [List.map_cons, lookup_cons_eq_ite, List.find?_cons]
      by_cases hs : s.n = x.1
      · simp [hs]
      · simpa [hs, Ne.symm hs] using ih
  have hmet : (staves.map fun s => (s.n, false)).lookup x.1 = some x.2 ↔
      (∃ s ∈ staves, s.n = x.1) ∧ x.2 = false := by
    induction staves with
    | nil => simp
    | cons s staves ih =>
      rw [List.map_cons, lookup_cons_eq_ite, List.exists_mem_cons_iff]
      by_cases hs : s.n = x.1
      · rw [if_pos hs.symm, Option.some.injEq, eq_comm]
        simp only [hs, true_or, true_and]
      · rw [if_neg (Ne.symm hs), ih]
        simp only [hs, false_or]
  rw [outlineOf, mem_foldl_listStaff, List.lookup_append, hdefined, ← ScoreDefinition.staff?]
  cases D.staff? x.1 with
  | none => simpa using hmet
  | some s => simp

/-! ### Staves that are shown -/

theorem lookup_noteShown (n k : UInt32) (visible : Bool) : (l : List (UInt32 × Bool)) →
    (noteShown n visible l).lookup k =
      if k = n then some ((l.lookup n).getD false || visible) else l.lookup k
  | [] => by
      rw [noteShown, lookup_cons_eq_ite]
      rfl
  | (i, seen) :: l => by
      have ih := lookup_noteShown n k visible l
      rw [noteShown]
      split_ifs with hi hk hk
      · simp [hi, hk]
      · subst hi
        rw [lookup_cons_eq_ite, lookup_cons_eq_ite]
        simp [hk]
      · subst hk
        rw [lookup_cons_eq_ite, ih, lookup_cons_eq_ite]
        simp [Ne.symm hi]
      · rw [lookup_cons_eq_ite, lookup_cons_eq_ite, ih, if_neg hk]

theorem map_fst_noteShown (n : UInt32) (visible : Bool) : (l : List (UInt32 × Bool)) →
    (noteShown n visible l).map Prod.fst =
      if n ∈ l.map Prod.fst then l.map Prod.fst else l.map Prod.fst ++ [n]
  | [] => rfl
  | (i, seen) :: l => by
      have ih := map_fst_noteShown n visible l
      rw [noteShown]
      by_cases hi : i = n
      · simp [hi]
      · rw [if_neg hi, List.map_cons, List.map_cons, ih]
        simp only [List.mem_cons, Ne.symm hi, false_or]
        split_ifs <;> rfl

/-- The staves that some measures have, each with whether one of them shows it. -/
def shownIn (staves : List Staff) : List (UInt32 × Bool) :=
  staves.foldl (fun l s => noteShown s.n (!s.hidden) l) []

theorem shownIn_concat (staves : List Staff) (s : Staff) :
    shownIn (staves ++ [s]) = noteShown s.n (!s.hidden) (shownIn staves) := by
  rw [shownIn, List.foldl_append]
  rfl

theorem nodup_shownIn (staves : List Staff) : ((shownIn staves).map Prod.fst).Nodup := by
  induction staves using List.reverseRecOn with
  | nil => exact List.nodup_nil
  | append_singleton staves s ih =>
    rw [shownIn_concat, map_fst_noteShown]
    split_ifs with hs
    · exact ih
    · exact ih.append (List.nodup_singleton _) (List.disjoint_singleton.2 hs)

theorem lookup_shownIn (staves : List Staff) (k : UInt32) : (shownIn staves).lookup k =
    if ∃ s ∈ staves, s.n = k then some (decide (∃ s ∈ staves, s.n = k ∧ ¬ s.hidden)) else none := by
  induction staves using List.reverseRecOn with
  | nil => simp [shownIn]
  | append_singleton staves s ih =>
    rw [shownIn_concat, lookup_noteShown]
    simp only [List.mem_append, List.mem_singleton, or_and_right, exists_or, exists_eq_left]
    by_cases hk : k = s.n
    · subst hk
      rw [if_pos rfl, if_pos (.inr rfl), ih]
      by_cases hseen : ∃ t ∈ staves, t.n = s.n
      · simp [hseen]
      · have hno : ¬ ∃ t ∈ staves, t.n = s.n ∧ ¬ t.hidden := fun ⟨t, ht, hn, _⟩ => hseen ⟨t, ht, hn⟩
        rw [if_neg hseen]
        simp only [hno, false_or, true_and]
        simp
    · simp [hk, Ne.symm hk, ih]

/-- The staves that are not shown in any of some measures. -/
theorem any_shownIn (staves : List Staff) (k : UInt32) :
    ((shownIn staves).any fun x => x.1 = k ∧ !x.2) =
      decide ((∃ s ∈ staves, s.n = k) ∧ ∀ s ∈ staves, s.n = k → s.hidden) := by
  have hlookup : ∀ {l : List (UInt32 × Bool)}, (l.map Prod.fst).Nodup →
      ((l.any fun x => x.1 = k ∧ !x.2) = true ↔ l.lookup k = some false) := by
    intro l hl
    induction l with
    | nil => simp
    | cons x l ih =>
      obtain ⟨i, seen⟩ := x
      rw [List.map_cons, List.nodup_cons] at hl
      rw [List.any_cons, lookup_cons_eq_ite]
      by_cases hi : i = k
      · subst hi
        have hrest : (l.any fun x => x.1 = i ∧ !x.2) = false := by
          rw [List.any_eq_false]
          exact fun y hy h => hl.1 (List.mem_map.2 ⟨y, hy, (of_decide_eq_true h).1⟩)
        rw [hrest]
        simp
      · rw [Bool.or_eq_true, ih hl.2]
        simp [hi, Ne.symm hi]
  rw [Bool.eq_iff_iff, hlookup (nodup_shownIn staves), lookup_shownIn, decide_eq_true_iff]
  split_ifs with hseen
  · simp [hseen]
  · simp [hseen]

/-! ### Stacks -/

namespace StaffStack

variable {α : Type}

/-- The numbers of the staves that have a place. -/
def numbers (s : StaffStack α) : List UInt32 := s.staves.map StaffSlot.staff

/-- The staves that have a place, each with whether it is hidden. -/
def outline (s : StaffStack α) : List (UInt32 × Bool) :=
  s.staves.map fun slot => (slot.staff, slot.hidden)

theorem map_fst_outline (s : StaffStack α) : s.outline.map Prod.fst = s.numbers := by
  rw [outline, List.map_map]
  rfl

theorem mem_numbers_iff {s : StaffStack α} {k : UInt32} :
    k ∈ s.numbers ↔ ∃ slot, s.get? k = some slot := by
  rw [← Option.isSome_iff_exists, get?, List.find?_isSome, numbers, List.mem_map]
  simp only [decide_eq_true_eq]

theorem outline_modify (s : StaffStack α) (k : UInt32) {f : StaffSlot α → StaffSlot α} (g : Bool → Bool)
    (hf : ∀ slot, (f slot).staff = slot.staff ∧ (f slot).hidden = g slot.hidden) :
    (s.modify k f).outline = s.outline.map fun x => (x.1, if x.1 = k then g x.2 else x.2) := by
  rw [outline, outline, modify, List.map_map, List.map_map]
  refine List.map_congr_left fun slot _ => ?_
  dsimp only [Function.comp_apply]
  split_ifs
  · rw [(hf slot).1, (hf slot).2]
  · rfl

theorem outline_hideUnseen (shown : List (UInt32 × Bool)) (s : StaffStack α) :
    (Stacking.hideUnseen s shown).outline =
      s.outline.map fun x => (x.1, x.2 || shown.any fun y => y.1 = x.1 ∧ !y.2) := by
  induction shown generalizing s with
  | nil => simp [Stacking.hideUnseen]
  | cons y shown ih =>
    have hhead := s.outline_modify y.1 (f := fun slot => { slot with hidden := slot.hidden || !y.2 })
      (· || !y.2) fun _ => ⟨rfl, rfl⟩
    refine ((ih _).trans (congrArg _ hhead)).trans ?_
    rw [List.map_map]
    refine List.map_congr_left fun x _ => ?_
    rw [Function.comp_apply, List.any_cons]
    by_cases hx : x.1 = y.1
    · simp [hx, Bool.or_assoc]
    · simp [hx, Ne.symm hx]

variable [Scalar α]

theorem outline_ensure (s : StaffStack α) (k : UInt32) (height : α) (hidden : Bool) :
    (s.ensure k height hidden).outline = listStaff s.outline (k, hidden) := by
  have hlisted : (s.get? k).isSome ↔ k ∈ s.outline.map Prod.fst := by
    rw [map_fst_outline, mem_numbers_iff, Option.isSome_iff_exists]
  rw [ensure, listStaff]
  split_ifs with h h' h'
  · rfl
  · exact absurd (hlisted.1 h) h'
  · exact absurd (hlisted.2 h') h
  · rw [outline, List.map_append]
    rfl

@[simp] theorem outline_stack (s : StaffStack α) (spacing : α) :
    (s.stack spacing).outline = s.outline := by
  have hplace : (slots : List (StaffSlot α)) → (first : Bool) → (y : α) →
      ((placeFrom spacing slots first y).1.map fun slot => (slot.staff, slot.hidden)) =
        slots.map fun slot => (slot.staff, slot.hidden) := by
    intro slots
    induction slots with
    | nil => exact fun _ _ => rfl
    | cons slot slots ih =>
      intro first y
      rw [placeFrom]
      split_ifs <;> exact congrArg ((slot.staff, slot.hidden) :: ·) (ih ..)
  exact hplace s.staves true 0

/-- Staves that have been placed are placed there again. -/
theorem placeFrom_placeFrom (spacing : α) : (slots : List (StaffSlot α)) → (first : Bool) → (y : α) →
    placeFrom spacing (placeFrom spacing slots first y).1 first y = placeFrom spacing slots first y
  | [], _, _ => rfl
  | s :: slots, first, y => by
      by_cases hs : s.hidden
      · rw [placeFrom, if_pos hs, placeFrom, if_pos hs, placeFrom_placeFrom spacing slots]
      · rw [placeFrom, if_neg hs]
        dsimp only
        rw [placeFrom, if_neg hs]
        dsimp only
        rw [placeFrom_placeFrom spacing slots]

theorem stack_stack (s : StaffStack α) (spacing : α) :
    (s.stack spacing).stack spacing = s.stack spacing := by
  rw [stack, stack, placeFrom_placeFrom]

@[simp] theorem outline_justify (s : StaffStack α) (perGap : α) :
    (s.justify perGap).outline = s.outline := by
  have hshift : (slots : List (StaffSlot α)) → (first : Bool) → (shift : α) →
      ((shiftFrom perGap slots first shift).1.map fun slot => (slot.staff, slot.hidden)) =
        slots.map fun slot => (slot.staff, slot.hidden) := by
    intro slots
    induction slots with
    | nil => exact fun _ _ => rfl
    | cons slot slots ih => exact fun _ _ => congrArg ((slot.staff, slot.hidden) :: ·) (ih ..)
  exact hshift s.staves true 0

end StaffStack

/-! ### What a system has -/

/-- A staff of a system whose measures have the staves given: one of the definition, or of a
measure. -/
def ScoreDefinition.HasStaff (D : ScoreDefinition) (staves : List Staff) (k : UInt32) : Prop :=
  (∃ s, D.staff? k = some s) ∨ ∃ s ∈ staves, s.n = k

/-- A staff that is hidden in a system whose measures have the staves given: its definition hides it,
or there is such a staff and all of them are hidden. -/
def ScoreDefinition.HidesStaff (D : ScoreDefinition) (staves : List Staff) (k : UInt32) : Prop :=
  (∃ s, D.staff? k = some s ∧ s.hidden) ∨
    (∃ s ∈ staves, s.n = k) ∧ ∀ s ∈ staves, s.n = k → s.hidden

namespace StaffStack

variable {α : Type}

/-- A stack with one place for each staff of a system, hidden where the staff is. -/
structure Lists (s : StaffStack α) (D : ScoreDefinition) (staves : List Staff) : Prop where
  nodup : s.numbers.Nodup
  mem_iff : ∀ k, k ∈ s.numbers ↔ D.HasStaff staves k
  hidden_iff : ∀ slot ∈ s.staves, slot.hidden ↔ D.HidesStaff staves slot.staff

/-- The staves that a stack hides. -/
theorem Lists.hides_iff {s : StaffStack α} {D : ScoreDefinition} {staves : List Staff}
    (h : s.Lists D staves) (k : UInt32) :
    (∃ slot, s.get? k = some slot ∧ slot.hidden) ↔ D.HidesStaff staves k := by
  have hget {slot : StaffSlot α} (hslot : s.get? k = some slot) :
      slot.hidden ↔ D.HidesStaff staves k := by
    rw [h.hidden_iff slot (List.mem_of_find?_eq_some hslot),
      show slot.staff = k by simpa using List.find?_some hslot]
  constructor
  · rintro ⟨slot, hslot, hhidden⟩
    exact (hget hslot).1 hhidden
  · intro hhides
    have hhas : D.HasStaff staves k :=
      hhides.imp (fun ⟨s, hs, _⟩ => ⟨s, hs⟩) fun hstaves => hstaves.1
    obtain ⟨slot, hslot⟩ := mem_numbers_iff.1 ((h.mem_iff k).2 hhas)
    exact ⟨slot, hslot, (hget hslot).2 hhides⟩

theorem Lists.congr {s s' : StaffStack α} {D : ScoreDefinition} {staves : List Staff}
    (h : s.Lists D staves) (heq : s'.outline = s.outline) : s'.Lists D staves := by
  have hnumbers : s'.numbers = s.numbers := by rw [← map_fst_outline, heq, map_fst_outline]
  refine ⟨hnumbers ▸ h.nodup, fun k => hnumbers ▸ h.mem_iff k, fun slot' hslot' => ?_⟩
  have hmem : (slot'.staff, slot'.hidden) ∈ s.outline := heq ▸ List.mem_map.2 ⟨slot', hslot', rfl⟩
  obtain ⟨slot, hslot, hpair⟩ := List.mem_map.1 hmem
  rw [Prod.mk.injEq] at hpair
  rw [← hpair.1, ← hpair.2]
  exact h.hidden_iff slot hslot

/-- The places that staves get as they are met are those of the staves of the system. -/
theorem lists_of_outline {s : StaffStack α} {D : ScoreDefinition} {staves : List Staff}
    (h : s.outline = (outlineOf D staves).map fun x =>
      (x.1, x.2 || (shownIn staves).any fun y => y.1 = x.1 ∧ !y.2)) : s.Lists D staves := by
  have hnumbers : s.numbers = (outlineOf D staves).map Prod.fst := by
    rw [← map_fst_outline, h, List.map_map]
    rfl
  refine ⟨hnumbers ▸ nodup_foldl_listStaff _ List.nodup_nil, fun k => ?_, fun slot hslot => ?_⟩
  · rw [hnumbers, List.mem_map, ScoreDefinition.HasStaff]
    constructor
    · rintro ⟨x, hx, rfl⟩
      exact (mem_outlineOf.1 hx).imp (fun ⟨s, hs, _⟩ => ⟨s, hs⟩) fun hx => hx.2.1
    · rintro (⟨s, hs⟩ | hs)
      · exact ⟨(k, s.hidden), mem_outlineOf.2 (.inl ⟨s, hs, rfl⟩), rfl⟩
      · cases hk : D.staff? k with
        | some s => exact ⟨(k, s.hidden), mem_outlineOf.2 (.inl ⟨s, hk, rfl⟩), rfl⟩
        | none => exact ⟨(k, false), mem_outlineOf.2 (.inr ⟨hk, hs, rfl⟩), rfl⟩
  · have hmem : (slot.staff, slot.hidden) ∈ s.outline := List.mem_map.2 ⟨slot, hslot, rfl⟩
    rw [h, List.mem_map] at hmem
    obtain ⟨x, hx, hpair⟩ := hmem
    rw [Prod.mk.injEq, any_shownIn] at hpair
    rw [← hpair.1, ← hpair.2, Bool.or_eq_true, decide_eq_true_iff, ScoreDefinition.HidesStaff]
    refine or_congr_left ?_
    obtain ⟨s, hs, hhidden⟩ | ⟨hnone, -, hfalse⟩ := mem_outlineOf.1 hx
    · rw [hs]
      simp [hhidden]
    · rw [hnone]
      simp [hfalse]

end StaffStack

end ScoreLayout
