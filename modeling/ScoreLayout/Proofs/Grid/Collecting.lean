import ScoreLayout.Proofs.Score.Edits

/-!
# Collecting a time grid

While the slots of a measure are collected, the grid begins with a drawn slot that opens the measure,
and nothing closes the measure yet. Closing the grid puts the slots of the right barline and of the
end of the measure behind all others.

## Main definitions

* `MeasureGrid.Open` — a grid that slots are collected in.
* `MeasureGrid.Closed` — a grid whose collection has ended.

## Main results

* `MeasureGrid.Open.slot`, `MeasureGrid.Open.timestampSlot`, `MeasureGrid.Open.addFootprint` — a
  grid stays open.
* `MeasureGrid.Open.finish` — the end of collection.
-/

namespace ScoreLayout

variable {α : Type} [Scalar α]

/-! ### Keys -/

namespace SlotKey

theorem compare_eq_lt_of_zone {a b : SlotKey} (h : a.zone.rank < b.zone.rank) :
    a.compare b = .lt := by
  rw [compare, Nat.compare_eq_lt.2 h]
  rfl

theorem zone_of_compare_eq {a b : SlotKey} (h : a.compare b = .eq) : a.zone = b.zone := by
  rw [compare, Ordering.then_eq_eq, Nat.compare_eq_eq] at h
  have hrank := h.1
  generalize a.zone = z at hrank ⊢
  generalize b.zone = z' at hrank ⊢
  cases z <;> cases z' <;> simp_all [Zone.rank]

theorem compare_time (time : Fraction) : Fraction.compare time time = .eq := by
  rw [Fraction.compare]
  exact Std.ReflCmp.compare_self

theorem compare_self (a : SlotKey) : a.compare a = .eq := by
  rw [compare, Nat.compare_eq_eq.2 rfl, compare_time, Nat.compare_eq_eq.2 rfl,
    Nat.compare_eq_eq.2 rfl]
  rfl

/-- Two kinds of slots at one time. -/
theorem compare_ofKind (time : Fraction) {k k' : SlotKind} (hzone : k.zone = k'.zone)
    (hrank : k.rank < k'.rank) : (ofKind time k).compare (ofKind time k') = .lt := by
  have hzones : Ord.compare (ofKind time k).zone.rank (ofKind time k').zone.rank = .eq :=
    Nat.compare_eq_eq.2 (congrArg Zone.rank hzone)
  rw [compare, hzones, show Fraction.compare (ofKind time k).time (ofKind time k').time = .eq from
    compare_time time, show Ord.compare (ofKind time k).kind.rank (ofKind time k').kind.rank = .lt from
    Nat.compare_eq_lt.2 hrank]
  rfl

end SlotKey

namespace MeasureGrid

/-! ### Lists of slots -/

variable {key : SlotKey} {timestampOnly : Bool} {slots : List (Slot α)} {s : Slot α}

theorem mem_insertSlot (h : s ∈ insertSlot key timestampOnly slots) :
    s ∈ slots ∨ s = Slot.ofKey key timestampOnly := by
  induction slots with
  | nil => exact .inr (List.mem_singleton.1 h)
  | cons t rest ih =>
    rw [insertSlot] at h
    split at h
    · rcases List.mem_cons.1 h with rfl | h
      · exact .inl List.mem_cons_self
      · exact (ih h).imp_left (List.mem_cons_of_mem t)
    · exact .inl h
    · rcases List.mem_cons.1 h with rfl | h
      · exact .inr rfl
      · exact .inl h

/-- A key that comes behind those of all slots. -/
theorem insertSlot_eq_append (h : ∀ s ∈ slots, s.key.compare key = .lt) :
    insertSlot key timestampOnly slots = slots ++ [Slot.ofKey key timestampOnly] := by
  induction slots with
  | nil => rfl
  | cons t rest ih =>
    rw [List.forall_mem_cons] at h
    rw [insertSlot, h.1, List.cons_append, ih h.2]

omit [Scalar α] in
theorem modifySlot_of_ne {f : Slot α → Slot α} (h : ∀ s ∈ slots, s.key.compare key ≠ .eq) :
    modifySlot key f slots = slots := by
  rw [modifySlot]
  exact (List.map_congr_left fun s hs => if_neg (h s hs)).trans (List.map_id slots)

/-- Slots with the key behind all of them claimed. -/
theorem claim_insertSlot_eq_append (h : ∀ s ∈ slots, s.key.compare key = .lt) :
    modifySlot key (fun s => { s with timestampOnly := false }) (insertSlot key false slots) =
      slots ++ [Slot.ofKey key false] := by
  have hne : ∀ s ∈ slots, s.key.compare key ≠ .eq := fun s hs => by rw [h s hs]; decide
  rw [insertSlot_eq_append h, modifySlot, List.map_append, ← modifySlot, modifySlot_of_ne hne]
  simp [Slot.ofKey]

/-! ### Open grids -/

/-- A grid that slots are collected in: it begins with a drawn slot that opens the measure, and no
slot closes it. -/
structure Open (g : MeasureGrid α) : Prop where
  state : g.state = .collecting
  first : ∃ s rest, g.slots = s :: rest ∧ s.key.zone = .left ∧ s.timestampOnly = false
  zones : ∀ s ∈ g.slots, s.key.zone ≠ .right

omit [Scalar α] in
/-- Changes of single slots that keep their keys and draw at no fewer of them. -/
theorem Open.modifySlot {g : MeasureGrid α} (h : g.Open) {f : Slot α → Slot α}
    (hkey : ∀ s, (f s).key = s.key)
    (hdrawn : ∀ s : Slot α, s.timestampOnly = false → (f s).timestampOnly = false) :
    Open { g with slots := modifySlot key f g.slots } := by
  obtain ⟨s, rest, hslots, hzone, hs⟩ := h.first
  have hchange (s : Slot α) : (if s.key.compare key = .eq then f s else s).key = s.key := by
    split_ifs
    · exact hkey s
    · rfl
  refine ⟨h.state, ⟨_, _, congrArg _ hslots, ?_, ?_⟩, List.forall_mem_map.2 fun t ht => ?_⟩
  · rw [hchange]
    exact hzone
  · dsimp only
    split_ifs
    · exact hdrawn s hs
    · exact hs
  · rw [hchange]
    exact h.zones t ht

theorem Open.insertSlot {g : MeasureGrid α} (h : g.Open) (hkey : key.zone = .content)
    (timestampOnly : Bool) : Open { g with slots := insertSlot key timestampOnly g.slots } := by
  obtain ⟨s, rest, hslots, hzone, hs⟩ := h.first
  have hlt : s.key.compare key = .lt :=
    SlotKey.compare_eq_lt_of_zone (by rw [hzone, hkey]; decide)
  refine ⟨h.state, ⟨s, MeasureGrid.insertSlot key timestampOnly rest, ?_, hzone, hs⟩,
    fun t ht => ?_⟩
  · show MeasureGrid.insertSlot key timestampOnly g.slots = _
    rw [hslots, MeasureGrid.insertSlot, hlt]
  · rcases mem_insertSlot ht with ht | rfl
    · exact h.zones t ht
    · rw [Slot.ofKey, hkey]
      decide

/-- A grid that slots are collected in refuses none. -/
theorem exists_slot {g : MeasureGrid α} (h : g.state = .collecting) (key : SlotKey) :
    ∃ g', g.slot key = .ok g' ∧ g'.state = .collecting := ⟨_, if_pos h, h⟩

theorem exists_timestampSlot {g : MeasureGrid α} (h : g.state = .collecting) (time : Fraction) :
    ∃ g', g.timestampSlot time = .ok g' := by
  rw [MeasureGrid.timestampSlot, if_pos h]
  split_ifs
  · exact ⟨g, rfl⟩
  · exact ⟨_, rfl⟩

theorem Open.slot {g g' : MeasureGrid α} (h : g.Open) (hkey : key.zone = .content)
    (hok : g.slot key = .ok g') : g'.Open ∧ g'.maxTime = g.maxTime := by
  rw [MeasureGrid.slot] at hok
  split_ifs at hok
  obtain rfl := Except.ok.inj hok
  exact ⟨(h.insertSlot hkey false).modifySlot (fun _ => rfl) fun _ _ => rfl, rfl⟩

theorem Open.timestampSlot {g g' : MeasureGrid α} (h : g.Open) {time : Fraction}
    (hok : g.timestampSlot time = .ok g') : g'.Open ∧ g'.maxTime = g.maxTime := by
  rw [MeasureGrid.timestampSlot] at hok
  split_ifs at hok
  · exact Except.ok.inj hok ▸ ⟨h, rfl⟩
  · obtain rfl := Except.ok.inj hok
    exact ⟨h.insertSlot rfl true, rfl⟩

theorem Open.addFootprint {g : MeasureGrid α} (h : g.Open) (key : SlotKey) (staff : UInt32)
    (rect : Rect α) : (g.addFootprint key staff rect).Open := by
  rw [MeasureGrid.addFootprint]
  split_ifs
  · exact h
  · exact h.modifySlot (fun _ => rfl) fun _ hs => hs

omit [Scalar α] in
theorem Open.extend {g : MeasureGrid α} (h : g.Open) (time : Fraction) : (g.extend time).Open :=
  ⟨h.state, h.first, h.zones⟩

theorem maxTime_addFootprint (g : MeasureGrid α) (key : SlotKey) (staff : UInt32)
    (rect : Rect α) : (g.addFootprint key staff rect).maxTime = g.maxTime := by
  rw [MeasureGrid.addFootprint]
  split_ifs <;> rfl

theorem begin_empty : (empty : MeasureGrid α).begin =
    .ok ⟨[.ofKey (.ofKind 0 .measureStart) false, .ofKey (.ofKind 0 .leftBarLine) false],
      .collecting, 0, [], false⟩ := rfl

/-- The grid of a measure that is entered. -/
theorem open_begin {g : MeasureGrid α} (hok : (empty : MeasureGrid α).begin = .ok g) :
    g.Open ∧ g.maxTime = 0 := by
  rw [begin_empty, Except.ok.injEq] at hok
  subst hok
  refine ⟨⟨rfl, ⟨_, _, rfl, rfl, rfl⟩, fun s hs => ?_⟩, rfl⟩
  simp only [List.mem_cons, List.not_mem_nil, or_false] at hs
  rcases hs with rfl | rfl <;> simp [Slot.ofKey, SlotKey.ofKind, SlotKey.zone, SlotKind.zone]

/-! ### Closed grids -/

omit [Scalar α] in
/-- The keys of the slots, and whether they are for control elements only. -/
def outline (g : MeasureGrid α) : List (SlotKey × Bool) :=
  g.slots.map fun s => (s.key, s.timestampOnly)

/-- A grid whose collection has ended: behind a drawn slot of the opening and drawn slots of the
content stand the slots of the right barline and of the end of the measure. -/
def Closed (g : MeasureGrid α) : Prop :=
  ∃ first front right last, g.outline = first :: front ++ [(right, false), (last, false)] ∧
    (first.1.zone = .left ∧ first.2 = false) ∧
    (∃ s ∈ front, s.1.zone = .content ∧ s.2 = false) ∧ (∀ s ∈ front, s.1.zone ≠ .right) ∧
    right.kind = .rightBarLine ∧ last.kind = .measureEnd

theorem slots_of_slot {g g' : MeasureGrid α} (hok : g.slot key = .ok g')
    (h : ∀ s ∈ g.slots, s.key.compare key = .lt) :
    g'.slots = g.slots ++ [Slot.ofKey key false] ∧ g'.maxTime = g.maxTime := by
  rw [MeasureGrid.slot] at hok
  split_ifs at hok
  obtain rfl := Except.ok.inj hok
  exact ⟨claim_insertSlot_eq_append h, rfl⟩

theorem exists_mem_insertSlot (key : SlotKey) (timestampOnly : Bool) (slots : List (Slot α)) :
    ∃ s ∈ insertSlot key timestampOnly slots, s.key.compare key = .eq := by
  induction slots with
  | nil => exact ⟨_, List.mem_cons_self, key.compare_self⟩
  | cons t rest ih =>
    rw [insertSlot]
    split
    · obtain ⟨s, hs, heq⟩ := ih
      exact ⟨s, List.mem_cons_of_mem t hs, heq⟩
    · rename_i heq
      exact ⟨t, List.mem_cons_self, heq⟩
    · exact ⟨_, List.mem_cons_self, key.compare_self⟩

/-- The slot that has been asked for is drawn. -/
theorem exists_mem_of_slot {g g' : MeasureGrid α} (hok : g.slot key = .ok g') :
    ∃ s ∈ g'.slots, s.key.zone = key.zone ∧ s.timestampOnly = false := by
  rw [MeasureGrid.slot] at hok
  split_ifs at hok
  obtain rfl := Except.ok.inj hok
  obtain ⟨s, hs, heq⟩ := exists_mem_insertSlot key false g.slots
  refine ⟨_, List.mem_map_of_mem hs, ?_⟩
  rw [if_pos heq]
  exact ⟨SlotKey.zone_of_compare_eq heq, rfl⟩

/-- A grid that slots are collected in can be closed. -/
theorem exists_finish {g : MeasureGrid α} (h : g.state = .collecting) :
    ∃ g', g.finish = .ok g' ∧ g'.state = .aligned := by
  have hclose {g : MeasureGrid α} (h : g.state = .collecting) : ∃ g', (do
      let g₂ ← g.slot (.ofKind g.maxTime .rightBarLine)
      let g₃ ← g₂.slot (.ofKind g₂.maxTime .measureEnd)
      return { g₃ with state := .aligned }) = Except.ok g' ∧ g'.state = .aligned := by
    obtain ⟨g₂, hg₂, h₂⟩ := exists_slot h (.ofKind g.maxTime .rightBarLine)
    obtain ⟨g₃, hg₃, -⟩ := exists_slot h₂ (.ofKind g₂.maxTime .measureEnd)
    refine ⟨{ g₃ with state := .aligned }, ?_, rfl⟩
    rw [hg₂]
    dsimp only [bind, Except.bind]
    rw [hg₃]
    rfl
  rw [finish]
  dsimp only
  split_ifs
  · exact hclose h
  · obtain ⟨g₁, hg₁, h₁⟩ := exists_slot h (.ofKind 0 .event)
    rw [hg₁]
    exact hclose h₁

/-- Closing an open grid. -/
theorem Open.finish {g g' : MeasureGrid α} (h : g.Open) (hok : g.finish = .ok g') :
    g'.Closed ∧ g'.maxTime = g.maxTime := by
  obtain ⟨g₁, hopen, hmax, ⟨s, hs, hzone, hdrawn⟩, hok⟩ : ∃ g₁ : MeasureGrid α, g₁.Open ∧
      g₁.maxTime = g.maxTime ∧ (∃ s ∈ g₁.slots, s.key.zone = .content ∧ s.timestampOnly = false) ∧
        (do let g₂ ← g₁.slot (.ofKind g₁.maxTime .rightBarLine)
            let g₃ ← g₂.slot (.ofKind g₂.maxTime .measureEnd)
            return { g₃ with state := .aligned }) = Except.ok g' := by
    rw [MeasureGrid.finish] at hok
    dsimp only at hok
    split_ifs at hok with hcontent
    · obtain ⟨s, hs, hdrawn⟩ := List.any_eq_true.1 hcontent
      exact ⟨g, h, rfl, ⟨s, hs, by simpa using hdrawn⟩, hok⟩
    · obtain ⟨g₁, h₁, hok⟩ := except_bind_eq_ok.1 hok
      obtain ⟨hopen, hmax⟩ := h.slot rfl h₁
      exact ⟨g₁, hopen, hmax, exists_mem_of_slot h₁, hok⟩
  obtain ⟨g₂, h₂, hok⟩ := except_bind_eq_ok.1 hok
  obtain ⟨g₃, h₃, hok⟩ := except_bind_eq_ok.1 hok
  obtain rfl := Except.ok.inj hok
  have hright {s : Slot α} (hs : s ∈ g₁.slots) {key : SlotKey} (hkey : key.zone = .right) :
      s.key.compare key = .lt := by
    refine SlotKey.compare_eq_lt_of_zone ?_
    have := hopen.zones s hs
    cases hz : s.key.zone <;> simp_all [Zone.rank]
  obtain ⟨hslots₂, hmax₂⟩ := slots_of_slot h₂ fun s hs => hright hs rfl
  obtain ⟨hslots₃, hmax₃⟩ := slots_of_slot h₃ fun s hs => by
    rw [hslots₂, List.mem_append, List.mem_singleton] at hs
    rcases hs with hs | rfl
    · exact hright hs rfl
    · rw [hmax₂]
      exact SlotKey.compare_ofKind g₁.maxTime rfl (by decide)
  obtain ⟨first, front, hfirst, hleft, hopening⟩ := hopen.first
  refine ⟨⟨(first.key, first.timestampOnly), front.map fun s => (s.key, s.timestampOnly), .ofKind g₁.maxTime .rightBarLine,
    .ofKind g₂.maxTime .measureEnd, ?_, ⟨hleft, hopening⟩, ⟨_, List.mem_map_of_mem (a := s) ?_, hzone,
    hdrawn⟩, List.forall_mem_map.2 fun t ht => ?_, rfl, rfl⟩, hmax₃.trans (hmax₂.trans hmax)⟩
  · show g₃.slots.map _ = _
    rw [hslots₃, hslots₂, hfirst]
    simp [Slot.ofKey]
  · rw [hfirst] at hs
    rcases List.mem_cons.1 hs with rfl | hs
    · rw [hleft] at hzone
      cases hzone
    · exact hs
  · exact hopen.zones t (hfirst ▸ List.mem_cons_of_mem first ht)

/-- Footprints close nothing and open nothing. -/
theorem outline_addFootprint (g : MeasureGrid α) (key : SlotKey) (staff : UInt32)
    (rect : Rect α) : (g.addFootprint key staff rect).outline = g.outline := by
  rw [MeasureGrid.addFootprint]
  split_ifs
  · rfl
  · rw [outline, outline]
    dsimp only
    rw [modifySlot, List.map_map]
    refine List.map_congr_left fun s _ => ?_
    rw [Function.comp_apply]
    split_ifs <;> rfl

end MeasureGrid

end ScoreLayout
