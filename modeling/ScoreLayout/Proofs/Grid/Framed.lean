import ScoreLayout.Proofs.Grid.Alike
import ScoreLayout.Proofs.Layout.KeptSlots

/-!
# What stands around the content of a time grid

A grid begins with the slots of the start of the measure and of its left barline, at time zero, and
ends with those of its right barline and of its end, at the time that the measure lasts. All other
slots lie within the content, and those for control elements only lie within the time of the measure.

## Main definitions

* `MeasureGrid.opening`, `MeasureGrid.closing` — what stands around the content.
* `MeasureGrid.Opened` — a grid whose content is being collected.
* `MeasureGrid.Framed` — a grid with both.

## Main results

* `MeasureGrid.Opened.slot`, `MeasureGrid.Opened.timestampSlot` — asking for slots of the content.
* `MeasureGrid.Opened.finish` — closing a grid.
* `MeasureGrid.Framed.time_le` — slots for control elements only lie between their neighbours.
-/

namespace ScoreLayout

variable {α : Type}

namespace MeasureGrid

/-- The slots that open a measure. -/
def opening : List (SlotKey × Bool) :=
  [(.ofKind 0 .measureStart, false), (.ofKind 0 .leftBarLine, false)]

/-- The slots that close a measure of some length. -/
def closing (last : Fraction) : List (SlotKey × Bool) :=
  [(.ofKind last .rightBarLine, false), (.ofKind last .measureEnd, false)]

/-- A grid in which a measure has been opened, and slots of the content collected. -/
structure Opened (g : MeasureGrid α) : Prop where
  sorted : g.Sorted
  outline : ∃ inner, g.outline = opening ++ inner ∧ ∀ s ∈ inner, s.1.zone = .content
  /-- Slots for control elements only lie within the measure. -/
  stamped : ∀ s ∈ g.slots, s.timestampOnly →
    0 ≤ s.key.time.value ∧ s.key.time.value ≤ g.maxTime.value
  length : 0 ≤ g.maxTime.value

/-- A grid with the slots that open and close a measure of some length around the content. -/
structure Framed (g : MeasureGrid α) (last : Fraction) : Prop where
  sorted : g.Sorted
  outline : ∃ inner, g.outline = opening ++ inner ++ closing last ∧
    (∀ s ∈ inner, s.1.zone = .content) ∧ ∃ s ∈ inner, s.2 = false
  stamped : ∀ s ∈ g.slots, s.timestampOnly →
    0 ≤ s.key.time.value ∧ s.key.time.value ≤ last.value
  length : 0 ≤ last.value

variable {g g' : MeasureGrid α} {key : SlotKey}

/-! ### Collecting -/

namespace Opened

/-- The slots of the opening come before any key of the content. -/
theorem exists_slots (h : g.Opened) : ∃ a b inner, g.slots = a :: b :: inner ∧
    [a, b].map (fun s => (s.key, s.timestampOnly)) = opening ∧
      ∀ s ∈ inner, s.key.zone = .content := by
  obtain ⟨inner, houtline, hinner⟩ := h.outline
  obtain ⟨a, rest, hslots, ha, hrest⟩ := List.map_eq_cons_iff.1 houtline
  obtain ⟨b, rest, rfl, hb, hrest⟩ := List.map_eq_cons_iff.1 hrest
  refine ⟨a, b, rest, hslots, ?_, fun s hs => ?_⟩
  · rw [List.map_cons, List.map_singleton, ha, hb]
    rfl
  · refine hinner (s.key, s.timestampOnly) ?_
    exact (show _ = inner from hrest) ▸ List.mem_map_of_mem hs

/-- Slots that open a measure, and others within the content. -/
theorem outline_of_slots {a b : Slot α} {inner : List (Slot α)} (hslots : g.slots = a :: b :: inner)
    (hopening : [a, b].map (fun s => (s.key, s.timestampOnly)) = opening)
    (hinner : ∀ s ∈ inner, s.key.zone = .content) :
    ∃ inner, g.outline = opening ++ inner ∧ ∀ s ∈ inner, s.1.zone = .content := by
  refine ⟨inner.map fun s => (s.key, s.timestampOnly), ?_, List.forall_mem_map.2 hinner⟩
  rw [MeasureGrid.outline, hslots, ← hopening]
  rfl

theorem compare_opening {a b : Slot α}
    (h : [a, b].map (fun s => (s.key, s.timestampOnly)) = opening) (hkey : key.zone = .content) :
    a.key.compare key = .lt ∧ b.key.compare key = .lt := by
  simp only [opening, List.map_cons, List.map_nil, List.cons.injEq, Prod.mk.injEq, and_true] at h
  constructor
  · rw [h.1.1]
    exact SlotKey.compare_eq_lt_of_zone (by rw [hkey]; decide)
  · rw [h.2.1]
    exact SlotKey.compare_eq_lt_of_zone (by rw [hkey]; decide)

variable [Scalar α]

/-- A key of the content gets its slot behind those of the opening. -/
theorem insertSlot (h : g.Opened) (hkey : key.zone = .content) (timestampOnly : Bool)
    (hstamped : timestampOnly → 0 ≤ key.time.value ∧ key.time.value ≤ g.maxTime.value) :
    Opened { g with slots := insertSlot key timestampOnly g.slots } := by
  obtain ⟨a, b, inner, hslots, hopening, hinner⟩ := h.exists_slots
  obtain ⟨ha, hb⟩ := compare_opening hopening hkey
  have hinsert : MeasureGrid.insertSlot key timestampOnly g.slots =
      a :: b :: MeasureGrid.insertSlot key timestampOnly inner := by
    rw [hslots, MeasureGrid.insertSlot, ha]
    dsimp only
    rw [MeasureGrid.insertSlot, hb]
  refine ⟨(g.grows_insertSlot key timestampOnly).sorted h.sorted,
    outline_of_slots hinsert hopening fun s hs => ?_, fun s hs hs' => ?_, h.length⟩
  · rcases mem_insertSlot hs with hs | rfl
    · exact hinner s hs
    · exact hkey
  · rcases mem_insertSlot hs with hs | rfl
    · exact h.stamped s hs hs'
    · exact hstamped hs'

omit [Scalar α] in
/-- Changes of slots of the content that keep their keys and draw at no fewer of them. -/
theorem modifySlot (h : g.Opened) {f : Slot α → Slot α} (hkey : ∀ s, (f s).key = s.key)
    (hdrawn : ∀ s : Slot α, (f s).timestampOnly → s.timestampOnly) :
    Opened { g with slots := modifySlot key f g.slots } := by
  have hchange (s : Slot α) : (if s.key.compare key = .eq then f s else s).key = s.key ∧
      ((if s.key.compare key = .eq then f s else s).timestampOnly → s.timestampOnly) := by
    split_ifs
    · exact ⟨hkey s, hdrawn s⟩
    · exact ⟨rfl, id⟩
  obtain ⟨a, b, inner, hslots, hopening, hinner⟩ := h.exists_slots
  have hdrawn' {s : Slot α} (hs : s.timestampOnly = false) :
      (if s.key.compare key = .eq then f s else s).timestampOnly = false := by
    have := (hchange s).2
    rw [hs] at this
    simpa using this
  refine ⟨(grows_modifySlot f hkey (fun s hs => ?_) g).sorted h.sorted,
    outline_of_slots (congrArg (MeasureGrid.modifySlot key f) hslots) ?_
      (List.forall_mem_map.2 fun s hs => (congrArg SlotKey.zone (hchange s).1).trans (hinner s hs)),
    List.forall_mem_map.2 fun s hs hs' => ?_, h.length⟩
  · have := hdrawn s
    rw [hs] at this
    simpa using this
  · simp only [opening, List.map_cons, List.map_nil, List.cons.injEq, Prod.mk.injEq,
      and_true] at hopening ⊢
    rw [(hchange a).1, (hchange b).1]
    exact ⟨⟨hopening.1.1, hdrawn' hopening.1.2⟩, hopening.2.1, hdrawn' hopening.2.2⟩
  · rw [(hchange s).1]
    exact h.stamped s hs ((hchange s).2 hs')

theorem slot (h : g.Opened) (hkey : key.zone = .content) (hok : g.slot key = .ok g') :
    g'.Opened := by
  rw [MeasureGrid.slot] at hok
  split_ifs at hok
  rw [← Except.ok.inj hok]
  have hinsert := h.insertSlot hkey false fun hstamped => by cases hstamped
  exact hinsert.modifySlot (fun _ => rfl) fun _ hs => by cases hs

/-- A slot for a control element within the time of the measure. -/
theorem timestampSlot (h : g.Opened) {time : Fraction}
    (htime : 0 ≤ time.value ∧ time.value ≤ g.maxTime.value) (hok : g.timestampSlot time = .ok g') :
    g'.Opened ∧ g'.maxTime = g.maxTime := by
  rw [MeasureGrid.timestampSlot] at hok
  split_ifs at hok
  · exact Except.ok.inj hok ▸ ⟨h, rfl⟩
  · rw [← Except.ok.inj hok]
    exact ⟨h.insertSlot rfl true fun _ => htime, rfl⟩

theorem addFootprint (h : g.Opened) (key : SlotKey) (staff : UInt32) (rect : Rect α) :
    (g.addFootprint key staff rect).Opened := by
  rw [MeasureGrid.addFootprint]
  split_ifs
  · exact h
  · exact h.modifySlot (fun _ => rfl) fun _ => id

omit [Scalar α] in
theorem extend (h : g.Opened) (time : Fraction) : (g.extend time).Opened := by
  have hle : g.maxTime.value ≤ (g.extend time).maxTime.value := by
    rw [MeasureGrid.extend, Fraction.value_max]
    exact le_max_left _ _
  exact ⟨h.sorted, h.outline, fun s hs hs' => (h.stamped s hs hs').imp_right fun h => h.trans hle,
    h.length.trans hle⟩

end Opened

variable [Scalar α]

/-- The grid of a measure that is entered. -/
theorem opened_begin (hok : (empty : MeasureGrid α).begin = .ok g) : g.Opened := by
  have hsorted := sorted_begin hok
  rw [begin_empty, Except.ok.injEq] at hok
  subst hok
  refine ⟨hsorted, ⟨[], rfl, fun _ hs => absurd hs List.not_mem_nil⟩, ?_, Fraction.value_zero.ge⟩
  simp [Slot.ofKey]

/-! ### Closing -/

/-- Closing a grid puts the slots of the right barline and of the end behind the content. -/
theorem Opened.finish (h : g.Opened) (hok : g.finish = .ok g') :
    g'.Framed g'.maxTime ∧ g'.maxTime = g.maxTime := by
  have hsorted := (grows_finish hok).sorted h.sorted
  obtain ⟨g₁, hopened, hmax, ⟨s, hs, hzone, hdrawn⟩, hok⟩ : ∃ g₁ : MeasureGrid α, g₁.Opened ∧
      g₁.maxTime = g.maxTime ∧ (∃ s ∈ g₁.slots, s.key.zone = .content ∧ s.timestampOnly = false) ∧
        (do let g₂ ← g₁.slot (.ofKind g₁.maxTime .rightBarLine)
            let g₃ ← g₂.slot (.ofKind g₂.maxTime .measureEnd)
            return { g₃ with state := .aligned }) = Except.ok g' := by
    rw [MeasureGrid.finish] at hok
    dsimp only at hok
    split_ifs at hok with hcontent
    · obtain ⟨s, hs, hdrawn⟩ := List.any_eq_true.1 hcontent
      exact ⟨g, h, rfl, ⟨s, hs, by simpa using hdrawn⟩, hok⟩
    · obtain ⟨g₁, h₁, hok⟩ := except_bind_eq_ok.1 hok
      have hmax : g₁.maxTime = g.maxTime := by
        rw [MeasureGrid.slot] at h₁
        split_ifs at h₁
        rw [← Except.ok.inj h₁]
      exact ⟨g₁, h.slot rfl h₁, hmax, exists_mem_of_slot h₁, hok⟩
  obtain ⟨a, b, inner, hslots, hopening, hinner⟩ := hopened.exists_slots
  have hleft (t : Slot α) (ht : t ∈ [a, b]) : t.key.zone = .left := by
    have hmem := List.mem_map_of_mem (f := fun s : Slot α => (s.key, s.timestampOnly)) ht
    rw [hopening, opening] at hmem
    simp only [List.mem_cons, Prod.mk.injEq, List.not_mem_nil, or_false] at hmem
    rcases hmem with ⟨hkey, -⟩ | ⟨hkey, -⟩ <;> rw [hkey] <;> rfl
  have hright {t : Slot α} (ht : t ∈ g₁.slots) {key : SlotKey} (hkey : key.zone = .right) :
      t.key.compare key = .lt := by
    refine SlotKey.compare_eq_lt_of_zone ?_
    rw [hslots, show a :: b :: inner = [a, b] ++ inner from rfl, List.mem_append] at ht
    rw [hkey]
    rcases ht with ht | ht
    · rw [hleft t ht]
      decide
    · rw [hinner t ht]
      decide
  obtain ⟨g₂, h₂, hok⟩ := except_bind_eq_ok.1 hok
  obtain ⟨g₃, h₃, hok⟩ := except_bind_eq_ok.1 hok
  obtain rfl := Except.ok.inj hok
  obtain ⟨hslots₂, hmax₂⟩ := slots_of_slot h₂ fun s hs => hright hs rfl
  obtain ⟨hslots₃, hmax₃⟩ := slots_of_slot h₃ fun s hs => by
    rw [hslots₂, List.mem_append, List.mem_singleton] at hs
    rcases hs with hs | rfl
    · exact hright hs rfl
    · rw [hmax₂]
      exact SlotKey.compare_ofKind g₁.maxTime rfl (by decide)
  have hlast : g₃.maxTime = g₁.maxTime := hmax₃.trans hmax₂
  refine ⟨⟨hsorted, ⟨inner.map fun s => (s.key, s.timestampOnly), ?_,
    List.forall_mem_map.2 hinner, _, List.mem_map_of_mem (a := s) ?_, hdrawn⟩,
    fun t ht ht' => ?_, hlast ▸ hopened.length⟩, hlast.trans hmax⟩
  · show g₃.slots.map _ = _ ++ closing g₃.maxTime
    rw [hslots₃, hslots₂, hslots, hlast, hmax₂, ← hopening]
    simp [Slot.ofKey, closing]
  · rw [hslots, List.mem_cons, List.mem_cons] at hs
    rcases hs with rfl | rfl | hs
    · cases hzone.symm.trans (hleft s (by simp))
    · cases hzone.symm.trans (hleft s (by simp))
    · exact hs
  · have ht : t ∈ g₃.slots := ht
    rw [hslots₃, hslots₂, List.append_assoc, List.mem_append] at ht
    show _ ∧ t.key.time.value ≤ g₃.maxTime.value
    rw [hlast]
    rcases ht with ht | ht
    · exact hopened.stamped t ht ht'
    · simp only [List.singleton_append, List.mem_cons, List.not_mem_nil, or_false] at ht
      rcases ht with rfl | rfl <;> cases ht'

/-! ### Framed grids -/

namespace Framed

variable {last : Fraction}

omit [Scalar α] in
/-- What the slots are, but for positions and footprints, decides what stands around the content. -/
theorem of_outline (h : g.Framed last) (houtline : g'.outline = g.outline) : g'.Framed last where
  sorted := sorted_of_outline houtline h.sorted
  outline := houtline ▸ h.outline
  stamped s hs hs' := by
    have hmem := List.mem_map_of_mem (f := fun s : Slot α => (s.key, s.timestampOnly)) hs
    rw [← MeasureGrid.outline, houtline] at hmem
    obtain ⟨s₀, hs₀, heq⟩ := List.mem_map.1 hmem
    obtain ⟨hkey, hstamp⟩ := Prod.mk.inj heq
    rw [← hkey]
    exact h.stamped s₀ hs₀ (hstamp.trans hs')
  length := h.length

omit [Scalar α] in
/-- A slot opens the measure, is one of the content, or closes the measure. -/
theorem cases (h : g.Framed last) {s : Slot α} (hs : s ∈ g.slots) :
    (s.key.zone = .left ∧ s.key.time = 0 ∧ s.timestampOnly = false) ∨ s.key.zone = .content ∨
      (s.key.zone = .right ∧ s.key.time = last ∧ s.timestampOnly = false) := by
  obtain ⟨inner, houtline, hinner, -⟩ := h.outline
  have hmem := List.mem_map_of_mem (f := fun s : Slot α => (s.key, s.timestampOnly)) hs
  rw [← MeasureGrid.outline, houtline, List.mem_append, List.mem_append] at hmem
  rcases hmem with (hmem | hmem) | hmem
  · simp only [opening, List.mem_cons, Prod.mk.injEq, List.not_mem_nil, or_false] at hmem
    rcases hmem with ⟨hkey, hdrawn⟩ | ⟨hkey, hdrawn⟩ <;> exact .inl ⟨hkey ▸ rfl, hkey ▸ rfl, hdrawn⟩
  · exact .inr (.inl (hinner _ hmem))
  · simp only [closing, List.mem_cons, Prod.mk.injEq, List.not_mem_nil, or_false] at hmem
    rcases hmem with ⟨hkey, hdrawn⟩ | ⟨hkey, hdrawn⟩ <;>
      exact .inr (.inr ⟨hkey ▸ rfl, hkey ▸ rfl, hdrawn⟩)

omit [Scalar α] in
/-- A slot for a control element only is no earlier than the slots before it, and no later than those
behind it. -/
theorem time_le (h : g.Framed last) {s t : Slot α} (hs : s ∈ g.slots) (ht : t ∈ g.slots)
    (hplace : s.key.place < t.key.place) (hstamp : s.timestampOnly ∨ t.timestampOnly) :
    s.key.time.value ≤ t.key.time.value := by
  have hzone {u : Slot α} (hu : u ∈ g.slots) (hstamp : u.timestampOnly) :
      u.key.zone = .content := by
    rcases h.cases hu with ⟨-, -, hdrawn⟩ | hzone | ⟨-, -, hdrawn⟩
    · cases hstamp.symm.trans hdrawn
    · exact hzone
    · cases hstamp.symm.trans hdrawn
  rw [SlotKey.place, SlotKey.place, Prod.Lex.toLex_lt_toLex] at hplace
  rcases hplace with hrank | ⟨-, hplace⟩
  · rcases hstamp with hstamp | hstamp
    · have hbounds := h.stamped s hs hstamp
      rcases h.cases ht with ⟨hleft, -⟩ | hcontent | ⟨-, hend, -⟩
      · simp [hzone hs hstamp, hleft, Zone.rank] at hrank
      · simp [hzone hs hstamp, hcontent] at hrank
      · rw [hend]
        exact hbounds.2
    · have hbounds := h.stamped t ht hstamp
      rcases h.cases hs with ⟨-, hstart, -⟩ | hcontent | ⟨hright, -⟩
      · rw [hstart, Fraction.value_zero]
        exact hbounds.1
      · simp [hzone ht hstamp, hcontent] at hrank
      · simp [hzone ht hstamp, hright, Zone.rank] at hrank
  · rw [Prod.Lex.toLex_lt_toLex] at hplace
    exact hplace.elim le_of_lt fun h => h.1.le

end Framed

end MeasureGrid

end ScoreLayout
