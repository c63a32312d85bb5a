import ScoreLayout.Proofs.Exact
import ScoreLayout.Proofs.Grid.Alike
import ScoreLayout.Proofs.Grid.Placing

/-!
# What a time grid has been asked for

A time grid is an ordered map from keys to slots, kept as a list. Whatever calls it has answered, its
slots tell exactly what these calls have asked for since the grid was last empty: the keys, whether a
symbol is drawn at each, and the footprints in the order in which they came. Once the grid has
positions, its drawn slots stand at the running sums of its gaps.

## Main definitions

* `GridCall`, `MeasureGrid.call` — a call that changes a grid.
* `Requests`, `Requests.add` — what calls have asked for.
* `MeasureGrid.Keeps` — a grid that holds what it has been asked for, and nothing else.

## Main results

* `MeasureGrid.Holds.call` — one call.
* `MeasureGrid.keeps_callAll` — any calls, from an empty grid on.
-/

namespace ScoreLayout

variable {α : Type}

/-- A call that changes a time grid. -/
inductive GridCall (α : Type) where
  | reset
  | begin
  | slot (key : SlotKey)
  | timestampSlot (time : Fraction)
  | addFootprint (key : SlotKey) (staff : UInt32) (rect : Rect α)
  | extend (time : Fraction)
  | finish
  | space (p : Spacing α)
  | applyGaps (gaps : List (Gap α))
  | stretch (extra : α)

/-- What a time grid has been asked for since it was last empty. -/
structure Requests (α : Type) where
  /-- The keys that something is drawn at. -/
  drawn : List SlotKey
  /-- The times of control elements. -/
  stamped : List Fraction
  /-- The footprints that are not empty, each under a key that had been asked for. -/
  footprints : List (SlotKey × Footprint α)
  /-- The length asked for. -/
  length : Fraction

namespace Requests

/-- Nothing asked for. -/
def none : Requests α := ⟨[], [], [], 0⟩

/-- Whether something is to be drawn at a key. -/
def Draws (r : Requests α) (key : SlotKey) : Prop := ∃ k ∈ r.drawn, k.Same key

/-- Whether a key has been asked for. -/
def Asks (r : Requests α) (key : SlotKey) : Prop :=
  r.Draws key ∨ ∃ time ∈ r.stamped, (SlotKey.ofKind time .event).Same key

instance (r : Requests α) (key : SlotKey) : Decidable (r.Draws key) :=
  inferInstanceAs (Decidable (∃ k ∈ r.drawn, k.Same key))

instance (r : Requests α) (key : SlotKey) : Decidable (r.Asks key) :=
  inferInstanceAs (Decidable (_ ∨ ∃ time ∈ r.stamped, (SlotKey.ofKind time .event).Same key))

/-- The footprints under a key. -/
def footprintsAt (r : Requests α) (key : SlotKey) : List (Footprint α) :=
  (r.footprints.filter fun f => f.1.Same key).map Prod.snd

/-- Further keys that something is drawn at. -/
def draw (r : Requests α) (keys : List SlotKey) : Requests α := { r with drawn := r.drawn ++ keys }

/-- The keys that closing a grid asks for: one of the content if there is none yet, and those at the
end of the measure. -/
def closing (r : Requests α) : List SlotKey :=
  (if ∃ k ∈ r.drawn, k.zone = .content then [] else [.ofKind 0 .event]) ++
    [.ofKind r.length .rightBarLine, .ofKind r.length .measureEnd]

variable [Scalar α]

/-- What has been asked for after one more call. -/
def add (r : Requests α) : GridCall α → Requests α
  | .reset => none
  | .begin => r.draw [.ofKind 0 .measureStart, .ofKind 0 .leftBarLine]
  | .slot key => r.draw [key]
  | .timestampSlot time => { r with stamped := r.stamped ++ [time] }
  | .addFootprint key staff rect =>
    if rect.IsEmpty ∨ ¬ r.Asks key then r
    else { r with footprints := r.footprints ++ [(key, ⟨staff, rect⟩)] }
  | .extend time => { r with length := r.length.max time }
  | .finish => r.draw r.closing
  | .space _ | .applyGaps _ | .stretch _ => r

end Requests

namespace MeasureGrid

variable [Scalar α]

/-- The grid after a call. -/
def call (g : MeasureGrid α) : GridCall α → Except GridFault (MeasureGrid α)
  | .reset => .ok .empty
  | .begin => g.begin
  | .slot key => g.slot key
  | .timestampSlot time => g.timestampSlot time
  | .addFootprint key staff rect => .ok (g.addFootprint key staff rect)
  | .extend time => .ok (g.extend time)
  | .finish => g.finish
  | .space p => g.space p
  | .applyGaps gaps => g.applyGaps gaps
  | .stretch extra => g.stretch extra

/-- A grid that holds what it has been asked for, and nothing else. -/
structure Keeps (g : MeasureGrid α) (r : Requests α) : Prop where
  /-- The slots stand in strict order, so that no two are of one key. -/
  sorted : g.Sorted
  /-- A key has a slot exactly if it has been asked for. -/
  isSome_get? : ∀ key, (g.get? key).isSome ↔ r.Asks key
  /-- Every slot is found under its key. -/
  get? : ∀ s ∈ g.slots, ∀ key, s.key.Same key → g.get? key = some s ∧ g.xOf? key = some s.x
  /-- A slot is for control elements only exactly if nothing is to be drawn at its key. -/
  timestampOnly : ∀ s ∈ g.slots, s.timestampOnly ↔ ¬ r.Draws s.key
  footprints : ∀ s ∈ g.slots, s.footprints = r.footprintsAt s.key
  maxTime : g.maxTime = r.length
  /-- Once the grid has positions, there is a gap between any two drawn slots that follow each
  other. -/
  gaps : g.positioned → g.gaps.length + 1 = g.drawnSlots.length
  /-- Drawn slots stand at the running sums of the gaps. -/
  positions : g.positioned →
    g.drawnSlots.map Slot.x = (g.gaps.map Gap.width).scanl (· + ·) 0
  /-- The measure is as wide as all gaps together. -/
  width : g.positioned → g.width = Scalar.sum (g.gaps.map Gap.width)

/-! ### Footprints -/

section Footprints

variable {g g' : MeasureGrid α} {key key' : SlotKey}

instance : Decidable (g.HasSlot key) :=
  inferInstanceAs (Decidable (∃ s ∈ g.slots, s.key.Same key))

omit [Scalar α] in
/-- The footprints in the slot of a key. -/
def footprintsAt (g : MeasureGrid α) (key : SlotKey) : List (Footprint α) :=
  ((g.get? key).map Slot.footprints).getD []

omit [Scalar α] in
theorem get?_eq_none (h : ¬ g.HasSlot key) : g.get? key = none :=
  List.find?_eq_none.2 fun s hs hsame => h ⟨s, hs, of_decide_eq_true hsame⟩

omit [Scalar α] in
theorem Sorted.footprintsAt (hg : g.Sorted) {s : Slot α} (hs : s ∈ g.slots) (h : s.key.Same key) :
    g.footprintsAt key = s.footprints := by
  rw [MeasureGrid.footprintsAt, hg.get?_eq hs h, Option.map_some, Option.getD_some]

omit [Scalar α] in
theorem footprintsAt_of_not_hasSlot (h : ¬ g.HasSlot key) : g.footprintsAt key = [] := by
  rw [MeasureGrid.footprintsAt, get?_eq_none h]
  rfl

/-- A key that has a slot gets no second one. -/
theorem insertSlot_of_hasSlot {slots : List (Slot α)} {timestampOnly : Bool}
    (hsorted : slots.Pairwise fun s t => s.key.place < t.key.place)
    (h : ∃ s ∈ slots, s.key.Same key) : insertSlot key timestampOnly slots = slots := by
  induction slots with
  | nil => simp at h
  | cons s rest ih =>
    rw [List.pairwise_cons] at hsorted
    obtain ⟨t, ht, hsame⟩ := h
    rw [insertSlot]
    split
    · rename_i hlt
      rcases List.mem_cons.1 ht with rfl | ht
      · exact absurd (SlotKey.same_iff_place.1 hsame) (SlotKey.compare_eq_lt_iff.1 hlt).ne
      · rw [ih hsorted.2 ⟨t, ht, hsame⟩]
    · rfl
    · rename_i hgt
      have hplace := SlotKey.compare_eq_gt_iff.1 hgt
      rw [← SlotKey.same_iff_place.1 hsame] at hplace
      rcases List.mem_cons.1 ht with rfl | ht
      · exact absurd hplace (lt_irrefl _)
      · exact absurd hplace (hsorted.1 t ht).not_gt

/-- Slots for a further key: those that have been there, and a new one if the key had none. -/
theorem mem_insertSlot_cases (hg : g.Sorted) {timestampOnly : Bool} {s : Slot α}
    (hs : s ∈ insertSlot key timestampOnly g.slots) :
    s ∈ g.slots ∨ ¬ g.HasSlot key ∧ s = .ofKey key timestampOnly := by
  by_cases hkey : g.HasSlot key
  · rw [insertSlot_of_hasSlot hg hkey] at hs
    exact .inl hs
  · exact (mem_insertSlot hs).imp_right fun h => ⟨hkey, h⟩

omit [Scalar α] in
/-- A new slot has no footprints, and the others keep theirs. -/
theorem footprintsAt_eq (hg : g.Sorted) (hg' : g'.Sorted)
    (hslots : ∀ s' ∈ g'.slots, (∃ s ∈ g.slots, s.key = s'.key ∧ s.footprints = s'.footprints) ∨
      ¬ g.HasSlot s'.key ∧ s'.footprints = [])
    (hhas : ∀ key, g.HasSlot key → g'.HasSlot key) (key : SlotKey) :
    g'.footprintsAt key = g.footprintsAt key := by
  by_cases hkey : g'.HasSlot key
  · obtain ⟨s', hs', hsame⟩ := hkey
    rw [hg'.footprintsAt hs' hsame]
    rcases hslots s' hs' with ⟨s, hs, hskey, hfeet⟩ | ⟨hnew, hfeet⟩
    · rw [hg.footprintsAt hs (hskey ▸ hsame), hfeet]
    · rw [footprintsAt_of_not_hasSlot fun h => hnew (h.of_same hsame.symm), hfeet]
  · rw [footprintsAt_of_not_hasSlot hkey, footprintsAt_of_not_hasSlot fun h => hkey (hhas key h)]

theorem footprintsAt_slot (hg : g.Sorted) (hok : g.slot key = .ok g') (key' : SlotKey) :
    g'.footprintsAt key' = g.footprintsAt key' := by
  refine footprintsAt_eq hg ((grows_slot hok).1.sorted hg) (fun s' hs' => ?_)
    (fun k hk => (hasSlot_slot_iff hok).2 (.inl hk)) key'
  rw [MeasureGrid.slot] at hok
  split_ifs at hok
  obtain rfl := Except.ok.inj hok
  obtain ⟨s, hs, rfl⟩ := List.mem_map.1 hs'
  have hclaim : (if s.key.compare key = .eq then { s with timestampOnly := false } else s).key =
      s.key ∧ (if s.key.compare key = .eq then { s with timestampOnly := false } else s).footprints =
        s.footprints := by
    split_ifs <;> exact ⟨rfl, rfl⟩
  rw [hclaim.1, hclaim.2]
  rcases mem_insertSlot_cases hg hs with hs | ⟨hnew, rfl⟩
  · exact .inl ⟨s, hs, rfl, rfl⟩
  · exact .inr ⟨hnew, rfl⟩

theorem footprintsAt_timestampSlot (hg : g.Sorted) {time : Fraction}
    (hok : g.timestampSlot time = .ok g') (key' : SlotKey) :
    g'.footprintsAt key' = g.footprintsAt key' := by
  refine footprintsAt_eq hg ((grows_timestampSlot hok).sorted hg) (fun s hs => ?_)
    (fun k hk => (hasSlot_timestampSlot_iff hok).2 (.inl hk)) key'
  rw [MeasureGrid.timestampSlot] at hok
  split_ifs at hok
  · obtain rfl := Except.ok.inj hok
    exact .inl ⟨s, hs, rfl, rfl⟩
  · obtain rfl := Except.ok.inj hok
    rcases mem_insertSlot_cases hg hs with hs | ⟨hnew, rfl⟩
    · exact .inl ⟨s, hs, rfl, rfl⟩
    · exact .inr ⟨hnew, rfl⟩

/-- A footprint that is not empty comes last among those of its slot. -/
theorem footprintsAt_addFootprint (g : MeasureGrid α) (key : SlotKey) (staff : UInt32)
    {rect : Rect α} (hrect : ¬ rect.IsEmpty) (key' : SlotKey) :
    (g.addFootprint key staff rect).footprintsAt key' =
      g.footprintsAt key' ++ if g.HasSlot key' ∧ key.Same key' then [⟨staff, rect⟩] else [] := by
  have hkeys (s : Slot α) : (if s.key.compare key = .eq
      then { s with footprints := s.footprints ++ [⟨staff, rect⟩] } else s).key = s.key := by
    split_ifs <;> rfl
  rw [footprintsAt, footprintsAt, addFootprint, if_neg hrect, MeasureGrid.get?, MeasureGrid.get?]
  dsimp only [modifySlot]
  rw [List.find?_map]
  simp only [Function.comp_def, hkeys]
  cases hfind : g.slots.find? fun s => s.key.compare key' = .eq with
  | none =>
    have hnone : ¬ g.HasSlot key' := by
      rintro ⟨s, hs, hsame⟩
      exact List.find?_eq_none.1 hfind s hs (decide_eq_true hsame)
    rw [if_neg fun h => hnone h.1]
    rfl
  | some s =>
    have hsame : s.key.Same key' := by simpa [SlotKey.Same] using List.find?_some hfind
    have hiff : g.HasSlot key' ∧ key.Same key' ↔ s.key.compare key = .eq :=
      ⟨fun h => hsame.trans h.2.symm,
        fun h => ⟨⟨s, List.mem_of_find?_eq_some hfind, hsame⟩, SlotKey.Same.trans (.symm h) hsame⟩⟩
    simp only [hiff, Option.map_some, Option.getD_some]
    split_ifs
    · rfl
    · rw [List.append_nil]

/-- Footprints are told from what the slots are without their positions. -/
theorem footprintsAt_of_unplaced
    (h : g'.slots.map Slot.unplaced = g.slots.map Slot.unplaced) (key : SlotKey) :
    g'.footprintsAt key = g.footprintsAt key := by
  have hfind (g : MeasureGrid α) : g.footprintsAt key =
      (((g.slots.map Slot.unplaced).find? fun s => s.key.compare key = .eq).map
        Slot.footprints).getD [] := by
    rw [List.find?_map, Option.map_map]
    rfl
  rw [hfind, hfind, h]

end Footprints

/-! ### Calls and requests -/

/-- What a grid and the requests to it share from call to call. -/
structure Holds (g : MeasureGrid α) (r : Requests α) : Prop where
  sorted : g.Sorted
  has : ∀ key, g.Has key ↔ r.Draws key
  hasSlot : ∀ key, g.HasSlot key ↔ r.Asks key
  footprints : ∀ key, g.footprintsAt key = r.footprintsAt key
  maxTime : g.maxTime = r.length
  /-- A closed grid ends with a drawn slot. -/
  last : g.state = .aligned → ∃ s, g.slots.getLast? = some s ∧ s.timestampOnly = false
  placed : g.positioned → g.state = .aligned ∧ g.Placed

section Calls

variable {g g' : MeasureGrid α} {r : Requests α} {key : SlotKey}

omit [Scalar α] in
theorem draws_draw_iff {keys : List SlotKey} :
    (r.draw keys).Draws key ↔ r.Draws key ∨ ∃ k ∈ keys, k.Same key := by
  simp only [Requests.Draws, Requests.draw, List.mem_append, or_and_right, exists_or]

omit [Scalar α] in
theorem asks_draw_iff {keys : List SlotKey} :
    (r.draw keys).Asks key ↔ r.Asks key ∨ ∃ k ∈ keys, k.Same key := by
  rw [Requests.Asks, draws_draw_iff, Requests.Asks, or_right_comm]
  rfl

omit [Scalar α] in
theorem draw_draw (r : Requests α) (keys keys' : List SlotKey) :
    (r.draw keys).draw keys' = r.draw (keys ++ keys') := by
  simp only [Requests.draw, List.append_assoc]

theorem holds_empty : (empty : MeasureGrid α).Holds .none where
  sorted := .nil
  has key := by simp [Has, empty, Requests.Draws, Requests.none]
  hasSlot key := by simp [HasSlot, empty, Requests.Asks, Requests.Draws, Requests.none]
  footprints key := rfl
  maxTime := rfl
  last h := by cases h
  placed h := by cases h

omit [Scalar α] in
theorem hasSlot_iff_outline : g.HasSlot key ↔ ∃ s ∈ g.outline, s.1.Same key := by
  simp only [outline, List.mem_map, exists_exists_and_eq_and, HasSlot]

namespace Holds

/-- Moving the slots of a grid. -/
theorem of_unplaced (h : g.Holds r) (hslots : g'.slots.map Slot.unplaced = g.slots.map Slot.unplaced)
    (hstate : g'.state = g.state) (hmaxTime : g'.maxTime = g.maxTime)
    (hplaced : g'.positioned → g'.state = .aligned ∧ g'.Placed) : g'.Holds r where
  sorted := sorted_of_outline (outline_of_unplaced hslots) h.sorted
  has key := by rw [has_iff_outline, outline_of_unplaced hslots, ← has_iff_outline, h.has]
  hasSlot key := by
    rw [hasSlot_iff_outline, outline_of_unplaced hslots, ← hasSlot_iff_outline, h.hasSlot]
  footprints key := by rw [footprintsAt_of_unplaced hslots, h.footprints]
  maxTime := hmaxTime.trans h.maxTime
  last ha := by
    obtain ⟨s, hs, hdrawn⟩ := h.last (hstate ▸ ha)
    have hlast := congrArg List.getLast? hslots
    rw [List.getLast?_map, List.getLast?_map, hs] at hlast
    obtain ⟨s', hs', heq⟩ := Option.map_eq_some_iff.1 hlast
    exact ⟨s', hs', (congrArg Slot.timestampOnly heq).trans hdrawn⟩
  placed := hplaced

/-- Asking for a slot. -/
theorem slot (h : g.Holds r) (hok : g.slot key = .ok g') :
    g'.Holds (r.draw [key]) ∧ g.state = .collecting ∧ g'.state = .collecting := by
  obtain ⟨hstate, hstate', hmaxTime, hpositioned⟩ : g.state = .collecting ∧ g'.state = g.state ∧
      g'.maxTime = g.maxTime ∧ g'.positioned = g.positioned := by
    rw [MeasureGrid.slot] at hok
    split_ifs at hok with hstate
    obtain rfl := Except.ok.inj hok
    exact ⟨hstate, rfl, rfl, rfl⟩
  refine ⟨⟨(grows_slot hok).1.sorted h.sorted, fun k => ?_, fun k => ?_, fun k => ?_,
    hmaxTime.trans h.maxTime, fun ha => ?_, fun hp => ?_⟩, hstate, hstate'.trans hstate⟩
  · rw [has_slot_iff hok, draws_draw_iff, h.has]
    simp
  · rw [hasSlot_slot_iff hok, asks_draw_iff, h.hasSlot]
    simp
  · rw [footprintsAt_slot h.sorted hok, h.footprints]
    rfl
  · rw [hstate', hstate] at ha
    cases ha
  · have ha := (h.placed (hpositioned ▸ hp)).1
    rw [hstate] at ha
    cases ha

theorem begin (h : g.Holds r) (hok : g.begin = .ok g') :
    g'.Holds (r.draw [.ofKind 0 .measureStart, .ofKind 0 .leftBarLine]) := by
  rw [MeasureGrid.begin] at hok
  split_ifs at hok with hstate
  obtain ⟨g₁, hg₁, hok⟩ := except_bind_eq_ok.1 hok
  have hopen : Holds { g with state := .collecting } r :=
    { h with
      last := fun ha => by cases ha
      placed := fun hp => by
        have ha := (h.placed hp).1
        rw [hstate] at ha
        cases ha }
  have h₂ := ((hopen.slot hg₁).1.slot hok).1
  rwa [draw_draw] at h₂

theorem timestampSlot (h : g.Holds r) {time : Fraction} (hok : g.timestampSlot time = .ok g') :
    g'.Holds { r with stamped := r.stamped ++ [time] } := by
  have hsorted := (grows_timestampSlot hok).sorted h.sorted
  have hhas (k : SlotKey) : g'.Has k ↔ g.Has k := has_timestampSlot_iff hok
  have hhasSlot (k : SlotKey) : g'.HasSlot k ↔
      Requests.Asks { r with stamped := r.stamped ++ [time] } k := by
    rw [hasSlot_timestampSlot_iff hok, h.hasSlot, Requests.Asks, Requests.Asks, or_assoc]
    simp only [List.mem_append, List.mem_singleton, or_and_right, exists_or, exists_eq_left]
    rfl
  have hfootprints (k : SlotKey) := footprintsAt_timestampSlot h.sorted hok k
  rw [MeasureGrid.timestampSlot] at hok
  split_ifs at hok with hget hstate
  · obtain rfl := Except.ok.inj hok
    exact ⟨hsorted, h.has, hhasSlot, h.footprints, h.maxTime, h.last, h.placed⟩
  · obtain rfl := Except.ok.inj hok
    refine ⟨hsorted, fun k => (hhas k).trans (h.has k), hhasSlot,
      fun k => (hfootprints k).trans (h.footprints k), h.maxTime, fun ha => ?_, fun hp => ?_⟩
    · cases hstate.symm.trans ha
    · cases hstate.symm.trans (h.placed hp).1

theorem addFootprint (h : g.Holds r) (key : SlotKey) (staff : UInt32) (rect : Rect α) :
    (g.addFootprint key staff rect).Holds (r.add (.addFootprint key staff rect)) := by
  rw [Requests.add]
  by_cases hrect : rect.IsEmpty
  · rw [if_pos (.inl hrect), MeasureGrid.addFootprint, if_pos hrect]
    exact h
  have houtline := g.outline_addFootprint key staff rect
  have hslots : (g.addFootprint key staff rect).slots.map (fun s => (s.x, s.timestampOnly)) =
      g.slots.map fun s => (s.x, s.timestampOnly) := by
    rw [MeasureGrid.addFootprint, if_neg hrect]
    dsimp only [modifySlot]
    rw [List.map_map]
    refine List.map_congr_left fun s _ => ?_
    rw [Function.comp_apply]
    split_ifs <;> rfl
  have hlast : (g.addFootprint key staff rect).slots.getLast?.map Slot.timestampOnly =
      g.slots.getLast?.map Slot.timestampOnly := by
    have hflag (slots : List (Slot α)) : slots.getLast?.map Slot.timestampOnly =
        (slots.map fun s => (s.x, s.timestampOnly)).getLast?.map Prod.snd := by
      rw [List.getLast?_map, Option.map_map]
      rfl
    rw [hflag, hflag, hslots]
  have hdrawn : (g.addFootprint key staff rect).drawnSlots.map Slot.x =
      g.drawnSlots.map Slot.x := by
    have hpairs (g : MeasureGrid α) : g.drawnSlots.map Slot.x =
        ((g.slots.map fun s => (s.x, s.timestampOnly)).filter fun p => ¬ p.2).map Prod.fst := by
      rw [List.filter_map, List.map_map]
      rfl
    rw [hpairs, hpairs, hslots]
  have hrest : (g.addFootprint key staff rect).state = g.state ∧
      (g.addFootprint key staff rect).positioned = g.positioned ∧
      (g.addFootprint key staff rect).gaps = g.gaps := by
    rw [MeasureGrid.addFootprint, if_neg hrect]
    exact ⟨rfl, rfl, rfl⟩
  have hadded : ∀ r' : Requests α, r'.drawn = r.drawn → r'.stamped = r.stamped →
      r'.length = r.length →
      (∀ k, (g.addFootprint key staff rect).footprintsAt k = r'.footprintsAt k) →
        (g.addFootprint key staff rect).Holds r' := by
    intro r' hdraws hstamps hlength hfootprints
    refine ⟨sorted_of_outline houtline h.sorted, fun k => ?_, fun k => ?_, hfootprints, ?_,
      fun ha => ?_, fun hp => ?_⟩
    · rw [has_iff_outline, houtline, ← has_iff_outline, h.has, Requests.Draws, Requests.Draws,
        hdraws]
    · rw [hasSlot_iff_outline, houtline, ← hasSlot_iff_outline, h.hasSlot, Requests.Asks,
        Requests.Asks, Requests.Draws, Requests.Draws, hdraws, hstamps]
    · rw [maxTime_addFootprint, h.maxTime, hlength]
    · obtain ⟨s, hs, hdrawn⟩ := h.last (hrest.1 ▸ ha)
      rw [hs, Option.map_some, hdrawn] at hlast
      exact Option.map_eq_some_iff.1 hlast
    · obtain ⟨ha, hplaced⟩ := h.placed (hrest.2.1 ▸ hp)
      refine ⟨hrest.1.trans ha, ?_, ?_⟩
      · rw [hrest.2.2, hplaced.gaps, ← List.length_map Slot.x, ← hdrawn, List.length_map]
      · rw [hdrawn, hrest.2.2, hplaced.positions]
  by_cases hasks : r.Asks key
  · rw [if_neg fun h => h.elim hrect fun h => h hasks]
    refine hadded _ rfl rfl rfl fun k => ?_
    have hiff : g.HasSlot k ∧ key.Same k ↔ key.Same k :=
      ⟨And.right, fun hsame => ⟨((h.hasSlot key).2 hasks).of_same hsame, hsame⟩⟩
    rw [g.footprintsAt_addFootprint key staff hrect, h.footprints]
    simp only [hiff, Requests.footprintsAt, List.filter_append, List.map_append]
    split_ifs with hsame
    · rw [List.filter_cons_of_pos (by simpa using hsame)]
      rfl
    · rw [List.filter_cons_of_neg (by simpa using hsame)]
      rfl
  · rw [if_pos (.inr hasks)]
    refine hadded r rfl rfl rfl fun k => ?_
    rw [g.footprintsAt_addFootprint key staff hrect, h.footprints, if_neg, List.append_nil]
    exact fun hk => hasks ((h.hasSlot key).1 (hk.1.of_same hk.2.symm))

omit [Scalar α] in
theorem extend [Scalar α] (h : g.Holds r) (time : Fraction) :
    (g.extend time).Holds { r with length := r.length.max time } where
  sorted := h.sorted
  has := h.has
  hasSlot := h.hasSlot
  footprints := h.footprints
  maxTime := congrArg (Fraction.max · time) h.maxTime
  last := h.last
  placed hp := ⟨(h.placed hp).1, (h.placed hp).2.gaps, (h.placed hp).2.positions⟩

/-- A grid ends with a drawn slot once the end of the measure has been asked for. -/
theorem exists_last (h : g.Holds r) {time : Fraction} (hend : g.Has (.ofKind time .measureEnd)) :
    ∃ s, g.slots.getLast? = some s ∧ s.timestampOnly = false := by
  obtain ⟨t, ht, hsame, -⟩ := hend
  obtain ⟨s, hs⟩ : ∃ s, g.slots.getLast? = some s :=
    ⟨_, List.getLast?_eq_some_getLast (List.ne_nil_of_mem ht)⟩
  obtain ⟨front, hslots⟩ := List.getLast?_eq_some_iff.1 hs
  have hmem : s ∈ g.slots := hslots ▸ List.mem_append_right _ List.mem_cons_self
  -- the last slot belongs to the end of the measure, where no control element has its slot
  have hplace : t.key.place ≤ s.key.place := by
    have hsorted := h.sorted
    rw [Sorted, hslots, List.pairwise_append] at hsorted
    rw [hslots] at ht
    rcases List.mem_append.1 ht with ht | ht
    · exact (hsorted.2.2 t ht s List.mem_cons_self).le
    · exact List.mem_singleton.1 ht ▸ le_rfl
  have hzone : 2 ≤ s.key.zone.rank := by
    have hrank : t.key.zone.rank ≤ s.key.zone.rank :=
      (Prod.Lex.le_iff.1 hplace).elim le_of_lt fun h => h.1.le
    rwa [SlotKey.zone_of_compare_eq hsame] at hrank
  refine ⟨s, hs, ?_⟩
  by_contra hstamp
  have hdraws := mt (h.has s.key).2 (mt (h.sorted.has_iff hmem).1 hstamp)
  obtain ⟨time, -, hevent⟩ := ((h.hasSlot s.key).1 ⟨s, hmem, SlotKey.same_iff_place.2 rfl⟩).resolve_left
    hdraws
  rw [← SlotKey.zone_of_compare_eq hevent] at hzone
  exact absurd hzone (Nat.not_succ_le_self 1)

/-- Closing a grid. -/
theorem finish (h : g.Holds r) (hok : g.finish = .ok g') : g'.Holds (r.draw r.closing) := by
  have hcontent : g.hasContent ↔ ∃ k ∈ r.drawn, k.zone = .content := by
    rw [hasContent_iff]
    simp only [h.has]
    constructor
    · rintro ⟨key, hzone, k, hk, hsame⟩
      exact ⟨k, hk, (SlotKey.zone_of_compare_eq hsame).trans hzone⟩
    · rintro ⟨k, hk, hzone⟩
      exact ⟨k, hzone, k, hk, SlotKey.same_iff_place.2 rfl⟩
  obtain ⟨g₁, keys, h₁, hclosing, hok⟩ : ∃ (g₁ : MeasureGrid α) (keys : List SlotKey),
      g₁.Holds (r.draw keys) ∧
      r.closing = keys ++ [.ofKind r.length .rightBarLine, .ofKind r.length .measureEnd] ∧
      (do let g₂ ← g₁.slot (.ofKind g₁.maxTime .rightBarLine)
          let g₃ ← g₂.slot (.ofKind g₂.maxTime .measureEnd)
          return { g₃ with state := .aligned }) = Except.ok g' := by
    rw [MeasureGrid.finish] at hok
    dsimp only at hok
    split_ifs at hok with hfull
    · refine ⟨g, [], ?_, by rw [Requests.closing, if_pos (hcontent.1 hfull)], hok⟩
      simpa only [Requests.draw, List.append_nil] using h
    · obtain ⟨g₁, hg₁, hok⟩ := except_bind_eq_ok.1 hok
      exact ⟨g₁, _, (h.slot hg₁).1, by rw [Requests.closing, if_neg (mt hcontent.2 hfull)], hok⟩
  obtain ⟨g₂, hg₂, hok⟩ := except_bind_eq_ok.1 hok
  obtain ⟨g₃, hg₃, hok⟩ := except_bind_eq_ok.1 hok
  obtain rfl := Except.ok.inj hok
  obtain ⟨h₂, -⟩ := h₁.slot hg₂
  obtain ⟨h₃, -, hstate⟩ := h₂.slot hg₃
  rw [h₁.maxTime, h₂.maxTime, draw_draw, draw_draw] at h₃
  have h₃ : g₃.Holds (r.draw r.closing) := hclosing ▸ h₃
  refine { h₃ with
    last := fun _ => h₃.exists_last (grows_slot hg₃).2
    placed := fun hp => ?_ }
  have ha := (h₃.placed hp).1
  rw [hstate] at ha
  cases ha

theorem space (h : g.Holds r) {p : Spacing α} (hok : g.space p = .ok g') : g'.Holds r := by
  have hstays := staysPut_space hok
  have hrest : g.state = .aligned ∧ g'.maxTime = g.maxTime := by
    rw [MeasureGrid.space] at hok
    split_ifs at hok with hstate
    obtain ⟨g₁, hplace, hok⟩ := except_bind_eq_ok.1 hok
    rw [place] at hplace
    split at hplace
    · obtain rfl := Except.ok.inj hplace
      exact ⟨hstate, Except.ok.inj hok ▸ rfl⟩
    · cases hplace
  obtain ⟨s, hs, hdrawn⟩ := h.last hrest.1
  refine h.of_unplaced (unplaced_space hok) hstays.state hrest.2 fun _ =>
    ⟨hstays.state.trans hrest.1, placed_space hok (List.ne_nil_of_mem (a := s) ?_)⟩
  exact List.mem_filter.2 ⟨List.mem_of_getLast? hs, by simpa using hdrawn⟩

theorem applyGaps (h : g.Holds r) {gaps : List (Gap α)} (hok : g.applyGaps gaps = .ok g') :
    g'.Holds r := by
  have hshape := sameShape_applyGaps hok
  have hmaxTime : g'.maxTime = g.maxTime := by
    rw [MeasureGrid.applyGaps] at hok
    split_ifs at hok
    rw [place] at hok
    split at hok
    · exact Except.ok.inj hok ▸ rfl
    · cases hok
  refine h.of_unplaced (unplaced_applyGaps hok) hshape.state hmaxTime fun hp => ?_
  obtain ⟨ha, hplaced⟩ := h.placed (hshape.positioned ▸ hp)
  exact ⟨hshape.state.trans ha, hplaced.applyGaps hok⟩

/-- What a call asks for is added to what a grid holds. -/
theorem call (h : g.Holds r) (c : GridCall α) (hok : g.call c = .ok g') : g'.Holds (r.add c) := by
  cases c with
  | reset => exact Except.ok.inj hok ▸ holds_empty
  | begin => exact h.begin hok
  | slot key => exact (h.slot hok).1
  | timestampSlot time => exact h.timestampSlot hok
  | addFootprint key staff rect => exact Except.ok.inj hok ▸ h.addFootprint key staff rect
  | extend time => exact Except.ok.inj hok ▸ h.extend time
  | finish => exact h.finish hok
  | space p => exact h.space hok
  | applyGaps gaps => exact h.applyGaps hok
  | stretch extra => exact h.applyGaps hok

theorem keeps (h : g.Holds r) : g.Keeps r where
  sorted := h.sorted
  isSome_get? key := by
    rw [← h.hasSlot, MeasureGrid.get?, List.find?_isSome]
    constructor
    · rintro ⟨s, hs, hsame⟩
      exact ⟨s, hs, by simpa [SlotKey.Same] using hsame⟩
    · rintro ⟨s, hs, hsame⟩
      exact ⟨s, hs, by simpa [SlotKey.Same] using hsame⟩
  get? s hs key hsame := by
    have hget := h.sorted.get?_eq hs hsame
    exact ⟨hget, by rw [xOf?, hget, Option.map_some]⟩
  timestampOnly s hs := by
    rw [← h.has, h.sorted.has_iff hs, Bool.not_eq_false]
  footprints s hs := by
    rw [← h.footprints, h.sorted.footprintsAt hs (SlotKey.same_iff_place.2 rfl)]
  maxTime := h.maxTime
  gaps hp := (h.placed hp).2.gaps
  positions hp := (h.placed hp).2.positions
  width hp := by
    obtain ⟨ha, hplaced⟩ := h.placed hp
    obtain ⟨s, hs, hdrawn⟩ := h.last ha
    exact hplaced.width hs hdrawn

end Holds

end Calls

end MeasureGrid

end ScoreLayout
