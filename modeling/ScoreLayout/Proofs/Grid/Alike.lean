import Mathlib.Data.List.Sort
import ScoreLayout.Proofs.Grid.Order

/-!
# Time grids with the same slots

The slots of a time grid stand in the order of their keys, so a grid does not tell in which order it
has been asked for them.

## Main definitions

* `MeasureGrid.HasSlot` — whether a key has a slot.
* `MeasureGrid.Matches` — two grids that have been asked for the same.
* `MeasureGrid.Alike` — two grids with the same slots.

## Main results

* `MeasureGrid.Matches.alike` — grids that have been asked for the same have the same slots.
* `MeasureGrid.Matches.finish` — closing two such grids.
-/

namespace ScoreLayout

variable {α : Type}

/-- Two slots of one key, for control elements only or not. -/
structure Slot.Alike (s s' : Slot α) : Prop where
  key : s.key.Same s'.key
  timestampOnly : s'.timestampOnly = s.timestampOnly

namespace MeasureGrid

/-- Whether a key has a slot. -/
def HasSlot (g : MeasureGrid α) (key : SlotKey) : Prop := ∃ s ∈ g.slots, s.key.Same key

/-- Whether something is drawn at every slot. -/
def AllDrawn (g : MeasureGrid α) : Prop := ∀ s ∈ g.slots, s.timestampOnly = false

/-- Two grids of one length with the same slots in the same order. -/
structure Alike (g g' : MeasureGrid α) : Prop where
  maxTime : g.maxTime.Same g'.maxTime
  slots : List.Forall₂ Slot.Alike g.slots g'.slots

/-- Two grids that have been asked for the same. -/
structure Matches (g g' : MeasureGrid α) : Prop where
  sorted : g.Sorted
  sorted' : g'.Sorted
  state : g'.state = g.state
  maxTime : g.maxTime.Same g'.maxTime
  has : ∀ key, g.Has key ↔ g'.Has key
  hasSlot : ∀ key, g.HasSlot key ↔ g'.HasSlot key

variable {g g' : MeasureGrid α} {key key' : SlotKey}

theorem AllDrawn.hasSlot_iff (h : g.AllDrawn) : g.HasSlot key ↔ g.Has key :=
  ⟨fun ⟨s, hs, hkey⟩ => ⟨s, hs, hkey, h s hs⟩, fun ⟨s, hs, hkey, _⟩ => ⟨s, hs, hkey⟩⟩

theorem HasSlot.of_same (h : g.HasSlot key) (hkeys : key.Same key') : g.HasSlot key' := by
  obtain ⟨s, hs, hsame⟩ := h
  exact ⟨s, hs, hsame.trans hkeys⟩

/-- In a sorted grid a slot is drawn if its key is. -/
theorem Sorted.has_iff (hg : g.Sorted) {s : Slot α} (hs : s ∈ g.slots) :
    g.Has s.key ↔ s.timestampOnly = false := by
  refine ⟨fun ⟨t, ht, hkey, hdrawn⟩ => ?_, fun h => ⟨s, hs, SlotKey.same_iff_place.2 rfl, h⟩⟩
  rwa [← hg.eq_of_same ht hs hkey]

/-- Grids that have been asked for the same have the same slots. -/
theorem Matches.alike (h : g.Matches g') : g.Alike g' := by
  have hplaces : g.slots.map (fun s => s.key.place) = g'.slots.map fun s => s.key.place := by
    have hsorted {g : MeasureGrid α} (hg : g.Sorted) :
        (g.slots.map fun s => s.key.place).Pairwise (· < ·) := List.pairwise_map.2 hg
    refine (hsorted h.sorted).eq_of_mem_iff (hsorted h.sorted') fun place => ?_
    have hmem {g g' : MeasureGrid α} (h : ∀ key, g.HasSlot key → g'.HasSlot key) :
        place ∈ g.slots.map (fun s => s.key.place) → place ∈ g'.slots.map fun s => s.key.place := by
      rw [List.mem_map, List.mem_map]
      rintro ⟨s, hs, rfl⟩
      obtain ⟨t, ht, hkey⟩ := h s.key ⟨s, hs, SlotKey.same_iff_place.2 rfl⟩
      exact ⟨t, ht, SlotKey.same_iff_place.1 hkey⟩
    exact ⟨hmem fun key => (h.hasSlot key).1, hmem fun key => (h.hasSlot key).2⟩
  rw [← List.forall₂_eq_eq_eq, List.forall₂_map_left_iff, List.forall₂_map_right_iff] at hplaces
  have hmem := (List.forall₂_and_left _ _).2 ⟨fun s (hs : s ∈ g.slots) => hs, hplaces⟩
  have hmem' := (List.forall₂_and_left _ _).2 ⟨fun s (hs : s ∈ g'.slots) => hs, hmem.flip⟩
  refine ⟨h.maxTime, hmem'.flip.imp fun s s' ⟨hs', hs, hplace⟩ => ?_⟩
  have hkey := SlotKey.same_iff_place.2 hplace
  refine ⟨hkey, Bool.eq_iff_iff.2 ?_⟩
  rw [← not_iff_not, Bool.not_eq_true, Bool.not_eq_true, ← h.sorted.has_iff hs,
    ← h.sorted'.has_iff hs', h.has]
  exact ⟨fun h => h.of_same hkey.symm, fun h => h.of_same hkey⟩

variable [Scalar α]

/-! ### Asking for slots -/

/-- Asking for a slot draws that slot, and no other. -/
theorem has_slot_iff (hok : g.slot key = .ok g') :
    g'.Has key' ↔ g.Has key' ∨ key.Same key' := by
  constructor
  · rw [MeasureGrid.slot] at hok
    split_ifs at hok
    obtain rfl := Except.ok.inj hok
    rintro ⟨s', hs', hsame, hdrawn⟩
    obtain ⟨s, hs, rfl⟩ := List.mem_map.1 hs'
    split_ifs at hsame hdrawn with hkey
    · exact .inr ((show s.key.Same key from hkey).symm.trans hsame)
    · rcases mem_insertSlot hs with hs | rfl
      · exact .inl ⟨s, hs, hsame, hdrawn⟩
      · exact .inr hsame
  · obtain ⟨hgrows, hhas⟩ := grows_slot hok
    exact fun h => h.elim (hgrows.has key') hhas.of_same

theorem hasSlot_slot_iff (hok : g.slot key = .ok g') :
    g'.HasSlot key' ↔ g.HasSlot key' ∨ key.Same key' := by
  have hhas := grows_slot hok |>.2
  rw [MeasureGrid.slot] at hok
  split_ifs at hok
  obtain rfl := Except.ok.inj hok
  refine ⟨fun h => ?_, fun h => ?_⟩
  · obtain ⟨s', hs', hsame⟩ := h
    obtain ⟨s, hs, rfl⟩ := List.mem_map.1 hs'
    split_ifs at hsame with hkey
    · exact .inr ((show s.key.Same key from hkey).symm.trans hsame)
    · rcases mem_insertSlot hs with hs | rfl
      · exact .inl ⟨s, hs, hsame⟩
      · exact .inr hsame
  · rcases h with ⟨s, hs, hsame⟩ | hkeys
    · refine ⟨_, List.mem_map_of_mem (mem_insertSlot_of_mem hs), ?_⟩
      split_ifs <;> exact hsame
    · obtain ⟨s, hs, hsame, -⟩ := hhas.of_same hkeys
      exact ⟨s, hs, hsame⟩

theorem AllDrawn.slot (h : g.AllDrawn) (hok : g.slot key = .ok g') : g'.AllDrawn := by
  rw [MeasureGrid.slot] at hok
  split_ifs at hok
  obtain rfl := Except.ok.inj hok
  intro s' hs'
  obtain ⟨s, hs, rfl⟩ := List.mem_map.1 hs'
  split_ifs
  · rfl
  · rcases mem_insertSlot hs with hs | rfl
    · exact h s hs
    · rfl

theorem AllDrawn.addFootprint (h : g.AllDrawn) (key : SlotKey) (staff : UInt32) (rect : Rect α) :
    (g.addFootprint key staff rect).AllDrawn := by
  rw [MeasureGrid.addFootprint]
  split_ifs
  · exact h
  · intro s' hs'
    obtain ⟨s, hs, rfl⟩ := List.mem_map.1 hs'
    split_ifs <;> exact h s hs

theorem allDrawn_begin (hok : (empty : MeasureGrid α).begin = .ok g) : g.AllDrawn := by
  rw [begin_empty] at hok
  obtain rfl := Except.ok.inj hok
  intro s hs
  simp only [List.mem_cons, List.not_mem_nil, or_false] at hs
  rcases hs with rfl | rfl <;> rfl

/-- A slot for a control element draws nothing. -/
theorem has_timestampSlot_iff {time : Fraction} (hok : g.timestampSlot time = .ok g') :
    g'.Has key' ↔ g.Has key' := by
  refine ⟨fun ⟨s, hs, hsame, hdrawn⟩ => ?_, (grows_timestampSlot hok).has key'⟩
  rw [MeasureGrid.timestampSlot] at hok
  split_ifs at hok
  · exact Except.ok.inj hok ▸ ⟨s, hs, hsame, hdrawn⟩
  · obtain rfl := Except.ok.inj hok
    rcases mem_insertSlot hs with hs | rfl
    · exact ⟨s, hs, hsame, hdrawn⟩
    · cases hdrawn

theorem hasSlot_timestampSlot_iff {time : Fraction} (hok : g.timestampSlot time = .ok g') :
    g'.HasSlot key' ↔ g.HasSlot key' ∨ (SlotKey.ofKind time .event).Same key' := by
  rw [MeasureGrid.timestampSlot] at hok
  split_ifs at hok with hget
  · obtain rfl := Except.ok.inj hok
    obtain ⟨s, hs⟩ := Option.isSome_iff_exists.1 hget
    have hslot : g.HasSlot (.ofKind time .event) :=
      ⟨s, List.mem_of_find?_eq_some hs, by simpa [SlotKey.Same] using List.find?_some hs⟩
    exact (or_iff_left_of_imp hslot.of_same).symm
  · obtain rfl := Except.ok.inj hok
    refine ⟨fun h => ?_, fun h => ?_⟩
    · obtain ⟨s, hs, hsame⟩ := h
      rcases mem_insertSlot hs with hs | rfl
      · exact .inl ⟨s, hs, hsame⟩
      · exact .inr hsame
    · rcases h with ⟨s, hs, hsame⟩ | hsame
      · exact ⟨s, mem_insertSlot_of_mem hs, hsame⟩
      · obtain ⟨s, hs, heq⟩ := exists_mem_insertSlot (.ofKind time .event) true g.slots
        exact ⟨s, hs, (show s.key.Same _ from heq).trans hsame⟩

/-! ### Closing -/

omit [Scalar α] in
theorem hasContent_iff : g.hasContent ↔ ∃ key, key.zone = .content ∧ g.Has key := by
  rw [hasContent, List.any_eq_true]
  constructor
  · rintro ⟨s, hs, hcontent⟩
    simp only [Bool.not_eq_true, decide_eq_true_eq] at hcontent
    exact ⟨s.key, hcontent.1, s, hs, SlotKey.same_iff_place.2 rfl, hcontent.2⟩
  · rintro ⟨key, hzone, s, hs, hsame, hdrawn⟩
    refine ⟨s, hs, ?_⟩
    rw [SlotKey.zone_of_compare_eq hsame]
    simpa [hdrawn] using hzone

/-- Closing a grid asks for a slot of the content only where nothing is drawn there. -/
theorem has_finish_iff (hok : g.finish = .ok g') (hkey : key.zone = .content) :
    g'.Has key ↔ g.Has key ∨ ¬ g.hasContent ∧ (SlotKey.ofKind 0 .event).Same key := by
  have hright {time : Fraction} {kind : SlotKind} (h : kind.zone ≠ .content) :
      ¬ (SlotKey.ofKind time kind).Same key := fun hsame =>
    h ((SlotKey.zone_of_compare_eq hsame).trans hkey)
  have hclosing {g₁ : MeasureGrid α} (hok : (do
      let g₂ ← g₁.slot (.ofKind g₁.maxTime .rightBarLine)
      let g₃ ← g₂.slot (.ofKind g₂.maxTime .measureEnd)
      return { g₃ with state := .aligned }) = Except.ok g') : g'.Has key ↔ g₁.Has key := by
    obtain ⟨g₂, hg₂, hok⟩ := except_bind_eq_ok.1 hok
    obtain ⟨g₃, hg₃, hok⟩ := except_bind_eq_ok.1 hok
    obtain rfl := Except.ok.inj hok
    have hstep := (has_slot_iff hg₃).trans (or_iff_left (hright (by decide)))
    exact hstep.trans ((has_slot_iff hg₂).trans (or_iff_left (hright (by decide))))
  rw [MeasureGrid.finish] at hok
  dsimp only at hok
  split_ifs at hok with hcontent
  · rw [hclosing hok, or_iff_left fun h => h.1 hcontent]
  · obtain ⟨g₁, hg₁, hok⟩ := except_bind_eq_ok.1 hok
    rw [hclosing hok, has_slot_iff hg₁, and_iff_right hcontent]

/-- Closing a grid takes no slot away. -/
theorem HasSlot.finish (h : g.HasSlot key) (hok : g.finish = .ok g') : g'.HasSlot key := by
  obtain ⟨g₁, hg₁, hok⟩ : ∃ g₁ : MeasureGrid α, g₁.HasSlot key ∧ (do
      let g₂ ← g₁.slot (.ofKind g₁.maxTime .rightBarLine)
      let g₃ ← g₂.slot (.ofKind g₂.maxTime .measureEnd)
      return { g₃ with state := .aligned }) = Except.ok g' := by
    rw [MeasureGrid.finish] at hok
    dsimp only at hok
    split_ifs at hok
    · exact ⟨g, h, hok⟩
    · obtain ⟨g₁, hg₁, hok⟩ := except_bind_eq_ok.1 hok
      exact ⟨g₁, (hasSlot_slot_iff hg₁).2 (.inl h), hok⟩
  obtain ⟨g₂, hg₂, hok⟩ := except_bind_eq_ok.1 hok
  obtain ⟨g₃, hg₃, hok⟩ := except_bind_eq_ok.1 hok
  obtain rfl := Except.ok.inj hok
  exact (hasSlot_slot_iff hg₃).2 (.inl ((hasSlot_slot_iff hg₂).2 (.inl hg₁)))

/-- Asking two grids for slots of one key. -/
theorem Matches.slot (h : g.Matches g') (hkeys : key.Same key') {a : MeasureGrid α}
    (hok : g.slot key = .ok a) : ∃ a', g'.slot key' = .ok a' ∧ a.Matches a' := by
  have hstate : g.state = .collecting := by
    rw [MeasureGrid.slot] at hok
    split_ifs at hok with hstate
    exact hstate
  have hkept {g a : MeasureGrid α} {key : SlotKey} (hok : g.slot key = .ok a) :
      a.state = g.state ∧ a.maxTime = g.maxTime := by
    rw [MeasureGrid.slot] at hok
    split_ifs at hok
    exact Except.ok.inj hok ▸ ⟨rfl, rfl⟩
  obtain ⟨a', hok', -⟩ := exists_slot (h.state.trans hstate) key'
  have hsame (k : SlotKey) : key.Same k ↔ key'.Same k :=
    ⟨hkeys.symm.trans, hkeys.trans⟩
  refine ⟨a', hok', (grows_slot hok).1.sorted h.sorted, (grows_slot hok').1.sorted h.sorted', ?_, ?_,
    fun k => ?_, fun k => ?_⟩
  · rw [(hkept hok).1, (hkept hok').1, h.state]
  · rw [(hkept hok).2, (hkept hok').2]
    exact h.maxTime
  · rw [has_slot_iff hok, has_slot_iff hok', h.has, hsame]
  · rw [hasSlot_slot_iff hok, hasSlot_slot_iff hok', h.hasSlot, hsame]

omit [Scalar α] in
theorem same_ofKind {t t' : Fraction} (h : t.Same t') (kind : SlotKind) :
    (SlotKey.ofKind t kind).Same (.ofKind t' kind) :=
  SlotKey.same_ofKind_iff.2 (Fraction.same_iff_value.1 h)

/-- Closing two grids that have been asked for the same. -/
theorem Matches.finish (h : g.Matches g') {a : MeasureGrid α} (hok : g.finish = .ok a) :
    ∃ a', g'.finish = .ok a' ∧ a.Matches a' := by
  obtain ⟨g₁, g₁', h₁, hok, hok'⟩ : ∃ g₁ g₁' : MeasureGrid α, g₁.Matches g₁' ∧
      (do let g₂ ← g₁.slot (.ofKind g₁.maxTime .rightBarLine)
          let g₃ ← g₂.slot (.ofKind g₂.maxTime .measureEnd)
          return { g₃ with state := .aligned }) = Except.ok a ∧
      g'.finish = (do
          let g₂ ← g₁'.slot (.ofKind g₁'.maxTime .rightBarLine)
          let g₃ ← g₂.slot (.ofKind g₂.maxTime .measureEnd)
          return { g₃ with state := .aligned }) := by
    have hcontent : g.hasContent ↔ g'.hasContent := by
      rw [hasContent_iff, hasContent_iff]
      simp only [h.has]
    rw [MeasureGrid.finish] at hok ⊢
    dsimp only at hok ⊢
    split_ifs at hok with hempty
    · rw [if_pos (hcontent.1 hempty)]
      exact ⟨g, g', h, hok, rfl⟩
    · rw [if_neg fun hfull => hempty (hcontent.2 hfull)]
      obtain ⟨g₁, hg₁, hok⟩ := except_bind_eq_ok.1 hok
      obtain ⟨g₁', hg₁', h₁⟩ := h.slot (SlotKey.same_iff_place.2 rfl) hg₁
      exact ⟨g₁, g₁', h₁, hok, by rw [hg₁']; rfl⟩
  obtain ⟨g₂, hg₂, hok⟩ := except_bind_eq_ok.1 hok
  obtain ⟨g₃, hg₃, hok⟩ := except_bind_eq_ok.1 hok
  obtain rfl := Except.ok.inj hok
  obtain ⟨g₂', hg₂', h₂⟩ := h₁.slot (same_ofKind h₁.maxTime .rightBarLine) hg₂
  obtain ⟨g₃', hg₃', h₃⟩ := h₂.slot (same_ofKind h₂.maxTime .measureEnd) hg₃
  refine ⟨{ g₃' with state := .aligned }, ?_, h₃.sorted, h₃.sorted', rfl, h₃.maxTime, h₃.has,
    h₃.hasSlot⟩
  rw [hok', hg₂']
  dsimp only [bind, Except.bind]
  rw [hg₃']
  rfl

omit [Scalar α] in
/-- What the slots are, but for positions and footprints, decides what a grid has been asked for. -/
theorem Matches.of_outline {a a' : MeasureGrid α} (h : g.Matches g') (ha : a.outline = g.outline)
    (ha' : a'.outline = g'.outline) (hstate : a'.state = a.state) (hmax : a.maxTime = g.maxTime)
    (hmax' : a'.maxTime = g'.maxTime) : a.Matches a' := by
  have hslot (g : MeasureGrid α) (key : SlotKey) :
      g.HasSlot key ↔ ∃ s ∈ g.outline, s.1.Same key := by
    simp only [outline, List.mem_map, exists_exists_and_eq_and, HasSlot]
  refine ⟨sorted_of_outline ha h.sorted, sorted_of_outline ha' h.sorted', hstate, ?_, fun key => ?_,
    fun key => ?_⟩
  · rw [hmax, hmax']
    exact h.maxTime
  · rw [has_iff_outline, has_iff_outline, ha, ha', ← has_iff_outline, ← has_iff_outline]
    exact h.has key
  · rw [hslot, hslot, ha, ha', ← hslot, ← hslot]
    exact h.hasSlot key

end MeasureGrid

end ScoreLayout
