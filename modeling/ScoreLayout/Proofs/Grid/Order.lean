import Mathlib.Data.Prod.Lex
import Mathlib.Order.Compare
import ScoreLayout.Proofs.Fraction
import ScoreLayout.Proofs.Grid.Collecting

/-!
# The order of slots

Slots are kept in the order of their keys, and no two of them have one key. A key that has been asked
for keeps its slot, whatever is asked for later.

## Main definitions

* `SlotKey.place` — the place of a key among all keys, in a linear order.
* `MeasureGrid.Sorted` — a grid with its slots in strict order.
* `MeasureGrid.Has` — whether something is drawn at a key.
* `MeasureGrid.Grows` — two states of one grid while its slots are collected.

## Main results

* `SlotKey.compares_place` — keys are compared by their places.
* `MeasureGrid.Sorted.filter_key`, `MeasureGrid.Sorted.get?_eq` — a key has one slot.
* `MeasureGrid.grows_slot`, `MeasureGrid.grows_timestampSlot` — asking for a slot.
-/

namespace ScoreLayout

/-! ### Places of keys -/

theorem Fraction.compares_value (a b : Fraction) : (Fraction.compare a b).Compares a.value b.value := by
  rw [Fraction.compare]
  have h := (compare_iff (a.cross b) (b.cross a)).1 rfl
  cases hc : Ord.compare (a.cross b) (b.cross a) <;> rw [hc] at h
  · exact Fraction.lt_iff_value.1 h
  · exact Fraction.same_iff_value.1 h
  · exact Fraction.lt_iff_value.1 h

/-- Comparing by a first criterion, and then by a second one. -/
theorem Ordering.compares_then {β γ : Type} [LinearOrder β] [LinearOrder γ] {o o' : Ordering}
    {a b : β} {c d : γ} (h : o.Compares a b) (h' : o'.Compares c d) :
    (o.then o').Compares (toLex (a, c)) (toLex (b, d)) := by
  cases o with
  | lt => exact Prod.Lex.toLex_lt_toLex.2 (.inl h)
  | gt => exact Prod.Lex.toLex_lt_toLex.2 (.inl h)
  | eq =>
    obtain rfl : a = b := h
    cases o' with
    | lt => exact Prod.Lex.toLex_lt_toLex.2 (.inr ⟨rfl, h'⟩)
    | gt => exact Prod.Lex.toLex_lt_toLex.2 (.inr ⟨rfl, h'⟩)
    | eq => exact congrArg (fun c => toLex (a, c)) h'

namespace SlotKey

/-- The place of a key among all keys: by zone, then time, then kind; of grace notes the farthest
comes first. -/
def place (k : SlotKey) : ℕ ×ₗ ℚ ×ₗ ℕ ×ₗ ℕᵒᵈ :=
  toLex (k.zone.rank, toLex (k.time.value, toLex (k.kind.rank, OrderDual.toDual k.graceRank)))

theorem compares_place (a b : SlotKey) : (a.compare b).Compares a.place b.place := by
  have hnat (m n : ℕ) : (Ord.compare m n).Compares m n := (compare_iff m n).1 rfl
  exact Ordering.compares_then (hnat ..) (Ordering.compares_then (Fraction.compares_value ..)
    (Ordering.compares_then (hnat ..) (toDual_compares_toDual.2 (hnat ..))))

variable {a b c : SlotKey}

theorem compare_eq_lt_iff : a.compare b = .lt ↔ a.place < b.place := (compares_place a b).eq_lt

theorem compare_eq_gt_iff : a.compare b = .gt ↔ b.place < a.place := (compares_place a b).eq_gt

theorem same_iff_place : a.Same b ↔ a.place = b.place := (compares_place a b).eq_eq

theorem Same.symm (h : a.Same b) : b.Same a := same_iff_place.2 (same_iff_place.1 h).symm

theorem Same.trans (h : a.Same b) (h' : b.Same c) : a.Same c :=
  same_iff_place.2 ((same_iff_place.1 h).trans (same_iff_place.1 h'))

theorem Same.kind (h : a.Same b) : a.kind = b.kind := by
  rw [same_iff_place] at h
  exact SlotKind.rank_injective
    (congrArg (fun p : ℕ ×ₗ ℚ ×ₗ ℕ ×ₗ ℕᵒᵈ => (ofLex (ofLex (ofLex p).2).2).1) h)

/-- Two keys of one kind that are for no grace notes. -/
theorem same_ofKind_iff {t t' : Fraction} {kind : SlotKind} :
    (ofKind t kind).Same (ofKind t' kind) ↔ t.value = t'.value := by
  rw [same_iff_place]
  constructor
  · intro h
    exact congrArg (fun p : ℕ ×ₗ ℚ ×ₗ ℕ ×ₗ ℕᵒᵈ => (ofLex (ofLex p).2).1) h
  · intro h
    simp only [place, ofKind, zone, h]

/-- Of two keys within the content, the one of the earlier time comes first. -/
theorem place_lt_of_time (hzone : a.zone = b.zone) (htime : a.time.value < b.time.value) :
    a.place < b.place := by
  rw [place, place, Prod.Lex.toLex_lt_toLex]
  exact .inr ⟨congrArg Zone.rank hzone, Prod.Lex.toLex_lt_toLex.2 (.inl htime)⟩

/-- Of two keys of one time within the content, the one of the earlier kind comes first. -/
theorem place_lt_of_kind (hzone : a.zone = b.zone) (htime : a.time.value = b.time.value)
    (hkind : a.kind.rank < b.kind.rank) : a.place < b.place := by
  rw [place, place, Prod.Lex.toLex_lt_toLex]
  exact .inr ⟨congrArg Zone.rank hzone, Prod.Lex.toLex_lt_toLex.2
    (.inr ⟨htime, Prod.Lex.toLex_lt_toLex.2 (.inl hkind)⟩)⟩

/-- Of two grace notes that lean on one time, the farther one comes first. -/
theorem place_ofGrace_lt {t t' : Fraction} (htime : t.value = t'.value) {rank rank' : ℕ}
    (hrank : rank' < rank) : (ofGrace t rank).place < (ofGrace t' rank').place := by
  rw [place, place, Prod.Lex.toLex_lt_toLex]
  exact .inr ⟨rfl, Prod.Lex.toLex_lt_toLex.2
    (.inr ⟨htime, Prod.Lex.toLex_lt_toLex.2 (.inr ⟨rfl, OrderDual.toDual_lt_toDual.2 hrank⟩)⟩)⟩

end SlotKey

variable {α : Type}

namespace MeasureGrid

/-! ### Sorted grids -/

/-- A grid with its slots in strict order. -/
def Sorted (g : MeasureGrid α) : Prop := g.slots.Pairwise fun s t => s.key.place < t.key.place

/-- Whether something is drawn at a key. -/
def Has (g : MeasureGrid α) (key : SlotKey) : Prop :=
  ∃ s ∈ g.slots, s.key.Same key ∧ s.timestampOnly = false

theorem Has.of_same {g : MeasureGrid α} {key key' : SlotKey} (h : g.Has key)
    (hkeys : key.Same key') : g.Has key' := by
  obtain ⟨s, hs, hsame, hdrawn⟩ := h
  exact ⟨s, hs, hsame.trans hkeys, hdrawn⟩

namespace Sorted

variable {g : MeasureGrid α} (hg : g.Sorted) {s t : Slot α} {key : SlotKey}

include hg

/-- Slots of one key are one slot. -/
theorem eq_of_same (hs : s ∈ g.slots) (ht : t ∈ g.slots) (h : s.key.Same t.key) : s = t := by
  have hplace := SlotKey.same_iff_place.1 h
  obtain ⟨front, back, hslots⟩ := List.append_of_mem hs
  rw [Sorted, hslots, List.pairwise_append, List.pairwise_cons] at hg
  rw [hslots, List.mem_append, List.mem_cons] at ht
  rcases ht with ht | rfl | ht
  · exact absurd hplace (hg.2.2 t ht s List.mem_cons_self).ne'
  · rfl
  · exact absurd hplace (hg.2.1.1 t ht).ne

theorem get?_eq (hs : s ∈ g.slots) (h : s.key.Same key) : g.get? key = some s := by
  rw [get?]
  cases hfind : g.slots.find? fun s => s.key.compare key = .eq with
  | none => exact absurd (decide_eq_true h) (List.find?_eq_none.1 hfind s hs)
  | some t =>
    have ht : t.key.Same key := by simpa [SlotKey.Same] using List.find?_some hfind
    rw [hg.eq_of_same hs (List.mem_of_find?_eq_some hfind) (h.trans ht.symm)]

/-- A key has one slot. -/
theorem filter_key (hs : s ∈ g.slots) (h : s.key.Same key) :
    (g.slots.filter fun t => t.key.Same key) = [s] := by
  obtain ⟨front, back, hslots⟩ := List.append_of_mem hs
  have hsorted := hg
  rw [Sorted, hslots, List.pairwise_append, List.pairwise_cons] at hsorted
  obtain ⟨-, ⟨hback, -⟩, hfront⟩ := hsorted
  have hplace := SlotKey.same_iff_place.1 h
  rw [hslots, List.filter_append, List.filter_cons_of_pos (by simpa using h),
    List.filter_eq_nil_iff.2 fun t ht => ?_, List.filter_eq_nil_iff.2 fun t ht => ?_,
    List.nil_append]
  · rw [decide_eq_true_iff, SlotKey.same_iff_place, ← hplace]
    exact (hback t ht).ne'
  · rw [decide_eq_true_iff, SlotKey.same_iff_place, ← hplace]
    exact (hfront t ht s List.mem_cons_self).ne

/-- Slots stand in the order of their places. -/
theorem exists_append (hs : s ∈ g.slots) (ht : t ∈ g.slots) (h : s.key.place < t.key.place) :
    ∃ front middle back, g.slots = front ++ s :: (middle ++ t :: back) := by
  obtain ⟨front, rest, hslots⟩ := List.append_of_mem hs
  have hsorted := hg
  rw [Sorted, hslots, List.pairwise_append, List.pairwise_cons] at hsorted
  rw [hslots, List.mem_append, List.mem_cons] at ht
  rcases ht with ht | rfl | ht
  · exact absurd (hsorted.2.2 t ht s List.mem_cons_self) h.not_gt
  · exact absurd h (lt_irrefl _)
  · obtain ⟨middle, back, rfl⟩ := List.append_of_mem ht
    exact ⟨front, middle, back, hslots⟩

end Sorted

/-- What the slots are, but for positions and footprints, decides their order and what is drawn. -/
theorem sorted_of_outline {g g' : MeasureGrid α} (h : g'.outline = g.outline) (hg : g.Sorted) :
    g'.Sorted := by
  have hpairs (g : MeasureGrid α) : g.Sorted ↔
      g.outline.Pairwise fun s t => s.1.place < t.1.place := by
    rw [outline, List.pairwise_map, Sorted]
  rw [hpairs, h]
  exact (hpairs g).1 hg

theorem has_iff_outline {g : MeasureGrid α} {key : SlotKey} :
    g.Has key ↔ ∃ s ∈ g.outline, s.1.Same key ∧ s.2 = false := by
  simp only [outline, List.mem_map, exists_exists_and_eq_and, Has]

/-! ### Collecting -/

variable [Scalar α] {key : SlotKey} {timestampOnly : Bool} {slots : List (Slot α)} {s : Slot α}

/-- Where a new slot goes, all slots stay in order. -/
theorem pairwise_insertSlot (h : slots.Pairwise fun s t : Slot α => s.key.place < t.key.place) :
    (insertSlot key timestampOnly slots).Pairwise fun s t => s.key.place < t.key.place := by
  induction slots with
  | nil => exact List.pairwise_singleton ..
  | cons t rest ih =>
    rw [List.pairwise_cons] at h
    rw [insertSlot]
    split
    · rename_i hlt
      refine List.pairwise_cons.2 ⟨fun s hs => ?_, ih h.2⟩
      rcases mem_insertSlot hs with hs | rfl
      · exact h.1 s hs
      · exact SlotKey.compare_eq_lt_iff.1 hlt
    · exact List.pairwise_cons.2 h
    · rename_i hgt
      have hlt : key.place < t.key.place := SlotKey.compare_eq_gt_iff.1 hgt
      refine List.pairwise_cons.2 ⟨List.forall_mem_cons.2 ⟨hlt, fun s hs => hlt.trans (h.1 s hs)⟩,
        List.pairwise_cons.2 h⟩

theorem mem_insertSlot_of_mem (h : s ∈ slots) : s ∈ insertSlot key timestampOnly slots := by
  induction slots with
  | nil => exact absurd h List.not_mem_nil
  | cons t rest ih =>
    rw [insertSlot]
    split
    · rcases List.mem_cons.1 h with rfl | h
      · exact List.mem_cons_self
      · exact List.mem_cons_of_mem t (ih h)
    · exact h
    · exact List.mem_cons_of_mem _ h

/-- Two states of one grid while its slots are collected: it stays sorted, and what is drawn stays
drawn. -/
structure Grows (g g' : MeasureGrid α) : Prop where
  sorted : g.Sorted → g'.Sorted
  has : ∀ key, g.Has key → g'.Has key

omit [Scalar α] in
theorem Grows.refl (g : MeasureGrid α) : g.Grows g := ⟨id, fun _ => id⟩

omit [Scalar α] in
theorem Grows.trans {g g₁ g₂ : MeasureGrid α} (h : g.Grows g₁) (h' : g₁.Grows g₂) : g.Grows g₂ :=
  ⟨h'.sorted ∘ h.sorted, fun key => h'.has key ∘ h.has key⟩

omit [Scalar α] in
theorem grows_of_outline {g g' : MeasureGrid α} (h : g'.outline = g.outline) : g.Grows g' := by
  refine ⟨sorted_of_outline h, fun key => ?_⟩
  rw [has_iff_outline, has_iff_outline, h]
  exact id

omit [Scalar α] in
theorem grows_modifySlot (f : Slot α → Slot α) (hkey : ∀ s, (f s).key = s.key)
    (hdrawn : ∀ s : Slot α, s.timestampOnly = false → (f s).timestampOnly = false)
    (g : MeasureGrid α) : g.Grows { g with slots := modifySlot key f g.slots } := by
  have hchange (s : Slot α) : (if s.key.compare key = .eq then f s else s).key = s.key := by
    split_ifs
    · exact hkey s
    · rfl
  refine ⟨fun hg => ?_, fun key' ⟨s, hs, hsame, hs'⟩ => ⟨_, List.mem_map_of_mem hs, ?_, ?_⟩⟩
  · refine List.pairwise_map.2 (List.Pairwise.imp (fun h => ?_) hg)
    rwa [hchange, hchange]
  · rw [hchange]
    exact hsame
  · split_ifs
    · exact hdrawn s hs'
    · exact hs'

theorem grows_insertSlot (g : MeasureGrid α) (key : SlotKey) (timestampOnly : Bool) :
    g.Grows { g with slots := insertSlot key timestampOnly g.slots } :=
  ⟨pairwise_insertSlot, fun _ ⟨s, hs, h⟩ => ⟨s, mem_insertSlot_of_mem hs, h⟩⟩

/-- A slot that is asked for is drawn. -/
theorem grows_slot {g g' : MeasureGrid α} (hok : g.slot key = .ok g') :
    g.Grows g' ∧ g'.Has key := by
  rw [MeasureGrid.slot] at hok
  split_ifs at hok
  obtain rfl := Except.ok.inj hok
  let claim := fun (s : Slot α) => { s with timestampOnly := false }
  have hclaim : Grows { g with slots := insertSlot key false g.slots }
      { g with slots := modifySlot key claim (insertSlot key false g.slots) } :=
    grows_modifySlot claim (fun _ => rfl) (fun _ _ => rfl) _
  refine ⟨(g.grows_insertSlot key false).trans hclaim, ?_⟩
  obtain ⟨s, hs, heq⟩ := exists_mem_insertSlot key false g.slots
  refine ⟨_, List.mem_map_of_mem hs, ?_⟩
  rw [if_pos heq]
  exact ⟨heq, rfl⟩

theorem grows_timestampSlot {g g' : MeasureGrid α} {time : Fraction}
    (hok : g.timestampSlot time = .ok g') : g.Grows g' := by
  rw [MeasureGrid.timestampSlot] at hok
  split_ifs at hok
  · exact Except.ok.inj hok ▸ .refl g
  · exact Except.ok.inj hok ▸ g.grows_insertSlot _ true

theorem grows_addFootprint (g : MeasureGrid α) (key : SlotKey) (staff : UInt32) (rect : Rect α) :
    g.Grows (g.addFootprint key staff rect) :=
  grows_of_outline (g.outline_addFootprint key staff rect)

omit [Scalar α] in
theorem grows_extend (g : MeasureGrid α) (time : Fraction) : g.Grows (g.extend time) :=
  ⟨id, fun _ => id⟩

theorem grows_finish {g g' : MeasureGrid α} (hok : g.finish = .ok g') : g.Grows g' := by
  obtain ⟨g₁, h₁, hok⟩ : ∃ g₁ : MeasureGrid α, g.Grows g₁ ∧
      (do let g₂ ← g₁.slot (.ofKind g₁.maxTime .rightBarLine)
          let g₃ ← g₂.slot (.ofKind g₂.maxTime .measureEnd)
          return { g₃ with state := .aligned }) = Except.ok g' := by
    rw [MeasureGrid.finish] at hok
    dsimp only at hok
    split_ifs at hok
    · exact ⟨g, .refl g, hok⟩
    · obtain ⟨g₁, h₁, hok⟩ := except_bind_eq_ok.1 hok
      exact ⟨g₁, (grows_slot h₁).1, hok⟩
  obtain ⟨g₂, h₂, hok⟩ := except_bind_eq_ok.1 hok
  obtain ⟨g₃, h₃, hok⟩ := except_bind_eq_ok.1 hok
  obtain rfl := Except.ok.inj hok
  exact (h₁.trans (grows_slot h₂).1).trans ⟨(grows_slot h₃).1.sorted, (grows_slot h₃).1.has⟩

theorem sorted_begin {g : MeasureGrid α} (hok : (empty : MeasureGrid α).begin = .ok g) :
    g.Sorted := by
  rw [begin_empty, Except.ok.injEq] at hok
  subst hok
  exact List.pairwise_pair.2 (SlotKey.place_lt_of_kind rfl rfl Nat.zero_lt_one)

end MeasureGrid

end ScoreLayout
