import ScoreLayout.Proofs.Grid.Order
import ScoreLayout.Proofs.Layout.Symbols

/-!
# Booking grace notes

What alignment books for grace notes depends on the symbols of a layer alone: those that wait, and
the slots found for those that have waited. Here the books are kept symbol by symbol, without the
walk. A grace note leans on the next principal symbol of its layer, or on the end of the layer, and
lies as far before it as there are grace notes from it on.

## Main definitions

* `GraceLedger`, `GraceLedger.step` — the books, and what one symbol does to them.
* `leansOn`, `gracesAhead` — what a grace note leans on, and how far before it the note lies.
* `Symbol.key?` — the slot that a symbol comes to.

## Main results

* `GraceLedger.lookup_of_grace` — the slot that is found for a grace note.
* `GraceLedger.Apart.foldl` — what the symbols do not touch.
* `GraceLedger.found_of_not_grace` — no slot is found for any other symbol.
-/

namespace ScoreLayout

variable {α : Type}

/-! ### Kinds of symbols -/

/-- Whether a node is a grace note or a grace chord. -/
def Node.isGrace (n : Node α) : Bool := (n.kind.element?.map Element.isGrace).getD false

namespace Symbol

/-- Whether a symbol is a grace note of its layer. -/
def IsGrace (x : Symbol α) : Prop := x.chord = none ∧ x.element.isGrace

/-- Whether a symbol is one that grace notes lean on. -/
def IsPrincipal (x : Symbol α) : Prop :=
  x.chord = none ∧ x.element.duration?.isSome ∧ ¬ x.element.isGrace

instance (x : Symbol α) : Decidable x.IsGrace :=
  inferInstanceAs (Decidable (x.chord = none ∧ _))

instance (x : Symbol α) : Decidable x.IsPrincipal :=
  inferInstanceAs (Decidable (x.chord = none ∧ _))

theorem IsGrace.not_isPrincipal {x : Symbol α} (h : x.IsGrace) : ¬ x.IsPrincipal :=
  fun hp => hp.2.2 h.2

end Symbol

/-- The time that a grace note leans on: that of the next principal symbol behind it, or of the end of
the layer. -/
def leansOn (stop : Fraction) : List (Symbol α) → Fraction
  | [] => stop
  | y :: back => if y.IsPrincipal then y.node.layout.onset.getD 0 else leansOn stop back

/-- The number of grace notes before the next principal symbol. -/
def gracesAhead : List (Symbol α) → Nat
  | [] => 0
  | y :: back =>
    if y.IsPrincipal then 0
    else if y.IsGrace then gracesAhead back + 1 else gracesAhead back

/-- The slot that a timed symbol comes to in a layer that ends at `stop`, with the symbols behind
it. The notes of a grace chord are drawn with the chord. -/
def Symbol.key? (stop : Fraction) (back : List (Symbol α)) (x : Symbol α) : Option SlotKey :=
  match x.chord with
  | some c => if c.isGrace then none else x.node.layout.onset.map (SlotKey.ofKind · .event)
  | none =>
    if x.element.isGrace then some (.ofGrace (leansOn stop back) (gracesAhead back + 1))
    else if x.element.duration?.isSome then x.node.layout.onset.map (SlotKey.ofKind · .event)
    else if x.element.isFullMeasure then x.node.layout.onset.map (SlotKey.ofKind · .fullMeasure)
    else none

/-! ### The books -/

/-- What has been booked for grace notes: those that wait, each with the symbols below it, and the
slots found, the latest first. -/
structure GraceLedger where
  waiting : List (List Handle)
  found : List (Handle × SlotKey)

namespace GraceLedger

/-- A slot for a grace note and the symbols below it. -/
def place (L : GraceLedger) (key : SlotKey) (group : List Handle) : GraceLedger :=
  { L with found := group.foldl (fun found h => (h, key) :: found) L.found }

/-- Slots for grace notes before the symbol at `onset`, the first as far away as there are notes. -/
def placeAll (L : GraceLedger) (onset : Fraction) : List (List Handle) → GraceLedger
  | [] => L
  | g :: rest => (L.place (.ofGrace onset (rest.length + 1)) g).placeAll onset rest

/-- Slots for all that wait. -/
def flush (L : GraceLedger) (onset : Fraction) : GraceLedger :=
  { L with waiting := [] }.placeAll onset L.waiting

/-- A symbol gets a slot at once. -/
def claim (L : GraceLedger) (h : Handle) : GraceLedger :=
  { L with found := L.found.filter fun e => e.1 ≠ h }

/-- A grace note waits. -/
def wait (L : GraceLedger) (group : List Handle) : GraceLedger :=
  { L with waiting := L.waiting ++ [group] }

/-- What a symbol does to the books, where `below` gives the symbols below a handle. -/
def step (below : Handle → List Handle) (L : GraceLedger) (x : Symbol α) : GraceLedger :=
  match x.chord with
  | some c => if c.isGrace then L else L.claim x.node.handle
  | none =>
    if x.element.isGrace then L.wait (x.node.handle :: below x.node.handle)
    else if x.element.duration?.isSome then
      (L.flush (x.node.layout.onset.getD 0)).claim x.node.handle
    else
      match x.element with
      | .beam | .tuplet _ _ => L
      | _ => L.claim x.node.handle

variable {L : GraceLedger} {h : Handle} {onset : Fraction}

@[simp] theorem waiting_placeAll (L : GraceLedger) (onset : Fraction) (groups : List (List Handle)) :
    (L.placeAll onset groups).waiting = L.waiting := by
  induction groups generalizing L with
  | nil => rfl
  | cons g rest ih => exact ih _

@[simp] theorem waiting_flush (L : GraceLedger) (onset : Fraction) :
    (L.flush onset).waiting = [] := waiting_placeAll ..

/-- Only a grace note lets more wait. -/
theorem waiting_step {below : Handle → List Handle} {x : Symbol α}
    (h : (L.step below x).waiting ≠ []) : L.waiting ≠ [] ∨ x.IsGrace := by
  rw [step] at h
  split at h
  · split_ifs at h <;> exact .inl h
  · rename_i hchord
    split_ifs at h with hgrace hduration
    · exact .inr ⟨hchord, hgrace⟩
    · exact absurd (waiting_flush L _) h
    · split at h <;> exact .inl h

theorem waiting_foldl {below : Handle → List Handle} {xs : List (Symbol α)} {L : GraceLedger}
    (h : (xs.foldl (step below) L).waiting ≠ []) : L.waiting ≠ [] ∨ ∃ x ∈ xs, x.IsGrace := by
  induction xs generalizing L with
  | nil => exact .inl h
  | cons x xs ih =>
    rcases ih h with h | ⟨y, hy, hgrace⟩
    · exact (waiting_step h).imp_right fun hx => ⟨x, List.mem_cons_self, hx⟩
    · exact .inr ⟨y, List.mem_cons_of_mem x hy, hgrace⟩

/-! ### Looking up -/

theorem lookup_place (L : GraceLedger) (key : SlotKey) (group : List Handle) (h : Handle) :
    (L.place key group).found.lookup h = if h ∈ group then some key else L.found.lookup h := by
  rw [place]
  dsimp only
  generalize L.found = found
  induction group generalizing found with
  | nil => rfl
  | cons g rest ih =>
    rw [List.foldl_cons, ih, List.lookup_cons]
    by_cases hg : h = g
    · simp [hg]
    · rw [beq_eq_false_iff_ne.2 hg]
      simp [hg]

theorem lookup_placeAll_of_not_mem {groups : List (List Handle)} (hg : ∀ g ∈ groups, h ∉ g) :
    (L.placeAll onset groups).found.lookup h = L.found.lookup h := by
  induction groups generalizing L with
  | nil => rfl
  | cons g rest ih =>
    rw [List.forall_mem_cons] at hg
    rw [placeAll, ih hg.2, lookup_place, if_neg hg.1]

/-- What has waited before some others lies farther away than these. -/
theorem lookup_placeAll_of_mem {front back : List (List Handle)} {g : List Handle} (hg : h ∈ g)
    (hback : ∀ g ∈ back, h ∉ g) : (L.placeAll onset (front ++ g :: back)).found.lookup h =
      some (.ofGrace onset (back.length + 1)) := by
  induction front generalizing L with
  | nil => rw [List.nil_append, placeAll, lookup_placeAll_of_not_mem hback, lookup_place, if_pos hg]
  | cons _ front ih => exact ih

theorem lookup_flush_of_not_mem (hg : ∀ g ∈ L.waiting, h ∉ g) :
    (L.flush onset).found.lookup h = L.found.lookup h := lookup_placeAll_of_not_mem hg

theorem lookup_claim {h' : Handle} (hne : h ≠ h') :
    (L.claim h').found.lookup h = L.found.lookup h := by
  rw [claim]
  dsimp only
  induction L.found with
  | nil => rfl
  | cons e rest ih =>
    by_cases he : e.1 = h'
    · have hlookup : (h == e.1) = false := by simpa [he] using hne
      rw [List.filter_cons_of_neg (by simpa using he), ih, List.lookup_cons, hlookup]
    · rw [List.filter_cons_of_pos (by simpa using he), List.lookup_cons, List.lookup_cons, ih]

/-! ### One symbol after another -/

variable {below : Handle → List Handle} {stop : Fraction}

/-- Whether a symbol has nothing to do with a handle. -/
def Leaves (below : Handle → List Handle) (h : Handle) (x : Symbol α) : Prop :=
  h ≠ x.node.handle ∧ (x.IsGrace → h ∉ below x.node.handle)

theorem step_of_isGrace {x : Symbol α} (hx : x.IsGrace) :
    L.step below x = L.wait (x.node.handle :: below x.node.handle) := by
  rw [step, hx.1]
  exact if_pos hx.2

theorem step_of_isPrincipal {x : Symbol α} (hx : x.IsPrincipal) :
    L.step below x = (L.flush (x.node.layout.onset.getD 0)).claim x.node.handle := by
  rw [step, hx.1]
  dsimp only
  rw [if_neg hx.2.2, if_pos hx.2.1]

/-- A symbol that is no grace note and no principal one leaves those that wait waiting. -/
theorem step_of_not (below : Handle → List Handle) (L : GraceLedger) {x : Symbol α} (hx : ¬ x.IsGrace) (hx' : ¬ x.IsPrincipal) :
    L.step below x = L ∨ L.step below x = L.claim x.node.handle := by
  rw [step]
  cases hc : x.chord with
  | some c =>
    dsimp only
    split_ifs
    · exact .inl rfl
    · exact .inr rfl
  | none =>
    have hgrace : ¬ x.element.isGrace := fun h => hx ⟨hc, h⟩
    have htimed : ¬ x.element.duration?.isSome := fun h => hx' ⟨hc, h, hgrace⟩
    dsimp only
    rw [if_neg hgrace, if_neg htimed]
    split
    · exact .inl rfl
    · exact .inl rfl
    · exact .inr rfl

/-- A handle that does not wait, with what has been found for it. -/
structure Apart (L : GraceLedger) (h : Handle) (slot : Option SlotKey) : Prop where
  waiting : ∀ g ∈ L.waiting, h ∉ g
  found : L.found.lookup h = slot

namespace Apart

variable {slot : Option SlotKey} {x : Symbol α}

theorem flush (hL : L.Apart h slot) (onset : Fraction) : (L.flush onset).Apart h slot where
  waiting _ hg := absurd (waiting_flush L onset ▸ hg) List.not_mem_nil
  found := (lookup_placeAll_of_not_mem hL.waiting).trans hL.found

theorem claim (hL : L.Apart h slot) {h' : Handle} (hne : h ≠ h') : (L.claim h').Apart h slot :=
  ⟨hL.waiting, (lookup_claim hne).trans hL.found⟩

/-- A symbol that has nothing to do with the handle. -/
theorem step (hL : L.Apart h slot) (hx : Leaves below h x) : (L.step below x).Apart h slot := by
  by_cases hgrace : x.IsGrace
  · rw [step_of_isGrace hgrace]
    refine ⟨fun g hg => ?_, hL.found⟩
    rw [wait, List.mem_append, List.mem_singleton] at hg
    rcases hg with hg | rfl
    · exact hL.waiting g hg
    · exact List.not_mem_cons_of_ne_of_not_mem hx.1 (hx.2 hgrace)
  · by_cases hprincipal : x.IsPrincipal
    · rw [step_of_isPrincipal hprincipal]
      exact (hL.flush _).claim hx.1
    · rcases step_of_not below L hgrace hprincipal with heq | heq
      · rw [heq]
        exact hL
      · rw [heq]
        exact hL.claim hx.1

theorem foldl {xs : List (Symbol α)} (hL : L.Apart h slot) (hxs : ∀ x ∈ xs, Leaves below h x) :
    (xs.foldl (GraceLedger.step below) L).Apart h slot := by
  induction xs generalizing L with
  | nil => exact hL
  | cons x xs ih =>
    rw [List.forall_mem_cons] at hxs
    exact ih (hL.step hxs.1) hxs.2

theorem lookup_claim_self (L : GraceLedger) (h : Handle) : (L.claim h).found.lookup h = none := by
  rw [GraceLedger.claim]
  dsimp only
  induction L.found with
  | nil => rfl
  | cons e rest ih =>
    by_cases he : e.1 = h
    · rw [List.filter_cons_of_neg (by simpa using he), ih]
    · have hlookup : (h == e.1) = false := by simpa using Ne.symm he
      rw [List.filter_cons_of_pos (by simpa using he), List.lookup_cons, hlookup, ih]

/-- A symbol that is no grace note has no slot as one. -/
theorem step_self (hL : L.Apart x.node.handle none) (hx : ¬ x.IsGrace) :
    (L.step below x).Apart x.node.handle none := by
  by_cases hprincipal : x.IsPrincipal
  · rw [step_of_isPrincipal hprincipal]
    exact ⟨(hL.flush _).waiting, lookup_claim_self _ _⟩
  · rcases step_of_not below L hx hprincipal with heq | heq
    · rw [heq]
      exact hL
    · rw [heq]
      exact ⟨hL.waiting, lookup_claim_self _ _⟩

end Apart

/-- A grace note that waits gets its slot from the symbols to come. -/
theorem lookup_foldl_of_waiting {xs : List (Symbol α)} {front back : List (List Handle)}
    {g : List Handle} (hwaiting : L.waiting = front ++ g :: back) (hg : h ∈ g)
    (hback : ∀ g ∈ back, h ∉ g) (hxs : ∀ x ∈ xs, Leaves below h x) :
    ((xs.foldl (step below) L).flush stop).found.lookup h =
      some (.ofGrace (leansOn stop xs) (back.length + gracesAhead xs + 1)) := by
  induction xs generalizing L back with
  | nil =>
    rw [List.foldl_nil, flush, hwaiting]
    exact lookup_placeAll_of_mem hg hback
  | cons x xs ih =>
    rw [List.forall_mem_cons] at hxs
    obtain ⟨⟨hne, hbelow⟩, hxs⟩ := hxs
    rw [List.foldl_cons, leansOn, gracesAhead]
    by_cases hgrace : x.IsGrace
    · have hmore : (L.wait (x.node.handle :: below x.node.handle)).waiting =
          front ++ g :: (back ++ [x.node.handle :: below x.node.handle]) := by
        rw [wait, hwaiting, List.append_assoc, List.cons_append]
      rw [if_neg hgrace.not_isPrincipal, if_neg hgrace.not_isPrincipal, if_pos hgrace,
        step_of_isGrace hgrace, ih hmore (List.forall_mem_append.2 ⟨hback,
          List.forall_mem_singleton.2 (List.not_mem_cons_of_ne_of_not_mem hne (hbelow hgrace))⟩) hxs,
        List.length_append, List.length_singleton, add_assoc back.length, add_comm 1]
    · by_cases hprincipal : x.IsPrincipal
      · rw [if_pos hprincipal, if_pos hprincipal, step_of_isPrincipal hprincipal,
          (Apart.flush (Apart.foldl ⟨?_, rfl⟩ hxs) stop).found, lookup_claim hne, flush, hwaiting,
          lookup_placeAll_of_mem hg hback, add_zero]
        exact fun g hg => absurd (waiting_flush L _ ▸ hg) List.not_mem_nil
      · rw [if_neg hprincipal, if_neg hprincipal, if_neg hgrace]
        rcases step_of_not below L hgrace hprincipal with heq | heq
        · rw [heq, ih hwaiting hback hxs]
        · rw [heq, ih (L := L.claim _) hwaiting hback hxs]

/-- The slot that is found for a grace note. -/
theorem lookup_of_grace {x : Symbol α} {front back : List (Symbol α)} (hx : x.IsGrace)
    (hback : ∀ y ∈ back, Leaves below x.node.handle y) :
    (((front ++ x :: back).foldl (step below) L).flush stop).found.lookup x.node.handle =
      some (.ofGrace (leansOn stop back) (gracesAhead back + 1)) := by
  have hwaiting : ((front.foldl (step below) L).wait (x.node.handle :: below x.node.handle)).waiting =
      (front.foldl (step below) L).waiting ++ (x.node.handle :: below x.node.handle) :: [] := rfl
  rw [List.foldl_append, List.foldl_cons, step_of_isGrace hx, lookup_foldl_of_waiting hwaiting
    List.mem_cons_self (fun _ h => absurd h List.not_mem_nil) hback, List.length_nil, zero_add]

/-- No slot is found for a symbol that is no grace note. -/
theorem found_of_not_grace {x : Symbol α} {front back : List (Symbol α)} (hx : ¬ x.IsGrace)
    (hL : L.Apart x.node.handle none) (hfront : ∀ y ∈ front, Leaves below x.node.handle y)
    (hback : ∀ y ∈ back, Leaves below x.node.handle y) :
    (((front ++ x :: back).foldl (step below) L).flush stop).found.lookup x.node.handle = none := by
  rw [List.foldl_append, List.foldl_cons]
  exact ((((hL.foldl hfront).step_self hx).foldl hback).flush stop).found

end GraceLedger

end ScoreLayout
