import ScoreLayout.Scalar

/-!
# Staves stacked in a system

The staves of a system stand one below the other. Each takes its height and the overflow of what is
drawn above and below it; hidden staves take no room.

## Main definitions

* `StaffSlot` — the vertical place of a staff.
* `StaffStack` — the staves of a system in score order.
* `StaffStack.stack` — the staves placed a distance apart.
* `StaffStack.justify` — the visible staves moved further apart.
-/

namespace ScoreLayout

/-- The vertical place of one staff in a system. -/
structure StaffSlot (α : Type) where
  staff : UInt32
  /-- The top line, below the top of the system. -/
  y : α
  /-- The distance between the outer lines. -/
  height : α
  /-- The largest extent above the top line. -/
  above : α
  /-- The largest extent below the bottom line. -/
  below : α
  hidden : Bool
deriving DecidableEq, Repr

namespace StaffSlot

variable {α : Type} [Scalar α]

/-- A staff with nothing drawn outside of its lines. -/
def new (staff : UInt32) (height : α) (hidden : Bool) : StaffSlot α :=
  ⟨staff, 0, height, 0, 0, hidden⟩

/-- The staff with room for an extent given below its top line; a hidden staff needs none. -/
def addExtent (s : StaffSlot α) (top bottom : α) : StaffSlot α :=
  if s.hidden then s
  else
    { s with
      above := Scalar.max s.above (-top)
      below := Scalar.max s.below (bottom - s.height) }

end StaffSlot

/-- The staves of a system in score order, with their total height. -/
structure StaffStack (α : Type) where
  staves : List (StaffSlot α)
  height : α
deriving DecidableEq, Repr

namespace StaffStack

variable {α : Type} [Scalar α]

/-- A system without staves. -/
def empty : StaffStack α := ⟨[], 0⟩

omit [Scalar α] in
/-- The place of a staff. -/
def get? (s : StaffStack α) (staff : UInt32) : Option (StaffSlot α) :=
  s.staves.find? fun slot => slot.staff = staff

/-- The stack with a place for a staff, at the end if it has none yet. -/
def ensure (s : StaffStack α) (staff : UInt32) (height : α) (hidden : Bool) : StaffStack α :=
  if (s.get? staff).isSome then s
  else { s with staves := s.staves ++ [StaffSlot.new staff height hidden] }

omit [Scalar α] in
/-- The stack with the place of a staff changed. -/
def modify (s : StaffStack α) (staff : UInt32) (f : StaffSlot α → StaffSlot α) : StaffStack α :=
  { s with staves := s.staves.map fun slot => if slot.staff = staff then f slot else slot }

omit [Scalar α] in
/-- The number of gaps between visible staves. -/
def gapCount (s : StaffStack α) : Nat := (s.staves.filter fun slot => ¬ slot.hidden).length - 1

/-- The staves placed from `y` on, with the end of the last; `first` says that no visible staff
has been placed yet. -/
def placeFrom (spacing : α) : List (StaffSlot α) → (first : Bool) → (y : α) → List (StaffSlot α) × α
  | [], _, y => ([], y)
  | s :: rest, first, y =>
    if s.hidden then
      let (rest, bottom) := placeFrom spacing rest first y
      ({ s with y } :: rest, bottom)
    else
      let top := (if first then y else y + spacing) + s.above
      let (rest, bottom) := placeFrom spacing rest false (top + (s.height + s.below))
      ({ s with y := top } :: rest, bottom)

/-- The staves stacked from the top of the system, `spacing` apart. -/
def stack (s : StaffStack α) (spacing : α) : StaffStack α :=
  let (staves, height) := placeFrom spacing s.staves true 0
  ⟨staves, height⟩

/-- The staves moved down by `shift`, which grows by `perGap` at every visible staff but the first;
with the last shift. -/
def shiftFrom (perGap : α) : List (StaffSlot α) → (first : Bool) → (shift : α) →
    List (StaffSlot α) × α
  | [], _, shift => ([], shift)
  | s :: rest, first, shift =>
    let shift := if s.hidden ∨ first then shift else shift + perGap
    let (rest, last) := shiftFrom perGap rest (first && s.hidden) shift
    ({ s with y := s.y + shift } :: rest, last)

/-- Every gap between visible staves widened by `perGap`. -/
def justify (s : StaffStack α) (perGap : α) : StaffStack α :=
  let (staves, shift) := shiftFrom perGap s.staves true 0
  ⟨staves, s.height + shift⟩

end StaffStack

end ScoreLayout
