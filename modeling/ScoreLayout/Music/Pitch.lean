import ScoreLayout.Scalar

/-!
# Pitches, clefs and staff locations

A pitch is counted diatonically, seven steps to the octave. A clef names a reference pitch on one of
the staff lines, and so gives every pitch a location: a number of half spaces above the bottom line.
Locations are counted in 32 bits, and explicit ones may lie anywhere in their range.

## Main definitions

* `Pitch.diatonic` — the step number of a pitch.
* `Clef.referenceDiatonic`, `Clef.referenceLoc` — the pitch that a clef names and where it lies.
* `Clef.locOf` — the location of a pitch under a clef.
* `IsInReach` — the distance of a location from the top line can be counted in 32 bits.
* `staffHeight`, `locToY` — the height of a staff and of a location below its top line.
-/

namespace ScoreLayout

/-- The names of the steps of an octave, in order. -/
inductive PitchName where
  | c
  | d
  | e
  | f
  | g
  | a
  | b
deriving DecidableEq, Repr

/-- The position of the name in the octave. -/
def PitchName.step : PitchName → Nat
  | c => 0
  | d => 1
  | e => 2
  | f => 3
  | g => 4
  | a => 5
  | b => 6

/-- Written accidentals. -/
inductive Accidental where
  | doubleFlat
  | flat
  | natural
  | sharp
  | doubleSharp
deriving DecidableEq, Repr

/-- A written pitch. -/
structure Pitch where
  name : PitchName
  octave : Int8
  accidental : Option Accidental
deriving DecidableEq, Repr

/-- The number of diatonic steps above the lowest pitch of octave zero. -/
def Pitch.diatonic (p : Pitch) : Int32 := p.octave.toInt32 * 7 + .ofNat p.name.step

/-- The shapes of clefs. -/
inductive ClefShape where
  | g
  | f
  | c
  | perc
deriving DecidableEq, Repr

/-- The octave of the pitch that a clef names without an octave shift. -/
def ClefShape.octave : ClefShape → Int32
  | g => 4
  | f => 3
  | c | perc => 4

/-- The step of the pitch that a clef names. -/
def ClefShape.step : ClefShape → Int32
  | g => 4
  | f => 3
  | c | perc => 0

/-- A clef on a staff line, counted from one at the bottom, with an octave shift. -/
structure Clef where
  shape : ClefShape
  line : UInt8
  octaveShift : Int8
deriving DecidableEq, Repr

namespace Clef

/-- The clef of a shape on a line, without an octave shift. -/
def ofShape (shape : ClefShape) (line : UInt8) : Clef := ⟨shape, line, 0⟩

/-- The G clef on the second line, which is assumed where no clef is given. -/
def treble : Clef := ofShape .g 2

/-- The F clef on the fourth line. -/
def bass : Clef := ofShape .f 4

/-- The C clef on the third line. -/
def alto : Clef := ofShape .c 3

instance : Inhabited Clef := ⟨treble⟩

/-- The step number of the pitch that the clef names. -/
def referenceDiatonic (c : Clef) : Int32 :=
  (c.shape.octave + c.octaveShift.toInt32) * 7 + c.shape.step

/-- The location of the pitch that the clef names. -/
def referenceLoc (c : Clef) : Int32 := (.ofNat (Nat.max c.line.toNat 1) - 1) * 2

/-- The location of a pitch under the clef. -/
def locOf (c : Clef) (p : Pitch) : Int32 := p.diatonic - c.referenceDiatonic + c.referenceLoc

end Clef

/-- The number of lines of a staff, at least one. -/
def lineCount (lines : UInt8) : Nat := Nat.max lines.toNat 1

/-- The location of the top line. -/
def topLoc (lines : UInt8) : Int32 := (.ofNat (lineCount lines) - 1) * 2

/-- The location halfway between the outer lines. -/
def middleLoc (lines : UInt8) : Int32 := .ofNat (lineCount lines) - 1

/-- Whether the distance of a location from the top line can be counted in 32 bits. -/
def IsInReach (lines : UInt8) (loc : Int32) : Prop :=
  (topLoc lines - loc).toInt = (topLoc lines).toInt - loc.toInt

instance (lines : UInt8) (loc : Int32) : Decidable (IsInReach lines loc) :=
  inferInstanceAs (Decidable (_ = _))

section Scalar

variable {α : Type} [Scalar α]

/-- The distance between the outer lines of a staff; `unit` is half a space. -/
def staffHeight (lines : UInt8) (unit : α) : α := Scalar.ofNat (lineCount lines - 1) * 2 * unit

/-- The distance of a location below the top line, if it is in reach. -/
def locToY (loc : Int32) (lines : UInt8) (unit : α) : α :=
  Scalar.ofInt (topLoc lines - loc).toInt * unit

end Scalar

end ScoreLayout
