import Mathlib.Tactic.Common
import ScoreLayout.Layout.Alignment

/-!
# Locations on a staff

Locations are counted in 32 bits. What goes into the location of a pitch under a clef, and into those
at which rests stand, is small, so that none of the steps on the way leaves this range. An explicit
location may lie so far below the staff that its distance from the top line is out of reach.

## Main definitions

* `Clef.CountsExactly` — locations are counted as without any bounds.
* `Node.OutOfReach` — a symbol with an explicit location out of reach.

## Main results

* `Clef.counts_exactly` — every step to a location, and the locations that are in reach.
* `AlignState.reach_eq` — only explicit locations are out of reach.
-/

namespace ScoreLayout

/-! ### Counting in 32 bits -/

section Counting

variable {a b : Int32} {x y : Int} (ha : a.toInt = x) (hb : b.toInt = y)

include ha hb

theorem toInt_add_of_bounds (hlow : -2147483648 ≤ x + y) (hhigh : x + y < 2147483648) :
    (a + b).toInt = x + y := by
  rw [Int32.toInt_add, ha, hb, Int.bmod_eq_of_le] <;> omega

theorem toInt_sub_of_bounds (hlow : -2147483648 ≤ x - y) (hhigh : x - y < 2147483648) :
    (a - b).toInt = x - y := by
  rw [Int32.toInt_sub, ha, hb, Int.bmod_eq_of_le] <;> omega

theorem toInt_mul_of_bounds (hlow : -2147483648 ≤ x * y) (hhigh : x * y < 2147483648) :
    (a * b).toInt = x * y := by
  rw [Int32.toInt_mul, ha, hb, Int.bmod_eq_of_le] <;> omega

end Counting

theorem PitchName.step_lt (name : PitchName) : name.step < 7 := by cases name <;> decide

theorem lineCount_bounds (lines : UInt8) : 1 ≤ lineCount lines ∧ lineCount lines ≤ 255 :=
  ⟨Nat.le_max_right _ _, Nat.max_le.2 ⟨Nat.le_of_lt_succ lines.toNat_lt, by decide⟩⟩

/-- The lines above the lowest one. -/
theorem toInt_middleLoc (lines : UInt8) : (middleLoc lines).toInt = lineCount lines - 1 := by
  obtain ⟨hlow, hhigh⟩ := lineCount_bounds lines
  have hcount : (Int32.ofNat (lineCount lines)).toInt = lineCount lines :=
    Int32.toInt_ofNat_of_lt (by omega)
  exact toInt_sub_of_bounds hcount rfl (by omega) (by omega)

theorem toInt_topLoc (lines : UInt8) : (topLoc lines).toInt = (lineCount lines - 1) * 2 := by
  obtain ⟨hlow, hhigh⟩ := lineCount_bounds lines
  exact toInt_mul_of_bounds (toInt_middleLoc lines) rfl (by omega) (by omega)

/-- The locations in reach are all but the lowest. -/
theorem isInReach_iff {lines : UInt8} {loc : Int32} :
    IsInReach lines loc ↔ (topLoc lines).toInt - 2147483647 ≤ loc.toInt := by
  have htop := toInt_topLoc lines
  have hbounds := lineCount_bounds lines
  have hlow := loc.le_toInt
  have hhigh := loc.toInt_lt
  refine ⟨fun h => ?_, fun h => toInt_sub_of_bounds rfl rfl (by omega) (by omega)⟩
  have hmax := (topLoc lines - loc).toInt_lt
  rw [IsInReach] at h
  omega

/-! ### Steps to a location -/

namespace Clef

/-- Every step to a location gives the number that it would give without bounds: to the location of a
pitch under a clef, to those at which rests stand, and to the one of the top line. -/
structure CountsExactly (c : Clef) (p : Pitch) (lines : UInt8) : Prop where
  octaves : (p.octave.toInt32 * 7).toInt = p.octave.toInt * 7
  diatonic : p.diatonic.toInt = p.octave.toInt * 7 + p.name.step
  shifted : (c.shape.octave + c.octaveShift.toInt32).toInt =
    c.shape.octave.toInt + c.octaveShift.toInt
  shiftedOctaves : ((c.shape.octave + c.octaveShift.toInt32) * 7).toInt =
    (c.shape.octave.toInt + c.octaveShift.toInt) * 7
  referenceDiatonic : c.referenceDiatonic.toInt =
    (c.shape.octave.toInt + c.octaveShift.toInt) * 7 + c.shape.step.toInt
  line : (.ofNat (Nat.max c.line.toNat 1) - 1 : Int32).toInt = (Nat.max c.line.toNat 1 : Nat) - 1
  referenceLoc : c.referenceLoc.toInt = ((Nat.max c.line.toNat 1 : Nat) - 1) * 2
  interval : (p.diatonic - c.referenceDiatonic).toInt = p.diatonic.toInt - c.referenceDiatonic.toInt
  loc : (c.locOf p).toInt =
    p.diatonic.toInt - c.referenceDiatonic.toInt + c.referenceLoc.toInt
  middle : (middleLoc lines).toInt = lineCount lines - 1
  aboveMiddle : (middleLoc lines + 2).toInt = (middleLoc lines).toInt + 2
  top : (topLoc lines).toInt = (lineCount lines - 1) * 2

theorem countsExactly (c : Clef) (p : Pitch) (lines : UInt8) : c.CountsExactly p lines := by
  have hoctaveLow := p.octave.le_toInt
  have hoctaveHigh := p.octave.toInt_lt
  have hshiftLow := c.octaveShift.le_toInt
  have hshiftHigh := c.octaveShift.toInt_lt
  have hname := p.name.step_lt
  have hstep : (Int32.ofNat p.name.step).toInt = p.name.step := Int32.toInt_ofNat_of_lt (by omega)
  have hshape : 3 ≤ c.shape.octave.toInt ∧ c.shape.octave.toInt ≤ 4 ∧ 0 ≤ c.shape.step.toInt ∧
      c.shape.step.toInt ≤ 4 := by
    cases c.shape <;> decide
  have hoctaves : (p.octave.toInt32 * 7).toInt = p.octave.toInt * 7 :=
    toInt_mul_of_bounds p.octave.toInt_toInt32 rfl (by omega) (by omega)
  have hdiatonic : p.diatonic.toInt = p.octave.toInt * 7 + p.name.step :=
    toInt_add_of_bounds hoctaves hstep (by omega) (by omega)
  have hshifted : (c.shape.octave + c.octaveShift.toInt32).toInt =
      c.shape.octave.toInt + c.octaveShift.toInt :=
    toInt_add_of_bounds rfl c.octaveShift.toInt_toInt32 (by omega) (by omega)
  have hshiftedOctaves : ((c.shape.octave + c.octaveShift.toInt32) * 7).toInt =
      (c.shape.octave.toInt + c.octaveShift.toInt) * 7 :=
    toInt_mul_of_bounds hshifted rfl (by omega) (by omega)
  have hreferenceDiatonic : c.referenceDiatonic.toInt =
      (c.shape.octave.toInt + c.octaveShift.toInt) * 7 + c.shape.step.toInt :=
    toInt_add_of_bounds hshiftedOctaves rfl (by omega) (by omega)
  -- the line of a clef is counted like the lines of a staff
  have hline : (middleLoc c.line).toInt = lineCount c.line - 1 := toInt_middleLoc c.line
  have hreferenceLoc : c.referenceLoc.toInt = (lineCount c.line - 1) * 2 := toInt_topLoc c.line
  have hlineBounds := lineCount_bounds c.line
  have hinterval : (p.diatonic - c.referenceDiatonic).toInt =
      p.diatonic.toInt - c.referenceDiatonic.toInt :=
    toInt_sub_of_bounds rfl rfl (by omega) (by omega)
  have hbounds := lineCount_bounds lines
  have hmiddle := toInt_middleLoc lines
  exact ⟨hoctaves, hdiatonic, hshifted, hshiftedOctaves, hreferenceDiatonic, hline, hreferenceLoc,
    hinterval, toInt_add_of_bounds hinterval rfl (by omega) (by omega), hmiddle,
    toInt_add_of_bounds rfl rfl (by omega) (by omega), toInt_topLoc lines⟩

end Clef

/-- The location of a pitch is in reach. -/
theorem isInReach_locOf (c : Clef) (p : Pitch) (lines : UInt8) : IsInReach lines (c.locOf p) := by
  have h := c.countsExactly p lines
  have hoctave := p.octave.le_toInt
  have hshift := c.octaveShift.toInt_lt
  have hbounds := lineCount_bounds lines
  have hline : 1 ≤ Nat.max c.line.toNat 1 := Nat.le_max_right _ _
  have hshape : c.shape.octave.toInt ≤ 4 ∧ c.shape.step.toInt ≤ 4 := by cases c.shape <;> decide
  rw [isInReach_iff, h.loc, h.diatonic, h.referenceDiatonic, h.referenceLoc, h.top]
  omega

/-- The locations at which rests stand are in reach. -/
theorem isInReach_middleLoc (lines : UInt8) :
    IsInReach lines (middleLoc lines) ∧ IsInReach lines (middleLoc lines + 2) := by
  have h := Clef.treble.countsExactly ⟨.c, 4, none⟩ lines
  have hbounds := lineCount_bounds lines
  rw [isInReach_iff, isInReach_iff, h.aboveMiddle, h.middle, h.top]
  omega

/-- Every step to a location is exact, and so is the distance of a location from the top line, unless
it is an explicit one among the lowest of all. -/
theorem Clef.counts_exactly (c : Clef) (p : Pitch) (lines : UInt8) : c.CountsExactly p lines ∧
    IsInReach lines (c.locOf p) ∧ IsInReach lines (middleLoc lines) ∧
    IsInReach lines (middleLoc lines + 2) ∧
    ∀ loc : Int32, IsInReach lines loc ↔ (topLoc lines).toInt - 2147483647 ≤ loc.toInt :=
  ⟨c.countsExactly p lines, isInReach_locOf c p lines, (isInReach_middleLoc lines).1,
    (isInReach_middleLoc lines).2, fun _ => isInReach_iff⟩

/-- Below a staff of five lines, the lowest location of all would be drawn far above it. -/
theorem lowest_out_of_reach : ¬ IsInReach 5 Int32.minValue ∧
    (topLoc 5 - Int32.minValue).toInt = -2147483640 ∧
    (topLoc 5).toInt - Int32.minValue.toInt = 2147483656 := by
  decide

/-! ### Symbols out of reach -/

/-- A symbol whose explicit location is out of reach, on whatever staff. -/
def Node.OutOfReach {α : Type} (n : Node α) : Prop :=
  ∃ e loc lines, n.kind = .element e ∧ e.loc? = some loc ∧ ¬ IsInReach lines loc

namespace AlignState

variable {α : Type} {s : AlignState α} {e : Element} {loc : Int32}

/-- A symbol with an explicit location is drawn there. -/
theorem location?_of_loc? (h : e.loc? = some loc) : s.location? e = some loc := by
  cases e with
  | note note =>
    rw [location?, Note.location, show note.loc = some loc from h]
    rfl
  | rest d explicit | measureRest visible explicit =>
    obtain rfl : explicit = some loc := h
    rfl
  | chord | space | beam | tuplet | clef | key | meter | barLine | multiRest => cases h

/-- A symbol without an explicit location is drawn in reach. -/
theorem isInReach_of_location? (h : s.location? e = some loc) (hloc : e.loc? = none) :
    IsInReach s.lines loc := by
  have hmiddle := isInReach_middleLoc s.lines
  cases e with
  | note note =>
    obtain rfl := Option.some.inj h
    rw [Note.location, show note.loc = none from hloc]
    exact isInReach_locOf ..
  | rest d explicit =>
    obtain rfl : explicit = none := hloc
    exact Option.some.inj h ▸ hmiddle.1
  | measureRest visible explicit =>
    obtain rfl : explicit = none := hloc
    exact Option.some.inj h ▸ hmiddle.2
  | multiRest => exact Option.some.inj h ▸ hmiddle.2
  | chord | space | beam | tuplet | clef | key | meter | barLine => cases h

/-- Only an explicit location may break the walk down. -/
theorem reach_eq (s : AlignState α) (e : Element) :
    s.reach e = if e.loc?.all fun loc => IsInReach s.lines loc then s
      else { s with fault := some .breakdown } := by
  rw [reach]
  cases hloc : e.loc? with
  | some loc =>
    rw [location?_of_loc? hloc]
    simp only [Option.all_some, decide_eq_true_eq]
  | none =>
    rw [if_pos Option.all_none]
    split
    · rename_i loc h
      exact if_pos (isInReach_of_location? h hloc)
    · rfl

end AlignState

end ScoreLayout
