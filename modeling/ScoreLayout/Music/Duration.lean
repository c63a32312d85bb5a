import ScoreLayout.Fraction

/-!
# Durations

A written duration is a note value with augmentation dots and a ratio; enclosing tuplets contribute
further ratios. It resolves to an exact time in whole notes, or to a reason why it has none.

## Main definitions

* `NoteValue` — the note values from the long down to the 256th, each half of the one before.
* `TupletRatio` — the product of the enclosing ratios, `num` notes in the time of `base`.
* `Duration.resolve` — the time that a written duration takes inside a tuplet.
* `Duration.advance` — the time by which it moves its layer on: none for a grace note.
-/

namespace ScoreLayout

/-- Note values, each lasting half as long as the one before. -/
inductive NoteValue where
  | long
  | breve
  | whole
  | half
  | quarter
  | eighth
  | n16
  | n32
  | n64
  | n128
  | n256
deriving DecidableEq, Repr

namespace NoteValue

/-- The position in the row of note values, counted from the long. -/
def code : NoteValue → Nat
  | long => 0
  | breve => 1
  | whole => 2
  | half => 3
  | quarter => 4
  | eighth => 5
  | n16 => 6
  | n32 => 7
  | n64 => 8
  | n128 => 9
  | n256 => 10

/-- All note values in the order of their codes. -/
def all : List NoteValue :=
  [long, breve, whole, half, quarter, eighth, n16, n32, n64, n128, n256]

/-- The note value with a code. -/
def ofCode? (code : Nat) : Option NoteValue := all[code]?

@[simp] theorem ofCode?_code (v : NoteValue) : ofCode? v.code = some v := by cases v <;> rfl

/-- The undotted time in whole notes: `2 ^ (2 - code)`. -/
def wholeNotes (v : NoteValue) : Fraction := (Fraction.reduced? 4 (Int.pow 2 v.code)).getD 0

/-- Whether notes of this value have a stem: all from the half note on. -/
def hasStem (v : NoteValue) : Bool := half.code ≤ v.code

end NoteValue

/-- Why a written duration takes no time. -/
inductive DurationError where
  /-- Neither a note value nor a performed time is given. -/
  | missing
  /-- A ratio has a zero term. -/
  | zeroRatio (num base : Int)
  /-- The performed time is below zero. -/
  | negative (time : Fraction)
  /-- The exact time does not fit two words. -/
  | overflow
  /-- Computing the time breaks down. -/
  | breakdown
deriving DecidableEq

/-- The wording of the reason. A breakdown has none: it ends the computation. -/
def DurationError.message? : DurationError → Option String
  | missing => some "missing duration"
  | zeroRatio num base => some s!"tuplet ratio with a zero term ({num}:{base})"
  | negative time => some ("negative duration " ++ time.text)
  | overflow => some "duration arithmetic overflow"
  | breakdown => none

/-- The reason that an error on words gives. -/
def DurationError.ofWord : WordError → DurationError
  | .overflow => overflow
  | .breakdown => breakdown

/-- The product of nested ratios: `num` notes in the time of `base`. -/
structure TupletRatio where
  num : Int
  base : Int
deriving DecidableEq, Repr

namespace TupletRatio

/-- The ratio outside of every tuplet. -/
def one : TupletRatio := ⟨1, 1⟩

/-- The ratio inside a further tuplet. -/
def combine (r : TupletRatio) (num base : Int) : Except DurationError TupletRatio :=
  match word? (r.num * num), word? (r.base * base) with
  | some num, some base => .ok ⟨num, base⟩
  | _, _ => .error .overflow

/-- The factor by which the ratio multiplies a written time. -/
def factor (r : TupletRatio) : Except DurationError Fraction :=
  if r.num = 0 ∨ r.base = 0 then .error (.zeroRatio r.num r.base)
  else
    match Fraction.reduced? r.base r.num with
    | some factor => .ok factor
    | none => .error .breakdown

end TupletRatio

/-- A duration as written. -/
structure Duration where
  /-- The note value, absent when none could be read. -/
  value : Option NoteValue
  dots : UInt8
  /-- The ratio of the element itself: so many notes in the time of `ratioBase`. -/
  ratioNum : Option UInt32
  ratioBase : Option UInt32
  /-- The performed time in whole notes, which overrides the written one. -/
  performed : Option Fraction
  /-- Grace notes move time on by nothing. -/
  grace : Bool
deriving DecidableEq

namespace Duration

/-- Nothing written. -/
def empty : Duration := ⟨none, 0, none, none, none, false⟩

/-- An undotted note value. -/
def ofValue (v : NoteValue) : Duration := { empty with value := some v }

/-- Dots beyond the eighth count for nothing. -/
def countedDots (d : Duration) : Nat := Nat.min d.dots.toNat 8

/-- A time with `dots` dots: twice the time less the time of the last dot. -/
def dotted? (time : Fraction) (dots : Nat) : Option Fraction := do
  let doubled ← time.mul? (← Fraction.ofParts? 2 1)
  let lastDot ← time.div? (← Fraction.ofParts? (Int.pow 2 dots) 1)
  doubled.sub? lastDot

/-- The reason for a result that is missing because of its size. -/
def orOverflow {β : Type} : Option β → Except DurationError β
  | some b => .ok b
  | none => .error .overflow

/-- The time that the duration takes inside a tuplet. -/
def resolve (d : Duration) (tuplet : TupletRatio) : Except DurationError Fraction :=
  match d.performed, d.value with
  | some time, _ =>
    if ¬ time.HasWhole then .error .breakdown
    else if time < 0 then .error (.negative time)
    else .ok time
  | none, none => .error .missing
  | none, some value => do
    let ratio ← tuplet.combine ((d.ratioNum.map fun n => (n.toNat : Int)).getD 1)
      ((d.ratioBase.map fun n => (n.toNat : Int)).getD 1)
    let time ← orOverflow (value.wholeNotes.mul? (← ratio.factor))
    if d.dots = 0 then return time
    else orOverflow (dotted? time d.countedDots)

/-- The time by which the duration moves its layer on. -/
def advance (d : Duration) (tuplet : TupletRatio) : Except DurationError Fraction :=
  if d.grace then .ok 0 else d.resolve tuplet

end Duration

end ScoreLayout
