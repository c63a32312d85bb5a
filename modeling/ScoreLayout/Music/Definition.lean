import ScoreLayout.Fraction
import ScoreLayout.Music.Pitch

/-!
# Score definitions

The score definition lists the staves with their clefs and gives the initial key and meter. Changes
inside the score override it from there on; what is in force at a point of the score is the score
definition folded over all earlier changes.

## Main definitions

* `ScoreDefinition` — the staves of the score and the initial key and meter.
* `DefinitionChange` — a change between measures.
* `Signatures` — the clefs, the key and the meter in force at a point of the score.
* `Signatures.ofDefinition`, `Signatures.applyChange` — the start of that fold and its step.
-/

namespace ScoreLayout

/-- A key signature: the number of sharps, negative for flats. -/
structure KeySig where
  fifths : Int8
deriving DecidableEq, Repr

/-- The number of accidentals drawn. -/
def KeySig.accidentalCount (k : KeySig) : Nat := k.fifths.toInt.natAbs

instance : Inhabited KeySig := ⟨⟨0⟩⟩

/-- A meter signature: `count` beats of which `unit` make a whole note. -/
structure MeterSig where
  count : UInt32
  unit : UInt32
deriving DecidableEq, Repr

instance : Inhabited MeterSig := ⟨⟨4, 4⟩⟩

namespace MeterSig

/-- The number of beats in a whole note, at least one. -/
def beatsPerWhole (m : MeterSig) : Nat := Nat.max m.unit.toNat 1

/-- The nominal length of a measure. -/
def measureDuration (m : MeterSig) : Fraction :=
  (Fraction.reduced? m.count.toNat m.beatsPerWhole).getD 0

/-- The length of a beat. -/
def beatDuration (m : MeterSig) : Fraction := (Fraction.reduced? 1 m.beatsPerWhole).getD 0

end MeterSig

/-- The definition of one staff. -/
structure StaffDefinition where
  /-- The number by which the staves of the measures refer to the definition. -/
  n : UInt32
  lines : UInt8
  clef : Clef
  key : Option KeySig
  meter : Option MeterSig
  /-- Hidden staves take no vertical room. -/
  hidden : Bool
  label : Option String
deriving DecidableEq

/-- Staves have five lines unless they say otherwise. -/
def defaultLines : UInt8 := 5

/-- A visible staff of five lines. -/
def StaffDefinition.ofClef (n : UInt32) (clef : Clef) : StaffDefinition :=
  ⟨n, defaultLines, clef, none, none, false, none⟩

/-- The definition of the whole score. -/
structure ScoreDefinition where
  staves : List StaffDefinition
  key : Option KeySig
  meter : Option MeterSig
deriving DecidableEq

namespace ScoreDefinition

/-- A score without staves. -/
def empty : ScoreDefinition := ⟨[], none, none⟩

instance : Inhabited ScoreDefinition := ⟨empty⟩

/-- The first definition of a staff number. -/
def staff? (d : ScoreDefinition) (n : UInt32) : Option StaffDefinition :=
  d.staves.find? fun s => s.n = n

/-- The number of lines of a staff. -/
def linesOf (d : ScoreDefinition) (n : UInt32) : UInt8 :=
  ((d.staff? n).map StaffDefinition.lines).getD defaultLines

end ScoreDefinition

/-- A clef for one staff. -/
structure StaffClef where
  n : UInt32
  clef : Clef
deriving DecidableEq, Repr

/-- A change of the score definition between measures. -/
structure DefinitionChange where
  key : Option KeySig
  meter : Option MeterSig
  clefs : List StaffClef
deriving DecidableEq, Repr

/-- What a symbol says about the signatures in force. -/
structure SignatureChange where
  clef : Option Clef
  key : Option KeySig
  meter : Option MeterSig
deriving DecidableEq, Repr

/-- A staff definition seen as a change. -/
def StaffDefinition.toChange (s : StaffDefinition) : SignatureChange :=
  ⟨some s.clef, s.key, s.meter⟩

/-- A score definition seen as a change; it names no clef. -/
def ScoreDefinition.toChange (d : ScoreDefinition) : SignatureChange := ⟨none, d.key, d.meter⟩

/-- The key and meter of a change between measures. -/
def DefinitionChange.toChange (c : DefinitionChange) : SignatureChange := ⟨none, c.key, c.meter⟩

/-- The clefs, the key and the meter in force at a point of the score. -/
structure Signatures where
  clefs : List (UInt32 × Clef)
  key : KeySig
  meter : MeterSig
deriving DecidableEq, Repr

namespace Signatures

instance : Inhabited Signatures := ⟨⟨[], default, default⟩⟩

/-- The clef of a staff. -/
def clef (s : Signatures) (n : UInt32) : Clef := (s.clefs.lookup n).getD default

/-- The signatures with one clef replaced. -/
def setClef (s : Signatures) (n : UInt32) (clef : Clef) : Signatures :=
  { s with clefs := (n, clef) :: s.clefs.filter fun entry => entry.1 ≠ n }

/-- The signatures with the key and the meter of a change. -/
def apply (s : Signatures) (c : SignatureChange) : Signatures :=
  { s with key := c.key.getD s.key, meter := c.meter.getD s.meter }

/-- The signatures with several clefs replaced in turn. -/
def setClefs (s : Signatures) (clefs : List (UInt32 × Clef)) : Signatures :=
  clefs.foldl (fun s entry => s.setClef entry.1 entry.2) s

/-- The signatures with everything that a change between measures carries. -/
def applyChange (s : Signatures) (c : DefinitionChange) : Signatures :=
  (s.apply c.toChange).setClefs (c.clefs.map fun entry => (entry.n, entry.clef))

/-- The signatures at the start of the score. The key and the meter are those of the score, else of
its first staff, else the common ones. -/
def ofDefinition (d : ScoreDefinition) : Signatures :=
  let first := d.staves.head?
  { (default : Signatures).setClefs (d.staves.map fun s => (s.n, s.clef)) with
    key := (d.key <|> first.bind StaffDefinition.key).getD default
    meter := (d.meter <|> first.bind StaffDefinition.meter).getD default }

@[simp] theorem key_setClef (s : Signatures) (n : UInt32) (c : Clef) :
    (s.setClef n c).key = s.key := rfl

@[simp] theorem meter_setClef (s : Signatures) (n : UInt32) (c : Clef) :
    (s.setClef n c).meter = s.meter := rfl

end Signatures

end ScoreLayout
