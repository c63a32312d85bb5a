import ScoreLayout.Json.Basic
import ScoreLayout.Music.Control
import ScoreLayout.Music.Element

/-!
# The music as JSON

Each kind of value has a writer and a reader. A writer gives every field, with null for what is
absent; a reader takes fields in any order, passes over unknown ones, and lets those with a natural
default be left out.

## Main definitions

* `Element.toJson`, `Element.ofJson?` — symbols, told apart by their field `type`.
* `Control.toJson`, `Control.ofJson?` — control elements, likewise.
* `ScoreDefinition.toJson`, `ScoreDefinition.ofJson?`, `DefinitionChange.toJson`,
  `DefinitionChange.ofJson?` — score definitions and their changes.
-/

namespace ScoreLayout

open Json (ofOption ofName ofFraction)

variable {α : Type}

/-! ## Durations and pitches -/

/-- The note value with a code. -/
def NoteValue.ofJson? (j : Json α) : Option NoteValue :=
  (j.toInt? 0 255).bind fun code => ofCode? code.toNat

/-- A note value is written as its code. -/
def NoteValue.toJson (v : NoteValue) : Json α := .int v.code

namespace Duration

/-- The names of the fields of a duration. -/
def fieldNames : List String := ["base", "dots", "num", "numbase", "dur_ges", "grace"]

/-- A duration from its fields. -/
def ofJson? (j : Json α) : Option Duration := do
  let r ← Json.Record.ofJson? fieldNames j
  return {
    value := ← r.nullable "base" NoteValue.ofJson?
    dots := ← r.withDefault "dots" Json.toUInt8? 0
    ratioNum := ← r.optional "num" Json.toUInt32?
    ratioBase := ← r.optional "numbase" Json.toUInt32?
    performed := ← r.optional "dur_ges" Json.toFraction?
    grace := ← r.withDefault "grace" Json.toBool? false }

/-- The fields of a duration. -/
def toJson (d : Duration) : Json α :=
  .object [
    ("base", ofOption NoteValue.toJson d.value),
    ("dots", .int d.dots.toNat),
    ("num", ofOption (fun n => .int n.toNat) d.ratioNum),
    ("numbase", ofOption (fun n => .int n.toNat) d.ratioBase),
    ("dur_ges", ofOption ofFraction d.performed),
    ("grace", .bool d.grace)]

end Duration

/-- The written names of the steps. -/
def PitchName.names : List (String × PitchName) :=
  [("c", .c), ("d", .d), ("e", .e), ("f", .f), ("g", .g), ("a", .a), ("b", .b)]

/-- The written names of the accidentals. -/
def Accidental.names : List (String × Accidental) :=
  [("double-flat", .doubleFlat), ("flat", .flat), ("natural", .natural), ("sharp", .sharp),
    ("double-sharp", .doubleSharp)]

/-- The written names of the clef shapes. -/
def ClefShape.names : List (String × ClefShape) :=
  [("g", .g), ("f", .f), ("c", .c), ("perc", .perc)]

/-- A pitch from its fields, with readers of its names. -/
def Pitch.ofFields? (step : Json.Decoder α PitchName) (accidental : Json.Decoder α Accidental)
    (j : Json α) : Option Pitch := do
  let r ← Json.Record.ofJson? ["pname", "oct", "accid"] j
  return {
    name := ← r.required "pname" step
    octave := ← r.required "oct" Json.toInt8?
    accidental := ← r.optional "accid" accidental }

/-- A pitch from its fields. -/
def Pitch.ofJson? : Json.Decoder α Pitch :=
  ofFields? (Json.toName? PitchName.names) (Json.toName? Accidental.names)

/-- A pitch from its fields inside a symbol. -/
def Pitch.ofJsonWithin? : Json.Decoder α Pitch :=
  ofFields? (Json.toNameWithin? PitchName.names) (Json.toNameWithin? Accidental.names)

/-- The fields of a pitch. -/
def Pitch.toJson (p : Pitch) : Json α :=
  .object [
    ("pname", ofName PitchName.names p.name),
    ("oct", .int p.octave.toInt),
    ("accid", ofOption (ofName Accidental.names) p.accidental)]

/-! ## Signatures and score definitions -/

/-- A clef from its fields, with a reader of its shape. -/
def Clef.ofFields? (shape : Json.Decoder α ClefShape) (j : Json α) : Option Clef := do
  let r ← Json.Record.ofJson? ["shape", "line", "octave_displacement"] j
  return {
    shape := ← r.required "shape" shape
    line := ← r.required "line" Json.toUInt8?
    octaveShift := ← r.withDefault "octave_displacement" Json.toInt8? 0 }

/-- A clef from its fields. -/
def Clef.ofJson? : Json.Decoder α Clef := ofFields? (Json.toName? ClefShape.names)

/-- A clef from its fields inside a symbol. -/
def Clef.ofJsonWithin? : Json.Decoder α Clef := ofFields? (Json.toNameWithin? ClefShape.names)

/-- The fields of a clef. -/
def Clef.toJson (c : Clef) : Json α :=
  .object [
    ("shape", ofName ClefShape.names c.shape),
    ("line", .int c.line.toNat),
    ("octave_displacement", .int c.octaveShift.toInt)]

/-- A key signature from its field. -/
def KeySig.ofJson? (j : Json α) : Option KeySig := do
  let r ← Json.Record.ofJson? ["fifths"] j
  return ⟨← r.required "fifths" Json.toInt8?⟩

/-- The field of a key signature. -/
def KeySig.toJson (k : KeySig) : Json α := .object [("fifths", .int k.fifths.toInt)]

/-- A meter signature from its fields. -/
def MeterSig.ofJson? (j : Json α) : Option MeterSig := do
  let r ← Json.Record.ofJson? ["count", "unit"] j
  return ⟨← r.required "count" Json.toUInt32?, ← r.required "unit" Json.toUInt32?⟩

/-- The fields of a meter signature. -/
def MeterSig.toJson (m : MeterSig) : Json α :=
  .object [("count", .int m.count.toNat), ("unit", .int m.unit.toNat)]

/-- The definition of a staff from its fields. -/
def StaffDefinition.ofJson? (j : Json α) : Option StaffDefinition := do
  let r ← Json.Record.ofJson? ["n", "lines", "clef", "key", "meter", "hidden", "label"] j
  return {
    n := ← r.required "n" Json.toUInt32?
    lines := ← r.withDefault "lines" Json.toUInt8? defaultLines
    clef := ← r.withDefault "clef" Clef.ofJson? default
    key := ← r.optional "key" KeySig.ofJson?
    meter := ← r.optional "meter" MeterSig.ofJson?
    hidden := ← r.withDefault "hidden" Json.toBool? false
    label := ← r.optional "label" Json.toText? }

/-- The fields of the definition of a staff. -/
def StaffDefinition.toJson (s : StaffDefinition) : Json α :=
  .object [
    ("n", .int s.n.toNat),
    ("lines", .int s.lines.toNat),
    ("clef", s.clef.toJson),
    ("key", ofOption KeySig.toJson s.key),
    ("meter", ofOption MeterSig.toJson s.meter),
    ("hidden", .bool s.hidden),
    ("label", ofOption .text s.label)]

/-- The definition of a score from its fields. -/
def ScoreDefinition.ofJson? (j : Json α) : Option ScoreDefinition := do
  let r ← Json.Record.ofJson? ["staff_defs", "key", "meter"] j
  return {
    staves := ← r.required "staff_defs" (Json.toList? StaffDefinition.ofJson?)
    key := ← r.optional "key" KeySig.ofJson?
    meter := ← r.optional "meter" MeterSig.ofJson? }

/-- The fields of the definition of a score. -/
def ScoreDefinition.toJson (d : ScoreDefinition) : Json α :=
  .object [
    ("staff_defs", .list (d.staves.map StaffDefinition.toJson)),
    ("key", ofOption KeySig.toJson d.key),
    ("meter", ofOption MeterSig.toJson d.meter)]

/-- The clef of a staff from its fields. -/
def StaffClef.ofJson? (j : Json α) : Option StaffClef := do
  let r ← Json.Record.ofJson? ["n", "clef"] j
  return ⟨← r.required "n" Json.toUInt32?, ← r.required "clef" Clef.ofJson?⟩

/-- The fields of the clef of a staff. -/
def StaffClef.toJson (s : StaffClef) : Json α :=
  .object [("n", .int s.n.toNat), ("clef", s.clef.toJson)]

/-- A change of the score definition from its fields. -/
def DefinitionChange.ofJson? (j : Json α) : Option DefinitionChange := do
  let r ← Json.Record.ofJson? ["key", "meter", "clefs"] j
  return {
    key := ← r.optional "key" KeySig.ofJson?
    meter := ← r.optional "meter" MeterSig.ofJson?
    clefs := ← r.withDefault "clefs" (Json.toList? StaffClef.ofJson?) [] }

/-- The fields of a change of the score definition. -/
def DefinitionChange.toJson (c : DefinitionChange) : Json α :=
  .object [
    ("key", ofOption KeySig.toJson c.key),
    ("meter", ofOption MeterSig.toJson c.meter),
    ("clefs", .list (c.clefs.map StaffClef.toJson))]

/-! ## Layer elements -/

/-- The written names of the forms of a barline. -/
def BarLineForm.names : List (String × BarLineForm) :=
  [("single", .single), ("double", .double), ("end", .final), ("rptstart", .repeatStart),
    ("rptend", .repeatEnd), ("dashed", .dashed), ("invisible", .invisible)]

/-- The form of a barline from its name. -/
def BarLineForm.ofJson? (j : Json α) : Option BarLineForm := j.toName? names

/-- The form of a barline from its name inside a symbol. -/
def BarLineForm.ofJsonWithin? (j : Json α) : Option BarLineForm := j.toNameWithin? names

/-- The name of the form of a barline. -/
def BarLineForm.toJson (f : BarLineForm) : Json α := ofName names f

namespace Element

/-- A symbol of some kind from its fields. -/
def ofFields? (kind : String) (j : Json α) : Option Element :=
  match kind with
  | "note" => do
    let r ← Json.Record.ofJson? ["duration", "pitch", "loc", "cue"] j
    return note {
      duration := ← r.withDefault "duration" Duration.ofJson? .empty
      pitch := ← r.required "pitch" Pitch.ofJsonWithin?
      loc := ← r.optional "loc" Json.toInt32?
      cue := ← r.withDefault "cue" Json.toBool? false }
  | "rest" => do
    let r ← Json.Record.ofJson? ["duration", "loc"] j
    return rest (← r.required "duration" Duration.ofJson?) (← r.optional "loc" Json.toInt32?)
  | "chord" => do
    let r ← Json.Record.ofJson? ["duration"] j
    return chord (← r.required "duration" Duration.ofJson?)
  | "space" => do
    let r ← Json.Record.ofJson? ["duration"] j
    return space (← r.required "duration" Duration.ofJson?)
  | "mrest" => do
    let r ← Json.Record.ofJson? ["visible", "loc"] j
    return measureRest (← r.withDefault "visible" Json.toBool? true)
      (← r.optional "loc" Json.toInt32?)
  | "multirest" => do
    let r ← Json.Record.ofJson? ["num", "visible"] j
    return multiRest (← r.required "num" Json.toUInt32?)
      (← r.withDefault "visible" Json.toBool? true)
  | "beam" => do
    let _ ← Json.Record.ofJson? [] j
    return beam
  | "tuplet" => do
    let r ← Json.Record.ofJson? ["num", "numbase"] j
    return tuplet (← r.required "num" Json.toUInt32?) (← r.required "numbase" Json.toUInt32?)
  | "clef" => do
    let r ← Json.Record.ofJson? ["clef"] j
    return clef (← r.required "clef" Clef.ofJsonWithin?)
  | "keysig" => do
    let r ← Json.Record.ofJson? ["key"] j
    return key (← r.required "key" KeySig.ofJson?)
  | "metersig" => do
    let r ← Json.Record.ofJson? ["meter"] j
    return meter (← r.required "meter" MeterSig.ofJson?)
  | "barline" => do
    let r ← Json.Record.ofJson? ["form"] j
    return barLine (← r.withDefault "form" BarLineForm.ofJsonWithin? default)
  | _ => none

/-- A symbol from its fields, of which `type` names its kind. -/
def ofJson? (j : Json α) : Option Element := do
  let (kind, fields) ← j.toTagged? "type"
  ofFields? kind fields

/-- A location that may be absent. -/
def locToJson (loc : Option Int32) : Json α := ofOption (fun l => .int l.toInt) loc

/-- The fields of a symbol. -/
def toJson : Element → Json α
  | note n => .object [("type", .text "note"), ("duration", n.duration.toJson),
      ("pitch", n.pitch.toJson), ("loc", locToJson n.loc), ("cue", .bool n.cue)]
  | rest d loc => .object [("type", .text "rest"), ("duration", d.toJson), ("loc", locToJson loc)]
  | chord d => .object [("type", .text "chord"), ("duration", d.toJson)]
  | space d => .object [("type", .text "space"), ("duration", d.toJson)]
  | measureRest visible loc =>
    .object [("type", .text "mrest"), ("visible", .bool visible), ("loc", locToJson loc)]
  | multiRest num visible =>
    .object [("type", .text "multirest"), ("num", .int num.toNat), ("visible", .bool visible)]
  | beam => .object [("type", .text "beam")]
  | tuplet num base =>
    .object [("type", .text "tuplet"), ("num", .int num.toNat), ("numbase", .int base.toNat)]
  | clef c => .object [("type", .text "clef"), ("clef", c.toJson)]
  | key k => .object [("type", .text "keysig"), ("key", k.toJson)]
  | meter m => .object [("type", .text "metersig"), ("meter", m.toJson)]
  | barLine form => .object [("type", .text "barline"), ("form", form.toJson)]

end Element

/-! ## Control elements -/

section Control

variable [Scalar α]

/-- The written names of the sides of a curve. -/
def CurveSide.names : List (String × CurveSide) := [("above", .above), ("below", .below)]

/-- The written names of the forms of a hairpin. -/
def HairpinForm.names : List (String × HairpinForm) := [("cres", .crescendo), ("dim", .diminuendo)]

/-- The written names of the placements. -/
def Placement.names : List (String × Placement) := [("above", .above), ("below", .below)]

/-- A point in time from fields among those of its element. -/
def TimePoint.ofRecord? (r : Json.Record α) : Option (TimePoint α) := do
  return {
    startId := ← r.optional "startid" Json.toText?
    tstamp := ← r.optional "tstamp" Json.toScalar?
    staff := ← r.optional "staff" Json.toUInt32? }

/-- A span of time from fields among those of its element. -/
def TimeSpan.ofRecord? (r : Json.Record α) : Option (TimeSpan α) := do
  let start ← TimePoint.ofRecord? r
  return { start with
    endId := ← r.optional "endid" Json.toText?
    tstamp2 := ← r.optional "tstamp2" (Json.toPair? Json.toUInt32? Json.toScalar?) }

omit [Scalar α] in
/-- The fields of a point in time. -/
def TimePoint.toFields (p : TimePoint α) : List (String × Json α) :=
  [("startid", ofOption .text p.startId), ("tstamp", ofOption .float p.tstamp),
    ("staff", ofOption (fun n => .int n.toNat) p.staff)]

omit [Scalar α] in
/-- The fields of a span of time. -/
def TimeSpan.toFields (s : TimeSpan α) : List (String × Json α) :=
  s.toTimePoint.toFields ++
    [("endid", ofOption .text s.endId),
      ("tstamp2", ofOption (fun p => .list [.int p.1.toNat, .float p.2]) s.tstamp2)]

namespace Control

/-- A control element of some kind from its fields, which are given by name. -/
def ofFields? (kind : String) (r : Json.Record α) : Option (Control α) :=
  match kind with
  | "slur" => do
    return slur (← TimeSpan.ofRecord? r)
      (← r.optional "curvedir" (Json.toNameWithin? CurveSide.names))
  | "tie" => do return tie (← TimeSpan.ofRecord? r)
  | "hairpin" => do
    return hairpin (← TimeSpan.ofRecord? r)
      (← r.required "form" (Json.toNameWithin? HairpinForm.names))
  | "dynam" => do return dynamic (← TimePoint.ofRecord? r) (← r.required "text" Json.toText?)
  | "tempo" => do
    return tempo (← TimePoint.ofRecord? r) (← r.withDefault "text" Json.toText? "")
      (← r.optional "mm" Json.toScalar?)
  | "dir" => do return direction (← TimePoint.ofRecord? r) (← r.required "text" Json.toText?)
  | _ => none

/-- A control element from its fields, of which `type` names its kind. -/
def ofJson? (j : Json α) : Option (Control α) := do
  let (kind, fields) ← j.toTagged? "type"
  match fields with
  | .object fields => ofFields? kind ⟨fields, false⟩
  | _ => none

omit [Scalar α] in
/-- The fields of a control element. -/
def toJson : Control α → Json α
  | slur s curve => .object (("type", .text "slur") :: s.toFields ++
      [("curvedir", ofOption (ofName CurveSide.names) curve)])
  | tie s => .object (("type", .text "tie") :: s.toFields)
  | hairpin s form =>
    .object (("type", .text "hairpin") :: s.toFields ++ [("form", ofName HairpinForm.names form)])
  | dynamic p text => .object (("type", .text "dynam") :: p.toFields ++ [("text", .text text)])
  | tempo p text rate => .object (("type", .text "tempo") :: p.toFields ++
      [("text", .text text), ("mm", ofOption .float rate)])
  | direction p text => .object (("type", .text "dir") :: p.toFields ++ [("text", .text text)])

end Control

end Control

end ScoreLayout
