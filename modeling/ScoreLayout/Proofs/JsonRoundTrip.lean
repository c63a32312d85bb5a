import Mathlib.Data.List.Nodup
import ScoreLayout.Music.Json

/-!
# Reading back what has been written

Symbols, score definitions and changes of a score definition are exchanged as JSON values. Whatever
has been written is read back as it was, with every optional field, with names that differ from
those of the kinds, and with a performed duration in the very terms in which it is kept.

## Main definitions

* `Json.ReadsBack` — a decoder reads back what an encoder writes.

## Main results

* `Json.ReadsBack.option`, `Json.ReadsBack.list`, `Json.readsBack_name` — readers of composed
  values.
* `Json.Record.ofJson?_object`, `Json.toTagged?_object` — the fields of a written record.
* `music_round_trip` — symbols, score definitions and their changes.
-/

namespace ScoreLayout

variable {α β : Type}

namespace Json

/-- A decoder reads back what an encoder writes. -/
def ReadsBack (decode : Decoder α β) (encode : β → Json α) : Prop :=
  ∀ b, decode (encode b) = some b

/-! ### Single values -/

theorem toInt?_int {low high z : Int} (h : low ≤ z ∧ z ≤ high) :
    toInt? low high (int z : Json α) = some z := if_pos h

theorem readsBack_uint8 : ReadsBack (α := α) toUInt8? fun n => int n.toNat := fun n => by
  have := n.toNat_lt
  rw [toUInt8?, toInt?_int (by omega), Option.map_some, Int.toNat_natCast, UInt8.ofNat_toNat]

theorem readsBack_uint32 : ReadsBack (α := α) toUInt32? fun n => int n.toNat := fun n => by
  have := n.toNat_lt
  rw [toUInt32?, toInt?_int (by omega), Option.map_some, Int.toNat_natCast, UInt32.ofNat_toNat]

theorem readsBack_int8 : ReadsBack (α := α) toInt8? fun n => int n.toInt := fun n => by
  have hlow : -128 ≤ n.toInt := n.minValue_le_toInt
  have hhigh : n.toInt ≤ 127 := n.toInt_le
  rw [toInt8?, toInt?_int (by omega), Option.map_some, Int8.ofInt_toInt]

theorem readsBack_int32 : ReadsBack (α := α) toInt32? fun n => int n.toInt := fun n => by
  have hlow : -2147483648 ≤ n.toInt := n.minValue_le_toInt
  have hhigh : n.toInt ≤ 2147483647 := n.toInt_le
  rw [toInt32?, toInt?_int (by omega), Option.map_some, Int32.ofInt_toInt]

theorem readsBack_bool : ReadsBack (α := α) toBool? bool := fun _ => rfl

theorem readsBack_text : ReadsBack (α := α) toText? text := fun _ => rfl

theorem ofFraction_ne_null (a : Fraction) : (ofFraction a : Json α) ≠ null := by
  simp [ofFraction]

/-- A fraction is read back in the terms in which it is kept, reduced or not. -/
theorem readsBack_fraction : ReadsBack (α := α) toFraction? ofFraction := fun a => by
  have hpair : toPair? toWord? toWord? (ofFraction a : Json α) = some (a.num, a.den) := by
    rw [ofFraction, toPair?, toWord?, toInt?_int a.num_fits, toInt?_int a.den_fits]
    rfl
  rw [toFraction?, hpair]
  exact Fraction.ofParts?_num_den a

/-! ### Composed values -/

/-- A value that may be absent is told from null as long as no value is written as null. -/
theorem ReadsBack.option {decode : Decoder α β} {encode : β → Json α} (h : ReadsBack decode encode)
    (hnull : ∀ b, encode b ≠ null) : ReadsBack (toOption? decode) (ofOption encode)
  | none => rfl
  | some b => by
    rw [ofOption, toOption?, h b]
    · rfl
    · exact hnull b

theorem ReadsBack.list {decode : Decoder α β} {encode : β → Json α} (h : ReadsBack decode encode) :
    ReadsBack (toList? decode) fun items => list (items.map encode) := fun items => by
  rw [toList?]
  induction items with
  | nil => rfl
  | cons b items ih => rw [List.map_cons, List.mapM_cons, h b, ih]; rfl

variable [DecidableEq β]

/-- A table of names in which every value has a name of its own. -/
def Naming (names : List (String × β)) : Prop :=
  ∀ b, ∃ s, names.find? (fun entry => entry.2 = b) = some (s, b) ∧ names.lookup s = some b

theorem Naming.ofName_eq {names : List (String × β)} (h : Naming names) (b : β) :
    ∃ s, (ofName names b : Json α) = text s ∧ names.lookup s = some b := by
  obtain ⟨s, hs, hb⟩ := h b
  exact ⟨s, by rw [ofName, hs], hb⟩

theorem readsBack_name {names : List (String × β)} (h : Naming names) :
    ReadsBack (α := α) (toName? names) (ofName names) := fun b => by
  obtain ⟨s, hs, hb⟩ := h.ofName_eq (α := α) b
  rw [hs, toName?, hb]

theorem readsBack_nameWithin {names : List (String × β)} (h : Naming names) :
    ReadsBack (α := α) (toNameWithin? names) (ofName names) := fun b => by
  obtain ⟨s, hs, hb⟩ := h.ofName_eq (α := α) b
  rw [hs, toNameWithin?, toName?, hb]
  nofun

theorem ofName_ne_null {names : List (String × β)} (h : Naming names) (b : β) :
    (ofName names b : Json α) ≠ null := by
  obtain ⟨s, hs, -⟩ := h.ofName_eq (α := α) b
  rw [hs]
  nofun

/-! ### Records -/

omit [DecidableEq β]

/-- A field is looked up past those with other names. -/
@[simp]
theorem lookup_cons_of_ne {name other : String} (h : name ≠ other) (j : Json α)
    (fields : List (String × Json α)) :
    ((other, j) :: fields).lookup name = fields.lookup name := by
  rw [List.lookup_cons, beq_false_of_ne h]

/-- The fields of an object with different names are a record. -/
theorem Record.ofJson?_object (names : List String) {fields : List (String × Json α)}
    (h : (fields.map Prod.fst).Nodup) :
    Record.ofJson? names (object fields) = some ⟨fields, false⟩ := by
  refine if_pos (List.all_eq_true.2 fun name _ => decide_eq_true ?_)
  have := List.nodup_iff_count_le_one.1 h name
  rwa [List.count, List.countP_map, List.countP_eq_length_filter] at this

/-- The kind of a value is read off its first field, and the other fields are left. -/
theorem toTagged?_object {tag kind : String} {fields : List (String × Json α)}
    (h : tag ∉ fields.map Prod.fst) :
    toTagged? tag (object ((tag, text kind) :: fields)) = some (kind, object fields) := by
  have hother : ∀ field ∈ fields, field.1 ≠ tag := fun field hfield heq =>
    h (List.mem_map.2 ⟨field, hfield, heq⟩)
  have hnone : fields.filter (fun field => decide (field.1 = tag)) = [] :=
    List.filter_eq_nil_iff.2 fun field hfield => by simpa using hother field hfield
  have hall : fields.filter (fun field => decide (field.1 ≠ tag)) = fields :=
    List.filter_eq_self.2 fun field hfield => by simpa using hother field hfield
  simp only [toTagged?, decide_true, List.filter_cons_of_pos, hnone, ne_eq, not_true_eq_false,
    decide_false, Bool.false_eq_true, not_false_eq_true, List.filter_cons_of_neg, hall]

end Json

open Json

/-! ### Durations and pitches -/

theorem NoteValue.readsBack : ReadsBack (α := α) ofJson? toJson := fun v => by
  have : (v.code : Int) ≤ 255 := by cases v <;> decide
  rw [ofJson?, toJson, toInt?_int (by omega), Option.bind_some, Int.toNat_natCast, ofCode?_code]

theorem Duration.readsBack : ReadsBack (α := α) ofJson? toJson := fun d => by
  have hvalue := NoteValue.readsBack.option (α := α) nofun d.value
  have hdots := readsBack_uint8 (α := α) d.dots
  have hnum := readsBack_uint32.option (α := α) nofun d.ratioNum
  have hbase := readsBack_uint32.option (α := α) nofun d.ratioBase
  have hperformed := readsBack_fraction.option (α := α) ofFraction_ne_null d.performed
  rw [ofJson?, toJson, Record.ofJson?_object _ (by simp)]
  simp [Record.nullable, Record.withDefault, Record.optional, Record.get?, hvalue,
    hdots, hnum, hbase, hperformed, readsBack_bool d.grace]

theorem PitchName.naming : Naming names := fun value => by
  cases value <;> exact ⟨_, rfl, rfl⟩

theorem Accidental.naming : Naming names := fun value => by
  cases value <;> exact ⟨_, rfl, rfl⟩

theorem ClefShape.naming : Naming names := fun value => by
  cases value <;> exact ⟨_, rfl, rfl⟩

theorem BarLineForm.naming : Naming names := fun value => by
  cases value <;> exact ⟨_, rfl, rfl⟩

theorem Pitch.readsBack_of {step : Decoder α PitchName} {accidental : Decoder α Accidental}
    (hstep : ReadsBack step (ofName PitchName.names))
    (haccidental : ReadsBack accidental (ofName Accidental.names)) :
    ReadsBack (ofFields? step accidental) toJson := fun p => by
  have hname := hstep p.name
  have hoctave := readsBack_int8 (α := α) p.octave
  have hshift := haccidental.option (ofName_ne_null Accidental.naming) p.accidental
  rw [ofFields?, toJson, Record.ofJson?_object _ (by simp)]
  simp [Record.required, Record.withDefault, Record.optional, Record.get?, hname,
    hoctave, hshift]

theorem Clef.readsBack_of {shape : Decoder α ClefShape}
    (hshape : ReadsBack shape (ofName ClefShape.names)) :
    ReadsBack (ofFields? shape) toJson := fun c => by
  have hname := hshape c.shape
  have hline := readsBack_uint8 (α := α) c.line
  have hoctave := readsBack_int8 (α := α) c.octaveShift
  rw [ofFields?, toJson, Record.ofJson?_object _ (by simp)]
  simp [Record.required, Record.withDefault, Record.get?, hname, hline, hoctave]

theorem Clef.readsBack : ReadsBack (α := α) ofJson? toJson :=
  readsBack_of (readsBack_name ClefShape.naming)

theorem KeySig.readsBack : ReadsBack (α := α) ofJson? toJson := fun k => by
  have hfifths := readsBack_int8 (α := α) k.fifths
  rw [ofJson?, toJson, Record.ofJson?_object _ (by simp)]
  simp [Record.required, Record.get?, hfifths]

theorem MeterSig.readsBack : ReadsBack (α := α) ofJson? toJson := fun m => by
  have hcount := readsBack_uint32 (α := α) m.count
  have hunit := readsBack_uint32 (α := α) m.unit
  rw [ofJson?, toJson, Record.ofJson?_object _ (by simp)]
  simp [Record.required, Record.get?, hcount, hunit]

/-! ### Score definitions and their changes -/

theorem StaffDefinition.readsBack : ReadsBack (α := α) ofJson? toJson := fun s => by
  have hn := readsBack_uint32 (α := α) s.n
  have hlines := readsBack_uint8 (α := α) s.lines
  have hclef := Clef.readsBack (α := α) s.clef
  have hkey := KeySig.readsBack.option (α := α) nofun s.key
  have hmeter := MeterSig.readsBack.option (α := α) nofun s.meter
  have hlabel := readsBack_text.option (α := α) nofun s.label
  rw [ofJson?, toJson, Record.ofJson?_object _ (by simp)]
  simp [Record.required, Record.withDefault, Record.optional, Record.get?, hn, hlines,
    hclef, hkey, hmeter, readsBack_bool s.hidden, hlabel]

theorem ScoreDefinition.readsBack : ReadsBack (α := α) ofJson? toJson := fun d => by
  have hstaves := StaffDefinition.readsBack.list (α := α) d.staves
  have hkey := KeySig.readsBack.option (α := α) nofun d.key
  have hmeter := MeterSig.readsBack.option (α := α) nofun d.meter
  rw [ofJson?, toJson, Record.ofJson?_object _ (by simp)]
  simp [Record.required, Record.withDefault, Record.optional, Record.get?, hstaves, hkey, hmeter]

theorem StaffClef.readsBack : ReadsBack (α := α) ofJson? toJson := fun s => by
  have hn := readsBack_uint32 (α := α) s.n
  have hclef := Clef.readsBack (α := α) s.clef
  rw [ofJson?, toJson, Record.ofJson?_object _ (by simp)]
  simp [Record.required, Record.get?, hn, hclef]

theorem DefinitionChange.readsBack : ReadsBack (α := α) ofJson? toJson := fun c => by
  have hkey := KeySig.readsBack.option (α := α) nofun c.key
  have hmeter := MeterSig.readsBack.option (α := α) nofun c.meter
  have hclefs := StaffClef.readsBack.list (α := α) c.clefs
  rw [ofJson?, toJson, Record.ofJson?_object _ (by simp)]
  simp [Record.withDefault, Record.optional, Record.get?, hkey, hmeter, hclefs]

/-! ### Symbols -/

/-- A symbol is read back by its kind: the name of that is none of the names of its fields. -/
theorem Element.readsBack : ReadsBack (α := α) ofJson? toJson := fun e => by
  cases e with
  | note n =>
    have hduration := Duration.readsBack (α := α) n.duration
    have hpitch := Pitch.readsBack_of (readsBack_nameWithin PitchName.naming)
      (readsBack_nameWithin Accidental.naming) (α := α) n.pitch
    have hloc := readsBack_int32.option (α := α) nofun n.loc
    rw [ofJson?, toJson, toTagged?_object (by simp)]
    simp [ofFields?, Record.ofJson?_object, Record.required, Record.withDefault, Record.optional,
      Record.get?, Pitch.ofJsonWithin?, locToJson, hduration, hpitch, hloc, readsBack_bool n.cue]
  | rest d loc =>
    have hduration := Duration.readsBack (α := α) d
    have hloc := readsBack_int32.option (α := α) nofun loc
    rw [ofJson?, toJson, toTagged?_object (by simp)]
    simp [ofFields?, Record.ofJson?_object, Record.required, Record.withDefault, Record.optional,
      Record.get?, locToJson, hduration, hloc]
  | chord d | space d =>
    have hduration := Duration.readsBack (α := α) d
    rw [ofJson?, toJson, toTagged?_object (by simp)]
    simp [ofFields?, Record.ofJson?_object, Record.required, Record.get?, hduration]
  | measureRest visible loc =>
    have hloc := readsBack_int32.option (α := α) nofun loc
    rw [ofJson?, toJson, toTagged?_object (by simp)]
    simp [ofFields?, Record.ofJson?_object, Record.withDefault, Record.optional, Record.get?,
      locToJson, hloc, readsBack_bool visible]
  | multiRest num visible =>
    have hnum := readsBack_uint32 (α := α) num
    rw [ofJson?, toJson, toTagged?_object (by simp)]
    simp [ofFields?, Record.ofJson?_object, Record.required, Record.withDefault, Record.get?,
      hnum, readsBack_bool visible]
  | beam =>
    rw [ofJson?, toJson, toTagged?_object (by simp)]
    simp [ofFields?, Record.ofJson?_object]
  | tuplet num base =>
    have hnum := readsBack_uint32 (α := α) num
    have hbase := readsBack_uint32 (α := α) base
    rw [ofJson?, toJson, toTagged?_object (by simp)]
    simp [ofFields?, Record.ofJson?_object, Record.required, Record.get?, hnum, hbase]
  | clef c =>
    have hclef := Clef.readsBack_of (readsBack_nameWithin ClefShape.naming) (α := α) c
    rw [ofJson?, toJson, toTagged?_object (by simp)]
    simp [ofFields?, Record.ofJson?_object, Record.required, Record.get?, Clef.ofJsonWithin?, hclef]
  | key k =>
    have hkey := KeySig.readsBack (α := α) k
    rw [ofJson?, toJson, toTagged?_object (by simp)]
    simp [ofFields?, Record.ofJson?_object, Record.required, Record.get?, hkey]
  | meter m =>
    have hmeter := MeterSig.readsBack (α := α) m
    rw [ofJson?, toJson, toTagged?_object (by simp)]
    simp [ofFields?, Record.ofJson?_object, Record.required, Record.get?, hmeter]
  | barLine form =>
    have hform := readsBack_nameWithin (α := α) BarLineForm.naming form
    rw [ofJson?, toJson, toTagged?_object (by simp)]
    simp [ofFields?, Record.ofJson?_object, Record.withDefault, Record.get?,
      BarLineForm.ofJsonWithin?, BarLineForm.toJson, hform]

/-- Every symbol, every score definition and every change of one is read back as it was written, a
performed duration in the terms in which it is kept. -/
theorem music_round_trip :
    (∀ e : Element, Element.ofJson? (e.toJson : Json α) = some e) ∧
      (∀ d : ScoreDefinition, ScoreDefinition.ofJson? (d.toJson : Json α) = some d) ∧
        ∀ c : DefinitionChange, DefinitionChange.ofJson? (c.toJson : Json α) = some c :=
  ⟨Element.readsBack, ScoreDefinition.readsBack, DefinitionChange.readsBack⟩

end ScoreLayout
