import ScoreLayout.Music.Duration
import ScoreLayout.Music.Definition

/-!
# Layer elements

The symbols of a layer: timed ones, containers that group them, and changes of the signatures.

## Main definitions

* `Element` — the kinds of symbols with what each carries.
* `Element.duration?`, `Element.pitch?`, `Element.loc?`, `Element.change?` — the facets through
  which the layout looks at a symbol.
* `Element.accepts` — which symbols a container holds.
-/

namespace ScoreLayout

/-- A note. Inside a chord its duration stays empty, since the chord has one. -/
structure Note where
  duration : Duration
  pitch : Pitch
  loc : Option Int32
  cue : Bool
deriving DecidableEq

/-- The forms of a barline. -/
inductive BarLineForm where
  | single
  | double
  | final
  | repeatStart
  | repeatEnd
  | dashed
  | invisible
deriving DecidableEq, Repr

instance : Inhabited BarLineForm := ⟨.single⟩

/-- A symbol of a layer. -/
inductive Element where
  | note (note : Note)
  | rest (duration : Duration) (loc : Option Int32)
  /-- Notes that sound together for one duration. -/
  | chord (duration : Duration)
  /-- Time that passes without a symbol. -/
  | space (duration : Duration)
  /-- A rest that fills its measure. -/
  | measureRest (visible : Bool) (loc : Option Int32)
  /-- A rest that stands for several measures. -/
  | multiRest (num : UInt32) (visible : Bool)
  | beam
  /-- So many notes in the time of `base`. -/
  | tuplet (num base : UInt32)
  | clef (clef : Clef)
  | key (key : KeySig)
  | meter (meter : MeterSig)
  | barLine (form : BarLineForm)
deriving DecidableEq

namespace Element

/-- The name of the kind, as it appears in identifiers and messages. -/
def name : Element → String
  | note _ => "note"
  | rest _ _ => "rest"
  | chord _ => "chord"
  | space _ => "space"
  | measureRest _ _ => "mRest"
  | multiRest _ _ => "multiRest"
  | beam => "beam"
  | tuplet _ _ => "tuplet"
  | clef _ => "clef"
  | key _ => "keySig"
  | meter _ => "meterSig"
  | barLine _ => "barLine"

/-- The written duration of a timed symbol. -/
def duration? : Element → Option Duration
  | note n => some n.duration
  | rest d _ | chord d | space d => some d
  | _ => none

/-- The pitch of a note. -/
def pitch? : Element → Option Pitch
  | note n => some n.pitch
  | _ => none

/-- The location given explicitly. -/
def loc? : Element → Option Int32
  | note n => n.loc
  | rest _ loc | measureRest _ loc => loc
  | _ => none

/-- What the symbol says about the signatures in force. -/
def change? : Element → Option SignatureChange
  | clef c => some ⟨some c, none, none⟩
  | key k => some ⟨none, some k, none⟩
  | meter m => some ⟨none, none, some m⟩
  | _ => none

/-- Whether the symbol fills its measure, whatever its content. -/
def isFullMeasure : Element → Bool
  | measureRest _ _ | multiRest _ _ => true
  | _ => false

/-- Whether the symbol is a grace note or a grace chord. -/
def isGrace (e : Element) : Bool := (e.duration?.map Duration.grace).getD false

/-- Whether the symbol groups other symbols. -/
def isContainer : Element → Bool
  | chord _ | beam | tuplet _ _ => true
  | _ => false

/-- Whether the symbol may stand inside a beam or a tuplet. -/
def isGroupable : Element → Bool
  | note _ | rest _ _ | chord _ | space _ | beam | tuplet _ _ | clef _ => true
  | _ => false

/-- Whether a symbol may hold another: chords hold notes, beams and tuplets what can be grouped. -/
def accepts : Element → Element → Bool
  | chord _, note _ => true
  | beam, child | tuplet _ _, child => child.isGroupable
  | _, _ => false

end Element

/-- The location of a note: an explicit one wins over that of its pitch. -/
def Note.location (n : Note) (clef : Clef) : Int32 := n.loc.getD (clef.locOf n.pitch)

end ScoreLayout
