import ScoreLayout.Fraction

/-!
# Slot keys

The time grid of a measure has one slot for each distinct key: a time, the kind of symbol drawn
there, and the rank of a grace note. Keys are ordered by the zone of the measure first, so that the
opening slots come before all timed content and the closing ones after it, whatever their times.

## Main definitions

* `SlotKind` — the kinds of slots, in drawing order at one time.
* `Zone` — before, within and after the timed content.
* `SlotKey`, `SlotKey.compare` — the identity of a slot and the order of slots.
-/

namespace ScoreLayout

/-- The kinds of slots, in drawing order at one time. -/
inductive SlotKind where
  | measureStart
  | leftBarLine
  | fullMeasure
  | clef
  | key
  | meter
  | grace
  | barLine
  | event
  | rightBarLine
  | measureEnd
deriving DecidableEq, Repr

/-- The part of a measure that a slot belongs to. -/
inductive Zone where
  | left
  | content
  | right
deriving DecidableEq, Repr

/-- The position of a zone in the measure. -/
def Zone.rank : Zone → Nat
  | left => 0
  | content => 1
  | right => 2

namespace SlotKind

/-- The position of a kind in drawing order. -/
def rank : SlotKind → Nat
  | measureStart => 0
  | leftBarLine => 1
  | fullMeasure => 2
  | clef => 3
  | key => 4
  | meter => 5
  | grace => 6
  | barLine => 7
  | event => 8
  | rightBarLine => 9
  | measureEnd => 10

/-- The zone in which slots of a kind lie. -/
def zone : SlotKind → Zone
  | measureStart | leftBarLine => .left
  | rightBarLine | measureEnd => .right
  | _ => .content

/-- The written names of the kinds. -/
def names : List (String × SlotKind) :=
  [("measure-start", measureStart), ("measure-left-barline", leftBarLine),
    ("full-measure", fullMeasure), ("clef", clef), ("key-sig", key), ("meter-sig", meter),
    ("grace-note", grace), ("bar-line", barLine), ("default", event),
    ("measure-right-barline", rightBarLine), ("measure-end", measureEnd)]

theorem rank_injective {a b : SlotKind} (h : a.rank = b.rank) : a = b := by
  cases a <;> cases b <;> simp_all [rank]

end SlotKind

/-- The identity of a slot. -/
structure SlotKey where
  time : Fraction
  kind : SlotKind
  /-- How many grace notes away the principal note is; zero for all other slots. -/
  graceRank : Nat
deriving DecidableEq

namespace SlotKey

/-- The key of a slot that is not for a grace note. -/
def ofKind (time : Fraction) (kind : SlotKind) : SlotKey := ⟨time, kind, 0⟩

/-- The key of a grace note that is `rank` notes away from its principal note. -/
def ofGrace (time : Fraction) (rank : Nat) : SlotKey := ⟨time, .grace, rank⟩

/-- The zone of the slot. -/
def zone (k : SlotKey) : Zone := k.kind.zone

/-- The order of slots: by zone, then time, then kind; of grace notes the farthest comes first. -/
def compare (a b : SlotKey) : Ordering :=
  (Ord.compare a.zone.rank b.zone.rank).then <|
    (Fraction.compare a.time b.time).then <|
      (Ord.compare a.kind.rank b.kind.rank).then <| Ord.compare b.graceRank a.graceRank

/-- Whether the first key comes no later than the second. -/
def le (a b : SlotKey) : Bool := a.compare b != .gt

/-- Two keys of one slot: they agree in kind and rank, and in the value of their times. -/
def Same (a b : SlotKey) : Prop := a.compare b = .eq

instance : DecidableRel Same := fun a b => inferInstanceAs (Decidable (a.compare b = .eq))

end SlotKey

end ScoreLayout
