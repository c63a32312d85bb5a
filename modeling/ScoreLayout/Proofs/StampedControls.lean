import ScoreLayout.Proofs.Breakdowns
import ScoreLayout.Proofs.ElementSlots
import ScoreLayout.Proofs.Layout.TimeStamps
import ScoreLayout.Proofs.RefusedSymbols

/-!
# Where time-stamps land

A time-stamp counts the beats of a measure from one, in parts of 1024 to the beat. The product with
the length of a beat is exact, whatever the time-stamp and the meter are. A control element with a
time-stamp and no start anchor stands at that time in its measure, or at the closer end of it, which is
reported. Where no symbol has asked for its slot the slot is for control elements only, unless closing
an empty measure draws there.

## Main definitions

* `ticksOf` — a time-stamp in parts of a beat.
* `Node.LandsAt` — a control element where its time-stamp leads.
* `Document.LandsStamps` — the time-stamped control elements of a score.

## Main results

* `AlignState.exact_timeOfBeat` — the time of a time-stamp is exact.
* `Document.Reachable.landsStamps_align` — where alignment leaves time-stamped control elements.
-/

namespace ScoreLayout

variable {α : Type}

/-! ### The time of a beat -/

/-- A fraction of one part in a word has an exact product with any other, as long as the denominators
do. -/
theorem Fraction.exists_mul?_of_part {a b : Fraction} (ha : 0 < a.den) (hb : 0 < b.den)
    (hpart : b.num = 1) (hfits : a.den * b.den ≤ 9223372036854775807) :
    ∃ product, a.mul? b = some product := by
  have hgcd : (0 : ℤ) < Int.gcd a.num b.den := by
    exact_mod_cast Int.gcd_pos_of_ne_zero_right a.num hb.ne'
  have hquot : 0 < b.den / Int.gcd a.num b.den :=
    Int.ediv_pos_of_pos_of_dvd hb hgcd.le (Int.gcd_dvd_right ..)
  have hle : b.den / Int.gcd a.num b.den ≤ b.den := Int.ediv_le_self _ hb.le
  have hnum : FitsWord (a.num / Int.gcd a.num b.den * 1) := by
    rw [mul_one]
    exact fitsWord_ediv a.num_fits hgcd
  have hden : FitsWord (a.den * (b.den / Int.gcd a.num b.den)) := by
    constructor
    · have := mul_pos ha hquot
      omega
    · exact (mul_le_mul_of_nonneg_left hle ha.le).trans hfits
  obtain ⟨product, hproduct⟩ := exists_reduced? hnum hden (mul_pos ha hquot)
  refine ⟨product, ?_⟩
  simp only [mul?, hpart, Int.gcd_one_right, Nat.cast_one, Int.ediv_one, Option.bind_eq_bind,
    word?_eq_some_iff.2 ⟨rfl, hnum⟩, word?_eq_some_iff.2 ⟨rfl, hden⟩, Option.bind_some, hproduct]

namespace MeterSig

/-- A beat is one part of a whole note. -/
theorem beatDuration_eq (m : MeterSig) : m.beatDuration.num = 1 ∧ m.beatDuration.den = m.beatsPerWhole := by
  have hpos : 0 < (m.beatsPerWhole : ℤ) := by
    exact_mod_cast Nat.lt_of_lt_of_le Nat.one_pos (Nat.le_max_right ..)
  have hfits : FitsWord (m.beatsPerWhole : ℤ) := by
    have : m.beatsPerWhole ≤ 4294967296 := Nat.max_le.2 ⟨m.unit.toNat_lt.le, by decide⟩
    constructor <;> omega
  have hone : FitsWord 1 := by decide
  obtain ⟨beat, hbeat⟩ := Fraction.exists_reduced? hone hfits hpos
  have hterms := Fraction.ofParts?_eq_some_iff.1 hbeat
  rw [Int.gcd_one_left, Nat.cast_one, Int.ediv_one, Int.ediv_one, Int.sign_eq_one_of_pos hpos,
    one_mul, one_mul] at hterms
  rw [beatDuration, hbeat, Option.getD_some]
  exact ⟨hterms.1.symm, hterms.2.symm⟩

theorem value_beatDuration (m : MeterSig) :
    m.beatDuration.value = 1 / (Nat.max m.unit.toNat 1 : ℕ) := by
  obtain ⟨hnum, hden⟩ := m.beatDuration_eq
  rw [Fraction.value, hnum, hden, beatsPerWhole, Int.cast_one, Int.cast_natCast]

end MeterSig

variable [Scalar α]

/-- A time-stamp in parts of a beat, counted from the first beat and kept within a word. -/
def ticksOf (tstamp : α) : ℤ :=
  saturate (Scalar.nearest ((tstamp - 1) * Scalar.ofInt 1024))

/-- The time of a time-stamp is exact: no word overflows on the way. -/
theorem AlignState.exact_timeOfBeat (tstamp : α) (meter : MeterSig) : ∃ beats,
    Fraction.reduced? (ticksOf tstamp) 1024 = some beats ∧
      beats.mul? meter.beatDuration = some (timeOfBeat tstamp meter.beatDuration) ∧
      (timeOfBeat tstamp meter.beatDuration).value =
        ticksOf tstamp / 1024 * meter.beatDuration.value := by
  obtain ⟨hnum, hden⟩ := meter.beatDuration_eq
  have hparts : FitsWord 1024 := by decide
  obtain ⟨beats, hbeats⟩ := Fraction.exists_reduced?
    (fitsWord_saturate (Scalar.nearest ((tstamp - 1) * Scalar.ofInt 1024))) hparts (by decide)
  replace hbeats : Fraction.reduced? (ticksOf tstamp) 1024 = some beats := hbeats
  have hpos := Fraction.den_pos_of_reduced? hbeats
  have hle : beats.den ≤ 1024 := by
    obtain ⟨-, hterm⟩ := Fraction.ofParts?_eq_some_iff.1 hbeats
    rw [← hterm]
    exact (one_mul _).trans_le (Int.ediv_le_self _ (by decide))
  have hwhole : meter.beatDuration.den ≤ 4294967296 := by
    rw [hden]
    exact_mod_cast Nat.max_le.2 ⟨meter.unit.toNat_lt.le, by decide⟩
  have hbeat : 0 < meter.beatDuration.den := by
    rw [hden]
    exact_mod_cast Nat.lt_of_lt_of_le Nat.one_pos (Nat.le_max_right ..)
  obtain ⟨product, hproduct⟩ := Fraction.exists_mul?_of_part hpos hbeat hnum (by nlinarith)
  have htime : timeOfBeat tstamp meter.beatDuration = product := by
    have hparts : Fraction.reduced? (saturate (Scalar.nearest
        ((tstamp - 1) * Scalar.ofInt tstampResolution))) tstampResolution = some beats := hbeats
    rw [timeOfBeat, hparts, Option.getD_some, hproduct, Option.getD_some]
  refine ⟨beats, hbeats, htime ▸ hproduct, ?_⟩
  rw [htime, Fraction.value_of_mul? hproduct, Fraction.value_of_reduced? hbeats]
  norm_num

theorem AlignState.value_moved {last : Fraction} (hlast : 0 ≤ last.value) (time : Fraction) :
    (moved last time).value = max 0 (min time.value last.value) := by
  rw [moved]
  split_ifs with hneg hbehind
  · rw [Fraction.lt_iff_value, Fraction.value_zero] at hneg
    rw [Fraction.value_zero, max_eq_left ((min_le_left _ _).trans hneg.le)]
  · rw [Fraction.lt_iff_value] at hbehind
    rw [min_eq_right hbehind.le, max_eq_right hlast]
  · rw [Fraction.lt_iff_value, Fraction.value_zero, not_lt] at hneg
    rw [Fraction.lt_iff_value, not_lt] at hbehind
    rw [min_eq_left hbehind, max_eq_right hneg]

/-- A time is moved if it lies outside of the measure. -/
theorem AlignState.value_moved_eq_iff {last : Fraction} (hlast : 0 ≤ last.value) (time : Fraction) :
    (moved last time).value = time.value ↔ ¬ (time < 0 ∨ last < time) := by
  rw [value_moved hlast, Fraction.lt_iff_value, Fraction.lt_iff_value, Fraction.value_zero, not_or,
    not_lt, not_lt]
  constructor
  · intro h
    have hle : time.value ≤ last.value ∨ time.value = 0 := by
      rcases le_total time.value last.value with hle | hle
      · exact .inl hle
      · rw [min_eq_right hle, max_eq_right hlast] at h
        exact .inl h.ge
    exact ⟨h ▸ le_max_left _ _, hle.elim id fun hzero => hzero ▸ hlast⟩
  · rintro ⟨hneg, hbehind⟩
    rw [min_eq_left hbehind, max_eq_right hneg]

/-! ### Control elements in their slots -/

/-- A control element with a time-stamp that stands at a time of its measure. The measure ends under a
meter, and has something below it. Of the marks one is on the control element if its time-stamp leads
out of the measure. -/
structure Node.LandsAt (x : Node α) (time : Fraction) (tstamp : α) (meter : MeterSig) (m : Measure α)
    (below : Forest (Node α)) (marks : List Mark) : Prop where
  /-- The product with the length of a beat meets no overflow. -/
  product : ∃ beats exact, Fraction.reduced? (ticksOf tstamp) 1024 = some beats ∧
    beats.mul? meter.beatDuration = some exact ∧
      exact.value = ticksOf tstamp / 1024 * meter.beatDuration.value
  onset : x.layout.onset = some time
  value : time.value =
    max 0 (min (ticksOf tstamp / 1024 * meter.beatDuration.value) m.grid.maxTime.value)
  slot : x.layout.slot = some (.ofKind time .event)
  hasSlot : ∃ s ∈ m.grid.slots, s.key.Same (.ofKind time .event)
  /-- The slot is for control elements only where no symbol of the measure has it, and where closing the
  grid does not ask for it. -/
  timestampOnly : ∀ s ∈ m.grid.slots, s.key.Same (.ofKind time .event) → (s.timestampOnly ↔
    (∀ e ∈ below.toList, e.tag = .element → ∀ key, e.layout.slot = some key →
      ¬ key.Same (.ofKind time .event)) ∧
    ¬ (time.value = 0 ∧ ∀ e ∈ below.toList, e.tag = .element → e.layout.slot = none))
  marks : (marks.filter fun k => k.node = some x.id ∧ k.kind = Mark.Kind.unresolvedTstamp.id) =
    if time.value = ticksOf tstamp / 1024 * meter.beatDuration.value then []
    else [AlignState.tstampMark x.id tstamp]

/-- The time-stamped control elements of a score that begins under a meter stand where their
time-stamps lead, but for those that a host omits or that are anchored to a symbol. -/
def Document.LandsStamps (d : Document α) (marks : List Mark) (meter : MeterSig) : Prop :=
  ∀ before n below m, Forest.TreeAt n below before d.score → n.kind = .measure m →
    ∀ x ∈ below.roots, ∀ control tstamp, x.kind = .control control → x.layout.omitted = false →
      x.layout.startAnchor = none → control.point.tstamp = some tstamp →
        ∃ time, x.LandsAt time tstamp (runningMeter meter (before ++ n :: below.toList)) m below marks

namespace Forest

variable {f below : Forest (Node α)} {n x : Node α} {before : List (Node α)} {meter : MeterSig}
  {m : Measure α}

theorem Stamped.stampedAt (hf : f.Stamped meter) (hn : TreeAt n below before f)
    (hm : n.kind = .measure m) :
    m.Stamped (runningMeter meter (before ++ n :: below.toList)).beatDuration below := by
  induction hn generalizing meter with
  | here siblings => exact hf.1 m hm
  | deeper siblings _ ih => exact ih hf.2.1
  | beside children _ ih =>
    rw [List.cons_append, runningMeter_cons, List.append_assoc, runningMeter_append]
    exact ih hf.2.2

/-- The marks on one of some control elements. -/
theorem filter_strayMark? {nodes : List (Node α)} (hids : (nodes.map Node.id).Nodup)
    (hx : x ∈ nodes) (beat last : Fraction) :
    ((nodes.filterMap (Node.strayMark? beat last)).filter fun k => k.node = some x.id) =
      (x.strayMark? beat last).toList := by
  obtain ⟨front, back, rfl⟩ := List.append_of_mem hx
  have hothers (others : List (Node α)) (hothers : ∀ y ∈ others, y.id ≠ x.id) :
      ((others.filterMap (Node.strayMark? beat last)).filter fun k => k.node = some x.id) = [] := by
    refine List.filter_eq_nil_iff.2 fun k hk => ?_
    obtain ⟨y, hy, hyk⟩ := List.mem_filterMap.1 hk
    rw [decide_eq_true_eq, id_of_strayMark? hyk, Option.some.injEq]
    exact hothers y hy
  rw [List.map_append, List.map_cons, List.nodup_append, List.nodup_cons] at hids
  have hfront := hothers front fun y hy hyx =>
    hids.2.2 _ (List.mem_map_of_mem hy) _ List.mem_cons_self hyx
  have hback := hothers back fun y hy hyx =>
    hids.2.1.1 (hyx ▸ List.mem_map_of_mem hy)
  rw [List.filterMap_append, List.filter_append, hfront, List.filterMap_cons, List.nil_append]
  cases hmark : x.strayMark? beat last with
  | none => exact hback
  | some k =>
    rw [List.filter_cons_of_pos (by simp [id_of_strayMark? hmark]), hback]
    rfl

theorem strayMarksOf_cons {siblings : Forest (Node α)} {id : String} :
    (cons n below siblings).strayMarksOf meter id = (tree n below).strayMarksOf meter id ++
      siblings.strayMarksOf (runningMeter (n.meterAfter meter) below.toList) id := by
  rw [strayMarksOf, strayMarksOf, tree, strayMarks, strayMarks,
    show strayMarks _ nil = ([] : List Mark) from rfl, List.append_nil, List.filter_append]
  rfl

/-- The marks on a control element of a measure. -/
theorem strayMarksOf_eq (hn : TreeAt n below before f) (hf : f.Nested)
    (hids : (f.toList.map Node.id).Nodup) (hm : n.kind = .measure m) (hx : x ∈ below.roots) :
    f.strayMarksOf meter x.id = (x.strayMark?
      (runningMeter meter (before ++ n :: below.toList)).beatDuration m.grid.maxTime).toList := by
  have hin := hn.hasTree.mem_of_mem (mem_toList_of_mem_roots hx)
  have hmeasure : n.tag = .measure := congrArg NodeKind.tag hm
  induction hn generalizing meter with
  | here siblings =>
    rw [toList, List.map_cons, List.map_append, List.nodup_cons, List.nodup_append] at hids
    have hsiblings : x.id ∉ siblings.toList.map Node.id := fun h =>
      hids.2.2.2 _ (List.mem_map_of_mem (mem_toList_of_mem_roots hx)) _ h rfl
    have hinside := stamped_of_tag (hf.tag_ne_measure_below (.here siblings) hmeasure)
      (n.meterAfter meter)
    have hafter : n.meterAfter meter = meter := by rw [Node.meterAfter, hm]
    rw [strayMarksOf_cons, strayMarksOf_eq_nil hsiblings, List.append_nil, strayMarksOf, tree,
      strayMarks, hinside.2, hm, List.nil_append, List.nil_append, runningMeter_cons]
    dsimp only
    rw [show strayMarks _ nil = ([] : List Mark) from rfl, List.append_nil]
    exact filter_strayMark? (hids.2.1.sublist ((sublist_roots below).map _)) hx _ _
  | @deeper a before children siblings hn ih =>
    have hnested := hf.2.1
    rw [toList, List.map_cons, List.map_append, List.nodup_cons, List.nodup_append] at hids
    have hchild := hn.hasTree.mem_of_mem (mem_toList_of_mem_roots hx)
    have hsiblings : x.id ∉ siblings.toList.map Node.id := fun h =>
      hids.2.2.2 _ (List.mem_map_of_mem hchild) _ h rfl
    -- a measure stands in no other measure
    have ha : a.tag ≠ .measure := fun ha =>
      hf.tag_ne_measure_below (.here siblings) ha n hn.hasTree.mem hmeasure
    have htree : (tree a children).strayMarksOf meter x.id =
        children.strayMarksOf (a.meterAfter meter) x.id := by
      rw [strayMarksOf, strayMarksOf, tree, strayMarks]
      split
      · exact absurd (by rw [Node.tag, ‹a.kind = _›]; rfl) ha
      · rw [show strayMarks _ nil = ([] : List Mark) from rfl, List.append_nil, List.append_nil]
    rw [strayMarksOf_cons, strayMarksOf_eq_nil hsiblings, List.append_nil, htree,
      ih hnested hids.2.1 hchild, List.cons_append, runningMeter_cons]
  | @beside a before children siblings hn ih =>
    have hchild := hn.hasTree.mem_of_mem (mem_toList_of_mem_roots hx)
    rw [toList, ← List.cons_append, List.map_append, List.nodup_append] at hids
    have htree : x.id ∉ (tree a children).toList.map Node.id := fun h => by
      rw [toList_tree] at h
      exact hids.2.2 _ h _ (List.mem_map_of_mem hchild) rfl
    have hmeter : runningMeter meter (a :: (children.toList ++ before) ++ n :: below.toList) =
        runningMeter (runningMeter (a.meterAfter meter) children.toList)
          (before ++ n :: below.toList) := by
      rw [List.cons_append, runningMeter_cons, List.append_assoc, runningMeter_append]
    rw [strayMarksOf_cons, strayMarksOf_eq_nil htree, List.nil_append, ih hf.2.2 hids.2.1 hchild,
      hmeter]

end Forest

/-! ### Behind alignment -/

namespace Document

variable {d : Document α} {metrics : GlyphMetrics α} {unit : α}

/-- The slots of grace notes leave the control elements of a score alone. -/
theorem WellFormed.settles_align (hd : d.WellFormed) (hok : (d.align metrics unit).fault = none) :
    ∃ s score, (d.align metrics unit).marks = s.marks ∧
      AlignState.Lands (.start d.definition) s score ∧
        Forest.Forall₂ Forest.Settles score (d.align metrics unit).document.score := by
  obtain ⟨s, score, v, hrun⟩ : ∃ s score v, d.score.run (alignPass ⟨metrics, unit, d⟩)
      (.start d.definition) = (s, score, v) := ⟨_, _, _, rfl⟩
  obtain ⟨hwalk, -, hmarks, -, hscore⟩ := walk_align hok hrun
  refine ⟨s, score, hmarks, AlignState.stamped_score hwalk hd.nested_score hd.isOuter_root
    hd.nodup_score_ids (fun g hg => absurd hg List.not_mem_nil) rfl, hscore ▸ .map_right _
      fun n hn => ⟨sameTiming_applyGraceSlots n s.graceSlots, fun hcontrol => ?_⟩⟩
  obtain ⟨n₀, hn₀, hsame⟩ := exists_mem_of_forall₂ (AlignState.keeps_completes hwalk).toList hn
  have hlookup := hd.lookup_eq_none metrics unit hn₀ hsame.toSameMusic fun ⟨e, he, _⟩ => by
    rw [Node.tag, he] at hcontrol
    cases hcontrol
  rw [hrun] at hlookup
  rw [AlignState.applyGraceSlots, hlookup]

omit [Scalar α] in
/-- A symbol that may have asked for a slot is no group, and has that slot if it is one for events. -/
theorem Slotted.exists_of_asksFor (hslots : d.Slotted) {n : Node α} {below : Forest (Node α)}
    (hn : Forest.HasTree n below d.score) {key : SlotKey} (hask : below.AsksFor key) :
    ∃ e ∈ below.toList, e.tag = .element ∧ ¬ e.IsGroup ∧ (key.kind = .event →
      ∃ key', e.layout.slot = some key' ∧ key'.Same key) := by
  obtain ⟨layer, under, hlayer, htag, x, hx, hplain, hprincipal⟩ := hask
  have hkind := Forest.kind_of_mem_symbols hx
  refine ⟨x.node, hlayer.mem_of_mem (Forest.mem_of_mem_symbols hx), by rw [Node.tag, hkind]; rfl,
    fun hgroup => ?_, fun hevent => ?_⟩
  · rw [Node.IsGroup, hkind] at hgroup
    obtain hbeam | ⟨num, base, htuplet⟩ := hgroup
    · exact hplain.1 (NodeKind.element.inj hbeam)
    · exact hplain.2 num base (NodeKind.element.inj htuplet)
  · obtain ⟨hx', onset, honset, hsame⟩ := hprincipal hevent
    obtain ⟨onset', honset', hslot⟩ :=
      (hslots.layers layer under (hn.trans hlayer) htag).principals x hx hx'
    obtain rfl := Option.some.inj (honset.symm.trans honset')
    exact ⟨_, hslot, hsame⟩

/-- What is drawn at a time: what a symbol of the measure stands at, or the start of the measure if no
symbol has a slot. -/
theorem Slotted.has_iff (hslots : d.Slotted) {n : Node α} {below : Forest (Node α)} {m : Measure α}
    (hn : Forest.HasTree n below d.score) (hm : n.kind = .measure m) {beat : Fraction}
    (hstamped : m.Stamped beat below) (time : Fraction) : m.grid.Has (.ofKind time .event) ↔
      (∃ e ∈ below.toList, e.tag = .element ∧ ∃ key, e.layout.slot = some key ∧
        key.Same (.ofKind time .event)) ∨
      time.value = 0 ∧ ∀ e ∈ below.toList, e.tag = .element → e.layout.slot = none := by
  have hdrawn {e : Node α} (he : e ∈ below.toList) (htag : e.tag = .element) {key : SlotKey}
      (hslot : e.layout.slot = some key) : key.zone = .content ∧ m.grid.Has key := by
    have hgroup : ¬ e.IsGroup := fun hgroup => by
      cases (hslots.groups e (hn.mem_of_mem he) hgroup).symm.trans hslot
    obtain ⟨key', hslot', hzone, hhas, -⟩ := hslots.symbols n below m hn hm e he htag hgroup
    obtain rfl := Option.some.inj (hslot.symm.trans hslot')
    exact ⟨hzone, hhas⟩
  constructor
  · intro hhas
    obtain hask | hstart := hstamped.drawn _ rfl hhas
    · obtain ⟨e, he, htag, -, hevent⟩ := hslots.exists_of_asksFor hn hask
      exact .inl ⟨e, he, htag, hevent rfl⟩
    · have hzero := hstart _ rfl hhas
      by_cases hheld : ∃ e ∈ below.toList, e.tag = .element ∧ ∃ key, e.layout.slot = some key
      · -- whatever is drawn is drawn at the start
        obtain ⟨e, he, htag, key, hslot⟩ := hheld
        obtain ⟨hzone, hkey⟩ := hdrawn he htag hslot
        exact .inl ⟨e, he, htag, key, hslot, (hstart key hzone hkey).symm.trans hzero⟩
      · refine .inr ⟨?_, fun e he htag => ?_⟩
        · rw [SlotKey.same_ofKind_iff] at hzero
          rw [← hzero, Fraction.value_zero]
        · exact Option.eq_none_iff_forall_ne_some.2 fun key hslot =>
            hheld ⟨e, he, htag, key, hslot⟩
  · rintro (⟨e, he, htag, key, hslot, hsame⟩ | ⟨hzero, hnone⟩)
    · exact (hdrawn he htag hslot).2.of_same hsame
    · refine (hstamped.silent fun key hask => ?_).of_same
        (SlotKey.same_ofKind_iff.2 (Fraction.value_zero.trans hzero.symm))
      obtain ⟨e, he, htag, hgroup, -⟩ := hslots.exists_of_asksFor hn hask
      obtain ⟨key', hslot, -⟩ := hslots.symbols n below m hn hm e he htag hgroup
      cases (hnone e he htag).symm.trans hslot

/-- Where alignment leaves the time-stamped control elements of a score. -/
theorem WellFormed.landsStamps_of_align (hd : d.WellFormed) (hok : (d.align metrics unit).fault = none)
    (hslots : (d.align metrics unit).document.Slotted) :
    (d.align metrics unit).document.LandsStamps (d.align metrics unit).marks
      (Signatures.ofDefinition d.definition).meter := by
  have hwf := (d.sameTree_align metrics unit).wellFormed hd
  obtain ⟨s, score, hmarks, hlands, hsettles⟩ := hd.settles_align hok
  obtain ⟨new, hnew, hstrays⟩ := hlands.marks
  obtain ⟨hstamped, hsame⟩ := hlands.stamped.settle hsettles
  intro before n below m hn hm x hx control tstamp hcontrol homitted hanchor htstamp
  have hstamp : AlignState.tstamp? x = some (control, tstamp) := by
    simp [AlignState.tstamp?, hcontrol, homitted, hanchor, NodeKind.control?, htstamp]
  have hmeasure := hstamped.stampedAt hn hm
  have hstray : (d.align metrics unit).document.score.strayMarksOf
      (Signatures.ofDefinition d.definition).meter x.id = _ :=
    Forest.strayMarksOf_eq hn hwf.nested_score hwf.nodup_score_ids hm hx
  rw [show (AlignState.start d.definition : AlignState α).signatures.meter =
    (Signatures.ofDefinition d.definition).meter from rfl] at hmeasure hstrays hsame
  generalize runningMeter _ (before ++ n :: below.toList) = meter at hmeasure hstray ⊢
  obtain ⟨beats, hbeats, hproduct, hvalue⟩ := AlignState.exact_timeOfBeat tstamp meter
  have hframed := hslots.frames n hn.hasTree.mem m hm
  have hlength : 0 ≤ m.grid.maxTime.value := hframed.length
  obtain ⟨honset, hslot, hhas⟩ := hmeasure.controls x hx
    (AlignState.moved m.grid.maxTime (AlignState.timeOfBeat tstamp meter.beatDuration))
    (by rw [AlignState.stamp?, hstamp]; rfl)
  refine ⟨_, ⟨beats, _, hbeats, hproduct, hvalue⟩, honset, ?_, hslot, hhas, fun s hs hkey => ?_, ?_⟩
  · rw [AlignState.value_moved hlength, hvalue]
  · have hdrawn := hslots.has_iff hn.hasTree hm hmeasure
      (AlignState.moved m.grid.maxTime (AlignState.timeOfBeat tstamp meter.beatDuration))
    rw [← Bool.not_eq_false, ← hframed.sorted.has_iff hs,
      show m.grid.Has s.key ↔ m.grid.Has (.ofKind _ .event) from
        ⟨fun h => h.of_same hkey, fun h => h.of_same hkey.symm⟩, hdrawn, not_or]
    push Not
    exact Iff.rfl
  · have hmarked : ((d.align metrics unit).marks.filter fun k => k.node = some x.id ∧
        k.kind = Mark.Kind.unresolvedTstamp.id) = (x.strayMark? meter.beatDuration m.grid.maxTime).toList := by
      rw [← hstray, Forest.strayMarksOf, hsame, ← hstrays, strays, List.filter_filter, hmarks, hnew]
      simp only [Bool.decide_and]
      rfl
    have hmoved := AlignState.value_moved_eq_iff hlength
      (AlignState.timeOfBeat tstamp meter.beatDuration)
    rw [hmarked, Node.strayMark?, hstamp, Option.bind_some, ← hvalue]
    by_cases hout : LeadsOut tstamp meter.beatDuration m.grid.maxTime
    · rw [if_pos hout, if_neg fun h => hmoved.1 h hout]
      rfl
    · rw [if_neg hout, if_pos (hmoved.2 hout)]
      rfl

/-- Whatever a caller comes to, alignment that meets no fault leaves every time-stamped control element
where its time-stamp leads. -/
theorem Reachable.landsStamps_align (h : d.Reachable) (hok : (d.align metrics unit).fault = none) :
    (d.align metrics unit).document.LandsStamps (d.align metrics unit).marks
      (Signatures.ofDefinition d.definition).meter :=
  h.wellFormed.landsStamps_of_align hok (h.slotted_align hok)

/-- A measure of a quarter note, with dynamics between its beats and behind its end. -/
theorem Reachable.landsStamps_align_of_dynamics : ∃ d : Document ℚ, d.Reachable ∧
    (d.align .default 9).fault = none ∧
    (d.align .default 9).document.LandsStamps (d.align .default 9).marks
      (Signatures.ofDefinition d.definition).meter ∧
    ((d.align .default 9).document.score.toList.filter fun n => n.tag = .control).map
        (fun n => n.layout.onset.map Fraction.value) = [some (1 / 8), some (1 / 4)] ∧
    (d.align .default 9).marks.map Mark.kind = [Mark.Kind.unresolvedTstamp.id] := by
  have hlayer := (((Reachable.ofDefinition (α := ℚ) default).contentSystem.add 2
    (.measure (.ofNumber 1))).add 3 (.staff ⟨1, false⟩)).add 4 (.layer 1)
  have hd := ((hlayer.add 5 (.element (.note ⟨.ofValue .quarter, ⟨.c, 4, none⟩, none, false⟩))).add 3
    (.control (.dynamic (.atBeat (3 / 2) 1) "f"))).add 3 (.control (.dynamic (.atBeat 9 1) "p"))
  have hprepared := hd.pass .default .prepare (by decide +kernel)
  refine ⟨_, hprepared, ?_, hprepared.landsStamps_align ?_, ?_, ?_⟩
  · decide +kernel
  · decide +kernel
  · decide +kernel
  · decide +kernel

/-- In a measure of nothing but a dynamic mark at its first beat, the slot of the mark is there before
the grid is closed, and no symbol has it. Closing the grid draws there all the same. -/
theorem Reachable.drawn_slot_of_empty_measure : ∃ (d : Document ℚ)
    (opened closed : List (SlotKey × Bool)), d.Reachable ∧ (d.align .default 9).fault = none ∧
    (d.align .default 9).document.score.toList.map
        (fun n => (n.tag, n.layout.onset, n.layout.slot)) =
      [(.document, none, none), (.page, none, none), (.system, none, none), (.measure, none, none),
        (.control, some 0, some (.ofKind 0 .event))] ∧
    ((MeasureGrid.empty : MeasureGrid ℚ).begin >>= fun g => g.timestampSlot 0).toOption.map
      MeasureGrid.outline = some opened ∧
    ((d.align .default 9).document.score.toList.filterMap fun n =>
      n.kind.measure?.map fun m => m.grid.outline) = [closed] ∧
    ¬ ((SlotKey.ofKind 0 .event, true) ∈ closed ↔
      (∀ e ∈ (d.align .default 9).document.score.toList, e.tag = .element →
        e.layout.slot ≠ some (.ofKind 0 .event)) ∧
      ∃ s ∈ opened, s.1 = .ofKind 0 .event) := by
  have hd := ((Reachable.ofDefinition (α := ℚ) default).contentSystem.add 2
    (.measure (.ofNumber 1))).add 3 (.control (.dynamic (.atBeat 1 1) "f"))
  have hprepared := hd.pass .default .prepare (by decide +kernel)
  refine ⟨_, [(.ofKind 0 .measureStart, false), (.ofKind 0 .leftBarLine, false),
    (.ofKind 0 .event, true)], [(.ofKind 0 .measureStart, false), (.ofKind 0 .leftBarLine, false),
    (.ofKind 0 .event, false), (.ofKind 0 .rightBarLine, false), (.ofKind 0 .measureEnd, false)],
    hprepared, ?_, ?_, ?_, ?_, ?_⟩
  · decide +kernel
  · decide +kernel
  · decide +kernel
  · decide +kernel
  · decide +kernel

end Document

end ScoreLayout
