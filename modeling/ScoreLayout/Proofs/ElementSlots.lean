import Mathlib.Data.List.DropRight
import ScoreLayout.Proofs.Layout.GroupSlots

/-!
# Every symbol gets its slot

Behind alignment every symbol has a slot of the content of its measure, but beams and tuplets, which
have none. Most stand at their onset. Grace notes stand before the symbol that they lean on, in
document order, and the notes of a grace chord stand with it.

## Main definitions

* `waitingGraces`, `graceKeys` — the grace notes that wait behind some symbols, and their slots.
* `Forest.LayerSlotted` — the slots of a layer.
* `Document.Slotted` — the slots of a score.

## Main results

* `waitingGraces_slots` — the slots of the grace notes that wait together.
* `Document.Reachable.slotted_align` — the slots that alignment leaves.
-/

namespace ScoreLayout

variable {α : Type}

/-! ### Grace notes that wait together -/

/-- The grace notes that wait behind some symbols of a layer: those since the last principal one. -/
def waitingGraces (front : List (Symbol α)) : List (Symbol α) :=
  (front.rtakeWhile fun x => ¬ x.IsPrincipal).filter fun x => x.IsGrace

/-- The slots of so many grace notes that lean on a time, in document order. -/
def graceKeys (onset : Fraction) (count : Nat) : List SlotKey :=
  (List.range count).reverse.map fun k => .ofGrace onset (k + 1)

theorem graceKeys_succ (onset : Fraction) (count : Nat) :
    graceKeys onset (count + 1) = .ofGrace onset (count + 1) :: graceKeys onset count := by
  rw [graceKeys, List.range_succ, List.reverse_append, List.reverse_singleton, List.singleton_append,
    List.map_cons, graceKeys]

/-- Grace notes that wait together stand one behind another, before what they lean on. -/
theorem ordered_graceKeys (onset : Fraction) (count : Nat) :
    (graceKeys onset count ++ [SlotKey.ofKind onset .event]).Pairwise
      fun a b => a.compare b = .lt := by
  induction count with
  | zero => exact List.pairwise_singleton _ _
  | succ count ih =>
    rw [graceKeys_succ, List.cons_append, List.pairwise_cons]
    refine ⟨fun key hkey => SlotKey.compare_eq_lt_iff.2 ?_, ih⟩
    rw [List.mem_append, List.mem_singleton, graceKeys, List.mem_map] at hkey
    rcases hkey with ⟨k, hk, rfl⟩ | rfl
    · rw [List.mem_reverse, List.mem_range] at hk
      exact SlotKey.place_ofGrace_lt rfl (Nat.succ_lt_succ hk)
    · exact SlotKey.place_lt_of_kind rfl rfl
        (show SlotKind.grace.rank < SlotKind.event.rank by decide)

/-- A grace note leans on the end of its layer, or on a principal symbol behind it. -/
theorem leansOn_eq (stop : Fraction) : (back : List (Symbol α)) → leansOn stop back = stop ∨
    ∃ y ∈ back, leansOn stop back = y.node.layout.onset.getD 0
  | [] => .inl rfl
  | y :: back => by
      rw [leansOn]
      split_ifs
      · exact .inr ⟨y, List.mem_cons_self, rfl⟩
      · rcases leansOn_eq stop back with h | ⟨z, hz, h⟩
        · exact .inl h
        · exact .inr ⟨z, List.mem_cons_of_mem _ hz, h⟩

/-- What comes next in a layer at a time: a principal symbol, or the end of the layer. -/
def ComesNext (stop onset : Fraction) : List (Symbol α) → Prop
  | [] => onset = stop
  | y :: _ => y.IsPrincipal ∧ y.node.layout.onset = some onset

variable {stop onset : Fraction} {back : List (Symbol α)}

theorem ComesNext.leansOn_append (h : ComesNext stop onset back) {mid : List (Symbol α)}
    (hmid : ∀ x ∈ mid, ¬ x.IsPrincipal) : leansOn stop (mid ++ back) = onset ∧
      gracesAhead (mid ++ back) = (mid.filter fun x => x.IsGrace).length := by
  induction mid with
  | nil =>
    cases back with
    | nil => exact ⟨Eq.symm h, rfl⟩
    | cons y back =>
      rw [List.nil_append, leansOn, gracesAhead, if_pos h.1, if_pos h.1, h.2]
      exact ⟨rfl, rfl⟩
  | cons x mid ih =>
    rw [List.forall_mem_cons] at hmid
    obtain ⟨hleans, hahead⟩ := ih hmid.2
    rw [List.cons_append, leansOn, gracesAhead, if_neg hmid.1, if_neg hmid.1, hleans, hahead]
    refine ⟨rfl, ?_⟩
    by_cases hgrace : x.IsGrace
    · rw [if_pos hgrace, List.filter_cons_of_pos (by simpa using hgrace), List.length_cons]
    · rw [if_neg hgrace, List.filter_cons_of_neg (by simpa using hgrace)]

/-- The slots of the grace notes that wait together, where every grace note of the layer has the slot
that it comes to. -/
theorem waitingGraces_slots {xs front : List (Symbol α)} (hxs : xs = front ++ back)
    (hslots : ∀ front x back, xs = front ++ x :: back → x.IsGrace → x.node.layout.slot =
      some (.ofGrace (leansOn stop back) (gracesAhead back + 1)))
    (hnext : ComesNext stop onset back) :
    (waitingGraces front).map (fun x => x.node.layout.slot) =
      (graceKeys onset (waitingGraces front).length).map some := by
  have hrun : ∀ mid before : List (Symbol α), xs = before ++ (mid ++ back) →
      (∀ x ∈ mid, ¬ x.IsPrincipal) →
        (mid.filter fun x => x.IsGrace).map (fun x => x.node.layout.slot) =
          (graceKeys onset (mid.filter fun x => x.IsGrace).length).map some := by
    intro mid
    induction mid with
    | nil => exact fun _ _ _ => rfl
    | cons x mid ih =>
      intro before hbefore hmid
      rw [List.forall_mem_cons] at hmid
      have hrest := ih (before ++ [x]) (by rw [hbefore]; simp) hmid.2
      by_cases hgrace : x.IsGrace
      · obtain ⟨hleans, hahead⟩ := hnext.leansOn_append hmid.2
        rw [List.filter_cons_of_pos (by simpa using hgrace), List.map_cons, List.length_cons,
          graceKeys_succ, List.map_cons, hrest, hslots before x (mid ++ back) hbefore hgrace, hleans,
          hahead]
      · rwa [List.filter_cons_of_neg (by simpa using hgrace)]
  obtain ⟨before, hbefore⟩ := List.rtakeWhile_suffix (fun x : Symbol α => ¬ x.IsPrincipal) front
  refine hrun _ before (by rw [hxs, ← List.append_assoc, hbefore]) fun x hx => ?_
  simpa using List.mem_rtakeWhile_imp hx

/-! ### Where symbols stand -/

namespace Forest

variable {f : Forest (Node α)} {r : TupletRatio} {x : Symbol α}

theorem kind_of_mem_symbols {chord : Option (Node α)} (hx : x ∈ f.symbols r chord) :
    x.node.kind = .element x.element := by
  induction f generalizing r chord with
  | nil => exact absurd hx List.not_mem_nil
  | cons n below siblings ihbelow ihsiblings =>
    rw [symbols, List.mem_append, List.mem_append] at hx
    rcases hx with hx | hx | hx
    · cases hk : n.kind <;> simp [hk, NodeKind.element?] at hx
      rw [hx, ← hk]
    · exact ihbelow hx
    · exact ihsiblings hx

/-- Among notes right below a chord there is nothing else. -/
theorem Symbolic.chord_of_notes {top : Node α} (hf : f.Symbolic)
    (hnotes : ∀ b ∈ f.roots, ∃ note, b.kind = .element (.note note))
    (hx : x ∈ f.symbols r (some top)) : x.chord = some top ∧ ∃ note, x.element = .note note := by
  induction f generalizing r with
  | nil => exact absurd hx List.not_mem_nil
  | cons n below siblings _ ih =>
    rw [roots, List.forall_mem_cons] at hnotes
    obtain ⟨note, hn⟩ := hnotes.1
    obtain rfl := Symbolic.eq_nil_of_note hn hf.2.1
    rw [symbols_cons hn, symbols_nil, List.nil_append, List.mem_cons] at hx
    rcases hx with rfl | hx
    · exact ⟨rfl, note, rfl⟩
    · exact ih hf.2.2.2 hnotes.2 hx

/-- A symbol with a chord above it is a note of this chord. -/
theorem Symbolic.exists_chord (hf : f.Symbolic) (hx : x ∈ f.symbols r none) {c : Node α}
    (hc : x.chord = some c) : (∃ note, x.element = .note note) ∧ ∃ d below,
      HasTree c below f ∧ c.kind = .element (.chord d) ∧ x.node ∈ below.toList := by
  induction f generalizing r with
  | nil => exact absurd hx List.not_mem_nil
  | cons n below siblings ihbelow ihsiblings =>
    obtain ⟨htag, htakes, hbelow, hsiblings⟩ := hf
    obtain ⟨e, hn⟩ := Node.exists_element htag
    rw [symbols_cons hn, List.mem_cons, List.mem_append] at hx
    rcases hx with rfl | hx | hx
    · cases hc
    · by_cases hchord : ∃ d, e = .chord d
      · obtain ⟨d, rfl⟩ := hchord
        rw [Node.asChord_eq_some hn] at hx
        obtain ⟨habove, hnote⟩ := hbelow.chord_of_notes (fun b hb =>
          NodeKind.exists_note_of_chord (hn ▸ htakes b hb)) hx
        rw [habove] at hc
        obtain rfl := Option.some.inj hc
        exact ⟨hnote, d, below, .here siblings, hn, mem_of_mem_symbols hx⟩
      · rw [Node.asChord_eq_none hn hchord] at hx
        obtain ⟨hnote, d, under, hunder, h⟩ := ihbelow hbelow hx
        exact ⟨hnote, d, under, .deeper siblings hunder, h⟩
    · obtain ⟨hnote, d, under, hunder, h⟩ := ihsiblings hsiblings hx
      exact ⟨hnote, d, under, .beside n below hunder, h⟩

/-- Nodes of kinds that stand in nodes of these kinds or of a further one only stand below one of the
further kind, unless one of these kinds stands at the top. -/
theorem Nested.exists_above (inside : NodeTag → Prop) (top : NodeTag)
    (hinside : ∀ a b : NodeKind α, a.accepts b → inside b.tag → inside a.tag ∨ a.tag = top)
    (hf : f.Nested) (hroots : ∀ b ∈ f.roots, ¬ inside b.tag) {e : Node α}
    {children : Forest (Node α)} (he : HasTree e children f) (htag : inside e.tag) :
    ∃ k under, HasTree k under f ∧ k.tag = top ∧ HasTree e children under := by
  induction he with
  | here siblings => exact absurd htag (hroots _ List.mem_cons_self)
  | @deeper n below siblings h ih =>
    by_cases htop : n.tag = top
    · exact ⟨n, below, .here siblings, htop, h⟩
    · obtain ⟨k, under, hk, h⟩ := ih hf.2.1 fun b hb hin =>
        hroots n List.mem_cons_self ((hinside _ _ (hf.1 b hb) hin).resolve_right htop)
      exact ⟨k, under, .deeper siblings hk, h⟩
  | beside n below _ ih =>
    obtain ⟨k, under, hk, h⟩ := ih hf.2.2 fun b hb => hroots b (List.mem_cons_of_mem _ hb)
    exact ⟨k, under, .beside n below hk, h⟩

/-- No measure stands below a measure. -/
theorem Nested.tag_ne_measure_below {n : Node α} {below : Forest (Node α)} (hf : f.Nested)
    (hn : HasTree n below f) (hm : n.tag = .measure) : ∀ k ∈ below.toList, k.tag ≠ .measure := by
  obtain ⟨htakes, hbelow⟩ := hf.of_hasTree hn
  refine hbelow.tag_ne_measure fun b hb => ?_
  have htakes := htakes b hb
  rw [Node.tag] at hm ⊢
  cases hk : n.kind <;> cases hb : b.kind <;>
    simp [hk, hb, NodeKind.accepts, NodeKind.tag] at hm htakes ⊢

/-- A symbol in a measure stands in a layer of it. -/
theorem Nested.exists_layer {n : Node α} {below : Forest (Node α)} (hf : f.Nested)
    (hn : HasTree n below f) (hm : n.tag = .measure) {e : Node α} (he : e ∈ below.toList)
    (htag : e.tag = .element) : ∃ k under, HasTree k under below ∧ k.tag = .layer ∧
      e ∈ under.toList := by
  obtain ⟨children, hchildren⟩ := exists_hasTree he
  obtain ⟨htakes, hnested⟩ := hf.of_hasTree hn
  obtain ⟨k, under, hk, hlayer, htree⟩ := hnested.exists_above (· = .element) .layer
    (fun a b hab hb => by
      cases a <;> cases b <;> simp [NodeKind.accepts, NodeKind.tag] at hab hb ⊢)
    (fun b hb hel => by
      have htakes := htakes b hb
      rw [Node.tag] at hm hel
      cases hk : n.kind <;> cases hb : b.kind <;>
        simp [hk, hb, NodeKind.accepts, NodeKind.tag] at hm htakes hel)
    hchildren htag
  exact ⟨k, under, hk, hlayer, htree.mem⟩

/-- The end of a layer in a measure. -/
theorem Nested.mem_layerEnds (hf : f.Nested) (hmeasures : ∀ n ∈ f.toList, n.tag ≠ .measure)
    {k : Node α} {under : Forest (Node α)} (hk : HasTree k under f) (hlayer : k.tag = .layer) :
    ((under.symbols .one none).map Symbol.time).sum ∈ f.layerEnds := by
  induction hk with
  | here siblings =>
    rw [layerEnds, hlayer]
    exact List.mem_append_left _ List.mem_cons_self
  | @deeper n below siblings h ih =>
    rw [toList, List.forall_mem_cons, List.forall_mem_append] at hmeasures
    have hn : n.tag ≠ .layer := fun hn =>
      absurd (((hf.2.1.symbolic fun b hb => NodeKind.tag_of_layer hn (hf.1 b hb)).tag k
        h.mem).symm.trans hlayer) (by decide)
    rw [layerEnds]
    refine List.mem_append_left _ ?_
    split
    · exact absurd ‹_› hmeasures.1
    · exact absurd ‹_› hn
    · exact ih hf.2.1 hmeasures.2.1
  | beside n below _ ih =>
    rw [toList, List.forall_mem_cons, List.forall_mem_append] at hmeasures
    exact List.mem_append_right _ (ih hf.2.2 hmeasures.2.2)

end Forest

/-! ### What alignment leaves -/

/-- The slots of a layer. Apart from grace notes, and from what stands in grace chords, symbols stand
at their onsets. The grace notes that wait when a principal symbol or the end of the layer comes next
stand before its time, one behind another. -/
structure Forest.LayerSlotted (f : Forest (Node α)) : Prop where
  onsets : ∀ x ∈ f.symbols .one none, ¬ x.IsGrace → (∀ c, x.chord = some c → ¬ c.isGrace) →
    ¬ x.node.IsGroup → ∃ key, x.node.layout.slot = some key ∧ x.node.layout.onset = some key.time
  principals : ∀ x ∈ f.symbols .one none, x.IsPrincipal → ∃ onset,
    x.node.layout.onset = some onset ∧ x.node.layout.slot = some (.ofKind onset .event)
  graces : ∃ stop : Fraction, stop.value = ((f.symbols .one none).map Symbol.time).sum ∧
    ∀ front back onset, f.symbols .one none = front ++ back → ComesNext stop onset back →
      (waitingGraces front).map (fun x => x.node.layout.slot) =
          (graceKeys onset (waitingGraces front).length).map some ∧
        (graceKeys onset (waitingGraces front).length ++ [SlotKey.ofKind onset .event]).Pairwise
          fun a b => a.compare b = .lt

/-- The slots of a score. -/
structure Document.Slotted (d : Document α) : Prop where
  groups : ∀ n ∈ d.score.toList, n.IsGroup → n.layout.slot = none
  symbols : ∀ n below m, Forest.HasTree n below d.score → n.kind = .measure m →
    ∀ e ∈ below.toList, e.tag = .element → ¬ e.IsGroup → ∃ key, e.layout.slot = some key ∧
      key.zone = .content ∧ m.grid.Has key ∧ 0 ≤ key.time.value ∧
        key.time.value ≤ m.grid.maxTime.value
  layers : ∀ n below, Forest.HasTree n below d.score → n.tag = .layer → below.LayerSlotted
  chords : ∀ n below, Forest.HasTree n below d.score → n.isGrace →
    ∀ e ∈ below.toList, e.layout.slot = n.layout.slot
  frames : d.score.GridsFramedTight

variable [Scalar α]

theorem Forest.Symbolic.of_sameMusic {R : Node α → Node α → Prop} {f f' : Forest (Node α)}
    (hf : f.Symbolic) (h : Forall₂ R f f') (hR : ∀ n n', R n n' → n.SameMusic n') :
    f'.Symbolic := by
  refine hf.of_kinds (h.mem.mono (S := fun n n' => n.SameMusic n' ∧ n.tag = .element)
    fun n n' hn => ⟨hR n n' hn.1, hf.tag n hn.2.1⟩) fun n n' hn => ?_
  obtain ⟨e, he⟩ := Node.exists_element hn.2
  rw [he, hn.1.element.2 he]

namespace Document

variable {d : Document α} {metrics : GlyphMetrics α} {unit : α}

omit [Scalar α] in
/-- A symbol of the score stands below a layer. -/
theorem WellFormed.exists_layer (hd : d.WellFormed) {e : Node α} {children : Forest (Node α)}
    (he : Forest.HasTree e children d.score) (htag : e.tag = .element) :
    ∃ k under, Forest.HasTree k under d.score ∧ k.tag = .layer ∧
      Forest.HasTree e children under := by
  refine hd.nested_score.exists_above (· = .element) .layer (fun a b hab hb => ?_)
    (fun b hb => (hd.isOuter_root b hb).2.2) he htag
  cases a <;> cases b <;> simp [NodeKind.accepts, NodeKind.tag] at hab hb ⊢

omit [Scalar α] in
/-- A layer of the score stands in a measure. -/
theorem WellFormed.exists_measure (hd : d.WellFormed) {k : Node α} {under : Forest (Node α)}
    (hk : Forest.HasTree k under d.score) (hlayer : k.tag = .layer) :
    ∃ n below m, Forest.HasTree n below d.score ∧ n.kind = .measure m ∧
      Forest.HasTree k under below := by
  obtain ⟨n, below, hn, htag, h⟩ := hd.nested_score.exists_above
    (fun t => t = .staff ∨ t = .layer) .measure (fun a b hab hb => by
      cases a <;> cases b <;> simp [NodeKind.accepts, NodeKind.tag] at hab hb ⊢)
    (fun b hb h => h.elim (hd.isOuter_root b hb).1 (hd.isOuter_root b hb).2.1) hk (.inr hlayer)
  obtain ⟨m, hm⟩ := NodeKind.exists_of_measure htag
  exact ⟨n, below, m, hn, hm, h⟩

/-- What the walk of alignment finds for grace chords and for symbols that take no time. -/
theorem WellFormed.passes_align (hd : d.WellFormed) (hok : (d.align metrics unit).fault = none) :
    (∀ n below m, Forest.HasTree n below (d.align metrics unit).document.score →
      n.kind = .measure m → ∀ e ∈ below.toList, e.UntimedAt m.grid.Has) ∧
    ∀ n below, Forest.HasTree n below (d.align metrics unit).document.score → n.isGrace →
      ∀ e ∈ below.toList, e.layout.slot = n.layout.slot := by
  obtain ⟨s, score, v, hrun⟩ : ∃ s score v, d.score.run (alignPass ⟨metrics, unit, d⟩)
      (.start d.definition) = (s, score, v) := ⟨_, _, _, rfl⟩
  obtain ⟨hwalk, -, -, -, hscore⟩ := walk_align hok hrun
  have hkeeps := AlignState.keeps_completes hwalk
  have hnodup := hd.nodup_handles.sublist ((score_sublist d).map Node.handle)
  have hpasses := AlignState.passes_completes hwalk hd.nested_score hd.isOuter_root rfl
  have hslots := AlignState.slots_score hwalk hd.nested_score hd.isOuter_root
    hd.nodup_score_ids hnodup (hd.handlesBelow rfl) (fun g hg => absurd hg List.not_mem_nil) rfl
    fun _ _ => rfl
  have hnone {n n' : Node α} (hn : n ∈ d.score.toList) (hnn : n.SameMusic n')
      (hn' : ¬ n'.IsTimed) : s.graceSlots.lookup n'.handle = none := by
    have hlookup := hd.lookup_eq_none metrics unit hn hnn hn'
    rwa [hrun] at hlookup
  have hgraces : Forest.Forall₂ (fun n n' => n' = AlignState.applyGraceSlots s.graceSlots n) score
      (score.map (AlignState.applyGraceSlots s.graceSlots)) := .map_right _ fun _ _ => rfl
  have hkind (n : Node α) : (AlignState.applyGraceSlots s.graceSlots n).kind = n.kind :=
    (sameTiming_applyGraceSlots n s.graceSlots).kind
  rw [hscore]
  refine ⟨fun n' below' m hn' hm e' he' => ?_, fun n' below' hn' hgrace e' he' => ?_⟩
  · obtain ⟨n, below, hn, rfl, hbelow⟩ := hgraces.flip.hasTree hn'
    obtain ⟨e, he, rfl⟩ := exists_mem_of_forall₂ hbelow.flip.toList he'
    obtain ⟨e₀, he₀, hsame⟩ := exists_mem_of_forall₂ hkeeps.toList (hn.mem_of_mem he)
    rw [hkind] at hm
    intro el kind hel hk
    rw [hkind] at hel
    have huntimed : ¬ e.IsTimed := by
      rintro ⟨el', hel', htimed⟩
      rw [hel, NodeKind.element.injEq] at hel'
      subst hel'
      cases el with
      | note | rest | chord | space | measureRest | multiRest | beam | tuplet => cases hk
      | clef | key | meter | barLine => cases htimed
    rw [AlignState.applyGraceSlots, hnone he₀ hsame.toSameMusic huntimed]
    exact hpasses.untimed n below m hn hm e he el kind hel hk
  · obtain ⟨n, below, hn, rfl, hbelow⟩ := hgraces.flip.hasTree hn'
    obtain ⟨e, he, rfl⟩ := exists_mem_of_forall₂ hbelow.flip.toList he'
    obtain ⟨n₀, below₀, hn₀, hsame, hbelow₀⟩ := hkeeps.flip.hasTree hn
    obtain ⟨e₀, he₀, hsame'⟩ := exists_mem_of_forall₂ hbelow₀.flip.toList he
    have hsymbol (el : Element) : n.kind = .element el ↔ n₀.kind = .element el :=
      hsame.toSameMusic.element
    obtain ⟨el, hel⟩ := Node.exists_element (Node.tag_of_isGrace hgrace)
    rw [hkind] at hel
    rw [Node.isGrace, hkind, hel] at hgrace
    have hel₀ := (hsymbol el).1 hel
    -- only a chord holds anything
    obtain ⟨htakes, hnested⟩ := hd.nested_score.of_hasTree hn₀
    obtain ⟨dur, rfl⟩ : ∃ dur, el = .chord dur := by
      obtain ⟨b, rest, siblings, rfl⟩ : ∃ b rest siblings, below₀ = .cons b rest siblings := by
        cases below₀ with
        | nil => exact absurd he₀ List.not_mem_nil
        | cons b rest siblings => exact ⟨b, rest, siblings, rfl⟩
      have htakes := htakes b List.mem_cons_self
      rw [hel₀] at htakes
      cases el with
      | chord dur => exact ⟨dur, rfl⟩
      | beam | tuplet | measureRest | multiRest | clef | key | meter | barLine => cases hgrace
      | note | rest | space =>
        cases hb : b.kind <;> simp [hb, NodeKind.accepts, Element.accepts] at htakes
    have hnotes : below₀.toList = below₀.roots := hnested.toList_of_notes fun b hb =>
      NodeKind.exists_note_of_chord (hel₀ ▸ htakes b hb)
    have hcoupled : s.ledger.Coupled n₀.handle e₀.handle :=
      hpasses.coupled _ _ (Forest.coupling_of_hasTree hnodup (hd.handlesBelow rfl) hn₀ hel₀ hgrace
        (hnotes ▸ he₀)) ⟨fun _ hg => absurd hg List.not_mem_nil, rfl⟩
    have hfound : (s.graceSlots.lookup n₀.handle).isSome := by
      obtain ⟨k₀, under₀, hk₀, hlayer, hunder₀⟩ := hd.exists_layer hn₀ (by rw [Node.tag, hel₀]; rfl)
      have hsymbolic := (hd.nested_score.of_hasTree hk₀).2.symbolic fun b hb =>
        NodeKind.tag_of_layer hlayer ((hd.nested_score.of_hasTree hk₀).1 b hb)
      obtain ⟨k, under, hk, hkk, hunder⟩ := hkeeps.hasTree hk₀
      obtain ⟨n₁, below₁, hn₁, hsame₁, -⟩ := hunder.hasTree hunder₀
      have hsymbolic' := hsymbolic.of_sameMusic hunder fun _ _ h => h.toSameMusic
      obtain ⟨x, hx, rfl⟩ := List.mem_map.1
        ((Forest.map_node_symbols hsymbolic'.tag .one none).symm ▸ hn₁.mem)
      have hxel : x.element = .chord dur := NodeKind.element.inj
        ((Forest.kind_of_mem_symbols hx).symm.trans (hsame₁.toSameMusic.element.2 hel₀))
      rw [← hsame₁.handle]
      refine hslots.graces k under hk (hkk.tag.trans hlayer) x hx ⟨?_, hxel ▸ hgrace⟩
      by_contra hchord
      obtain ⟨c, hc⟩ := Option.ne_none_iff_exists'.1 hchord
      obtain ⟨⟨note, hnote⟩, -⟩ := hsymbolic'.exists_chord hx hc
      cases hxel.symm.trans hnote
    obtain ⟨key, hkey⟩ := Option.isSome_iff_exists.1 hfound
    have hkey' : s.graceSlots.lookup e₀.handle = some key := hcoupled.found.trans hkey
    rw [AlignState.applyGraceSlots, AlignState.applyGraceSlots, hsame.handle, hsame'.handle, hkey,
      hkey']
    rfl

end Document

/-! ### The symbols of one layer -/

section Layer

variable {f : Forest (Node α)} {has : SlotKey → Prop} {stop : Fraction}
  (hkeys : ∀ front x back, f.symbols .one none = front ++ x :: back → ∀ key,
    x.key? stop back = some key → has key ∧ x.node.layout.slot = some key)

include hkeys

omit [Scalar α] in
/-- A grace note. -/
theorem slot_of_grace {front back : List (Symbol α)} {x : Symbol α}
    (hx : f.symbols .one none = front ++ x :: back) (hgrace : x.IsGrace) :
    has (.ofGrace (leansOn stop back) (gracesAhead back + 1)) ∧
      x.node.layout.slot = some (.ofGrace (leansOn stop back) (gracesAhead back + 1)) := by
  refine hkeys front x back hx _ ?_
  rw [Symbol.key?, hgrace.1]
  exact if_pos hgrace.2

omit [Scalar α] in
/-- A symbol that is neither a grace note nor a note of a grace chord, nor a group. -/
theorem slot_of_not_grace
    (honsets : ∀ e ∈ f.toList, ∃ onset, e.layout.onset = some onset)
    (huntimed : ∀ e ∈ f.toList, e.UntimedAt has) {x : Symbol α} (hx : x ∈ f.symbols .one none)
    (hgrace : ¬ x.IsGrace) (hchord : ∀ c, x.chord = some c → ¬ c.isGrace)
    (hgroup : ¬ x.node.IsGroup) : ∃ onset kind, x.node.layout.onset = some onset ∧
      kind.zone = .content ∧ has (.ofKind onset kind) ∧
        x.node.layout.slot = some (.ofKind onset kind) := by
  obtain ⟨front, back, hxs⟩ := List.append_of_mem hx
  have hkind := Forest.kind_of_mem_symbols hx
  have hnode := Forest.mem_of_mem_symbols hx
  obtain ⟨onset, honset⟩ := honsets _ hnode
  have hkey (kind : SlotKind) (hzone : kind.zone = .content)
      (hkey : x.key? stop back = some (.ofKind onset kind)) :
      ∃ onset kind, x.node.layout.onset = some onset ∧ kind.zone = .content ∧
        has (.ofKind onset kind) ∧ x.node.layout.slot = some (.ofKind onset kind) :=
    ⟨onset, kind, honset, hzone, hkeys front x back hxs _ hkey⟩
  have huntimed (kind : SlotKind) (hzone : kind.zone = .content)
      (hk : x.element.untimedKind? = some kind) :
      ∃ onset kind, x.node.layout.onset = some onset ∧ kind.zone = .content ∧
        has (.ofKind onset kind) ∧ x.node.layout.slot = some (.ofKind onset kind) := by
    obtain ⟨o, ho, hslot, hhas⟩ := huntimed _ hnode _ _ hkind hk
    exact ⟨o, kind, ho, hzone, hhas, hslot⟩
  cases hc : x.chord with
  | some c =>
    refine hkey .event rfl ?_
    rw [Symbol.key?, hc]
    dsimp only
    rw [if_neg (hchord c hc), honset]
    rfl
  | none =>
    have hplain : ¬ x.element.isGrace := fun h => hgrace ⟨hc, h⟩
    cases he : x.element with
    | note | rest | chord | space =>
      refine hkey .event rfl ?_
      rw [Symbol.key?, hc]
      dsimp only
      rw [if_neg hplain, he, honset]
      rfl
    | measureRest | multiRest =>
      refine hkey .fullMeasure rfl ?_
      rw [Symbol.key?, hc]
      dsimp only
      rw [if_neg hplain, he, honset]
      rfl
    | clef => exact huntimed .clef rfl (he ▸ rfl)
    | key => exact huntimed .key rfl (he ▸ rfl)
    | meter => exact huntimed .meter rfl (he ▸ rfl)
    | barLine => exact huntimed .barLine rfl (he ▸ rfl)
    | beam => exact absurd (.inl (he ▸ hkind)) hgroup
    | tuplet num base => exact absurd (.inr ⟨num, base, he ▸ hkind⟩) hgroup

end Layer

namespace Document

variable {d : Document α} {metrics : GlyphMetrics α} {unit : α}

/-- No layer of a measure ends behind it. -/
theorem WellFormed.layerEnd_le_maxTime (hd : d.WellFormed)
    (hok : (d.align metrics unit).fault = none) {n k : Node α} {below under : Forest (Node α)}
    {m : Measure α} (hn : Forest.HasTree n below (d.align metrics unit).document.score)
    (hm : n.kind = .measure m) (hk : Forest.HasTree k under below) (hlayer : k.tag = .layer) :
    ((under.symbols .one none).map Symbol.time).sum ≤ m.grid.maxTime.value := by
  have hnested := ((d.sameTree_align metrics unit).wellFormed hd).nested_score
  rw [(hd.timed_align hok).measures n below m hn hm]
  exact le_foldl_max.2 _ ((hnested.of_hasTree hn).2.mem_layerEnds
    (hnested.tag_ne_measure_below hn (by rw [Node.tag, hm]; rfl)) hk hlayer)

/-- What alignment leaves for a layer of a measure. -/
theorem WellFormed.layer_align (hd : d.WellFormed) (hok : (d.align metrics unit).fault = none)
    {n k : Node α} {below under : Forest (Node α)} {m : Measure α}
    (hn : Forest.HasTree n below (d.align metrics unit).document.score) (hm : n.kind = .measure m)
    (hk : Forest.HasTree k under below) (hlayer : k.tag = .layer) :
    under.LayerSlotted ∧ ∀ e ∈ under.toList, ¬ e.IsGroup → ∃ key, e.layout.slot = some key ∧
      key.zone = .content ∧ m.grid.Has key ∧ 0 ≤ key.time.value ∧
        key.time.value ≤ m.grid.maxTime.value := by
  obtain ⟨huntimed, hchords⟩ := hd.passes_align hok
  obtain ⟨hsymbolic, honsets, -, hsum⟩ := hd.onsets_align hok (hn.trans hk) hlayer
  obtain ⟨stop, hstop, hkeys⟩ := (hd.booked_align hok n below m hn hm).2 k under hk hlayer
  have hkeys : ∀ front x back, under.symbols .one none = front ++ x :: back → ∀ key,
      x.key? stop back = some key → m.grid.Has key ∧ x.node.layout.slot = some key := hkeys
  have hend : stop.value ≤ m.grid.maxTime.value :=
    hstop.trans_le (hd.layerEnd_le_maxTime hok hn hm hk hlayer)
  have hplain {x : Symbol α} := slot_of_not_grace hkeys (x := x)
    (fun e he => (honsets e he).imp fun _ h => h.1) fun e he =>
      huntimed n below m hn hm e (hk.mem_of_mem he)
  have hinside {x : Symbol α} (hx : x ∈ under.symbols .one none) (hgrace : x.IsGrace) :
      ∃ key, x.node.layout.slot = some key ∧ key.zone = .content ∧ m.grid.Has key ∧
        0 ≤ key.time.value ∧ key.time.value ≤ m.grid.maxTime.value := by
    obtain ⟨front, back, hxs⟩ := List.append_of_mem hx
    obtain ⟨hhas, hslot⟩ := slot_of_grace hkeys hxs hgrace
    refine ⟨_, hslot, rfl, hhas, ?_⟩
    show 0 ≤ (leansOn stop back).value ∧ (leansOn stop back).value ≤ m.grid.maxTime.value
    rcases leansOn_eq stop back with heq | ⟨y, hy, heq⟩
    · rw [heq]
      exact ⟨hstop ▸ hsum, hend⟩
    · have hmem : y ∈ under.symbols .one none := hxs ▸ by simp [hy]
      obtain ⟨a, ha, hlow, hhigh⟩ := honsets _ (Forest.mem_of_mem_symbols hmem)
      rw [heq, ha]
      exact ⟨hlow, (hhigh.trans hstop.ge).trans hend⟩
  refine ⟨⟨fun x hx hgrace hchord hgroup => ?_, fun x hx hprincipal => ?_, stop, hstop,
    fun front back onset hxs hnext => ⟨waitingGraces_slots hxs (fun front x back hxs hgrace =>
      (slot_of_grace hkeys hxs hgrace).2) hnext, ordered_graceKeys _ _⟩⟩, fun e he hgroup => ?_⟩
  · obtain ⟨onset, kind, honset, -, -, hslot⟩ := hplain hx hgrace hchord hgroup
    exact ⟨_, hslot, honset⟩
  · obtain ⟨front, back, hxs⟩ := List.append_of_mem hx
    obtain ⟨onset, honset, -⟩ := honsets _ (Forest.mem_of_mem_symbols hx)
    refine ⟨onset, honset, (hkeys front x back hxs _ ?_).2⟩
    rw [Symbol.key?, hprincipal.1]
    dsimp only
    rw [if_neg hprincipal.2.2, if_pos hprincipal.2.1, honset]
    rfl
  · obtain ⟨x, hx, rfl⟩ := List.mem_map.1
      ((Forest.map_node_symbols hsymbolic.tag .one none).symm ▸ he)
    by_cases hgrace : x.IsGrace
    · exact hinside hx hgrace
    by_cases hchord : ∃ c, x.chord = some c ∧ c.isGrace
    · -- the chord has its slot as a grace note of the layer
      obtain ⟨c, hc, hcgrace⟩ := hchord
      obtain ⟨-, dur, notes, hnotes, hdur, hx'⟩ := hsymbolic.exists_chord hx hc
      obtain ⟨y, hy, rfl⟩ := List.mem_map.1
        ((Forest.map_node_symbols hsymbolic.tag .one none).symm ▸ hnotes.mem)
      rw [hchords _ notes ((hn.trans hk).trans hnotes) hcgrace _ hx']
      have hyel : y.element = .chord dur := NodeKind.element.inj
        ((Forest.kind_of_mem_symbols hy).symm.trans hdur)
      refine hinside hy ⟨?_, ?_⟩
      · by_contra hnone
        obtain ⟨c, hc⟩ := Option.ne_none_iff_exists'.1 hnone
        obtain ⟨⟨note, hnote⟩, -⟩ := hsymbolic.exists_chord hy hc
        cases hyel.symm.trans hnote
      · rw [Node.isGrace, hdur] at hcgrace
        exact hyel ▸ hcgrace
    · push Not at hchord
      obtain ⟨onset, kind, honset, hzone, hhas, hslot⟩ :=
        hplain hx hgrace (fun c hc => by simpa using hchord c hc) hgroup
      obtain ⟨a, ha, hlow, hhigh⟩ := honsets _ (Forest.mem_of_mem_symbols hx)
      obtain rfl := Option.some.inj (honset.symm.trans ha)
      exact ⟨_, hslot, hzone, hhas, hlow, (hhigh.trans hstop.ge).trans hend⟩

/-- The slots that alignment leaves. -/
theorem WellFormed.slotted_of_align (hd : d.WellFormed) (hgroups : d.Ungrouped)
    (hok : (d.align metrics unit).fault = none) : (d.align metrics unit).document.Slotted := by
  have hwf := (d.sameTree_align metrics unit).wellFormed hd
  have hscore := hd.ungroups_align metrics unit
  refine ⟨fun n' hn' hgroup => ?_, fun n below m hn hm e he htag hgroup => ?_,
    fun k under hk hlayer => ?_, (hd.passes_align hok).2, hd.framed_align hok⟩
  · obtain ⟨n, hn, hnn⟩ := exists_mem_of_forall₂ hscore.toList hn'
    have hgroup₀ := hnn.isGroup.1 hgroup
    have htag : n.tag = .element := by
      rcases hgroup₀ with h | ⟨_, _, h⟩ <;> rw [Node.tag, h] <;> rfl
    rw [hnn.slot hgroup₀]
    exact hgroups n (hd.mem_content hn (by rw [htag]; decide)) hgroup₀
  · obtain ⟨k, under, hk, hlayer, hunder⟩ :=
      hwf.nested_score.exists_layer hn (by rw [Node.tag, hm]; rfl) he htag
    exact (hd.layer_align hok hn hm hk hlayer).2 e hunder hgroup
  · obtain ⟨n, below, m, hn, hm, h⟩ := hwf.exists_measure hk hlayer
    exact (hd.layer_align hok hn hm h hlayer).1

/-- Whatever a caller comes to, alignment that meets no fault leaves every symbol in its slot. -/
theorem Reachable.slotted_align (h : d.Reachable) (hok : (d.align metrics unit).fault = none) :
    (d.align metrics unit).document.Slotted := by
  have hrequired : .prepared ≤ d.stage := by
    rw [align] at hok
    exact Outcome.required_le_of_guarded hok
  exact h.wellFormed.slotted_of_align (h.ungrouped hrequired) hok

/-- A grace note and a grace chord in a beam, between a quarter note and the end of the layer. -/
theorem Reachable.slotted_align_of_graces : ∃ d : Document ℚ, d.Reachable ∧
    (d.align .default 9).fault = none ∧ (d.align .default 9).document.Slotted ∧
    ((d.align .default 9).document.score.toList.filter fun n => n.tag = .element).map
        (fun n => n.layout.slot.map fun key => (key.time.value, key.kind, key.graceRank)) =
      [some (0, .event, 0), none, some (1 / 4, .grace, 2), some (1 / 4, .grace, 1),
        some (1 / 4, .grace, 1)] := by
  have hlayer := (((Reachable.ofDefinition (α := ℚ) default).contentSystem.add 2
    (.measure (.ofNumber 1))).add 3 (.staff ⟨1, false⟩)).add 4 (.layer 1)
  have hd := (((((hlayer.add 5
    (.element (.note ⟨.ofValue .quarter, ⟨.c, 4, none⟩, none, false⟩))).add 5
    (.element .beam)).add 7
    (.element (.note ⟨{ Duration.ofValue .eighth with grace := true },
      ⟨.d, 4, none⟩, none, false⟩))).add 7
    (.element (.chord { Duration.ofValue .eighth with grace := true }))).add 9
    (.element (.note ⟨.empty, ⟨.e, 4, none⟩, none, false⟩)))
  have hprepared := hd.pass .default .prepare (by decide +kernel)
  refine ⟨_, hprepared, ?_, hprepared.slotted_align ?_, ?_⟩
  · decide +kernel
  · decide +kernel
  · decide +kernel

end Document

end ScoreLayout
