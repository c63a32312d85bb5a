import ScoreLayout.Proofs.Layout.MeasureSlots
import ScoreLayout.Proofs.Onsets

/-!
# The slots that alignment leaves

At its end alignment writes the slots into the grace notes that it has found for them. From then on
a symbol carries its slot. Whatever keeps the onsets and the slots of symbols and the outlines of
the time grids keeps what the slots are.

## Main definitions

* `Symbol.Related` — two states of one symbol whose nodes are related.
* `Node.Settles` — a node with what the books say of its slot written into it.

## Main results

* `Forest.MeasuresBooked.settle` — once written, the books are not needed any more.
* `Document.WellFormed.booked_align` — the slots that alignment leaves.
-/

namespace ScoreLayout

variable {α : Type}

/-! ### Two states of one symbol -/

/-- Two states of one symbol whose nodes are related. -/
structure Symbol.Related (R : Node α → Node α → Prop) (x x' : Symbol α) : Prop where
  node : R x.node x'.node
  kind : x.node.kind = .element x.element
  element : x'.element = x.element
  chord : Option.Rel R x.chord x'.chord

theorem NodeKind.element?_eq_some_iff {k : NodeKind α} {e : Element} :
    k.element? = some e ↔ k = .element e := by
  cases k <;> simp [element?]

namespace Node

variable {n n' : Node α}

theorem asChord_eq (n : Node α) :
    n.asChord = if n.kind.element?.any (fun e => e matches .chord _) then some n else none := by
  rw [asChord]
  cases n.kind with
  | element e => cases e <;> rfl
  | _ => rfl

theorem ratioBelow_eq_of_element? (h : n'.kind.element? = n.kind.element?) (r : TupletRatio) :
    n'.ratioBelow r = n.ratioBelow r := by
  have hplain {n : Node α} (hn : n.kind.element? = none) : n.ratioBelow r = r := by
    rw [ratioBelow]
    cases hk : n.kind with
    | element e => simp [hk, NodeKind.element?] at hn
    | _ => rfl
  cases he : n.kind.element? with
  | some e =>
    rw [ratioBelow, ratioBelow, NodeKind.element?_eq_some_iff.1 he,
      NodeKind.element?_eq_some_iff.1 (h.trans he)]
  | none => rw [hplain he, hplain (h.trans he)]

theorem isGrace_eq_of_element? (h : n'.kind.element? = n.kind.element?) :
    n'.isGrace = n.isGrace := by
  rw [isGrace, isGrace, h]

end Node

section Related

variable {R : Node α → Node α → Prop} {x x' : Symbol α} {xs xs' : List (Symbol α)}

/-- Forests of related nodes have related symbols, if the elements are the same. -/
theorem Forest.Forall₂.related_symbols
    (hR : ∀ n n', R n n' → n'.kind.element? = n.kind.element?) {f f' : Forest (Node α)}
    (h : Forest.Forall₂ R f f') {r : TupletRatio} {chord chord' : Option (Node α)}
    (hchord : Option.Rel R chord chord') :
    List.Forall₂ (Symbol.Related R) (f.symbols r chord) (f'.symbols r chord') := by
  induction h generalizing r chord chord' with
  | nil => exact .nil
  | @cons n n' below siblings below' siblings' hn _ _ hbelow hsiblings =>
    have helement := hR _ _ hn
    have hrest : List.Forall₂ (Symbol.Related R)
        (below.symbols (n.ratioBelow r) n.asChord ++ siblings.symbols r chord)
        (below'.symbols (n'.ratioBelow r) n'.asChord ++ siblings'.symbols r chord') := by
      rw [Node.ratioBelow_eq_of_element? helement, Node.asChord_eq, Node.asChord_eq, helement]
      refine List.rel_append (hbelow ?_) (hsiblings hchord)
      split
      · exact .some hn
      · exact .none
    rw [Forest.symbols, Forest.symbols, helement]
    cases he : n.kind.element? with
    | none => exact hrest
    | some e => exact .cons ⟨hn, NodeKind.element?_eq_some_iff.1 he, rfl, hchord⟩ hrest

namespace Symbol.Related

theorem tag (h : x.Related R x') : x.node.tag = .element := by rw [Node.tag, h.kind]; rfl

theorem chord_eq_none_iff (h : x.Related R x') : x'.chord = none ↔ x.chord = none := by
  have hchord := h.chord
  generalize x.chord = chord at hchord
  generalize x'.chord = chord' at hchord
  cases hchord <;> simp

theorem isGrace (h : x.Related R x') : x'.IsGrace ↔ x.IsGrace := by
  rw [IsGrace, IsGrace, h.chord_eq_none_iff, h.element]

theorem isPrincipal (h : x.Related R x') : x'.IsPrincipal ↔ x.IsPrincipal := by
  rw [IsPrincipal, IsPrincipal, h.chord_eq_none_iff, h.element]

end Symbol.Related

/-- What a relation has to keep of symbols for their slots to stay what they are. -/
structure KeepsOnsets (R : Node α → Node α → Prop) : Prop where
  element : ∀ n n', R n n' → n'.kind.element? = n.kind.element?
  onset : ∀ n n', R n n' → n.tag = .element → n'.layout.onset = n.layout.onset
  duration : ∀ n n', R n n' → n.tag = .element → n'.layout.duration = n.layout.duration

variable (hR : KeepsOnsets R)

include hR

theorem leansOn_eq_of_related (h : List.Forall₂ (Symbol.Related R) xs xs') (stop : Fraction) :
    leansOn stop xs' = leansOn stop xs := by
  induction h with
  | nil => rfl
  | cons hx _ ih => simp only [leansOn, ih, hx.isPrincipal, hR.onset _ _ hx.node hx.tag]

omit hR in
theorem gracesAhead_eq_of_related (h : List.Forall₂ (Symbol.Related R) xs xs') :
    gracesAhead xs' = gracesAhead xs := by
  induction h with
  | nil => rfl
  | cons hx _ ih => simp only [gracesAhead, ih, hx.isPrincipal, hx.isGrace]

theorem key?_eq_of_related (hx : x.Related R x') (h : List.Forall₂ (Symbol.Related R) xs xs')
    (stop : Fraction) : x'.key? stop xs' = x.key? stop xs := by
  have hchord := hx.chord
  rw [Symbol.key?, Symbol.key?, hx.element, hR.onset _ _ hx.node hx.tag, leansOn_eq_of_related hR h,
    gracesAhead_eq_of_related h]
  generalize x.chord = chord at hchord
  generalize x'.chord = chord' at hchord
  cases hchord with
  | none => rfl
  | some hc =>
    dsimp only
    rw [Node.isGrace_eq_of_element? (hR.element _ _ hc)]

theorem time_eq_of_related (hx : x.Related R x') : x'.time = x.time := by
  have hmoves : x'.MovesOn ↔ x.MovesOn := by
    rw [Symbol.MovesOn, Symbol.MovesOn, hx.element, hx.chord_eq_none_iff]
  rw [Symbol.time, Symbol.time, hR.duration _ _ hx.node hx.tag]
  simp only [hmoves]

end Related

/-! ### Writing the books -/

/-- A node with what the books say of its slot written into it. -/
structure Node.Settles (found : List (Handle × SlotKey)) (n n' : Node α) : Prop where
  tag : n'.tag = n.tag
  element : n'.kind.element? = n.kind.element?
  onset : n.tag = .element → n'.layout.onset = n.layout.onset
  duration : n.tag = .element → n'.layout.duration = n.layout.duration
  slot : n.tag = .element → n'.layout.slot = (found.lookup n.handle).or n.layout.slot
  grid : ∀ m', n'.kind = .measure m' →
    ∃ m, n.kind = .measure m ∧ m'.grid.outline = m.grid.outline

variable {found : List (Handle × SlotKey)} {has : SlotKey → Prop}

theorem Node.keepsOnsets_settles : KeepsOnsets (Node.Settles (α := α) found) where
  element _ _ h := h.element
  onset _ _ h := h.onset
  duration _ _ h := h.duration

theorem Booked.settle {xs xs' : List (Symbol α)}
    (h : List.Forall₂ (Symbol.Related (Node.Settles found)) xs xs') (hxs : Booked found has xs) :
    Booked [] has xs' := by
  obtain ⟨stop, hstop, hkeys⟩ := hxs
  refine ⟨stop, ?_, fun front' x' back' hxs' key hkey => ?_⟩
  · rw [hstop, map_eq_of_forall₂ (u := Symbol.time) (v := Symbol.time) (fun _ _ hx =>
      (time_eq_of_related Node.keepsOnsets_settles hx).symm) h]
  · subst hxs'
    obtain ⟨front, rest, rfl, -, hrest⟩ := exists_append_of_forall₂ h.flip
    obtain ⟨x, back, hx, hback, rfl⟩ := List.forall₂_cons_left_iff.1 hrest
    replace hback := hback.flip
    rw [key?_eq_of_related Node.keepsOnsets_settles hx hback] at hkey
    obtain ⟨hhas, hslot⟩ := hkeys front x back rfl key hkey
    exact ⟨hhas, (hx.node.slot hx.tag).trans hslot⟩

namespace Forest

variable {f f' : Forest (Node α)}

theorem LayersBooked.settle (h : Forall₂ (Node.Settles found) f f') (hf : f.LayersBooked found has) :
    f'.LayersBooked [] has := by
  intro n' below' htree hn'
  obtain ⟨n, below, hn, hnn, hbelow⟩ := h.flip.hasTree htree
  exact (hf n below hn (hnn.tag ▸ hn')).settle
    (hbelow.flip.related_symbols (fun _ _ h => h.element) .none)

/-- Once written, the books are not needed any more. -/
theorem MeasuresBooked.settle (h : Forall₂ (Node.Settles found) f f')
    (hf : f.MeasuresBooked found) : f'.MeasuresBooked [] := by
  intro n' below' m' htree hn'
  obtain ⟨n, below, hn, hnn, hbelow⟩ := h.flip.hasTree htree
  obtain ⟨m, hm, houtline⟩ := hnn.grid m' hn'
  obtain ⟨hsorted, hbooked⟩ := hf n below m hn hm
  have hhas (key : SlotKey) (hkey : m.grid.Has key) : m'.grid.Has key := by
    rwa [MeasureGrid.has_iff_outline, houtline, ← MeasureGrid.has_iff_outline]
  exact ⟨MeasureGrid.sorted_of_outline houtline hsorted,
    (hbooked.mono (fun _ _ => rfl) hhas).settle hbelow.flip⟩

end Forest

theorem Node.settles_applyGraceSlots (found : List (Handle × SlotKey)) (n : Node α) :
    n.Settles found (AlignState.applyGraceSlots found n) := by
  rw [AlignState.applyGraceSlots]
  split
  · rename_i key hkey
    exact ⟨rfl, rfl, fun _ => rfl, fun _ => rfl, fun _ => by rw [hkey]; rfl, fun m hm => ⟨m, hm, rfl⟩⟩
  · rename_i hkey
    exact ⟨rfl, rfl, fun _ => rfl, fun _ => rfl, fun _ => by rw [hkey]; rfl, fun m hm => ⟨m, hm, rfl⟩⟩

/-! ### Alignment -/

namespace Document

/-- The symbols below a symbol are all that stands below it. -/
theorem WellFormed.handlesBelow {d : Document α} (hd : d.WellFormed) {c : AlignContext α}
    (hc : c.document = d) : d.score.HandlesBelow c.symbolsBelow := by
  intro n below htree hn
  have hall : Forest.HasTree n below d.trees := by
    obtain ⟨r, pages, detached, htrees, -⟩ := hd.root
    rw [score, htrees] at htree
    rw [htrees]
    exact htree.append_left detached
  obtain ⟨htakes, hnested⟩ := hd.nested_score.of_hasTree htree
  have hsymbols : below.Symbolic := hnested.symbolic fun b hb => by
    have htakes := htakes b hb
    rw [Node.tag] at hn ⊢
    cases hk : n.kind <;> cases hk' : b.kind <;>
      simp [hk, hk', NodeKind.accepts, NodeKind.tag] at htakes hn ⊢
  have hfind : d.below n.handle = below := by
    rw [Document.below, show d.trees.childrenOf? (hasHandle n.handle) = some below from
      hall.childrenOf?_eq Node.handle hd.nodup_handles, Option.getD_some]
  rw [AlignContext.symbolsBelow, hc, descendants, Forest.unwind_eq_toList, hfind,
    List.filter_eq_self.2 fun m hm => by simpa using hsymbols.tag m hm]

variable [Scalar α]

/-- The slots that alignment leaves, where it meets no fault. -/
theorem WellFormed.booked_align {d : Document α} (hd : d.WellFormed) {metrics : GlyphMetrics α}
    {unit : α} (hok : (d.align metrics unit).fault = none) :
    (d.align metrics unit).document.score.MeasuresBooked [] := by
  obtain ⟨s, score, hwalk, -, -, -, hscore⟩ := exists_align hok
  have hslots := AlignState.slots_score hwalk hd.nested_score hd.isOuter_root
    hd.nodup_score_ids (hd.nodup_handles.sublist ((score_sublist d).map _)) (hd.handlesBelow rfl)
    (fun g hg => absurd hg List.not_mem_nil) rfl fun _ _ => rfl
  rw [hscore]
  exact hslots.booked.settle (.map_right _ fun n _ => n.settles_applyGraceSlots _)

end Document

end ScoreLayout
