import ScoreLayout.Proofs.StackedStaves
import ScoreLayout.Proofs.Layout.StaffFrames
import ScoreLayout.Proofs.Layout.StaffRoom

/-!
# Symbols in the bands of their staves

Placement gives a symbol its place on the page from the top line of its staff, which lies where the
stack of its system says. So a symbol with room on its staff is drawn in the band of the staff, and so
is one drawn around others. On a hidden staff nothing is drawn.

## Main definitions

* `Rect.Between` — a rectangle between two heights.
* `SystemFrame.OnSlot` — a node that is drawn in the band of a staff, or not at all.
* `Forest.Banded` — all symbols of a forest are drawn in the bands of their staves.

## Main results

* `Placing.onSlot_enterElement`, `Placing.onSlot_leaveElement` — a symbol that is entered and left.
* `Document.WellFormed.banded_place` — the symbols of a score after placement.
-/

namespace ScoreLayout

variable {K : Type} [ExactField K]

theorem Rect.translate_translate_neg (r : Rect K) (x y : K) :
    (r.translate (-x) (-y)).translate x y = r := by
  obtain ⟨x1, y1, x2, y2⟩ := r
  simp [translate]

/-- A rectangle has an area wherever it is moved to. -/
theorem Rect.isEmpty_translate (r : Rect K) (dx dy : K) :
    (r.translate dx dy).IsEmpty ↔ r.IsEmpty := by
  simp only [IsEmpty, width, height, translate, add_sub_add_right_eq_sub]

/-- A rectangle between two heights. -/
def Rect.Between (low high : K) (r : Rect K) : Prop := low ≤ r.y1 ∧ r.y2 ≤ high

namespace Rect.Between

variable {low high : K} {a b : Rect K}

theorem union (ha : a.Between low high) (hb : b.Between low high) : (a.union b).Between low high := by
  rw [Rect.union]
  split_ifs
  · exact ha
  · exact hb
  · simp only [Between, Scalar.min_eq_min, Scalar.max_eq_max]
    exact ⟨le_min ha.1 hb.1, max_le ha.2 hb.2⟩

theorem foldl_union (ha : a.Between low high) {rects : List (Rect K)}
    (h : ∀ r ∈ rects, r.Between low high) : (rects.foldl Rect.union a).Between low high := by
  induction rects generalizing a with
  | nil => exact ha
  | cons b rects ih =>
    obtain ⟨hb, hrects⟩ := List.forall_mem_cons.1 h
    exact ih (ha.union hb) hrects

end Rect.Between

/-- A staff on which there is room for what is drawn of a node. -/
def StaffSlot.Fits (slot : StaffSlot K) (n : Node K) : Prop :=
  ∀ r, n.box.rect = some r → slot.HasRoom (n.layout.y + r.y1) (n.layout.y + r.y2)

/-- A node that is drawn in the band of a staff of a system, if anything is drawn of it. -/
def SystemFrame.OnSlot (frame : SystemFrame K) (slot : StaffSlot K) (n : Node K) : Prop :=
  n.box.rect.isSome → ¬ slot.hidden ∧
    n.box.bounds.Between (frame.y + slot.top) (frame.y + slot.bottom)

theorem StaffStack.Holds.mono {stack : StaffStack K} {f g : Forest (Node K)} (h : stack.Holds f)
    (hsub : ∀ n ∈ g.toList, n ∈ f.toList) : stack.Holds g where
  staves n hn := h.staves n (hsub n hn)
  symbols n hn := h.symbols n (hsub n hn)

/-- A stack that holds what stands in a system fits the symbols of each staff. -/
theorem StaffStack.Holds.exists_fits {stack : StaffStack K} {f : Forest (Node K)}
    (h : stack.Holds f) {n : Node K} (hn : n ∈ f.toList) {staff : Staff} (hk : n.kind = .staff staff) :
    ∃ slot, stack.get? staff.n = some slot ∧ ∀ e ∈ f.toList, e.tag = .element →
      e.layout.staff = some staff.n → slot.Fits e := by
  obtain ⟨slot, hslot⟩ := Option.isSome_iff_exists.1 (h.staves n hn staff hk)
  refine ⟨slot, hslot, fun e he ht hstaff r hr => ?_⟩
  have hextent : e.extent? = some (staff.n, e.layout.y + r.y1, e.layout.y + r.y2) := by
    rw [Node.extent?, hr, hstaff]
    rfl
  obtain ⟨slot', hslot', hroom⟩ := h.symbols e he ht _ _ _ hextent
  rw [hslot] at hslot'
  exact Option.some.inj hslot' ▸ hroom

/-- All symbols of a forest are drawn in the bands of their staves. -/
def Forest.Banded (c : PlacingContext K) (f : Forest (Node K)) : Prop :=
  ∀ n below system, HasTree n below f → n.kind = .system system →
    ∀ m under, HasTree m under below → m.tag = .measure →
      ∀ k layers staff, HasTree k layers under → k.kind = .staff staff →
        ∃ slot, system.stack.get? staff.n = some slot ∧
          ∀ e ∈ layers.toList, e.tag = .element → (c.frame system).OnSlot slot e

/-- What moves control elements only leaves symbols in their bands. -/
theorem Forest.Banded.of_reanchored {c : PlacingContext K} {f f' : Forest (Node K)}
    (hf : f.Banded c) (h : Forest.Forall₂ Node.Reanchored f f') : f'.Banded c := by
  intro n' below' system htree hn' m' under' hunder hm' k' layers' staff hlayers hk'
  obtain ⟨n, below, hn, hnn, hbelow⟩ := h.flip.hasTree htree
  obtain ⟨m, under, hm, hmm, hunder⟩ := hbelow.hasTree hunder
  obtain ⟨k, layers, hk, hkk, hlayers⟩ := hunder.hasTree hlayers
  obtain ⟨slot, hslot, hband⟩ := hf n below system hn (hnn.kind ▸ hn') m under hm
    (by rw [Node.tag, ← hmm.kind]; exact hm') k layers staff hk (hkk.kind ▸ hk')
  refine ⟨slot, hslot, fun e' he' ht => ?_⟩
  obtain ⟨e, he, hee⟩ := exists_mem_of_forall₂ hlayers.flip.toList he'
  obtain rfl := hee.same (by rw [Node.tag, ← hee.kind, ← Node.tag, ht]; decide)
  exact hband e' he ht

namespace Placing

variable {c : PlacingContext K} {s s₁ s' : Placing K} {n n₁ : Node K} {f f' : Forest (Node K)}
  {frame : SystemFrame K} {slot : StaffSlot K}

/-- What surrounds nodes drawn in a band lies in the band. -/
theorem between_contentBounds {nodes : List (Node K)} (h : ∀ n ∈ nodes, frame.OnSlot slot n)
    {content : Rect K} (hcontent : contentBounds nodes = some content) :
    ¬ slot.hidden ∧ content.Between (frame.y + slot.top) (frame.y + slot.bottom) := by
  have hbounds : ∀ r ∈ (nodes.filter fun n => n.box.HasContent).map fun n => n.box.bounds,
      ¬ slot.hidden ∧ r.Between (frame.y + slot.top) (frame.y + slot.bottom) := by
    intro r hr
    obtain ⟨n, hn, rfl⟩ := List.mem_map.1 hr
    obtain ⟨hn, hdrawn⟩ := List.mem_filter.1 hn
    refine h n hn ?_
    have hdrawn := of_decide_eq_true hdrawn
    rw [Box.HasContent] at hdrawn
    cases hrect : n.box.rect with
    | some r => rfl
    | none => simp [hrect] at hdrawn
  rw [contentBounds] at hcontent
  split at hcontent
  · cases hcontent
  · rename_i first rest hnodes
    rw [hnodes, List.forall_mem_cons] at hbounds
    rw [← Option.some.inj hcontent]
    exact ⟨hbounds.1.1, hbounds.1.2.foldl_union fun r hr => (hbounds.2 r hr).2⟩

/-- A symbol with room on its staff is drawn in the band of the staff. -/
theorem onSlot_enterElement (hs : s.AtStaff frame slot) (hn : slot.Fits n) :
    frame.OnSlot slot (s.enterElement n) := by
  obtain ⟨mf, hmf⟩ := Option.isSome_iff_exists.1 hs.measure
  rw [SystemFrame.OnSlot, enterElement, hmf]
  dsimp only
  rw [hs.hidden, hs.staffY]
  split_ifs with hhidden
  · exact fun h => by cases h
  · intro hsome
    obtain ⟨r, hr⟩ := Option.isSome_iff_exists.1 hsome
    obtain ⟨htop, hbottom⟩ := (hn r hr).within hhidden
    rw [Box.setAnchor] at hr ⊢
    dsimp only at hr
    rw [Box.bounds, hr]
    have hplace (x : K) : x + (frame.y + slot.y + n.layout.y) =
        frame.y + (slot.y + (n.layout.y + x)) := by ring
    exact ⟨hhidden, (add_le_add_right htop frame.y).trans_eq (hplace r.y1).symm,
      (hplace r.y2).trans_le (add_le_add_right hbottom frame.y)⟩

/-- A symbol drawn around others is drawn in their band. -/
theorem onSlot_leaveElement (hn : frame.OnSlot slot n) {below : List (Node K)}
    (hbelow : ∀ k ∈ below, frame.OnSlot slot k) : frame.OnSlot slot (leaveElement n below) := by
  rw [leaveElement]
  split
  · rename_i content _ hcontent
    obtain ⟨hvisible, hbetween⟩ := between_contentBounds hbelow hcontent
    intro _
    refine ⟨hvisible, ?_⟩
    rw [Box.bounds]
    dsimp only
    rw [Rect.translate_translate_neg]
    split
    · rename_i own hown
      have hwithin := (hn (by rw [hown]; rfl)).2
      rw [Box.bounds, hown] at hwithin
      exact hwithin.union hbetween
    · exact hbetween
  · exact hn

end Placing

namespace Document

variable {d : Document K} {options : LayoutOptions K} {metrics : GlyphMetrics K}

/-- Placement that meets no fault draws all symbols in the bands of their staves, where the systems
hold their content. -/
theorem WellFormed.banded_place (hd : d.WellFormed) (hok : (d.place options metrics).fault = none)
    (hstaffed : d.score.Staffed none)
    (hholds : ∀ n below system, Forest.HasTree n below d.score → n.kind = .system system →
      system.stack.Holds below) :
    (d.place options metrics).document.score.Banded
      ⟨metrics, options.scaledUnit, options.marginLeft, options.marginTop, d⟩ := by
  obtain ⟨score, hboxed, hwalks, hlater⟩ := hd.exists_walks_place hok rfl
  refine Forest.Banded.of_reanchored
    (fun n below system htree hn b under hunder hb k layers staff hlayers hk => ?_) hlater
  obtain ⟨m, hb⟩ := NodeKind.exists_of_measure hb
  have hseats : ∀ n below system, Forest.HasTree n below d.score → n.kind = .system system →
      ∀ k ∈ below.toList, ∀ staff, k.kind = .staff staff →
        ∃ slot, system.stack.get? staff.n = some slot := fun n below system htree hn k hmem staff hk =>
    Option.isSome_iff_exists.1 ((hholds n below system htree hn).staves k hmem staff hk)
  obtain ⟨n₀, content, k₀, before, slot, hcontent, hn₀, hbefore, hk₀, hslot, -, s, s', hs, hwalk⟩ :=
    hd.exists_walks_staff hboxed hwalks hseats htree hn hunder hb hlayers hk
  have hsystem := hholds n₀ content system hcontent hn₀
  obtain ⟨slot', hslot', hfits⟩ := hsystem.exists_fits hbefore.mem hk₀
  obtain rfl := Option.some.inj (hslot.symm.trans hslot')
  obtain ⟨haccepts, hnested⟩ := (hd.nested_score.of_hasTree hcontent).2.of_hasTree hbefore
  refine ⟨slot, hslot, (Placing.forall_layers hwalk hnested
    (fun b hb => Placing.tag_of_accepts_staff hk₀ (haccepts b hb)) hs.placed
    (fun n hn => Placing.onSlot_enterElement hs hn)
    (fun n below hn hbelow => Placing.onSlot_leaveElement hn hbelow) fun e he ht => ?_).2⟩
  exact hfits e (hbefore.mem_of_mem he) ht
    (hd.staff_of_symbol hstaffed (hcontent.trans hbefore) hk₀ e he ht)

end Document

end ScoreLayout
