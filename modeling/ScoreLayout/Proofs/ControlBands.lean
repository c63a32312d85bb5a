import ScoreLayout.Proofs.DrawnControls
import ScoreLayout.Proofs.Layout.ControlRoom
import ScoreLayout.Proofs.Separation

/-!
# Control elements in the bands of their staves

Stacking makes room for a control element on its staff long before placement puts it in its place. Both
go by the symbols that the element is tied to, and by the lines of the staff, so that what placement
needs is there: the element lies in the band of the staff, inside of its system and away from the
symbols of the other staves.

Stacking makes the room with what is known of the symbols by then. A symbol that groups others, such as
a chord or a beam, has its extent only once these are in their places, so that an element beside it may
leave the band. The same holds where the staff comes later in the system than the element and is not one
of the score definition, and where the element ends at a symbol of another staff.

## Main definitions

* `Document.FindsRoom` — a control element of which stacking knows what placement goes by.
* `Document.KeepsBands` — a layout whose control elements lie in the bands of their staves.

## Main results

* `Node.LiesBeside.between` — a control element in the room that is made for it.
* `Document.WellFormed.reserves_runAll` — the room on the staves when pages are filled.
* `Document.Reachable.keepsBands` — every layout that meets no fault.
* `Document.Reachable.leavesBand_of_chord` — a dynamic mark on a chord that leaves its band.
-/

namespace ScoreLayout

variable {K : Type} [ExactField K]

/-! ### What a control element has to clear -/

theorem Scalar.foldl_min_within {β : Type} {f : β → K} {low : K} {l : List β} (h : ∀ b ∈ l, low ≤ f b)
    {a : K} (ha : low ≤ a) :
    low ≤ l.foldl (fun top b => Scalar.min top (f b)) a ∧
      l.foldl (fun top b => Scalar.min top (f b)) a ≤ a := by
  induction l generalizing a with
  | nil => exact ⟨ha, le_rfl⟩
  | cons b l ih =>
    rw [List.forall_mem_cons] at h
    rw [List.foldl_cons, Scalar.min_eq_min]
    obtain ⟨hlow, hle⟩ := ih h.2 (le_min ha h.1)
    exact ⟨hlow, hle.trans (min_le_left ..)⟩

theorem Scalar.foldl_max_within {β : Type} {f : β → K} {high : K} {l : List β} (h : ∀ b ∈ l, f b ≤ high)
    {a : K} (ha : a ≤ high) :
    l.foldl (fun bottom b => Scalar.max bottom (f b)) a ≤ high ∧
      a ≤ l.foldl (fun bottom b => Scalar.max bottom (f b)) a := by
  induction l generalizing a with
  | nil => exact ⟨ha, le_rfl⟩
  | cons b l ih =>
    rw [List.forall_mem_cons] at h
    rw [List.foldl_cons, Scalar.max_eq_max]
    obtain ⟨hhigh, hle⟩ := ih h.2 (max_le ha h.1)
    exact ⟨hhigh, le_sup_left.trans hle⟩

namespace Stacking

/-- What a control element clears on a staff covers the lines of the staff and all symbols on it. -/
theorem cleared_covers (symbols : List (Node K)) (k : UInt32) (height : K) :
    (cleared symbols k height).1 ≤ 0 ∧ height ≤ (cleared symbols k height).2 ∧
      ∀ n ∈ symbols, ∀ top bottom, n.extent? = some (k, top, bottom) →
        (cleared symbols k height).1 ≤ top ∧ bottom ≤ (cleared symbols k height).2 := by
  have hfold (extents : List (UInt32 × K × K)) (r : K × K) :
      (extents.foldl (fun (r : K × K) (e : UInt32 × K × K) =>
          (Scalar.min r.1 e.2.1, Scalar.max r.2 e.2.2)) r).1 ≤ r.1 ∧
        r.2 ≤ (extents.foldl (fun (r : K × K) (e : UInt32 × K × K) =>
          (Scalar.min r.1 e.2.1, Scalar.max r.2 e.2.2)) r).2 ∧
        ∀ e ∈ extents, (extents.foldl (fun (r : K × K) (e : UInt32 × K × K) =>
            (Scalar.min r.1 e.2.1, Scalar.max r.2 e.2.2)) r).1 ≤ e.2.1 ∧
          e.2.2 ≤ (extents.foldl (fun (r : K × K) (e : UInt32 × K × K) =>
            (Scalar.min r.1 e.2.1, Scalar.max r.2 e.2.2)) r).2 := by
    induction extents generalizing r with
    | nil => exact ⟨le_rfl, le_rfl, fun _ h => absurd h List.not_mem_nil⟩
    | cons e extents ih =>
      obtain ⟨htop, hbottom, hall⟩ := ih (Scalar.min r.1 e.2.1, Scalar.max r.2 e.2.2)
      rw [Scalar.min_eq_min, Scalar.max_eq_max, le_min_iff] at htop
      rw [Scalar.min_eq_min, Scalar.max_eq_max, max_le_iff] at hbottom
      rw [List.foldl_cons, List.forall_mem_cons, Scalar.min_eq_min, Scalar.max_eq_max]
      rw [Scalar.min_eq_min, Scalar.max_eq_max] at hall
      exact ⟨htop.1, hbottom.1, ⟨htop.2, hbottom.2⟩, hall⟩
  have hcleared : cleared symbols k height =
      ((symbols.filterMap Node.extent?).filter fun e => e.1 = k).foldl
        (fun (r : K × K) (e : UInt32 × K × K) => (Scalar.min r.1 e.2.1, Scalar.max r.2 e.2.2))
        (Scalar.ofInt 0, height) := rfl
  rw [hcleared]
  obtain ⟨htop, hbottom, hall⟩ :=
    hfold ((symbols.filterMap Node.extent?).filter fun e => e.1 = k) (Scalar.ofInt 0, height)
  refine ⟨htop.trans_eq Int.cast_zero, hbottom, fun n hn top bottom hextent => ?_⟩
  exact hall (k, top, bottom) (List.mem_filter.2
    ⟨List.mem_filterMap.2 ⟨n, hn, hextent⟩, decide_eq_true rfl⟩)

omit [ExactField K] in
theorem mem_of_mapM_existing {d : Document K} {handles : List Handle} {symbols : List (Node K)}
    (h : handles.mapM (existing d) = .ok symbols) {i : Handle} (hi : i ∈ handles) {n : Node K}
    (hn : d.node? i = some n) : n ∈ symbols := by
  induction handles generalizing symbols with
  | nil => exact absurd hi List.not_mem_nil
  | cons j handles ih =>
    rw [List.mapM_cons] at h
    obtain ⟨m, hm, h⟩ := except_bind_eq_ok.1 h
    obtain ⟨rest, hrest, h⟩ := except_bind_eq_ok.1 h
    obtain rfl := Except.ok.inj h
    rcases List.mem_cons.1 hi with rfl | hi
    · rw [existing, hn] at hm
      exact Except.ok.inj hm ▸ List.mem_cons_self
    · exact List.mem_cons_of_mem m (ih hrest hi)

end Stacking

namespace GlyphMetrics

/-- The footprint of a control element begins at its top, and is as high whatever it spans. -/
theorem controlFootprint_top (metrics : GlyphMetrics K) (c : Control K) (span span' : K) {unit : K}
    (hunit : 0 ≤ unit) :
    (metrics.controlFootprint c span unit).y1 = 0 ∧
      (metrics.controlFootprint c span unit).height =
        (metrics.controlFootprint c span' unit).height := by
  rw [controlFootprint, controlFootprint]
  cases c.span? with
  | some s =>
    dsimp only
    have hheight : (0 : K) ≤ curveHeight * unit :=
      mul_nonneg (Int.cast_nonneg (by decide : (0 : Int) ≤ 2)) hunit
    refine ⟨?_, rfl⟩
    rw [Rect.ofCorners, ExactField.zero_eq]
    exact (Scalar.min_eq_min _ _).trans (min_eq_left hheight)
  | none => exact ⟨add_neg_cancel _, rfl⟩

end GlyphMetrics

/-- A control element beside symbols that lie between two heights is in the band of its staff, if the
staff has the room that such an element asks for. -/
theorem Node.LiesBeside.between {metrics : GlyphMetrics K} {unit : K} {c : Control K}
    {symbols : List (Node K)} {x : Node K} {slot : StaffSlot K} {y top bottom : K}
    (h : x.LiesBeside metrics unit c (y + slot.y) (y + slot.y + slot.height) symbols)
    (hunit : 0 ≤ unit) (hslot : slot.Proper) (hshown : ¬ slot.hidden) (htop : top ≤ 0)
    (hbottom : slot.height ≤ bottom)
    (hsymbols : ∀ n ∈ symbols, n.box.bounds.Between (y + slot.y + top) (y + slot.y + bottom))
    (hroom : slot.HasRoom (c.reserved metrics unit top bottom).1
      (c.reserved metrics unit top bottom).2) :
    x.box.bounds.Between (y + slot.top) (y + slot.bottom) := by
  obtain ⟨left, span, hbox⟩ := h
  have hstart := (metrics.controlFootprint_top c span span hunit).1
  have hheight (span' : K) := (metrics.controlFootprint_top c span' span hunit).2
  have hend : (metrics.controlFootprint c span unit).y2 =
      (metrics.controlFootprint c span unit).height := by
    rw [Rect.height, hstart, sub_zero]
  have hmargin : (0 : K) ≤ GlyphMetrics.controlMargin * unit :=
    mul_nonneg (ExactField.ofDecimal_pos (by decide) 1).le hunit
  obtain ⟨htops, hupper⟩ := Scalar.foldl_min_within (f := fun n : Node K => n.box.bounds.y1)
    (fun n hn => (hsymbols n hn).1) (a := y + slot.y) (by linarith)
  obtain ⟨hbottoms, hlower⟩ := Scalar.foldl_max_within (f := fun n : Node K => n.box.bounds.y2)
    (fun n hn => (hsymbols n hn).2) (a := y + slot.y + slot.height) (by linarith)
  have hwithin := hroom.within hshown
  rw [hbox, Box.bounds, Rect.Between]
  dsimp only [Rect.translate]
  rw [hstart, hend, StaffSlot.top, StaffSlot.bottom, Control.y]
  rw [Control.reserved, hheight, StaffSlot.top, StaffSlot.bottom] at hwithin
  cases hplacement : c.placement with
  | above =>
    rw [hplacement] at hwithin
    dsimp only at hwithin ⊢
    constructor <;> linarith [hwithin.1, hslot.height, hslot.below]
  | below =>
    rw [hplacement] at hwithin
    dsimp only at hwithin ⊢
    constructor <;> linarith [hwithin.2, hslot.height, hslot.above]

/-- Visible staves of a stack are apart, whichever comes first. -/
theorem StaffStack.Apart.of_ne {spacing : K} {s : StaffStack K} (h : s.Apart spacing)
    {a b : StaffSlot K} (ha : a ∈ s.staves) (hb : b ∈ s.staves) (hne : a ≠ b) (hashown : ¬ a.hidden)
    (hbshown : ¬ b.hidden) : a.bottom + spacing ≤ b.top ∨ b.bottom + spacing ≤ a.top := by
  obtain ⟨i, hi, rfl⟩ := List.getElem_of_mem ha
  obtain ⟨j, hj, rfl⟩ := List.getElem_of_mem hb
  rcases Nat.lt_trichotomy i j with hij | rfl | hij
  · exact .inl (List.pairwise_iff_getElem.1 h.pairwise i j hi hj hij hashown hbshown)
  · exact absurd rfl hne
  · exact .inr (List.pairwise_iff_getElem.1 h.pairwise j i hj hi hij hbshown hashown)

/-- The upper and the lower line of a visible staff. -/
theorem SystemFrame.staffBox_bounds_y (frame : SystemFrame K) {slot : StaffSlot K}
    (hshown : ¬ slot.hidden) (hheight : 0 ≤ slot.height) (x width : K) :
    (frame.staffBox slot x width).bounds.y1 = frame.y + slot.y ∧
      (frame.staffBox slot x width).bounds.y2 = frame.y + slot.y + slot.height := by
  have hzero := ExactField.zero_eq (K := K)
  rw [staffBox, if_neg hshown]
  simp only [Box.bounds, Rect.translate, Rect.ofCorners, Scalar.min_eq_min, Scalar.max_eq_max, hzero]
  exact ⟨(congrArg (· + (frame.y + slot.y)) (min_eq_left hheight)).trans (zero_add _),
    (congrArg (· + (frame.y + slot.y)) (max_eq_right hheight)).trans (add_comm _ _)⟩

/-- A symbol that groups no others and draws something. -/
def Node.DrawnAlone {α : Type} (n : Node α) : Prop := n.kind.isContainer = false ∧ n.box.rect.isSome

/-- A symbol in its place on a staff reaches as far as it did. -/
theorem Node.SetDown.exists_extent {top : K} {n n' : Node K} (h : n.SetDown top n')
    (hdrawn : n'.DrawnAlone) {k : UInt32} (hstaff : n'.layout.staff = some k) :
    n.handle = n'.handle ∧ n.tag = n'.tag ∧ ∃ a b, n.extent? = some (k, a, b) ∧
      n'.box.bounds.y1 = top + a ∧ n'.box.bounds.y2 = top + b := by
  obtain ⟨x, rect, rfl, hrect⟩ := h
  obtain ⟨halone, hsome⟩ := hdrawn
  obtain ⟨r, hr⟩ := Option.isSome_iff_exists.1 hsome
  obtain rfl : rect = some r := hr
  refine ⟨rfl, rfl, n.layout.y + r.y1, n.layout.y + r.y2, ?_, ?_, ?_⟩
  · rw [extent?, ← hrect halone, show n.layout.staff = some k from hstaff]
    rfl
  all_goals
    simp only [Box.bounds, Rect.translate]
    ring

/-- A control element that keeps to its staff `k` of a system with the place `slot`: it lies in the band
of the staff and in the box of the system, and at a distance from what is drawn on other staves. -/
structure Node.KeepsTo (spacing : K) (x n : Node K) (below : Forest (Node K)) (k : UInt32)
    (slot : StaffSlot K) : Prop where
  band : x.box.bounds.Between (n.box.y + slot.top) (n.box.y + slot.bottom)
  inside : x.box.bounds.Between n.box.bounds.y1 n.box.bounds.y2
  apart : ∀ j y, j ≠ k → below.StandsOn j y → y.tag = .element → y.box.rect.isSome →
    x.box.bounds.y2 + spacing ≤ y.box.bounds.y1 ∨ y.box.bounds.y2 + spacing ≤ x.box.bounds.y1

theorem Forest.StandsOn.mem {α : Type} {f : Forest (Node α)} {y : Node α} {k : UInt32}
    (h : f.StandsOn k y) : y ∈ f.toList := by
  obtain ⟨m, under, staff, layers, st, hunder, -, hlayers, -, -, hy⟩ := h
  exact hunder.mem_of_mem (hlayers.mem_of_mem hy)

theorem Forest.StandsOn.of_hasTree {α : Type} {f below : Forest (Node α)} {n y : Node α} {k : UInt32}
    (h : below.StandsOn k y) (htree : HasTree n below f) : f.StandsOn k y := by
  obtain ⟨m, under, staff, layers, st, hunder, hm, hlayers⟩ := h
  exact ⟨m, under, staff, layers, st, htree.trans hunder, hm, hlayers⟩

namespace Document

section Documents

variable {α : Type}

/-- A control element of which stacking knows what placement goes by, in a system with `below` in it.
Its staff `k` is one of the score definition or stands in the system before it. What it begins and ends
with there are symbols that are drawn on this staff and group no others; if it begins at a time-stamp,
what it ends with stands on a staff of this number. -/
structure FindsRoom (d : Document α) (below : Forest (Node α)) (k : UInt32) (x : Node α)
    (c : Control α) : Prop where
  placed : ∃ before after, below.toList = before ++ x :: after ∧
    d.definition.HasStaff (before.filterMap Node.staff?) k
  start : ∀ y, below.StandsOn k y → c.point.startId = some y.id → y.DrawnAlone
  stop : c.point.startId.isSome → ∀ y ∈ below.toList, c.span?.bind TimeSpan.endId = some y.id →
    y.DrawnAlone ∧ below.StandsOn k y
  timed : c.point.startId = none → ∀ y ∈ d.score.toList, c.span?.bind TimeSpan.endId = some y.id →
    d.score.StandsOn k y

end Documents

variable {d : Document K} {e : Engine K}

omit [ExactField K] in
/-- A symbol that stands on the staff with a number has this number. -/
theorem WellFormed.staff_of_standsOn (hd : d.WellFormed) (hstaffed : d.score.Staffed none) {k : UInt32}
    {y : Node K} (h : d.score.StandsOn k y) (ht : y.tag = .element) : y.layout.staff = some k := by
  obtain ⟨m, under, staff, layers, st, hunder, -, hlayers, hstaff, rfl, hy⟩ := h
  exact hd.staff_of_symbol hstaffed (hunder.trans hlayers) hstaff y hy ht

/-- When pages have been filled, a staff has the room for a control element that is known when staves
are stacked, if the element is on that staff then and the staff has a place before it. -/
theorem WellFormed.reserves_runAll (hd : d.WellFormed) (hs : d.Settled)
    (hunit : 0 ≤ e.options.scaledUnit) (hweight : 0 ≤ e.options.staffWeight)
    (hok : (e.runAll d (LayoutPass.all.take 5)).fault = none) {d' : Document K}
    (heq : (e.runAll d (LayoutPass.all.take 8)).document = d') {n : Node K} {below : Forest (Node K)}
    {system : ScoreSystem K} (htree : Forest.HasTree n below d'.score) (hn : n.kind = .system system)
    {before after : List (Node K)} {x : Node K} (hbelow : below.toList = before ++ x :: after)
    {c : Control K} (hx : x.kind = .control c) (hkept : ¬ x.layout.omitted) {k : UInt32}
    (hstaff : (∃ y ∈ d'.score.toList, y.tag = .element ∧ y.layout.staff = some k ∧
        (Stacking.anchors x.layout).head? = some y.handle) ∨
      Stacking.anchors x.layout = [] ∧ x.layout.slot.isSome ∧ x.layout.staff = some k)
    (hk : d'.definition.HasStaff (before.filterMap Node.staff?) k) :
    ∃ slot symbols, system.stack.get? k = some slot ∧ slot.Proper ∧
      (∀ y ∈ d'.score.toList, y.tag = .element → y.handle ∈ Stacking.anchors x.layout →
        y ∈ symbols) ∧
      slot.HasRoom
        (c.reserved e.metrics e.options.scaledUnit (Stacking.cleared symbols k slot.height).1
          (Stacking.cleared symbols k slot.height).2).1
        (c.reserved e.metrics e.options.scaledUnit (Stacking.cleared symbols k slot.height).1
          (Stacking.cleared symbols k slot.height).2).2 := by
  obtain ⟨-, hstack, hdocument⟩ := Engine.of_runAll_take (k := 4) rfl hok
  have hwell := (hd.settled_runAll hs e (LayoutPass.all.take 4)).1
  have hwell' : d'.WellFormed := heq ▸ (hd.settled_runAll hs e _).1
  have hwidened : (e.runAll d (LayoutPass.all.take 5)).document.Widened 0
      (e.runAll d (LayoutPass.all.take 8)).document := hd.widened_runAll hs hweight
  rw [heq, hdocument] at hwidened
  generalize (e.runAll d (LayoutPass.all.take 4)).document = d₁ at hstack hwell hwidened
  obtain ⟨hdefinition, s, hwalk⟩ := exists_walk_stackStaves hstack
  have hmakes := Stacking.reserves_score hwalk hwell.nested_score hwell.tag_roots hunit
  -- a symbol is what it was when staves were stacked
  have hsymbol : ∀ y ∈ d'.score.toList, y.tag = .element → d₁.node? y.handle = some y := by
    intro y hy ht
    obtain ⟨m, under, k₂, layers, hm, hmeasure, hk₂, -, hyl⟩ := hwell'.exists_staff hy ht
    obtain ⟨n₂, below₂, hn₂, hsystem₂, hunder⟩ := hwell'.exists_system hm hmeasure
    obtain ⟨n₁, below₁, htree₁, hnn, hbelow₁⟩ := hwidened.systems n₂ below₂ hn₂ hsystem₂
    obtain ⟨y₁, hy₁, hyy⟩ := exists_mem_of_forall₂ hbelow₁.toList
      (hunder.mem_of_mem (hk₂.mem_of_mem hyl))
    obtain rfl := hyy.same (.inl ht)
    obtain ⟨s₂, hs₂⟩ := Node.exists_system hsystem₂
    obtain ⟨s₁, hs₁, -⟩ := hnn.system s₂ hs₂
    obtain ⟨⟨n₀, hn₀⟩, -⟩ := hmakes n₁ below₁ s₁ htree₁ hs₁
    exact hwell.node?_eq_some_iff.2 ⟨(score_sublist _).subset (hn₀.mem_of_mem hy₁), rfl⟩
  have hstaff₁ : Stacking.controlStaff? d₁ x.layout = .ok (some k) := by
    rw [Stacking.controlStaff?]
    obtain ⟨y, hy, ht, hstaff, hfirst⟩ | ⟨hnone, hslot, hstaff⟩ := hstaff
    · cases hanchors : Stacking.anchors x.layout with
      | nil => rw [hanchors] at hfirst; cases hfirst
      | cons first rest =>
        rw [hanchors] at hfirst
        obtain rfl := Option.some.inj hfirst
        simp only [Stacking.existing, hsymbol y hy ht, Except.map, hstaff]
    · rw [hnone]
      simp only [hslot, hstaff, if_true]
  -- the control element among what stood in the system when staves were stacked
  obtain ⟨n₁, below₁, htree₁, hnn, hbelow₁⟩ := hwidened.systems n below htree (by rw [Node.tag, hn]; rfl)
  obtain ⟨system₁, hn₁, hgrows, -⟩ := hnn.system system hn
  have hlist := hbelow₁.flip.toList
  rw [hbelow] at hlist
  obtain ⟨before₁, rest₁, hbelow₁, hbefore, hrest⟩ := exists_append_of_forall₂ hlist
  cases hrest with
  | @cons _ x₁ _ after₁ hxx _ =>
  obtain rfl := hxx.same (.inr (.inr (by rw [Node.tag, hx]; rfl)))
  have hk₁ : d₁.definition.HasStaff (before₁.filterMap Node.staff?) k := by
    rw [← hdefinition, show (d₁.stackStaves e.options e.metrics).document.definition = d'.definition from
      hwidened.definition.symm]
    refine hk.imp_right fun h => ?_
    obtain ⟨staff, hstaff, hnumber⟩ := h
    obtain ⟨b, hb, hstaff⟩ := List.mem_filterMap.1 hstaff
    obtain ⟨b₁, hb₁, hbb⟩ := exists_mem_of_forall₂ hbefore.flip hb
    obtain rfl := hbb.same (.inr (.inl (by rw [Node.tag, Node.staff?_eq_some_iff.1 hstaff]; rfl)))
    exact ⟨staff, List.mem_filterMap.2 ⟨b, hb₁, hstaff⟩, hnumber⟩
  obtain ⟨slot, symbols, hslot, hproper, hsymbols, hroom⟩ :=
    ((hmakes n₁ _ system₁ htree₁ hn₁).2 before₁ x after₁ c k hbelow₁ hx hkept hstaff₁ hk₁).grows hgrows
  exact ⟨slot, symbols, hslot, hproper, fun y hy ht hanchor =>
    Stacking.mem_of_mapM_existing hsymbols hanchor (hsymbol y hy ht), hroom⟩

/-- After a layout, a visible staff has the room for a control element on it that has found its staff,
and the symbols on the staff that the element is tied to lie between the heights that it clears. -/
theorem Reachable.clears_layout (h : d.Reachable) (hok : (e.layout d).fault = none)
    (hunit : 0 ≤ e.options.scaledUnit) (hweight : 0 ≤ e.options.staffWeight) {n : Node K}
    {below : Forest (Node K)} (htree : Forest.HasTree n below (e.layout d).document.score)
    {system : ScoreSystem K} (hn : n.kind = .system system) {k : UInt32} {slot : StaffSlot K}
    (hslot : system.stack.get? k = some slot) (hshown : ¬ slot.hidden)
    {before after : List (Node K)} {x : Node K} (hsplit : below.toList = before ++ x :: after)
    {c : Control K} (hc : x.kind = .control c) (hkept : ¬ x.layout.omitted)
    (hstaff : (∃ y ∈ (e.layout d).document.score.toList, y.tag = .element ∧
        y.layout.staff = some k ∧ (Stacking.anchors x.layout).head? = some y.handle) ∨
      Stacking.anchors x.layout = [] ∧ x.layout.slot.isSome ∧ x.layout.staff = some k)
    (hk : (e.layout d).document.definition.HasStaff (before.filterMap Node.staff?) k) :
    slot.Proper ∧ ∃ top bottom, top ≤ 0 ∧ slot.height ≤ bottom ∧
      slot.HasRoom (c.reserved e.metrics e.options.scaledUnit top bottom).1
        (c.reserved e.metrics e.options.scaledUnit top bottom).2 ∧
      ∀ y, below.StandsOn k y → y.tag = .element → y.DrawnAlone →
        y.handle ∈ Stacking.anchors x.layout →
          y.box.bounds.Between (e.options.marginTop + system.y + slot.y + top)
            (e.options.marginTop + system.y + slot.y + bottom) := by
  have hwell := (h.wellFormed.settled_runAll h.settled e LayoutPass.all).1
  have hstaffed : (e.layout d).document.score.Staffed none :=
    h.wellFormed.staffed_runAll h.settled (LayoutPass.all.drop 2) (by decide)
      (Engine.fault_of_runAll_append (LayoutPass.all.drop 2) hok)
  obtain ⟨hok₈, hplace, hdocument⟩ := Engine.of_runAll_take (k := 8) rfl hok
  have hok₅ : (e.runAll d (LayoutPass.all.take 5)).fault = none :=
    Engine.fault_of_runAll_append [.breakPages, .fillLines, .fillPages] hok₈
  have hseated := h.wellFormed.seated_runAll h.settled (e := e)
    [.breakPages, .fillLines, .fillPages] (by decide) hok₅
  have hwell₈ := (h.wellFormed.settled_runAll h.settled e (LayoutPass.all.take 8)).1
  change (e.runAll d (LayoutPass.all.take 8)).document.Seated at hseated
  -- the nodes before placement
  have hboxed : Forest.Forall₂ Node.Boxed (e.runAll d (LayoutPass.all.take 8)).document.score
      (e.layout d).document.score := by
    obtain ⟨s, score, -, hboxed, hlater⟩ := hwell₈.exists_walk_place hplace
    rw [show (e.layout d).document = _ from hdocument]
    exact hboxed.trans hlater fun _ _ _ hn hn' => hn.trans hn'.boxed
  obtain ⟨n₈, below₈, htree₈, hnn, hbelow⟩ := hboxed.flip.hasTree htree
  have hlist := hbelow.toList
  rw [hsplit] at hlist
  obtain ⟨before₈, rest₈, hsplit₈, hbefore, hrest⟩ := exists_append_of_forall₂ hlist
  cases hrest with
  | @cons _ x₈ _ after₈ hxx _ =>
  have hanchors : Stacking.anchors x.layout = Stacking.anchors x₈.layout := hxx.anchors
  have hstaff₈ : (∃ y ∈ (e.runAll d (LayoutPass.all.take 8)).document.score.toList,
        y.tag = .element ∧ y.layout.staff = some k ∧
          (Stacking.anchors x₈.layout).head? = some y.handle) ∨
      Stacking.anchors x₈.layout = [] ∧ x₈.layout.slot.isSome ∧ x₈.layout.staff = some k := by
    rw [← hanchors]
    obtain ⟨y, hy, ht, hstaff, hfirst⟩ | ⟨hnone, hslot, hstaff⟩ := hstaff
    · obtain ⟨y₈, hy₈, hyy⟩ := exists_mem_of_forall₂ hboxed.toList hy
      have ht₈ : y₈.tag = .element := by rw [Node.tag, ← hyy.kind, ← Node.tag, ht]
      exact .inl ⟨y₈, hy₈, ht₈, hyy.layout (by rw [ht₈]; decide) ▸ hstaff, hyy.handle ▸ hfirst⟩
    · have huntied : x₈.layout.startAnchor = none := by
        rw [hanchors, Stacking.anchors, List.append_eq_nil_iff] at hnone
        exact Option.toList_eq_nil_iff.1 hnone.1
      rw [← hxx.untied huntied]
      exact .inr ⟨hnone, hslot, hstaff⟩
  have hk₈ : (e.runAll d (LayoutPass.all.take 8)).document.definition.HasStaff
      (before₈.filterMap Node.staff?) k := by
    have hstaves := filterMap_eq_of_forall₂ (u := Node.staff?) (v := Node.staff?)
      (fun _ _ hb => by rw [Node.staff?, Node.staff?, hb.kind]) hbefore
    obtain ⟨_, _, -, hplaced⟩ := hwell₈.exists_place e.options e.metrics
    have hdefinition : (e.layout d).document.definition =
        (e.runAll d (LayoutPass.all.take 8)).document.definition := by
      rw [show (e.layout d).document = _ from hdocument.trans hplaced]
      rfl
    rwa [← hdefinition, ← hstaves]
  obtain ⟨slot', symbols, hslot', hproper, hsymbols, hroom⟩ := h.wellFormed.reserves_runAll h.settled
    hunit hweight hok₅ rfl htree₈ (hnn.kind ▸ hn) hsplit₈ (hxx.kind ▸ hc)
    (by rwa [← LayoutState.omitted_eq_of_ties hxx.ties]) hstaff₈ hk₈
  obtain rfl := Option.some.inj (hslot.symm.trans hslot')
  obtain ⟨htop, hbottom, hcovers⟩ := Stacking.cleared_covers symbols k slot.height
  refine ⟨hproper, _, _, htop, hbottom, hroom, fun y hy ht hdrawn hanchor => ?_⟩
  have hstaff := hwell.staff_of_standsOn hstaffed (hy.of_hasTree htree) ht
  obtain ⟨m, under, staff, layers, st, hunder, hm, hlayers, hst, rfl, hyl⟩ := hy
  rw [show (e.layout d).document = _ from hdocument] at htree
  obtain ⟨y₈, hy₈, hset⟩ := hwell₈.symbols_place hplace
    (fun _ _ _ htree hn _ hk _ hstaff => hseated.exists_slot htree hn hk hstaff) htree hn hunder hm
    hlayers hst hslot hshown hyl ht
  obtain ⟨hhandle, htag, a, b, hextent, hupper, hlower⟩ := hset.exists_extent hdrawn hstaff
  obtain ⟨ha, hb⟩ := hcovers y₈ (hsymbols y₈ hy₈ (htag.trans ht)
    (by rw [hhandle, ← hanchors]; exact hanchor)) a b hextent
  rw [Rect.Between, hupper, hlower]
  exact ⟨add_le_add_right ha _, add_le_add_right hb _⟩

/-- A control element of which stacking knows what placement goes by lies in the band of its staff. -/
theorem Reachable.between_of_findsRoom (h : d.Reachable) (hok : (e.layout d).fault = none)
    (hunit : 0 ≤ e.options.scaledUnit) (hweight : 0 ≤ e.options.staffWeight) {n : Node K}
    {below : Forest (Node K)} (htree : Forest.HasTree n below (e.layout d).document.score)
    {system : ScoreSystem K} (hn : n.kind = .system system) {k : UInt32} {slot : StaffSlot K}
    (hslot : system.stack.get? k = some slot) (hshown : ¬ slot.hidden) {x : Node K}
    (hbegins : below.BeginsOn k x) (hkept : ¬ x.layout.omitted) {c : Control K}
    (hc : x.kind = .control c) (hfinds : (e.layout d).document.FindsRoom below k x c) :
    x.box.bounds.Between (e.options.marginTop + system.y + slot.top)
      (e.options.marginTop + system.y + slot.bottom) := by
  obtain ⟨before, after, hsplit, hk⟩ := hfinds.placed
  have hx : x ∈ (e.layout d).document.score.toList :=
    htree.mem_of_mem (by rw [hsplit]; exact List.mem_append_right _ List.mem_cons_self)
  have htag : x.tag = .control := by rw [Node.tag, hc]; rfl
  have hwell := (h.wellFormed.settled_runAll h.settled e LayoutPass.all).1
  have hstaffed : (e.layout d).document.score.Staffed none :=
    h.wellFormed.staffed_runAll h.settled (LayoutPass.all.drop 2) (by decide)
      (Engine.fault_of_runAll_append (LayoutPass.all.drop 2) hok)
  have hclears := h.clears_layout hok hunit hweight htree hn hslot hshown hsplit hc hkept
  obtain ⟨first, last, htied, hfirst, hlast, -⟩ := (h.wellFormed.tied_layout h.settled e
    (hwell.mem_content hx (by rw [htag]; decide)) hc).resolve_left hkept
  have hanchors : Stacking.anchors x.layout = first.toList ++ last.toList := by
    rw [Stacking.anchors, hfirst, hlast]
  rw [hanchors] at hclears
  obtain ⟨c', hc', ⟨hstart, hbeside⟩ | ⟨y, stop, left, width, hy, hstart, hstop, hbeside⟩⟩ :=
    h.liesBeside_of_beginsOn hok htree hn hslot hshown hx hbegins hkept
  all_goals obtain rfl := NodeKind.control.inj (hc.symm.trans hc')
  · -- a time-stamp, with a symbol at the end of the span or with none
    obtain ⟨rfl, -⟩ := htied.timed hstart
    obtain ⟨hproper, top, bottom, htop, hbottom, hroom, -⟩ := hclears (by
      cases last with
      | none =>
        obtain ⟨c', hc', ⟨y, hstart', -⟩ | ⟨-, m, under, hunder, hm, hxm, rfl⟩⟩ := hbegins
        · obtain rfl := NodeKind.control.inj (hc.symm.trans hc')
          cases hstart.symm.trans hstart'
        · obtain rfl := NodeKind.control.inj (hc.symm.trans hc')
          obtain ⟨-, hstaff, hkey⟩ :=
            h.stamped_of_beginsOn hok (htree.trans hunder) hm hxm hc hstart hkept
          exact .inr ⟨rfl, hkey, hstaff⟩
      | some i =>
        cases hend : c.span?.bind TimeSpan.endId with
        | none => cases htied.endless hend
        | some id =>
          obtain ⟨i, hi, hresolved⟩ := htied.stop id hend
          obtain rfl := Option.some.inj hi
          obtain ⟨z, hz, rfl, hsymbol, rfl⟩ := hwell.resolveAnchor_eq_ok_iff.1 hresolved
          exact .inl ⟨z, hz, hsymbol, hwell.staff_of_standsOn hstaffed
            (hfinds.timed hstart z hz hend) hsymbol, rfl⟩) hk
    exact hbeside.between hunit hproper hshown htop hbottom
      (fun n hn => absurd hn List.not_mem_nil) hroom
  · -- a symbol, and perhaps another one in the system at the end of the span
    have hnamed {z : Node K} (hz : z ∈ below.toList) {i : Handle}
        (hi : (e.layout d).document.resolveAnchor z.id = .ok i) : z.tag = .element ∧ z.handle = i := by
      obtain ⟨b, hb, hid, hsymbol, rfl⟩ := hwell.resolveAnchor_eq_ok_iff.1 hi
      obtain rfl := hwell.eq_of_id_eq ((score_sublist _).subset hb)
        ((score_sublist _).subset (htree.mem_of_mem hz)) hid
      exact ⟨hsymbol, rfl⟩
    obtain ⟨i, rfl, hi⟩ := htied.start y.id hstart
    have hmem := hy.mem
    obtain ⟨ht, rfl⟩ := hnamed hmem hi
    obtain ⟨hproper, top, bottom, htop, hbottom, hroom, hcovers⟩ := hclears (.inl
      ⟨y, htree.mem_of_mem hmem, ht, hwell.staff_of_standsOn hstaffed (hy.of_hasTree htree) ht, rfl⟩) hk
    obtain ⟨hupper, hlower⟩ := SystemFrame.staffBox_bounds_y
      ((d.placingContext e.options e.metrics).frame system) hshown hproper.height left width
    rw [hupper, hlower] at hbeside
    refine hbeside.between hunit hproper hshown htop hbottom (fun b hb => ?_) hroom
    have hfirst := hcovers y hy ht (hfinds.start y hy hstart) (List.mem_append_left _ List.mem_cons_self)
    rcases List.mem_pair.1 hb with rfl | rfl
    · exact hfirst
    · obtain rfl | ⟨hb, htb, hend⟩ := hstop
      · exact hfirst
      · obtain ⟨halone, hstands⟩ := hfinds.stop (by rw [hstart]; rfl) b hb hend
        obtain ⟨i, rfl, hi⟩ := htied.stop b.id hend
        obtain ⟨-, rfl⟩ := hnamed hb hi
        exact hcovers b hstands htb halone (List.mem_append_right _ List.mem_cons_self)

/-! ### Layouts -/

/-- After a layout systems hold what stands in them, in the boxes that they have been given. -/
theorem Reachable.stacked_layout (h : d.Reachable) (hok : (e.layout d).fault = none)
    (hunit : 0 ≤ e.options.scaledUnit) (hweight : 0 ≤ e.options.staffWeight)
    (hspacing : 0 ≤ e.options.spacingStaff) :
    (e.runAll d (LayoutPass.all.take 8)).document.score.Stacked
      (e.options.spacingStaff * e.options.scaledUnit) := by
  have hok₅ : (e.runAll d (LayoutPass.all.take 5)).fault = none :=
    Engine.fault_of_runAll_append (LayoutPass.all.drop 5) hok
  obtain ⟨hok₄, hstack, hdocument⟩ := Engine.of_runAll_take (k := 4) rfl hok₅
  have hstaffed : (e.runAll d (LayoutPass.all.take 4)).document.score.Staffed none :=
    h.wellFormed.staffed_runAll h.settled [.space, .breakSystems] (by decide)
      (Engine.fault_of_runAll_append [.space, .breakSystems] hok₄)
  have hstacked := (h.wellFormed.settled_runAll h.settled e (LayoutPass.all.take 4)).1.stacked_stackStaves
    hstaffed hstack hunit hspacing
  exact (h.wellFormed.widened_runAll h.settled hweight).stacked (hdocument ▸ hstacked)

/-- A document whose layout keeps to the bands of its staves. -/
structure KeepsBands (d : Document K) (e : Engine K) : Prop where
  /-- What is drawn of the control elements begins on staves that their systems show. -/
  begins : ∀ options l, (e.layout d).document.displayList options = .ok l →
    ∀ x ∈ (e.layout d).document.score.toList, x.tag = .control → l.Draws x.id →
      ¬ x.layout.omitted ∧ ∃ n below k, Forest.HasTree n below (e.layout d).document.score ∧
        below.BeginsOn k x ∧ n.ShowsStaff k
  /-- A control element of which stacking knows what placement goes by keeps to the staff that it begins
  on. -/
  keeps : ∀ n below system, Forest.HasTree n below (e.layout d).document.score →
    n.kind = .system system → ∀ k slot, system.stack.get? k = some slot → ¬ slot.hidden →
      ∀ x c, x.kind = .control c → ¬ x.layout.omitted → below.BeginsOn k x →
        (e.layout d).document.FindsRoom below k x c →
          x.KeepsTo (e.options.spacingStaff * e.options.scaledUnit) n below k slot

/-- In a layout that meets no fault control elements keep to their staves, if stacking knows what
placement goes by. -/
theorem Reachable.keepsBands (h : d.Reachable) (options : LayoutOptions K) (metrics : GlyphMetrics K)
    (hok : ((Engine.ofOptions options metrics).layout d).fault = none) :
    d.KeepsBands (Engine.ofOptions options metrics) := by
  obtain ⟨hspacing, -, hweight, -, hunit⟩ := options.normalized_nonneg
  generalize he : Engine.ofOptions options metrics = e at hok
  rw [show options.normalized = e.options by rw [← he]; rfl] at hspacing hweight hunit
  have hwell₈ := (h.wellFormed.settled_runAll h.settled e (LayoutPass.all.take 8)).1
  have hstacked := h.stacked_layout hok hunit hweight hspacing
  obtain ⟨hok₈, hplace, hdocument⟩ := Engine.of_runAll_take (k := 8) rfl hok
  have hstaffed : (e.runAll d (LayoutPass.all.take 8)).document.score.Staffed none :=
    h.wellFormed.staffed_runAll h.settled
      [.space, .breakSystems, .stackStaves, .breakPages, .fillLines, .fillPages] (by decide)
      (Engine.fault_of_runAll_append (LayoutPass.all.drop 2) hok)
  have hframed := hwell₈.framed_place hplace
  have hbanded := hwell₈.banded_place hplace hstaffed fun n below system htree hn =>
    (hstacked n below system htree hn).2
  obtain ⟨_, score, -, hboxed, hlater⟩ := hwell₈.exists_walk_place hplace
  have hkinds := (hboxed.mono fun _ _ hn => hn.kind).trans (hlater.mono fun _ _ hn => hn.kind)
    fun _ _ _ hn hn' => hn'.trans hn
  rw [← show (e.layout d).document = ((e.runAll d (LayoutPass.all.take 8)).document.place e.options
    e.metrics).document from hdocument] at hframed hbanded hkinds
  refine ⟨fun options l hl x hx ht hdraws => h.shown_of_draws hok hx ht hl hdraws, ?_⟩
  intro n below system htree hn k slot hslot hshown x c hc hkept hbegins hfinds
  obtain ⟨n₈, below₈, htree₈, hkind, -⟩ := hkinds.flip.hasTree htree
  have hapart := (hstacked n₈ below₈ system htree₈ (hkind ▸ hn)).1
  have hbox := (hframed n below system htree hn).1
  have hband := h.between_of_findsRoom hok hunit hweight htree hn hslot hshown hbegins hkept hc hfinds
  have hmem := List.mem_of_find?_eq_some hslot
  refine ⟨?_, ?_, fun j y hj hy ht hdrawn => ?_⟩
  · rw [hbox]
    exact hband
  · obtain ⟨htop, hbottom⟩ := hapart.within slot hmem hshown
    obtain ⟨hy₁, hy₂⟩ := SystemFrame.box_bounds_y (((e.runAll d
      (LayoutPass.all.take 8)).document.placingContext e.options e.metrics).frame system) hapart.height
    rw [show n.box = _ from hbox, Rect.Between]
    exact ⟨(hy₁.trans_le (le_add_of_nonneg_right htop)).trans hband.1,
      hband.2.trans ((add_le_add_right hbottom _).trans_eq hy₂.symm)⟩
  · obtain ⟨m, under, staff, layers, st, hunder, hm, hlayers, hst, rfl, hyl⟩ := hy
    obtain ⟨slot', hslot', hcovers⟩ :=
      hbanded n below system htree hn m under hunder hm staff layers st hlayers hst
    obtain ⟨hshown', hbetween⟩ := hcovers y hyl ht hdrawn
    have hmem' := List.mem_of_find?_eq_some hslot'
    have hnumber {k : UInt32} {a : StaffSlot K} (ha : system.stack.get? k = some a) : a.staff = k := by
      simpa using List.find?_some ha
    have hne : slot ≠ slot' := fun heq =>
      hj ((hnumber hslot').symm.trans (heq ▸ hnumber hslot))
    obtain ⟨hlow, hhigh⟩ := hband
    obtain ⟨hlow', hhigh'⟩ := hbetween
    change e.options.marginTop + system.y + slot'.top ≤ _ at hlow'
    change _ ≤ e.options.marginTop + system.y + slot'.bottom at hhigh'
    refine (hapart.of_ne hmem hmem' hne hshown hshown').imp (fun hab => ?_) fun hba => ?_
    all_goals linarith

/-- A measure with a low note and a dynamic mark below it, which keeps to its staff. -/
theorem Reachable.keepsBands_of_dynamic : ∃ d : Document ℚ, d.Reachable ∧
    (Engine.default.layout d).fault = none ∧
    ((Engine.default.layout d).document.displayList .default).toOption.map
      (fun l => (l.systems.flatMap DisplaySystem.controls).map DisplayControl.id) = some ["f"] ∧
    d.KeepsBands .default := by
  have hsymbol := ((((Reachable.ofDefinition (α := ℚ) default).contentSystem.add 2
    (.measure (.ofNumber 1))).add 3 (.staff ⟨1, false⟩)).add 4 (.layer 1)).addNamed (by decide)
    (show Document.addNamed _ 5 "a"
      (.element (.note ⟨.ofValue .quarter, ⟨.c, 3, none⟩, none, false⟩)) = _ from rfl)
  have hd := hsymbol.addNamed (by decide) (show Document.addNamed _ 3 "f"
    (.control (.dynamic (.atId "a") "f")) = _ from rfl)
  exact ⟨_, hd, by decide +kernel, by decide +kernel,
    hd.keepsBands .default .default (show (Engine.default.layout _).fault = none by decide +kernel)⟩

/-- A measure with a chord of one low note and a dynamic mark below the chord. The mark is drawn below
the box of its system. -/
theorem Reachable.leavesBand_of_chord : ∃ d : Document ℚ, d.Reachable ∧
    (Engine.default.layout d).fault = none ∧
    ((Engine.default.layout d).document.displayList .default).toOption.map
      (fun l => (l.systems.flatMap DisplaySystem.controls).map DisplayControl.id) = some ["f"] ∧
    ∃ n ∈ (Engine.default.layout d).document.systems,
      ∃ x ∈ ((Engine.default.layout d).document.below n.handle).toList,
        x.id = "f" ∧ n.box.bounds.y2 < x.box.bounds.y1 := by
  have hsymbol := ((((Reachable.ofDefinition (α := ℚ) default).contentSystem.add 2
    (.measure (.ofNumber 1))).add 3 (.staff ⟨1, false⟩)).add 4 (.layer 1)).addNamed (by decide)
    (show Document.addNamed _ 5 "c" (.element (.chord (.ofValue .quarter))) = _ from rfl)
  have hd := (hsymbol.add 6 (.element (.note ⟨.empty, ⟨.c, 3, none⟩, none, false⟩))).addNamed (by decide)
    (show Document.addNamed _ 3 "f" (.control (.dynamic (.atId "c") "f")) = _ from rfl)
  exact ⟨_, hd, by decide +kernel, by decide +kernel, by decide +kernel⟩

end Document

end ScoreLayout
