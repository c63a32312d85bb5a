import ScoreLayout.Proofs.StackedStaves
import ScoreLayout.Proofs.Layout.StaffBands
import ScoreLayout.Proofs.Layout.StackedPages

/-!
# Staves and systems that do not collide

In exact arithmetic no symbol of a staff comes near a symbol of another: between what is drawn on two
staves of a system there is the least distance between staves, also where staves between them are
hidden. All symbols lie inside of their systems, and between two systems of a page there is the least
distance between systems.

## Main definitions

* `Document.DrawnOn` — a symbol that is drawn on a staff of a system.
* `Document.Separated` — a document whose staves and systems keep their distances.

## Main results

* `Document.Reachable.separated_layout` — every layout that meets no fault.
-/

namespace ScoreLayout

namespace Document

variable {α : Type} {d : Document α}

/-- A symbol that is drawn on a staff of a system. -/
def DrawnOn (d : Document α) (system : Node α) (staff : UInt32) (e : Node α) : Prop :=
  ∃ m ∈ d.measureNodes system.handle, ∃ k ∈ d.childNodes m.handle,
    (∃ st, k.kind = .staff st ∧ st.n = staff) ∧ e ∈ (d.below k.handle).toList ∧
      e.tag = .element ∧ e.box.rect.isSome

/-- The trees around a symbol that is drawn on a staff. -/
theorem DrawnOn.exists_trees {D : ScoreDefinition} {r : Node α} {pages detached : Forest (Node α)}
    (hd : d.Shape D r pages detached) {system : Node α} {below : Forest (Node α)}
    (htree : Forest.HasTree system below pages) {staff : UInt32} {e : Node α}
    (h : d.DrawnOn system staff e) : ∃ m under, Forest.HasTree m under below ∧ m.tag = .measure ∧
      ∃ k layers st, Forest.HasTree k layers under ∧ k.kind = .staff st ∧ st.n = staff ∧
        e ∈ layers.toList ∧ e.tag = .element ∧ e.box.rect.isSome := by
  obtain ⟨m, hm, k, hk, ⟨st, hst, rfl⟩, he, ht, hdrawn⟩ := h
  rw [measureNodes, childNodes, hd.below_eq htree] at hm
  obtain ⟨hroot, hmeasure⟩ := List.mem_filter.1 hm
  obtain ⟨under, hunder⟩ := Forest.exists_hasTree (Forest.mem_toList_of_mem_roots hroot)
  rw [childNodes, hd.below_eq (htree.trans hunder)] at hk
  obtain ⟨layers, hlayers⟩ := Forest.exists_hasTree (Forest.mem_toList_of_mem_roots hk)
  rw [hd.below_eq (htree.trans (hunder.trans hlayers))] at he
  exact ⟨m, under, hunder, of_decide_eq_true hmeasure, k, layers, st, hlayers, hst, rfl, he, ht,
    hdrawn⟩

end Document

variable {K : Type} [ExactField K]

/-- A system lies between its top line and the end of its staves. -/
theorem SystemFrame.box_bounds_y (frame : SystemFrame K) (h : 0 ≤ frame.system.stack.height) :
    frame.box.bounds.y1 = frame.y ∧ frame.box.bounds.y2 = frame.y + frame.system.stack.height := by
  have hzero := ExactField.zero_eq (K := K)
  simp only [box, Box.bounds, Rect.translate, Rect.ofCorners, Scalar.min_eq_min, Scalar.max_eq_max,
    hzero]
  exact ⟨(congrArg (· + frame.y) (min_eq_left h)).trans (zero_add _),
    (congrArg (· + frame.y) (max_eq_right h)).trans (add_comm _ _)⟩

namespace Document

variable {d d' : Document K} {options : LayoutOptions K} {metrics : GlyphMetrics K}

/-- What is drawn on the staves of a system, and the systems of a page, keep their distances. -/
structure Separated (d : Document K) (o : LayoutOptions K) : Prop where
  staves : ∀ system ∈ d.systems, ∀ s, system.kind = .system s → s.stack.staves.Pairwise fun a b =>
    ∀ e e', d.DrawnOn system a.staff e → d.DrawnOn system b.staff e' →
      e.box.bounds.y2 + o.spacingStaff * o.scaledUnit ≤ e'.box.bounds.y1
  visible : ∀ system ∈ d.systems, ∀ s, system.kind = .system s → ∀ staff e,
    d.DrawnOn system staff e → ∃ slot ∈ s.stack.staves, slot.staff = staff ∧ ¬ slot.hidden
  within : ∀ system ∈ d.systems, ∀ staff e, d.DrawnOn system staff e →
    system.box.bounds.y1 ≤ e.box.bounds.y1 ∧ e.box.bounds.y2 ≤ system.box.bounds.y2
  systems : ∀ page ∈ d.pages, (d.childNodes page.handle).Pairwise fun a b =>
    a.box.bounds.y2 + o.spacingSystem * o.scaledUnit ≤ b.box.bounds.y1

/-- The systems of a score whose pages keep apart hold what stands in them. -/
theorem WellFormed.holds_of_keepsApart (hd : d.WellFormed) {spacing between : K}
    (h : d.score.branches.KeepsApart spacing between) {n : Node K} {below : Forest (Node K)}
    (htree : Forest.HasTree n below d.score) (hn : n.tag = .system) : HoldsTree spacing (n, below) := by
  obtain ⟨r, pages, hshape⟩ := hd.exists_shape
  have hnested := hd.nested_score
  rw [hshape.score, Forest.tree] at hnested htree
  rw [hshape.score, Forest.tree, Forest.branches, Forest.branches, Forest.append_nil] at h
  cases htree with
  | here => cases hn.symm.trans hshape.root_tag
  | beside _ _ h => cases h
  | deeper _ htree =>
    -- the page with the system on it
    have hpages := hnested.2.1
    have htags := fun k hk => hshape.tag_of_mem_pages (n := k) hk
    obtain ⟨hholds, -⟩ := h
    clear hshape hnested
    induction htree with
    | here => cases (htags n List.mem_cons_self).symm.trans hn
    | @deeper page systems _ hsystem _ =>
      have hpage := htags page List.mem_cons_self
      exact hholds (page, systems) List.mem_cons_self (n, below) (hpages.2.1.mem_trees hsystem
        (fun k hk => ((NodeKind.tag_of_accepts (hpages.1 k hk)).2 hpage).trans hn.symm)
        (by rw [hn]; decide))
    | beside page systems _ ih =>
      exact ih hpages.2.2 (fun k hk => htags k (List.mem_cons_of_mem _ hk)) fun t ht =>
        hholds t (List.mem_cons_of_mem _ ht)

/-- Systems whose staves are apart, with symbols in the bands of these, keep their distances. -/
theorem WellFormed.separated_of_banded (hd : d.WellFormed) {o : LayoutOptions K}
    {c : PlacingContext K} (hframed : d.score.Framed c) (hbanded : d.score.Banded c)
    (hstacks : ∀ n below system, Forest.HasTree n below d.score → n.kind = .system system →
      system.stack.Apart (o.spacingStaff * o.scaledUnit))
    (hsystems : ∀ t ∈ d.score.branches.trees,
      SystemsApart (o.spacingSystem * o.scaledUnit) t.2.roots) : d.Separated o := by
  obtain ⟨r, pages, hshape⟩ := hd.exists_shape
  have hinside {n : Node K} {below : Forest (Node K)} (h : Forest.HasTree n below pages) :
      Forest.HasTree n below d.score := hshape.score ▸ .deeper .nil h
  -- a symbol drawn on a staff lies in the band of a visible slot
  have hband {system : Node K} {s : ScoreSystem K} (hsystem : system ∈ d.systems)
      (hs : system.kind = .system s) : s.stack.Apart (o.spacingStaff * o.scaledUnit) ∧
        system.box = (c.frame s).box ∧ ∀ staff e, d.DrawnOn system staff e →
          ∃ slot, s.stack.get? staff = some slot ∧ ¬ slot.hidden ∧
            e.box.bounds.Between (c.marginTop + s.y + slot.top) (c.marginTop + s.y + slot.bottom) := by
    rw [hshape.systems_eq] at hsystem
    obtain ⟨below, hbranch⟩ := Forest.exists_hasTree (Forest.mem_toList_of_mem_roots hsystem)
    have htree := hbranch.of_branches
    refine ⟨hstacks system below s (hinside htree) hs, (hframed system below s (hinside htree) hs).1,
      fun staff e he => ?_⟩
    obtain ⟨m, under, hunder, hm, k, layers, st, hlayers, hst, rfl, he, ht, hdrawn⟩ :=
      he.exists_trees hshape htree
    obtain ⟨slot, hslot, hcovers⟩ :=
      hbanded system below s (hinside htree) hs m under hunder hm k layers st hlayers hst
    exact ⟨slot, hslot, hcovers e he ht hdrawn⟩
  refine ⟨fun system hsystem s hs => ?_, fun system hsystem s hs staff e he => ?_,
    fun system hsystem staff e he => ?_, fun page hpage => ?_⟩
  · obtain ⟨hapart, -, hcovers⟩ := hband hsystem hs
    refine hapart.pairwise.imp_of_mem fun {a b} ha hb hab e e' he he' => ?_
    obtain ⟨slot, hslot, hvisible, hbetween⟩ := hcovers a.staff e he
    obtain ⟨slot', hslot', hvisible', hbetween'⟩ := hcovers b.staff e' he'
    rw [StaffStack.get?_of_mem hapart.nodup ha] at hslot
    rw [StaffStack.get?_of_mem hapart.nodup hb] at hslot'
    obtain rfl := Option.some.inj hslot
    obtain rfl := Option.some.inj hslot'
    linarith [hbetween.2, hab hvisible hvisible', hbetween'.1]
  · obtain ⟨-, -, hcovers⟩ := hband hsystem hs
    obtain ⟨slot, hslot, hvisible, -⟩ := hcovers staff e he
    rw [StaffStack.get?] at hslot
    exact ⟨slot, List.mem_of_find?_eq_some hslot, by simpa using List.find?_some hslot, hvisible⟩
  · obtain ⟨s, hs⟩ := Node.exists_system (hshape.tag_of_mem_systems (hshape.systems_eq ▸ hsystem))
    obtain ⟨hapart, hbox, hcovers⟩ := hband hsystem hs
    obtain ⟨slot, hslot, hvisible, hbetween⟩ := hcovers staff e he
    obtain ⟨htop, hbottom⟩ := hapart.within slot (List.mem_of_find?_eq_some hslot) hvisible
    obtain ⟨hy₁, hy₂⟩ := SystemFrame.box_bounds_y (c.frame s) hapart.height
    rw [hbox, hy₁, hy₂]
    exact ⟨(le_add_of_nonneg_right htop).trans hbetween.1,
      hbetween.2.trans (add_le_add_right hbottom _)⟩
  · rw [hshape.pages_eq, ← Forest.map_fst_trees] at hpage
    obtain ⟨t, ht, rfl⟩ := List.mem_map.1 hpage
    have htree := Forest.hasTree_of_mem_trees ht
    rw [hshape.score, Forest.tree, Forest.branches, Forest.branches, Forest.append_nil] at hsystems
    rw [childNodes, hshape.below_eq htree]
    refine (hsystems t ht).imp_of_mem fun {a b} ha hb hab => ?_
    have hsystem {n : Node K} (hn : n ∈ t.2.roots) : ∃ s, n.kind = .system s ∧
        0 ≤ s.stack.height ∧ n.box = (c.frame s).box := by
      have hroot : n ∈ pages.branches.roots := by
        rw [Forest.roots_branches]
        exact List.mem_flatMap.2 ⟨t, ht, hn⟩
      obtain ⟨s, hs⟩ := Node.exists_system (hshape.tag_of_mem_systems hroot)
      obtain ⟨hapart, hbox, -⟩ := hband (hshape.systems_eq ▸ hroot) hs
      exact ⟨s, hs, hapart.height, hbox⟩
    obtain ⟨s, hs, hheight, hbox⟩ := hsystem ha
    obtain ⟨s', hs', hheight', hbox'⟩ := hsystem hb
    rw [hbox, hbox', (SystemFrame.box_bounds_y (c.frame s) hheight).2,
      (SystemFrame.box_bounds_y (c.frame s') hheight').1]
    have hbetween := hab s s' hs hs'
    show c.marginTop + s.y + s.stack.height + _ ≤ c.marginTop + s'.y
    linarith

/-- After a layout that meets no fault staves and systems keep their distances. -/
theorem Reachable.separated_layout (h : d.Reachable) (hfree : Unreserved d.trees.rest)
    (hok : ((Engine.ofOptions options metrics).layout d).fault = none) :
    ((Engine.ofOptions options metrics).layout d).document.Separated options.normalized := by
  have hd := h.ready hfree
  obtain ⟨hok₈, hplace, hdocument⟩ := Engine.of_runAll_take (k := 8) rfl hok
  have hready := (hd.runAll (Engine.ofOptions options metrics) (LayoutPass.all.take 8)).2.wellFormed
  have hkeeps := hd.keepsApart_fillPages hok₈
  have hstaffed : ((Engine.ofOptions options metrics).runAll d
      (LayoutPass.all.take 8)).document.score.Staffed none := by
    have hok₂ : ((Engine.ofOptions options metrics).runAll d (LayoutPass.all.take 2)).fault = none :=
      Engine.fault_of_runAll_append _ hok₈
    refine hd.wellFormed.staffed_runAll hd.settled _ ?_ hok₂
    decide
  obtain ⟨_, _, -, hboxed, hlater⟩ := hready.exists_walk_place hplace
  have hkinds := (hboxed.mono fun _ _ hn => hn.kind).trans (hlater.mono fun _ _ hn => hn.kind)
    fun _ _ _ hn hn' => hn'.trans hn
  have hholds {n : Node K} {below : Forest (Node K)} {system : ScoreSystem K}
      (htree : Forest.HasTree n below ((Engine.ofOptions options metrics).runAll d
        (LayoutPass.all.take 8)).document.score) (hn : n.kind = .system system) :=
    hready.holds_of_keepsApart hkeeps htree (by rw [Node.tag, hn]; rfl) system hn
  rw [Engine.layout]
  have hwell : ((Engine.ofOptions options metrics).runAll d LayoutPass.all).document.WellFormed :=
    (hd.layout (Engine.ofOptions options metrics)).2.wellFormed
  rw [show LayoutPass.all = LayoutPass.all.take (8 + 1) from rfl, hdocument] at hwell ⊢
  refine hwell.separated_of_banded (hready.framed_place hplace)
    (hready.banded_place hplace hstaffed fun n below system htree hn => (hholds htree hn).2)
    (fun n below system htree hn => ?_) fun t ht => ?_
  · obtain ⟨n₈, below₈, htree₈, hkind, -⟩ := hkinds.flip.hasTree htree
    exact (hholds htree₈ (hkind ▸ hn)).1
  · obtain ⟨t₈, ht₈, -, hbelow⟩ := exists_mem_of_forall₂ hkinds.branches.trees ht
    refine (hkeeps.apart t₈ ht₈).of_keepsTop (hbelow.roots.imp fun n n' hn => ?_)
    exact fun s hs => ⟨s, hn ▸ hs, rfl, rfl⟩

/-- A measure with a note on each of its two staves keeps them apart. -/
theorem Reachable.separated_layout_of_two_notes : ∃ d : Document ℚ, d.Reachable ∧
    (((Engine.ofOptions (.default : LayoutOptions ℚ) .default).layout d).document.systems.flatMap
      fun system => (((Engine.ofOptions (.default : LayoutOptions ℚ) .default).layout
        d).document.below system.handle).toList.filter fun n =>
          n.tag = .element ∧ n.box.rect.isSome).length = 2 ∧
    ((Engine.ofOptions (.default : LayoutOptions ℚ) .default).layout d).document.Separated
      LayoutOptions.default.normalized := by
  have hd := ((((((((Reachable.ofDefinition (α := ℚ) default).contentSystem.add 2
    (.measure (.ofNumber 1))).add 3 (.staff ⟨1, false⟩)).add 4 (.layer 1)).add 5
    (.element (.note ⟨.ofValue .quarter, ⟨.c, 4, none⟩, none, false⟩))).add 3
    (.staff ⟨2, false⟩)).add 7 (.layer 1)).add 8
    (.element (.note ⟨.ofValue .quarter, ⟨.c, 4, none⟩, none, false⟩)))
  exact ⟨_, hd, by decide +kernel, hd.separated_layout (fun n hn => absurd hn List.not_mem_nil)
    (show ((Engine.ofOptions (.default : LayoutOptions ℚ) .default).layout _).fault = none by
      decide +kernel)⟩

end Document

end ScoreLayout
