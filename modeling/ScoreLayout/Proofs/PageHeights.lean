import Mathlib.Tactic.Linarith
import ScoreLayout.Proofs.GreedyPages
import ScoreLayout.Proofs.Layout.SpreadPages

/-!
# Pages filled to their height

In exact arithmetic, filling takes up the free height of a page to the last bit: the last system
ends where the page does, and the first stays at the top. The free height is shared out over the
gaps in between, by the weights of gaps between systems and between staves. A page without free
height or without gaps stays as it is, and so does a last page that has too much free height.

## Main definitions

* `Document.EndsPages` — pages that begin with their first system and end with their last.
* `Document.SpreadsPage` — whether the free height of a page is shared out.
* `Document.FillsPage` — a page, and what it is once it has been filled.
* `Document.FillsPages` — a document, and what it is once its pages have been filled.

## Main results

* `Document.Reachable.fills_pages` — filling is exact.
-/

namespace ScoreLayout

variable {K : Type} [ExactField K]

namespace Document

/-- Pages begin with their first system and end with their last. -/
structure EndsPages (d : Document K) : Prop where
  first : ∀ page ∈ d.pages, ∀ n ∈ (d.childNodes page.handle).head?, n.top = 0
  last : ∀ page ∈ d.pages, ∀ n ∈ (d.childNodes page.handle).getLast?,
    page.kind = .page { contentHeight := n.bottom }

/-- Whether the free height of a page is shared out: there is some, there are gaps that take it, and
on the last page there is not too much. -/
def SpreadsPage (d : Document K) (o : LayoutOptions K) (page : Node K) : Prop :=
  o.vertical = .fill ∧ ∃ p ∈ page.kind.page?, 0 < o.contentHeight - p.contentHeight ∧
    0 < gapWeight o (d.childNodes page.handle) ∧
    ¬ (d.pages.getLast?.map Node.handle = some page.handle ∧
      o.maxVertical ≤ (o.contentHeight - p.contentHeight) / o.contentHeight)

instance (d : Document K) (o : LayoutOptions K) (page : Node K) :
    Decidable (d.SpreadsPage o page) := inferInstanceAs (Decidable (_ ∧ ∃ p ∈ _, _))

/-- A page of `d` is filled in `d'`. -/
structure FillsPage (d d' : Document K) (o : LayoutOptions K) (page page' : Node K) : Prop where
  height : page' = { page with kind := .page { contentHeight := o.contentHeight } }
  first : ∀ n ∈ (d'.childNodes page.handle).head?, n.top = 0
  last : ∀ n ∈ (d'.childNodes page.handle).getLast?, n.bottom = o.contentHeight
  /-- All gaps have grown by their weight times the same share. -/
  gaps : ∃ share, 0 ≤ share ∧
    distances Node.top Node.bottom (d'.childNodes page.handle) =
      (distances Node.top Node.bottom (d.childNodes page.handle)).map
        (· + share * o.systemWeight) ∧
    List.Forall₂ (Node.Widened (share * o.staffWeight)) (d.childNodes page.handle)
      (d'.childNodes page.handle)

/-- The pages of `d` are filled in `d'`, where they have free height to share out. Nothing else is
changed. -/
structure FillsPages (d d' : Document K) (o : LayoutOptions K) : Prop where
  pages : List.Forall₂ (fun page page' =>
    (d.SpreadsPage o page → d.FillsPage d' o page page') ∧
      (¬ d.SpreadsPage o page →
        page' = page ∧ d'.childNodes page.handle = d.childNodes page.handle)) d.pages d'.pages
  below : ∀ n ∈ d.systems, d'.below n.handle = d.below n.handle
  rest : d'.trees.rest = d.trees.rest
  definition : d'.definition = d.definition

end Document

/-! ### Options -/

theorem Scalar.clamp_le (x : K) {low high : K} (h : low ≤ high) :
    Scalar.clamp x low high ≤ high := by
  rw [Scalar.clamp]
  split_ifs with hbelow habove
  · exact h
  · exact le_rfl
  · exact not_lt.1 habove

theorem Scalar.le_clamp (x : K) {low high : K} (h : low ≤ high) :
    low ≤ Scalar.clamp x low high := by
  rw [Scalar.clamp]
  split_ifs with hbelow habove
  · exact le_rfl
  · exact h
  · exact not_lt.1 hbelow

/-- Options within their ranges leave room between the upper and the lower margin. -/
theorem LayoutOptions.contentHeight_pos (o : LayoutOptions K) : 0 < o.normalized.contentHeight := by
  have hheight : ((100 : ℕ) : K) ≤ o.normalized.pageHeight := by
    rw [← ExactField.ofNat_eq]
    refine Scalar.le_clamp o.pageHeight ?_
    rw [ExactField.ofNat_eq, ExactField.ofNat_eq]
    exact Nat.cast_le.2 (by decide)
  obtain ⟨half, hhalf⟩ : ∃ half, half =
      o.normalized.pageHeight / @OfNat.ofNat K 2 (Scalar.instOfNat 2) := ⟨_, rfl⟩
  have hhalves : half + half = o.normalized.pageHeight := by
    rw [hhalf, ExactField.ofNat_eq]
    exact add_halves _
  have hone : ((1 : ℕ) : K) ≤ half := by
    by_contra hlt
    have hsum := add_lt_add (not_le.1 hlt) (not_le.1 hlt)
    rw [← Nat.cast_add] at hsum
    have htwo := (hheight.trans_eq hhalves.symm).trans_lt hsum
    exact absurd (Nat.cast_lt.1 htwo) (by decide)
  have hmargin (x : K) : Scalar.clamp x (@OfNat.ofNat K 0 (Scalar.instOfNat 0))
      (half - @OfNat.ofNat K 1 (Scalar.instOfNat 1)) < half := by
    rw [ExactField.zero_eq, ExactField.ofNat_eq]
    exact (Scalar.clamp_le x (sub_nonneg.2 hone)).trans_lt
      (sub_lt_self half (Nat.cast_pos.2 Nat.one_pos))
  rw [hhalf] at hmargin
  have htop : o.normalized.marginTop < _ := hmargin o.marginTop
  have hbottom : o.normalized.marginBottom < _ := hmargin o.marginBottom
  rw [← hhalf] at htop hbottom
  calc 0 < (half - o.normalized.marginTop) + (half - o.normalized.marginBottom) :=
        add_pos (sub_pos.2 htop) (sub_pos.2 hbottom)
    _ = half + half - (o.normalized.marginTop + o.normalized.marginBottom) :=
        (add_sub_add_comm ..).symm
    _ = o.normalized.contentHeight := by
        rw [hhalves, LayoutOptions.contentHeight, sub_sub]

/-! ### Documents -/

omit [ExactField K] in
/-- What is related at one place of two lists is in these lists. -/
theorem forall₂_mem {β γ : Type} {R : β → γ → Prop} {l : List β} {m : List γ}
    (h : List.Forall₂ R l m) : List.Forall₂ (fun b c => b ∈ l ∧ c ∈ m ∧ R b c) l m := by
  induction h with
  | nil => exact .nil
  | cons hbc _ ih =>
    exact .cons ⟨List.mem_cons_self, List.mem_cons_self, hbc⟩ (ih.imp fun _ _ h =>
      ⟨List.mem_cons_of_mem _ h.1, List.mem_cons_of_mem _ h.2.1, h.2.2⟩)

namespace LayoutOptions

/-- Filling lines leaves the pages themselves alone. -/
theorem trees_filledPages (o : LayoutOptions K) (pages : Forest (Node K)) :
    List.Forall₂ (fun t t' => t'.1 = t.1 ∧ List.Forall₂ KeepsLine t.2.roots t'.2.roots) pages.trees
      (o.filledPages pages).trees := by
  have hsame : List.Forall₂ (fun t t' : Node K × Forest (Node K) =>
      t'.1 = t.1 ∧ List.Forall₂ KeepsLine t.2.roots t'.2.roots) pages.trees pages.trees :=
    List.forall₂_same.2 fun _ _ => ⟨rfl, List.forall₂_same.2 fun n _ => .refl n⟩
  have hfilled (available : K) : List.Forall₂ (fun t t' : Node K × Forest (Node K) =>
      t'.1 = t.1 ∧ List.Forall₂ KeepsLine t.2.roots t'.2.roots) pages.trees
        (o.fillPageTrees available pages).trees := by
    clear hsame
    induction pages with
    | nil => exact .nil
    | cons page systems pages _ ih => exact .cons ⟨rfl, (keepsLine_fillTrees ..).roots⟩ ih
  rw [filledPages]
  cases o.contentWidth? with
  | none => exact hsame
  | some available =>
    dsimp only
    split_ifs
    · exact hfilled available
    · exact hsame

/-- Filling lines leaves the upper and lower ends of systems where they are. -/
theorem KeepsLine.ends {n n' : Node K} (h : KeepsLine n n') (hn : n.tag = .system) :
    n'.top = n.top ∧ n'.bottom = n.bottom := by
  obtain ⟨s', hs'⟩ := NodeKind.exists_of_system (h.1.tag.trans hn)
  obtain ⟨s, hs, hstack, hy⟩ := h.2 s' hs'
  rw [Node.bottom, Node.bottom, Node.top, Node.top, Node.stackHeight, Node.stackHeight, hs, hs']
  simp [NodeKind.system?, hstack, hy]

end LayoutOptions

namespace Document

namespace Shape

variable {d : Document K} {D : ScoreDefinition} {r : Node K} {pages detached : Forest (Node K)}

omit [ExactField K] in
/-- What stands on a page are systems. -/
theorem tag_of_mem_trees (hd : d.Shape D r pages detached) {t : Node K × Forest (Node K)}
    (ht : t ∈ pages.trees) : ∀ n ∈ t.2.roots, n.tag = .system := by
  intro n hn
  refine hd.tag_of_mem_systems ?_
  rw [Forest.roots_branches]
  exact List.mem_flatMap.2 ⟨t, ht, hn⟩

/-- A page that has free height to share out is filled. -/
theorem fillsPage (hd : d.Shape D r pages detached) {d' : Document K} {pages' : Forest (Node K)}
    (hd' : d'.Shape D r pages' detached) {o : LayoutOptions K} (havailable : 0 < o.contentHeight)
    {t : Node K × Forest (Node K)} (ht : t ∈ pages.trees) {isLast : Bool}
    (hisLast : isLast = true ↔ d.pages.getLast?.map Node.handle = some t.1.handle)
    (ht' : o.spreadTree o.contentHeight isLast t ∈ pages'.trees)
    (hfirst : ∀ n ∈ (d.childNodes t.1.handle).head?, n.top = 0)
    (hlast : ∀ n ∈ (d.childNodes t.1.handle).getLast?,
      t.1.kind = .page { contentHeight := n.bottom }) (hfill : o.vertical = .fill) :
    (d.SpreadsPage o t.1 →
        d.FillsPage d' o t.1 (o.spreadTree o.contentHeight isLast t).1) ∧
      (¬ d.SpreadsPage o t.1 → (o.spreadTree o.contentHeight isLast t).1 = t.1 ∧
        d'.childNodes t.1.handle = d.childNodes t.1.handle) := by
  have htree := Forest.hasTree_of_mem_trees ht
  have hchildren : d.childNodes t.1.handle = t.2.roots := by
    rw [childNodes, hd.below_eq htree]
  have hchildren' : d'.childNodes t.1.handle =
      (o.spreadTree o.contentHeight isLast t).2.roots := by
    rw [← o.handle_spreadTree o.contentHeight isLast t, childNodes,
      hd'.below_eq (Forest.hasTree_of_mem_trees ht')]
  have hroot : t.1 ∈ pages.roots := Forest.map_fst_trees pages ▸ List.mem_map_of_mem ht
  obtain ⟨p, hp⟩ := NodeKind.exists_of_page (hd.tag_of_mem_pages hroot)
  have htags := hd.tag_of_mem_trees ht
  have hspreads : d.SpreadsPage o t.1 ↔ o.Spreads o.contentHeight isLast p t.2.roots := by
    have hpage : t.1.kind.page? = some p := by rw [hp]; rfl
    rw [SpreadsPage, LayoutOptions.spreads_iff havailable, hchildren, hisLast, hpage]
    simp [hfill]
  rw [hchildren] at hfirst hlast
  rw [hspreads, hchildren]
  constructor
  · intro h
    obtain ⟨hpage, share, hshare, htotal, hwidens⟩ :=
      LayoutOptions.spreadTree_of_spreads hp h htags
    refine ⟨hpage, ?_, ?_, share, hshare, ?_, ?_⟩
    all_goals rw [hchildren']
    · intro n hn
      have htop := hwidens.first
      rw [hn, Option.map_some] at htop
      obtain ⟨m, hm, heq⟩ := Option.map_eq_some_iff.1 htop.symm
      exact heq ▸ hfirst m hm
    · intro n hn
      obtain ⟨m, hm, hbottom⟩ := hwidens.last n hn
      obtain rfl := NodeKind.page.inj (hp.symm.trans (hlast m hm))
      rw [hbottom, htotal]
      exact add_sub_cancel ..
    · rw [hchildren]
      exact hwidens.gaps
    · rw [hchildren]
      exact hwidens.systems
  · intro h
    have hsame := LayoutOptions.spreadTree_of_not_spreads hp h
    rw [hchildren', hsame]
    exact ⟨rfl, rfl⟩

/-- Filling pages that begin with their first system and end with their last. -/
theorem fillsPages (hd : d.Shape D r pages detached)
    (hs : Step.verticalFilling.required ≤ d.stage) (hends : d.EndsPages) (o : LayoutOptions K) :
    (d.fillPages o.normalized).fault = none ∧
      d.FillsPages (d.fillPages o.normalized).document o.normalized := by
  obtain ⟨d', hrun, hd', -⟩ := hd.fillPages_eq hs o.normalized
  rw [hrun]
  refine ⟨rfl, ?_⟩
  show d.FillsPages d' o.normalized
  rw [LayoutOptions.spreadPages] at hd'
  by_cases hfill : o.normalized.vertical = .fill
  · rw [if_pos hfill] at hd'
    have hpages :=
      o.normalized.forall₂_spreadTrees o.normalized.contentHeight pages hd.nodup_pages
    refine ⟨?_, fun n hn => ?_, hd'.rest.trans hd.rest.symm,
      hd'.definition.trans hd.definition.symm⟩
    · rw [hd.pages_eq, hd'.pages_eq, ← Forest.map_fst_trees, ← Forest.map_fst_trees,
        List.forall₂_map_left_iff, List.forall₂_map_right_iff]
      refine (forall₂_mem hpages).imp fun t t' h => ?_
      obtain ⟨ht, ht', isLast, hisLast, rfl⟩ := h
      have hpage : t.1 ∈ d.pages := by
        rw [hd.pages_eq, ← Forest.map_fst_trees]
        exact List.mem_map_of_mem ht
      rw [← hd.pages_eq] at hisLast
      exact hd.fillsPage hd' o.contentHeight_pos ht hisLast ht' (hends.first _ hpage)
        (hends.last _ hpage) hfill
    · rw [hd.systems_eq, ← Forest.map_fst_trees, Forest.trees_branches] at hn
      obtain ⟨u, hu, rfl⟩ := List.mem_map.1 hn
      obtain ⟨t, ht, hu⟩ := List.mem_flatMap.1 hu
      obtain ⟨t', ht', isLast, -, rfl⟩ := exists_mem_of_forall₂ hpages.flip ht
      obtain ⟨u', hu', hhandle, hbelow⟩ := exists_mem_of_forall₂
        (o.normalized.below_spreadTree o.normalized.contentHeight isLast t).flip hu
      rw [← hhandle, hd'.below_eq ((Forest.hasTree_of_mem_trees ht').trans
        (Forest.hasTree_of_mem_trees hu')), hbelow, hhandle,
        hd.below_eq ((Forest.hasTree_of_mem_trees ht).trans (Forest.hasTree_of_mem_trees hu))]
  · rw [if_neg hfill] at hd'
    have hsame {n : Node K} {below : Forest (Node K)} (h : Forest.HasTree n below pages) :
        d'.below n.handle = d.below n.handle := by
      rw [hd'.below_eq h, hd.below_eq h]
    refine ⟨?_, fun n hn => ?_, hd'.rest.trans hd.rest.symm,
      hd'.definition.trans hd.definition.symm⟩
    · rw [hd.pages_eq, hd'.pages_eq, List.forall₂_same]
      refine fun page hpage => ⟨fun h => absurd h.1 hfill, fun _ => ⟨rfl, ?_⟩⟩
      rw [← Forest.map_fst_trees] at hpage
      obtain ⟨t, ht, rfl⟩ := List.mem_map.1 hpage
      rw [childNodes, childNodes, hsame (Forest.hasTree_of_mem_trees ht)]
    · rw [hd.systems_eq, ← Forest.map_fst_trees] at hn
      obtain ⟨t, ht, rfl⟩ := List.mem_map.1 hn
      exact hsame (.of_branches (Forest.hasTree_of_mem_trees ht))

/-- Filling lines leaves the ends of pages where they are. -/
theorem endsPages_of_filledPages (hd : d.Shape D r pages detached) {d' : Document K}
    {o : LayoutOptions K} (hd' : d'.Shape D r (o.filledPages pages) detached)
    (hends : d.EndsPages) : d'.EndsPages := by
  -- the ends of the systems of a page, before and after
  have hsystems : ∀ page ∈ d'.pages, page ∈ d.pages ∧
      (d'.childNodes page.handle).map (fun n => (n.top, n.bottom)) =
        (d.childNodes page.handle).map fun n => (n.top, n.bottom) := by
    intro page hpage
    rw [hd'.pages_eq, ← Forest.map_fst_trees] at hpage
    obtain ⟨t', ht', rfl⟩ := List.mem_map.1 hpage
    obtain ⟨t, ht, hsame, hkeeps⟩ := exists_mem_of_forall₂ (o.trees_filledPages pages) ht'
    have hpage : t.1 ∈ d.pages := by
      rw [hd.pages_eq, ← Forest.map_fst_trees]
      exact List.mem_map_of_mem ht
    refine ⟨hsame ▸ hpage, ?_⟩
    rw [childNodes, hd'.below_eq (Forest.hasTree_of_mem_trees ht'), hsame, childNodes,
      hd.below_eq (Forest.hasTree_of_mem_trees ht)]
    have hsystems := (List.forall₂_and_left _ _).2 ⟨hd.tag_of_mem_trees ht, hkeeps⟩
    refine (map_eq_of_forall₂ (fun n n' h => ?_) hsystems).symm
    obtain ⟨htop, hbottom⟩ := h.2.ends h.1
    rw [htop, hbottom]
  constructor
  · intro page hpage n' hn'
    obtain ⟨hmem, hmap⟩ := hsystems page hpage
    have hhead := congrArg List.head? hmap
    rw [List.head?_map, List.head?_map, hn', Option.map_some] at hhead
    obtain ⟨n, hn, heq⟩ := Option.map_eq_some_iff.1 hhead.symm
    rw [← (Prod.mk.inj heq).1]
    exact hends.first page hmem n hn
  · intro page hpage n' hn'
    obtain ⟨hmem, hmap⟩ := hsystems page hpage
    have hlast := congrArg List.getLast? hmap
    rw [List.getLast?_map, List.getLast?_map, hn', Option.map_some] at hlast
    obtain ⟨n, hn, heq⟩ := Option.map_eq_some_iff.1 hlast.symm
    rw [← (Prod.mk.inj heq).2]
    exact hends.last page hmem n hn

end Shape

variable {d : Document K} {options : LayoutOptions K} {metrics : GlyphMetrics K}

theorem stage_fillSystems {available : K} : (systems : List (Node K)) → {d d' : Document K} →
    d.fillSystems options available systems = .ok d' → d'.stage = d.stage
  | [], _, _, h => by
      rw [fillSystems] at h
      rw [Except.ok.inj h]
  | n :: systems, d, d', h => by
      rw [fillSystems] at h
      obtain ⟨d₁, hstep, hrest⟩ := except_bind_eq_ok.1 h
      exact (stage_fillSystems systems hrest).trans (stage_fillSystem hstep)

theorem stage_fillLines (hok : (d.fillLines options).fault = none) :
    (d.fillLines options).document.stage = d.stage := by
  rw [fillLines, Outcome.guarded] at hok ⊢
  split at hok
  · cases hok
  · split at hok
    · rfl
    · split_ifs at hok ⊢
      · cases hfill : d.fillSystems options _ d.systems with
        | ok d' => exact stage_fillSystems d.systems hfill
        | error f =>
          rw [hfill] at hok
          cases hok
      · rfl

/-- A layout that has broken its systems into pages, with its lines filled or not. -/
theorem Ready.endsPages (hd : d.Ready) {k : ℕ} (hk : k = 6 ∨ k = 7)
    (hok : ((Engine.ofOptions options metrics).runAll d (LayoutPass.all.take k)).fault = none) :
    ((Engine.ofOptions options metrics).runAll d (LayoutPass.all.take k)).document.EndsPages ∧
      ((Engine.ofOptions options metrics).runAll d (LayoutPass.all.take k)).document.stage =
        .paginated := by
  have hok₆ : ((Engine.ofOptions options metrics).runAll d (LayoutPass.all.take 6)).fault =
      none := by
    rcases hk with rfl | rfl
    · exact hok
    · exact (Engine.of_runAll_take (k := 6) rfl hok).1
  obtain ⟨hok₅, hrun₆, heq₆⟩ := Engine.of_runAll_take (k := 5) rfl hok₆
  obtain ⟨hok₄, -, heq₅⟩ := Engine.of_runAll_take (k := 4) rfl hok₅
  obtain ⟨-, hrun₄, heq₄⟩ := Engine.of_runAll_take (k := 3) rfl hok₄
  have hready₃ := (hd.runAll (Engine.ofOptions options metrics) (LayoutPass.all.take 3)).2
  -- the systems stand on one page
  obtain ⟨r, page, systems, d₁, d₄, hbreak, hd₄, hid, -⟩ :=
    hready₃.wellFormed.exists_breakSystems hready₃.unreserved
      (Outcome.required_le_of_guarded hrun₄) options.normalized metrics
  have hdocument₄ : ((Engine.ofOptions options metrics).runAll d (LayoutPass.all.take 4)).document =
      d₄ := heq₄.trans (congrArg Outcome.document hbreak)
  rw [hdocument₄] at heq₅
  obtain ⟨r₅, page₅, systems₅, hd₅, hpage, -⟩ :=
    hd₄.of_sameTree (sameTree_stackStaves d₄ options.normalized metrics)
  -- pages are made of them
  rw [heq₅] at hrun₆ heq₆
  obtain ⟨pages, d₆, hpaged, hd₆, hpages, hstage⟩ := hd₅.exists_breakPages (hpage.id ▸ hid)
    (Outcome.required_le_of_guarded hrun₆)
  have hdocument₆ : ((Engine.ofOptions options metrics).runAll d (LayoutPass.all.take 6)).document =
      d₆ := heq₆.trans (congrArg Outcome.document hpaged)
  have hgreedy := (show d₆.Shape _ r₅ (.nil ++ pages) _ from hd₆).pagedGreedily
    (fun page hpage => absurd hpage List.not_mem_nil) (hd₅.tag_of_mem_trees List.mem_cons_self)
    hpages
  have hends : d₆.EndsPages :=
    ⟨fun page hpage n hn => (hgreedy.top page hpage n hn).trans ExactField.zero_eq, hgreedy.height⟩
  rcases hk with rfl | rfl
  · rw [hdocument₆]
    exact ⟨hends, hstage⟩
  · -- and their lines are filled
    obtain ⟨-, hrun₇, heq₇⟩ := Engine.of_runAll_take (k := 6) rfl hok
    obtain ⟨-, helastic⟩ := hd.rows_breakPages hok₆
    rw [hdocument₆] at hrun₇ heq₇ helastic
    rw [hd₆.score, Forest.tree, Forest.branches, Forest.branches, Forest.append_nil] at helastic
    obtain ⟨d₇, hfill, hd₇⟩ := hd₆.fillLines_eq (Outcome.required_le_of_guarded hrun₇)
      (fun t ht p hp => (helastic t ht p hp).fitted) options.normalized
    rw [heq₇.trans (congrArg Outcome.document hfill)]
    have hdone : (d₆.fillLines options.normalized).fault = none := congrArg Outcome.fault hfill
    refine ⟨hd₆.endsPages_of_filledPages hd₇ hends, ?_⟩
    rw [← hstage, ← stage_fillLines hdone, hfill]

/-- Filling is exact, whatever a caller comes to, once a layout has broken its systems into pages.
Where a page has free height and gaps to take it, its last system ends where the page does, its
first stays at the top, and all gaps have grown by their weights times one share. Every other page
stays as it is. -/
theorem Reachable.fills_pages {d : Document K} (h : d.Reachable) (hfree : Unreserved d.trees.rest)
    {k : ℕ} (hk : k = 6 ∨ k = 7)
    (hok : ((Engine.ofOptions options metrics).runAll d (LayoutPass.all.take k)).fault = none)
    (o : LayoutOptions K) :
    (((Engine.ofOptions options metrics).runAll d (LayoutPass.all.take k)).document.fillPages
        o.normalized).fault = none ∧
      ((Engine.ofOptions options metrics).runAll d (LayoutPass.all.take k)).document.FillsPages
        (((Engine.ofOptions options metrics).runAll d (LayoutPass.all.take k)).document.fillPages
          o.normalized).document o.normalized := by
  have hready := ((h.ready hfree).runAll (Engine.ofOptions options metrics)
    (LayoutPass.all.take k)).2
  obtain ⟨r, pages, hshape⟩ := hready.wellFormed.exists_shape
  obtain ⟨hends, hstage⟩ := (h.ready hfree).endsPages hk hok
  exact hshape.fillsPages (hstage ▸ by decide) hends o

/-- Two systems on a page with another one behind it. -/
theorem Reachable.fills_pages_of_two_systems : ∃ (o : LayoutOptions ℚ) (d : Document ℚ),
    ∃ page page', d.FillsPage (d.fillPages o.normalized).document o.normalized page page' ∧
      (d.childNodes page.handle).length = 2 := by
  have hd := ((((((Reachable.ofDefinition (α := ℚ) default).contentSystem.add 2
    (.measure (.ofNumber 1))).add 2 .systemBreak).add 2 (.measure (.ofNumber 2))).add 2
    .pageBreak).add 2 (.measure (.ofNumber 3)))
  obtain ⟨-, hfills⟩ := hd.fills_pages (fun n hn => absurd hn List.not_mem_nil) (.inl rfl)
    (show ((Engine.ofOptions .default .default).runAll _ _).fault = none by decide +kernel) .default
  generalize hd' : ((Engine.ofOptions (.default : LayoutOptions ℚ) .default).runAll _ _).document =
    d' at hfills
  have hpages : d'.pages.map (fun page => (decide (d'.SpreadsPage
      (LayoutOptions.default : LayoutOptions ℚ).normalized page),
        (d'.childNodes page.handle).length)) = [(true, 2), (false, 1)] := by
    rw [← hd']
    decide +kernel
  have hmem : (true, 2) ∈ d'.pages.map (fun page => (decide (d'.SpreadsPage
      (LayoutOptions.default : LayoutOptions ℚ).normalized page),
        (d'.childNodes page.handle).length)) := by
    rw [hpages]
    exact List.mem_cons_self
  obtain ⟨page, hpage, heq⟩ := List.mem_map.1 hmem
  obtain ⟨hspreads, htwo⟩ := Prod.mk.inj heq
  obtain ⟨page', -, hfilled, -⟩ := exists_mem_of_forall₂ hfills.pages.flip hpage
  exact ⟨.default, d', page, page', hfilled (of_decide_eq_true hspreads), htwo⟩

end Document

end ScoreLayout
