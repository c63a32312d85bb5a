import ScoreLayout.Proofs.Content
import ScoreLayout.Proofs.Layout.JoinedSystems
import ScoreLayout.Proofs.PageBreaks

/-!
# Lone last measures

The rule for a lone last measure changes the systems in exactly one way. Where systems are broken by
their widths, and the last one holds a single measure that no written break has put there, it is
joined to the system before it: its nodes follow on those of that system, its measure is placed from
the end of the measures there, and the widths are added. In every other case the rule changes
nothing.

## Main definitions

* `LayoutOptions.HonoursBreak` — whether a break counts among what stands between two measures.
* `Document.EndsInWidow` — the last system holds a lone measure that no break has put there.
* `Document.JoinsLast` — a document in which the last two systems of another one are joined.

## Main results

* `Document.Reachable.widow_rule` — what the rule for a lone last measure changes.
-/

namespace ScoreLayout

variable {α : Type} [Scalar α]

/-- Whether a break counts in a mode that breaks by width, given the kinds of the nodes between two
measures. In smart mode a system break counts where the system is full, and takes the place of page
breaks before it where it is not. -/
def BreakMode.HonoursBreak (mode : BreakMode) (full : Prop) (between : List NodeTag) : Prop :=
  if mode = .smart then
    (.systemBreak ∈ between ∧ full) ∨
      ∃ before after, between = before ++ .pageBreak :: after ∧ .systemBreak ∉ after
  else .systemBreak ∈ between ∨ .pageBreak ∈ between

/-- Whether a break counts behind a system, given the kinds of the nodes after its last measure. -/
def LayoutOptions.HonoursBreak (o : LayoutOptions α) (s : ScoreSystem α) (between : List NodeTag) :
    Prop :=
  o.breaks.HonoursBreak
    (o.smartFill * (o.pageWidth - o.marginLeft - o.marginRight) ≤
      s.definitionWidth + s.measuresWidth) between

namespace Document

/-- There are several systems, and the last one holds a lone measure that no break has put there. -/
def EndsInWidow (d : Document α) (o : LayoutOptions α) : Prop :=
  ∃ front a b s, d.systems = front ++ [a, b] ∧ a.kind = .system s ∧
    ((d.childNodes b.handle).map Node.tag).count .measure = 1 ∧
    ¬ o.HonoursBreak s (((d.childNodes b.handle).map Node.tag).takeWhile fun t => t ≠ .measure)

/-- `d'` is `d` with its last two systems joined. -/
structure JoinsLast (d d' : Document α) : Prop where
  /-- The last system follows on the one before: its nodes behind those, its measure in its place
  behind the measures there. -/
  systems : ∃ front a b s t, d.systems = front ++ [a, b] ∧
    a.kind = .system s ∧ b.kind = .system t ∧
    d'.systems = front ++ [{ a with kind := .system { s with
      measuresWidth := s.measuresWidth + t.measuresWidth, overflow := false } }] ∧
    (∀ n ∈ front, d'.below n.handle = d.below n.handle) ∧
    d'.below a.handle = d.below a.handle ++ placeRoots s.measuresWidth (d.below b.handle)
  pages : d'.pages = d.pages
  rest : d'.trees.rest = d.trees.rest
  definition : d'.definition = d.definition
  stage : d'.stage = d.stage

end Document

/-! ### Breaks that count -/

theorem BreakMode.honoursBreak_concat (mode : BreakMode) (full : Prop) (between : List NodeTag)
    (t : NodeTag) : mode.HonoursBreak full (between ++ [t]) ↔
      (t = .systemBreak ∧ (mode = .smart → full)) ∨ t = .pageBreak ∨
        (t ≠ .systemBreak ∧ mode.HonoursBreak full between) := by
  have hsplit : (∃ before after, between ++ [t] = before ++ .pageBreak :: after ∧
      .systemBreak ∉ after) ↔ t = .pageBreak ∨ (t ≠ .systemBreak ∧
        ∃ before after, between = before ++ .pageBreak :: after ∧ .systemBreak ∉ after) := by
    constructor
    · rintro ⟨before, after, heq, hafter⟩
      rcases after.eq_nil_or_concat with rfl | ⟨after, t', rfl⟩
      · exact .inl (List.append_inj' heq rfl |>.2 |> List.singleton_inj.1)
      · rw [List.concat_eq_append, ← List.cons_append, ← List.append_assoc] at heq
        rw [List.concat_eq_append, List.mem_append, not_or] at hafter
        obtain ⟨rfl, ht⟩ := List.append_inj' heq rfl
        obtain rfl := List.singleton_inj.1 ht
        exact .inr ⟨fun ht => hafter.2 (ht ▸ List.mem_singleton_self _), before, after, rfl,
          hafter.1⟩
    · rintro (rfl | ⟨ht, before, after, rfl, hafter⟩)
      · exact ⟨between, [], rfl, List.not_mem_nil⟩
      · refine ⟨before, after ++ [t], by simp, ?_⟩
        rw [List.mem_append, List.mem_singleton]
        exact fun h => h.elim hafter fun h => ht h.symm
  rw [HonoursBreak, HonoursBreak]
  split_ifs with hmode
  · rw [hsplit]
    by_cases ht : t = .systemBreak
    · simp [ht, hmode]
    · simp [ht, Ne.symm ht]
      exact or_left_comm
  · by_cases ht : t = .systemBreak
    · simp [ht, hmode]
    · simp [ht, Ne.symm ht, eq_comm]
      rw [← or_assoc, or_comm]

section Items

variable (definition : ScoreDefinition) (metrics : GlyphMetrics α) (unit : α)

/-- The break that is due before a measure is one that counts. -/
theorem BreakRules.foldl_forces_iff {r : BreakRules α} (hr : r.byWidth) (p : SystemPlan α)
    (nodes : List (Node α)) :
    ((nodes.map (BreakItem.ofNode definition metrics unit)).foldl (r.forces p) false) = true ↔
      r.mode.HonoursBreak (r.isFull p) (nodes.map Node.tag) := by
  have hunbroken : r.mode ≠ .unbroken := fun hm => by simp [BreakRules.byWidth, hm] at hr
  induction nodes using List.reverseRecOn with
  | nil => simp [BreakMode.HonoursBreak]
  | append_singleton nodes n ih =>
    rw [List.map_append, List.map_append, List.foldl_append, List.map_singleton,
      List.map_singleton, List.foldl_cons, List.foldl_nil, BreakMode.honoursBreak_concat]
    generalize (nodes.map (BreakItem.ofNode definition metrics unit)).foldl (r.forces p) false =
      due at ih ⊢
    rw [BreakItem.ofNode, Node.tag]
    generalize r.mode.HonoursBreak (r.isFull p) (nodes.map Node.tag) = honoured at ih ⊢
    obtain rfl := propext ih
    cases n.kind <;> simp [BreakRules.forces, NodeKind.tag, hunbroken, BreakRules.honoursBreak]
    cases hmode : r.mode <;> simp_all

end Items

/-! ### The last two systems -/

namespace Document

namespace Shape

variable {D : ScoreDefinition} {r page : Node α} {made itemsA itemsB detached : Forest (Node α)}
  {rules : BreakRules α} {a b : SystemPlan α} {i j : Handle} {idA idB : String}

theorem tags_placeRoots (x : α) (f : Forest (Node α)) :
    (placeRoots x f).roots.map Node.tag = f.roots.map Node.tag :=
  (map_eq_of_forall₂ (fun _ _ h => h.tag.symm) (sameMusic_placeRoots x f).roots).symm

/-- The systems of a page whose last two are known. -/
theorem systems_last_two {d : Document α} (hd : d.Shape D r (.tree page (made ++
      (.cons (.new i idA (a.kind rules)) (placeRoots 0 itemsA)
        (.tree (.new j idB (b.kind rules)) (placeRoots 0 itemsB))))) detached) :
    d.systems = made.roots ++ [.new i idA (a.kind rules), .new j idB (b.kind rules)] ∧
      d.below i = placeRoots 0 itemsA ∧ d.below j = placeRoots 0 itemsB ∧
      ∀ t ∈ made.trees, d.below t.1.handle = t.2 := by
  refine ⟨?_, ?_, ?_, fun t ht => ?_⟩
  · rw [hd.systems_eq, Forest.tree, Forest.branches, Forest.branches, Forest.append_nil,
      Forest.roots_append]
    rfl
  · exact hd.below_eq (n := .new i idA (a.kind rules))
      (.deeper .nil ((Forest.HasTree.here _).append_right made))
  · exact hd.below_eq (n := .new j idB (b.kind rules))
      (.deeper .nil ((Forest.HasTree.beside _ _ (.here _)).append_right made))
  · refine hd.below_eq (.deeper .nil (Forest.hasTree_of_mem_trees ?_))
    rw [Forest.trees_append]
    exact List.mem_append_left _ ht

/-- The systems of a page whose last one is known. -/
theorem systems_last {d : Document α} (hd : d.Shape D r (.tree page (made ++
      .tree (.new i idA (a.kind rules)) (placeRoots 0 itemsA))) detached) :
    d.systems = made.roots ++ [.new i idA (a.kind rules)] ∧ d.below i = placeRoots 0 itemsA ∧
      ∀ t ∈ made.trees, d.below t.1.handle = t.2 := by
  refine ⟨?_, ?_, fun t ht => ?_⟩
  · rw [hd.systems_eq, Forest.tree, Forest.branches, Forest.branches, Forest.append_nil,
      Forest.roots_append]
    rfl
  · exact hd.below_eq (n := .new i idA (a.kind rules))
      (.deeper .nil ((Forest.HasTree.here _).append_right made))
  · refine hd.below_eq (.deeper .nil (Forest.hasTree_of_mem_trees ?_))
    rw [Forest.trees_append]
    exact List.mem_append_left _ ht

/-- One run makes two systems where the other makes one of them. -/
theorem joinsLast {d d' : Document α} (hd : d.Shape D r (.tree page (made ++
      (.cons (.new i idA (a.kind rules)) (placeRoots 0 itemsA)
        (.tree (.new j idB (b.kind rules)) (placeRoots 0 itemsB))))) detached)
    (hd' : d'.Shape D r (.tree page (made ++
      .tree (.new i idA ((a.join b).kind rules)) (placeRoots 0 (itemsA ++ itemsB)))) detached)
    (hstage : d'.stage = d.stage) (hwidth : a.measuresWidth = totalWidth itemsA.roots)
    (hmeasures : a.measures ≠ []) (hlone : b.measures.length = 1) : d.JoinsLast d' := by
  obtain ⟨hsystems, hbelowA, hbelowB, hbelow⟩ := hd.systems_last_two
  obtain ⟨hsystems', hbelowJ, hbelow'⟩ := hd'.systems_last
  have hfits : rules.overflows (a.join b) = false := by
    have hlength : (a.join b).measures.length ≠ 1 := by
      have := List.length_pos_iff.2 hmeasures
      simp only [SystemPlan.join, List.length_append, hlone]
      omega
    rw [BreakRules.overflows]
    cases rules.available <;> simp [hlength]
  refine ⟨⟨made.roots, _, _, _, _, hsystems, rfl, rfl, ?_, fun n hn => ?_, ?_⟩, ?_, ?_, ?_, hstage⟩
  · rw [hsystems', SystemPlan.kind, hfits]
    rfl
  · rw [← Forest.map_fst_trees] at hn
    obtain ⟨t, ht, rfl⟩ := List.mem_map.1 hn
    rw [hbelow t ht, hbelow' t ht]
  · show d'.below i = d.below i ++ placeRoots a.measuresWidth (d.below j)
    rw [hbelowA, hbelowB, hbelowJ, placeRoots_append, placeRoots_placeRoots, hwidth]
    rfl
  · rw [hd.pages_eq, hd'.pages_eq]
    rfl
  · rw [hd.rest, hd'.rest]
  · rw [hd.definition, hd'.definition]

/-- Whether the last system holds a lone measure that no break has put there, read off its plan. -/
theorem endsInWidow_iff {o : LayoutOptions α} (hmode : o.breakRules.byWidth) {d : Document α}
    (hd : d.Shape D r (.tree page (made ++
      (.cons (.new i idA (a.kind rules)) (placeRoots 0 itemsA)
        (.tree (.new j idB (b.kind rules)) (placeRoots 0 itemsB))))) detached)
    {metrics : GlyphMetrics α} {unit : α} {between rest : List (BreakItem α)} {h : Handle}
    {width : α} {opening : Bool → α}
    (hitems : itemsB.roots.map (BreakItem.ofNode D metrics unit) =
      between ++ .measure h width opening :: rest)
    (hbetween : between.filterMap BreakItem.measure? = [])
    (hmeasures : b.measures = ((between ++ .measure h width opening :: rest).filter
      BreakItem.isMeasure).map BreakItem.handle)
    (hforced : b.forced = between.foldl (o.breakRules.forces a) false) :
    d.EndsInWidow o ↔ b.measures.length = 1 ∧ ¬ b.forced := by
  obtain ⟨hsystems, -, hbelow, -⟩ := hd.systems_last_two
  have htags : (d.childNodes j).map Node.tag = itemsB.roots.map Node.tag := by
    rw [childNodes, hbelow, tags_placeRoots]
  -- the nodes before the first measure of the last system
  obtain ⟨nodes, others, hroots, rfl, hothers⟩ := List.map_eq_append_iff.1 hitems
  obtain ⟨measure, after, rfl, hmeasure, -⟩ := List.map_eq_cons_iff.1 hothers
  have htag : measure.tag = .measure := by
    by_contra hne
    have hnone := (BreakItem.measure?_ofNode_eq_none D metrics unit).2 hne
    rw [hmeasure] at hnone
    cases hnone
  have hwaiting : ∀ t ∈ nodes.map Node.tag, t ≠ .measure := by
    intro t ht
    obtain ⟨n, hn, rfl⟩ := List.mem_map.1 ht
    exact (BreakItem.measure?_ofNode_eq_none D metrics unit).1
      (List.filterMap_eq_nil_iff.1 hbetween _ (List.mem_map_of_mem hn))
  have hfirst : ((d.childNodes j).map Node.tag).takeWhile (fun t => t ≠ .measure) =
      nodes.map Node.tag := by
    rw [htags, hroots, List.map_append, List.map_cons, List.takeWhile_append_of_pos
      (by simpa using hwaiting), htag, List.takeWhile_cons_of_neg (by simp), List.append_nil]
  have hcount : ((d.childNodes j).map Node.tag).count .measure = b.measures.length := by
    have hisMeasure (n : Node α) :
        (BreakItem.ofNode D metrics unit n).isMeasure = decide (n.tag = .measure) := by
      rw [BreakItem.isMeasure, BreakItem.measure?_ofNode, Node.tag]
      cases n.kind <;> simp [NodeKind.measure?, NodeKind.tag]
    rw [htags, hmeasures, List.length_map, ← hitems, List.filter_map, List.length_map, List.count,
      List.countP_map, List.countP_eq_length_filter]
    congr 2
    funext n
    exact (hisMeasure n).symm
  have hhonours : b.forced ↔ o.HonoursBreak
      { ScoreSystem.empty with
        definitionWidth := a.definitionWidth, measuresWidth := a.measuresWidth
        overflow := rules.overflows a } (nodes.map Node.tag) := by
    rw [hforced, BreakRules.foldl_forces_iff D metrics unit hmode, LayoutOptions.HonoursBreak]
    have hbreaks : o.breaks ≠ .unbroken := fun hm => by
      simp [BreakRules.byWidth, LayoutOptions.breakRules, hm] at hmode
    rw [BreakRules.isFull, LayoutOptions.breakRules, LayoutOptions.contentWidth?, if_neg hbreaks]
    dsimp only
    rw [decide_eq_true_iff]
  rw [EndsInWidow, hsystems]
  constructor
  · rintro ⟨front, a', b', s, heq, hs, hlone, hhonoured⟩
    obtain ⟨-, hlast⟩ := List.append_inj' heq rfl
    obtain ⟨rfl, hb⟩ := List.cons.inj hlast
    obtain rfl := List.singleton_inj.1 hb
    obtain rfl := NodeKind.system.inj hs
    exact ⟨hcount.symm.trans hlone, fun hf => hhonoured (hfirst.symm ▸ hhonours.1 hf)⟩
  · rintro ⟨hlone, hcalm⟩
    exact ⟨_, _, _, _, rfl, rfl, hcount.trans hlone, fun hh => hcalm (hhonours.2 (hfirst ▸ hh))⟩

end Shape

/-- Breaking into systems is the same where the same systems are planned. -/
theorem breakSystems_congr {D : ScoreDefinition} {r page system : Node α}
    {content detached : Forest (Node α)} {d d₁ : Document α} (hok : d.unbreak? = .ok d₁)
    (hd₁ : d₁.Shape D r (.tree page (.tree system content)) detached)
    (hid : system.id = contentSystemId) {o o' : LayoutOptions α} {metrics : GlyphMetrics α}
    (hrules : o.breakRules.overflows = o'.breakRules.overflows)
    (hplans : Shape.systemPlans D o metrics content = Shape.systemPlans D o' metrics content) :
    d.breakSystems o metrics = d.breakSystems o' metrics := by
  have hcontent : d.breakContent o metrics = d.breakContent o' metrics := by
    rw [Shape.breakContent_eq hok hd₁ hid, Shape.breakContent_eq hok hd₁ hid, hplans]
    simp only [emitSystems_congr hrules]
  rw [Document.breakSystems, Document.breakSystems, Outcome.guarded, Outcome.guarded]
  split <;> simp only [hcontent]

/-- The rule for a lone last measure plans the same systems or joins the last two. -/
theorem systemPlans_noWidow (D : ScoreDefinition) (o : LayoutOptions α) (metrics : GlyphMetrics α)
    (content : Forest (Node α)) :
    Shape.systemPlans D { o with noWidow := true } metrics content =
      if o.breakRules.byWidth then
        joinWidow (Shape.systemPlans D { o with noWidow := false } metrics content)
      else Shape.systemPlans D { o with noWidow := false } metrics content := by
  have hrules : LayoutOptions.breakRules { o with noWidow := true } =
      { o.breakRules with noWidow := true } := rfl
  have hrules' : LayoutOptions.breakRules { o with noWidow := false } =
      { o.breakRules with noWidow := false } := rfl
  have hstep : Breaking.step { o.breakRules with noWidow := true } =
      Breaking.step { o.breakRules with noWidow := false } := rfl
  rw [Shape.systemPlans, Shape.systemPlans, hrules, hrules', planSystems, planSystems, hstep]
  simp only [Bool.false_eq_true, false_and, if_false, true_and]
  rfl

/-- The rule for a lone last measure joins the last two systems or changes nothing. -/
theorem WellFormed.joinsLast_or_eq {d : Document α} (hd : d.WellFormed)
    (hfree : Unreserved d.trees.rest) (hs : .spaced ≤ d.stage) (o : LayoutOptions α)
    (metrics : GlyphMetrics α) :
    (o.breakRules.byWidth ∧
        (d.breakSystems { o with noWidow := false } metrics).document.EndsInWidow o →
      (d.breakSystems { o with noWidow := false } metrics).document.JoinsLast
        (d.breakSystems { o with noWidow := true } metrics).document) ∧
    (¬ (o.breakRules.byWidth ∧
        (d.breakSystems { o with noWidow := false } metrics).document.EndsInWidow o) →
      d.breakSystems { o with noWidow := true } metrics =
        d.breakSystems { o with noWidow := false } metrics) := by
  obtain ⟨r, pages, hshape⟩ := hd.exists_shape
  obtain ⟨page, system, d₁, hok, hd₁, hpage, -, hids⟩ := hshape.unbreak?
  obtain ⟨-, hid⟩ := hids hfree
  have hplans := systemPlans_noWidow d.definition o metrics d.content
  have hsame (heq : Shape.systemPlans d.definition { o with noWidow := true } metrics d.content =
      Shape.systemPlans d.definition { o with noWidow := false } metrics d.content) :
      d.breakSystems { o with noWidow := true } metrics =
        d.breakSystems { o with noWidow := false } metrics :=
    breakSystems_congr hok hd₁ hid rfl heq
  by_cases hmode : o.breakRules.byWidth
  swap
  · rw [if_neg hmode] at hplans
    exact ⟨fun h => absurd h.1 hmode, fun _ => hsame hplans⟩
  rw [if_pos hmode] at hplans
  have hstep : Step.systemBreaking.required ≤ d.stage := hs
  -- what a run makes of the plans
  have hrun {options : LayoutOptions α} {plans : List (SystemPlan α)} {marks : List Mark}
      {d₂ : Document α} (hrules : options.breakRules.overflows = o.breakRules.overflows)
      (hplans : Shape.systemPlans d.definition options metrics d.content = plans)
      (h : emitSystems o.breakRules page.handle 1 [] d₁ plans = .ok (marks, d₂)) :
      (d.breakSystems options metrics).document =
        { d₂.destroy system.handle with stage := .systems } := by
    rw [Document.breakSystems, Outcome.guarded_of_le hstep, Shape.breakContent_eq hok hd₁ hid,
      hplans, emitSystems_congr hrules, h]
    rfl
  generalize hitems : d.content.roots.map
    (BreakItem.ofNode d.definition metrics o.scaledUnit) = items
  have hfinish : Shape.systemPlans d.definition { o with noWidow := false } metrics d.content =
      (items.foldl (Breaking.step o.breakRules) .start).finish := by
    rw [← hitems]
    rfl
  have hsubset : ∀ p ∈ Shape.systemPlans d.definition { o with noWidow := false } metrics d.content,
      p.measures ⊆ p.nodes := measures_subset_planSystems _ _
  rw [hfinish] at hplans hsubset
  rcases Breaking.exists_last_two o.breakRules items with hshort | ⟨front, a, b, before, itemsA,
    between, h, width, opening, rest, htwo, rfl, hfront, ⟨_, ha⟩, hmeasures, ⟨_, hb⟩, hbetween,
    hforced⟩
  · -- a single system is no last one behind others
    rw [joinWidow_of_length_le hshort, ← hfinish] at hplans
    refine ⟨fun hwidow => ?_, fun _ => hsame hplans⟩
    obtain ⟨systems, d', hbroken, hd', -, hsystems⟩ := Shape.breakContent_of_unbreak? hok hd₁ hid
      { o with noWidow := false } metrics
    have hdocument : (d.breakSystems { o with noWidow := false } metrics).document = d' := by
      rw [Document.breakSystems, Outcome.guarded_of_le hstep, hbroken]
      rfl
    obtain ⟨front, a, b, -, htwo, -⟩ := hdocument ▸ hwidow.2
    have hlength := hsystems.length_le
    rw [hfinish] at hlength
    rw [hd'.systems_eq, Forest.tree, Forest.branches, Forest.branches, Forest.append_nil] at htwo
    rw [htwo, List.length_append] at hlength
    have : [a, b].length = 2 := rfl
    omega
  · rw [htwo, joinWidow_concat] at hplans
    -- the nodes of the last two systems, and those before them
    obtain ⟨nodesBA, nodesB, hcontent, hnodesBA, hnodesB⟩ := exists_append_of_roots _ hitems
    obtain ⟨nodesBefore, nodesA, rfl, hnodesBefore, hnodesA⟩ := exists_append_of_roots _ hnodesBA
    rw [Forest.append_assoc] at hcontent
    have hhandles {nodes : List (Node α)} {items : List (BreakItem α)}
        (h : nodes.map (BreakItem.ofNode d.definition metrics o.scaledUnit) = items) :
        nodes.map Node.handle = items.map BreakItem.handle := by
      rw [← h, List.map_map]
      exact List.map_congr_left fun n _ => (BreakItem.handle_ofNode ..).symm
    have hall : d₁.Shape d.definition r (.tree page (.tree system
        (nodesBefore ++ (nodesA ++ nodesB)))) d.trees.rest := hcontent ▸ hd₁
    obtain ⟨made, i, j, idA, idB, marks, marks', dA, dB, hrunA, hrunB, hdA, hdB, -⟩ :=
      Shape.exists_joined o.breakRules hpage hall (hfront.trans (hhandles hnodesBefore).symm)
        (fun p hp => hsubset p (by rw [htwo]; exact List.mem_append_left _ hp))
        ((hhandles hnodesA).trans ha.nodes.symm) ((hhandles hnodesB).trans hb.nodes.symm)
        (fun hnil => hmeasures (List.eq_nil_of_subset_nil
          (hnil ▸ hsubset a (by rw [htwo]; exact List.mem_append_right _ List.mem_cons_self))))
        (by simp [hb.nodes])
    have hsystems := hdA.destroy_content
    -- both runs, by what they plan
    have hfirst : (d.breakSystems { o with noWidow := false } metrics).document =
        { dA.destroy system.handle with stage := .systems } :=
      hrun rfl (hfinish.trans htwo) hrunA
    have hiff := hsystems.endsInWidow_iff hmode hnodesB hbetween hb.measures hforced
    rw [hfirst, hiff]
    refine ⟨fun h => ?_, fun hlone => hsame ?_⟩
    · have hlone := h.2
      have hsecond : (d.breakSystems { o with noWidow := true } metrics).document =
          { dB.destroy system.handle with stage := .systems } :=
        hrun rfl (hplans.trans (if_pos hlone)) hrunB
      rw [hsecond]
      refine hsystems.joinsLast hdB.destroy_content rfl ?_ hmeasures hlone.1
      rw [ha.width, ← hnodesA, sum_measure?_ofNode]
    · rw [hplans, if_neg fun h => hlone ⟨hmode, h⟩, ← htwo, hfinish]

/-- The rule for a lone last measure changes the systems in one way. Where systems are broken by
their widths, and the last one holds a lone measure that no break has put there, it is joined to the
one before it. In every other case the rule changes nothing. -/
theorem Reachable.widow_rule {d : Document α} (h : d.Reachable) (hfree : Unreserved d.trees.rest)
    (hs : .spaced ≤ d.stage) (o : LayoutOptions α) (metrics : GlyphMetrics α) :
    (d.breakSystems { o with noWidow := false } metrics).fault = none ∧
      (d.breakSystems { o with noWidow := true } metrics).fault = none ∧
      ((o.breaks = .auto ∨ o.breaks = .line ∨ o.breaks = .smart) ∧
          (d.breakSystems { o with noWidow := false } metrics).document.EndsInWidow o →
        (d.breakSystems { o with noWidow := false } metrics).document.JoinsLast
          (d.breakSystems { o with noWidow := true } metrics).document) ∧
      (¬ ((o.breaks = .auto ∨ o.breaks = .line ∨ o.breaks = .smart) ∧
          (d.breakSystems { o with noWidow := false } metrics).document.EndsInWidow o) →
        d.breakSystems { o with noWidow := true } metrics =
          d.breakSystems { o with noWidow := false } metrics) := by
  have hmode : o.breakRules.byWidth ↔ o.breaks = .auto ∨ o.breaks = .line ∨ o.breaks = .smart := by
    rw [BreakRules.byWidth, decide_eq_true_iff]
    rfl
  have hfault (options : LayoutOptions α) : (d.breakSystems options metrics).fault = none := by
    obtain ⟨_, _, _, _, _, hdone, -⟩ := h.wellFormed.exists_breakSystems hfree hs options metrics
    rw [hdone]
    rfl
  have hrule := h.wellFormed.joinsLast_or_eq hfree hs o metrics
  rw [hmode] at hrule
  exact ⟨hfault _, hfault _, hrule⟩

/-- Three measures of which two have room in a system. -/
theorem Reachable.widow_rule_of_three_measures : ∃ (d : Document Float) (o : LayoutOptions Float),
    (d.breakSystems { o with noWidow := false } .default).fault = none ∧
      (d.breakSystems { o with noWidow := false } .default).document.systems.length = 2 ∧
      (d.breakSystems { o with noWidow := false } .default).document.JoinsLast
        (d.breakSystems { o with noWidow := true } .default).document := by
  have hd := (((Reachable.ofDefinition (α := Float) default).contentSystem.add 2
    (.measure (.ofNumber 1))).add 2 (.measure (.ofNumber 2))).add 2 (.measure (.ofNumber 3))
  have hprepared := hd.pass .default .prepare (by decide +kernel)
  have haligned := hprepared.pass .default .align (by decide +kernel)
  have hspaced := haligned.pass .default .space (by decide +kernel)
  obtain ⟨hfault, -, hjoins, -⟩ := hspaced.widow_rule (fun n hn => absurd hn List.not_mem_nil)
    (by decide +kernel) { LayoutOptions.default with pageWidth := 230 } .default
  refine ⟨_, _, hfault, by decide +kernel, hjoins ⟨.inl rfl, ?_⟩⟩
  -- the last system holds a measure and nothing else
  generalize hbroken : (breakSystems (α := Float) _ _ _).document = d
  have htwo : d.systems.length = 2 := by
    rw [← hbroken]
    decide +kernel
  have hlast : d.systems.getLast?.map (fun b => (d.childNodes b.handle).map Node.tag) =
      some [.measure] := by
    rw [← hbroken]
    decide +kernel
  have htags : d.systems.map Node.tag = [.system, .system] := by
    rw [← hbroken]
    decide +kernel
  obtain ⟨a, b, hab⟩ := List.length_eq_two.1 htwo
  rw [hab] at hlast htags
  obtain ⟨s, hs⟩ : ∃ s, a.kind = .system s := NodeKind.exists_of_system (List.cons.inj htags).1
  have hchildren : (d.childNodes b.handle).map Node.tag = [.measure] := Option.some.inj hlast
  refine ⟨[], a, b, s, hab, hs, by rw [hchildren]; rfl, ?_⟩
  rw [hchildren, LayoutOptions.HonoursBreak]
  simp [BreakMode.HonoursBreak, LayoutOptions.default]

end Document

end ScoreLayout
