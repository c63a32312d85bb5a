import Mathlib.Data.List.Induction
import ScoreLayout.Proofs.Layout.GreedyPlans
import ScoreLayout.Proofs.Layout.SystemEmission

/-!
# Systems made from left to right

What the left-to-right pass decides is read off the systems that come out of it. The plans of a pass
are made of items and the systems of nodes, in the same order, so the system that a state of the
pass is filling can be found among the systems that are made in the end.

## Main definitions

* `Forest.placements` — the children of trees, each with its tree.
* `totalWidth` — the widths of the measures among nodes.
* `Filling` — the system that a state of the pass is filling.

## Main results

* `SystemsOf.exists_of_mem_trees` — the plan behind a system, and what it is made of.
* `ne_iff_opens` — whether a measure and the one before it are in two systems.
-/

namespace ScoreLayout

variable {α : Type}

namespace Forest

variable {β : Type}

/-- The labels directly below the trees, each with the label of its tree. -/
def placements (f : Forest β) : List (β × β) :=
  f.trees.flatMap fun t => t.2.roots.map fun b => (t.1, b)

theorem map_snd_placements (f : Forest β) : f.placements.map Prod.snd = f.branches.roots := by
  induction f with
  | nil => rfl
  | cons b children siblings _ hs =>
    rw [placements, trees, List.flatMap_cons, ← placements, List.map_append, hs, branches,
      roots_append, List.map_map]
    exact congrArg (· ++ siblings.branches.roots) (List.map_id children.roots)

end Forest

/-! ### Measures among nodes -/

variable [Scalar α]

omit [Scalar α] in
theorem NodeKind.measure?_eq_some_iff {k : NodeKind α} {m : Measure α} :
    k.measure? = some m ↔ k = .measure m := by
  cases k <;> simp [measure?]

omit [Scalar α] in
theorem NodeKind.measure?_eq_none {k : NodeKind α} (hk : k.tag ≠ .measure) : k.measure? = none := by
  cases k <;> simp_all [tag, measure?]

/-- The width of a measure. -/
def Node.measureWidth? (n : Node α) : Option α := n.kind.measure?.map Measure.width

/-- Whether a break is written. -/
def Node.IsBreak (n : Node α) : Prop := n.tag = .systemBreak ∨ n.tag = .pageBreak

/-- A node without its place in the system. -/
def Node.unplaced (n : Node α) : Node α :=
  n.mapKind (.mapMeasure fun m => { m with x := 0 })

/-- The widths of the measures among nodes, added from left to right. -/
def totalWidth (nodes : List (Node α)) : α := Scalar.sum (nodes.filterMap Node.measureWidth?)

/-- What is no measure has no width. -/
theorem Node.measureWidth?_eq_none {n : Node α} (hn : n.tag ≠ .measure) :
    n.measureWidth? = none := by
  rw [measureWidth?, NodeKind.measure?_eq_none hn, Option.map_none]

theorem filterMap_measureWidth?_append {nodes after : List (Node α)} {n : Node α} {m : Measure α}
    (hn : n.kind = .measure m) (hafter : ∀ c ∈ after, c.tag ≠ .measure) :
    (nodes ++ n :: after).filterMap Node.measureWidth? =
      nodes.filterMap Node.measureWidth? ++ [m.width] := by
  have hnone : after.filterMap Node.measureWidth? = [] :=
    List.filterMap_eq_nil_iff.2 fun c hc => Node.measureWidth?_eq_none (hafter c hc)
  have hsome : n.measureWidth? = some m.width := by
    rw [Node.measureWidth?, NodeKind.measure?_eq_some_iff.2 hn, Option.map_some]
  rw [List.filterMap_append, List.filterMap_cons_some hsome, hnone]

/-- The last measure among nodes. -/
theorem exists_last_measure (nodes : List (Node α))
    (h : nodes.filterMap Node.measureWidth? ≠ []) : ∃ before n after m,
      nodes = before ++ n :: after ∧ n.kind = .measure m ∧ ∀ c ∈ after, c.tag ≠ .measure := by
  induction nodes using List.reverseRecOn with
  | nil => exact absurd rfl h
  | append_singleton nodes n ih =>
    by_cases hn : n.tag = .measure
    · obtain ⟨m, hm⟩ := NodeKind.exists_of_measure hn
      exact ⟨nodes, n, [], m, rfl, hm, fun _ hc => absurd hc List.not_mem_nil⟩
    · rw [List.filterMap_append, List.filterMap_cons_none (Node.measureWidth?_eq_none hn),
        List.filterMap_nil, List.append_nil] at h
      obtain ⟨before, n', after, m, rfl, hm, hafter⟩ := ih h
      refine ⟨before, n', after ++ [n], m, by simp, hm, fun c hc => ?_⟩
      rcases List.mem_append.1 hc with hc | hc
      · exact hafter c hc
      · exact List.mem_singleton.1 hc ▸ hn

/-- What the system of a measure holds up to there. -/
def held (front : List (Node α × Node α)) (last : Node α × Node α) : List (Node α) :=
  ((front ++ [last]).filter fun p => p.1.handle = last.1.handle).map Prod.snd

/-! ### Nodes as items -/

section Items

variable (definition : ScoreDefinition) (metrics : GlyphMetrics α) (unit : α)

theorem BreakItem.measure?_ofNode (n : Node α) :
    (ofNode definition metrics unit n).measure? = n.kind.measure?.map fun m =>
      (m.width, definitionWidth definition metrics unit m.signatures) := by
  rw [ofNode]
  cases n.kind <;> rfl

theorem BreakItem.ofNode_measure {n : Node α} {m : Measure α} (hn : n.kind = .measure m) :
    ofNode definition metrics unit n =
      .measure n.handle m.width (definitionWidth definition metrics unit m.signatures) := by
  rw [ofNode, hn]

theorem BreakItem.isBreak_ofNode (n : Node α) :
    (ofNode definition metrics unit n).IsBreak ↔ n.IsBreak := by
  rw [ofNode, Node.IsBreak, Node.tag]
  cases n.kind <;> simp [BreakItem.IsBreak, NodeKind.tag]

/-- Breaking does not look at the places of measures. -/
theorem BreakItem.ofNode_unplaced (n : Node α) :
    ofNode definition metrics unit n.unplaced = ofNode definition metrics unit n := by
  rw [ofNode, ofNode, Node.unplaced, Node.mapKind]
  cases n.kind <;> rfl

theorem BreakItem.map_ofNode_of_unplaced {nodes nodes' : List (Node α)}
    (h : nodes.map Node.unplaced = nodes'.map Node.unplaced) :
    nodes.map (ofNode definition metrics unit) = nodes'.map (ofNode definition metrics unit) := by
  have hunplaced (nodes : List (Node α)) : nodes.map (ofNode definition metrics unit) =
      (nodes.map Node.unplaced).map (ofNode definition metrics unit) := by
    rw [List.map_map]
    exact List.map_congr_left fun n _ => (ofNode_unplaced ..).symm
  rw [hunplaced, h, ← hunplaced]

theorem filterMap_measure?_ofNode (nodes : List (Node α)) :
    (nodes.map (BreakItem.ofNode definition metrics unit)).filterMap BreakItem.measure? =
      (nodes.filterMap fun n => n.kind.measure?).map fun m =>
        (m.width, definitionWidth definition metrics unit m.signatures) := by
  rw [List.filterMap_map, List.map_filterMap]
  exact List.filterMap_congr fun n _ => BreakItem.measure?_ofNode ..

theorem sum_measure?_ofNode (nodes : List (Node α)) :
    Scalar.sum (((nodes.map (BreakItem.ofNode definition metrics unit)).filterMap
      BreakItem.measure?).map Prod.fst) = totalWidth nodes := by
  rw [totalWidth, filterMap_measure?_ofNode, List.map_map]
  exact congrArg Scalar.sum (List.map_filterMap ..)

end Items

/-! ### Measures in their places -/

theorem roots_placeRoots : (x : α) → (f : Forest (Node α)) →
    (placeRoots x f).roots.map Node.unplaced = f.roots.map Node.unplaced
  | _, .nil => rfl
  | x, .cons n below siblings => by
      rw [placeRoots]
      split
      · rw [Forest.roots, List.map_cons, roots_placeRoots, Forest.roots, List.map_cons,
          List.cons.injEq]
        refine ⟨?_, rfl⟩
        rw [Node.unplaced, Node.unplaced, Node.mapKind, Node.mapKind, Node.mapKind]
        cases n.kind <;> rfl
      · rw [Forest.roots, List.map_cons, roots_placeRoots, Forest.roots, List.map_cons]

/-- Each measure begins where those before it end. -/
theorem x_of_placeRoots : (x : α) → (f : Forest (Node α)) → {before after : List (Node α)} →
    {c : Node α} → {m : Measure α} → (placeRoots x f).roots = before ++ c :: after →
      c.kind = .measure m → m.x = (before.filterMap Node.measureWidth?).foldl (· + ·) x
  | _, .nil, _, _, _, _, h, _ => by simp [placeRoots, Forest.roots] at h
  | x, .cons n below siblings, before, after, c, m, h, hc => by
      rw [placeRoots] at h
      cases hm : n.kind.measure? with
      | some m' =>
        have hkind : n.kind = .measure m' := NodeKind.measure?_eq_some_iff.1 hm
        rw [hm] at h
        cases before with
        | nil =>
          obtain rfl := (List.cons.inj h).1
          rw [Node.mapKind, hkind, NodeKind.mapMeasure, NodeKind.measure.injEq] at hc
          rw [← hc]
          rfl
        | cons b before =>
          obtain ⟨rfl, hrest⟩ := List.cons.inj h
          have hwidth : (n.mapKind (.mapMeasure fun m => { m with x })).measureWidth? =
              some m'.width := by
            rw [Node.measureWidth?, Node.mapKind, hkind]
            rfl
          rw [x_of_placeRoots _ siblings hrest hc, List.filterMap_cons_some hwidth,
            List.foldl_cons]
      | none =>
        rw [hm] at h
        cases before with
        | nil =>
          obtain rfl := (List.cons.inj h).1
          rw [hc] at hm
          cases hm
        | cons b before =>
          obtain ⟨rfl, hrest⟩ := List.cons.inj h
          have hwidth : n.measureWidth? = none := by rw [Node.measureWidth?, hm, Option.map_none]
          rw [x_of_placeRoots _ siblings hrest hc, List.filterMap_cons_none hwidth]

/-! ### Systems and their plans -/

namespace SystemsOf

variable {rules : BreakRules α} {used : List String} {k : Nat} {plans : List (SystemPlan α)}
  {content systems : Forest (Node α)}

theorem map_unplaced (h : SystemsOf rules used k plans content systems) :
    systems.branches.roots.map Node.unplaced = content.roots.map Node.unplaced := by
  induction h with
  | nil => rfl
  | skip _ _ ih => exact ih
  | cons _ _ _ _ ih =>
    rw [Forest.branches, Forest.roots_append, List.map_append, ih, roots_placeRoots,
      Forest.roots_append, List.map_append]

/-- The system that a plan makes, between those before and those after it. -/
theorem exists_placements (h : SystemsOf rules used k plans content systems)
    (hnodup : (systems.roots.map Node.handle).Nodup) {front back : List (SystemPlan α)}
    {p : SystemPlan α} (hplans : plans = front ++ p :: back) (hp : p.nodes ≠ []) :
    ∃ system before own after, systems.placements = before ++ own ++ after ∧
      system ∈ systems.roots ∧ system.kind = p.kind rules ∧ (∀ q ∈ own, q.1 = system) ∧
      (∀ q ∈ before, q.1.handle ≠ system.handle) ∧
      before.map (fun q => q.2.handle) = front.flatMap SystemPlan.nodes ∧
      own.map (fun q => q.2.handle) = p.nodes := by
  have hroots (taken : Forest (Node α)) (s : Node α) :
      ((placeRoots 0 taken).roots.map fun n => (s, n)).map (fun q => q.2.handle) =
        taken.roots.map Node.handle := by
    rw [List.map_map]
    exact (map_eq_of_forall₂ (fun a b hab => hab.handle.symm) (sameMusic_placeRoots 0 taken).roots).symm
  induction h generalizing front with
  | nil => simp at hplans
  | skip hnil _ ih =>
    cases front with
    | nil =>
      obtain ⟨rfl, -⟩ := List.cons.inj hplans
      exact absurd hnil hp
    | cons q front =>
      obtain ⟨rfl, hrest⟩ := List.cons.inj hplans
      obtain ⟨system, before, own, after, h₁, hmem, h₂, h₃, h₄, h₅, h₆⟩ := ih hnodup hrest
      exact ⟨system, before, own, after, h₁, hmem, h₂, h₃, h₄,
        by rw [h₅, List.flatMap_cons, hnil, List.nil_append], h₆⟩
  | @cons used k q plans taken content systems i hne htaken _ ih =>
    rw [Forest.roots, List.map_cons, List.nodup_cons] at hnodup
    have hplacements : (Forest.cons (.new i (systemId used k) (q.kind rules)) (placeRoots 0 taken)
        systems).placements = (placeRoots 0 taken).roots.map
          (fun n => (.new i (systemId used k) (q.kind rules), n)) ++ systems.placements := rfl
    rw [hplacements]
    cases front with
    | nil =>
      obtain ⟨rfl, -⟩ := List.cons.inj hplans
      refine ⟨.new i (systemId used k) (q.kind rules), [], _, systems.placements, rfl,
        List.mem_cons_self, rfl, ?_,
        fun q hq => absurd hq List.not_mem_nil, rfl, (hroots taken _).trans htaken⟩
      intro q hq
      obtain ⟨n, -, rfl⟩ := List.mem_map.1 hq
      rfl
    | cons q' front =>
      obtain ⟨rfl, hrest⟩ := List.cons.inj hplans
      obtain ⟨system, before, own, after, h₁, hmem, h₂, h₃, h₄, h₅, h₆⟩ := ih hnodup.2 hrest
      refine ⟨system, (placeRoots 0 taken).roots.map
          (fun n => (.new i (systemId used k) (q.kind rules), n)) ++ before, own, after,
        by rw [h₁]; simp, List.mem_cons_of_mem _ hmem, h₂, h₃, ?_, ?_, h₆⟩
      · intro q' hq' heq
        rcases List.mem_append.1 hq' with hq' | hq'
        · obtain ⟨n, -, rfl⟩ := List.mem_map.1 hq'
          exact hnodup.1 (List.mem_map.2 ⟨system, hmem, heq.symm⟩)
        · exact h₄ q' hq' heq
      · rw [List.map_append, hroots, htaken, h₅, List.flatMap_cons]

/-- Every system is made of the items that stand in it. -/
theorem exists_of_mem_trees (h : SystemsOf rules used k plans content systems)
    (hnodup : (systems.roots.map Node.handle).Nodup) (hne : ∀ p ∈ plans, p.nodes ≠ [])
    {definition : ScoreDefinition} {metrics : GlyphMetrics α} {unit : α} {withMeter : Bool}
    {chunks : List (List (BreakItem α))} (hplans : PlansOf withMeter plans chunks)
    (hitems : chunks.flatten = content.roots.map (BreakItem.ofNode definition metrics unit)) :
    ∀ t ∈ systems.trees, ∃ p taken, t.1.kind = SystemPlan.kind rules p ∧ t.2 = placeRoots 0 taken ∧
      p.Of (withMeter && systems.roots.head?.any (Document.hasHandle t.1.handle))
        (taken.roots.map (BreakItem.ofNode definition metrics unit)) := by
  induction h generalizing withMeter chunks with
  | nil => exact fun t ht => absurd ht List.not_mem_nil
  | skip hnil => exact absurd hnil (hne _ List.mem_cons_self)
  | @cons used k p plans taken content systems i _ htaken _ ih =>
    cases hplans with
    | @cons _ _ _ items chunks plan rest =>
      rw [Forest.roots, List.map_cons, List.nodup_cons] at hnodup
      rw [List.flatten_cons, Forest.roots_append, List.map_append] at hitems
      obtain ⟨rfl, hrest⟩ := List.append_inj hitems (by
        rw [List.length_map, ← List.length_map BreakItem.handle, ← plan.nodes, ← htaken,
          List.length_map])
      rintro t ht
      rcases List.mem_cons.1 ht with rfl | ht
      · refine ⟨p, taken, rfl, rfl, ?_⟩
        have hself : (Forest.cons (.new i (systemId used k) (p.kind rules)) (placeRoots 0 taken)
            systems).roots.head?.any (Document.hasHandle (.new i (systemId used k)
              (p.kind rules) : Node α).handle) = true := by
          simp [Forest.roots, Document.hasHandle]
        rw [hself, Bool.and_true]
        exact plan
      · obtain ⟨q, taken', hkind, hbelow, hq⟩ :=
          ih hnodup.2 (fun q hq => hne q (List.mem_cons_of_mem _ hq)) rest hrest t ht
        refine ⟨q, taken', hkind, hbelow, ?_⟩
        have hother : (Forest.cons (.new i (systemId used k) (p.kind rules)) (placeRoots 0 taken)
            systems).roots.head?.any (Document.hasHandle t.1.handle) = false := by
          have hmem : t.1 ∈ systems.roots := systems.map_fst_trees ▸ List.mem_map_of_mem ht
          simp only [Forest.roots, List.head?_cons, Option.any_some, Document.hasHandle,
            decide_eq_false_iff_not]
          exact fun heq => hnodup.1 (List.mem_map.2 ⟨t.1, hmem, heq.symm⟩)
        rw [hother, Bool.and_false]
        exact hq

/-- The placed content read as items again. -/
theorem map_ofNode_placements (h : SystemsOf rules used k plans content systems)
    (definition : ScoreDefinition) (metrics : GlyphMetrics α) (unit : α) :
    systems.placements.map (fun q => BreakItem.ofNode definition metrics unit q.2) =
      content.roots.map (BreakItem.ofNode definition metrics unit) := by
  rw [← BreakItem.map_ofNode_of_unplaced definition metrics unit h.map_unplaced,
    ← systems.map_snd_placements, List.map_map]
  rfl

end SystemsOf

/-! ### The pass between two measures -/

omit [Scalar α] in
/-- A list cut twice, where the first cut falls into the middle part of the second one. -/
theorem exists_prefix_of_append {β : Type} {front back before own after : List β} {last : β}
    (hall : front ++ [last] ++ back = before ++ own ++ after) (hlt : before.length ≤ front.length)
    (hle : front.length < before.length + own.length) :
    ∃ mine, front ++ [last] = before ++ mine ∧ mine <+: own ∧ last ∈ mine := by
  rw [List.append_assoc before] at hall
  obtain ⟨mine, hfront⟩ : before <+: front ++ [last] := List.prefix_of_prefix_length_le
    (hall ▸ List.prefix_append before _) (List.prefix_append _ back) (by simp; omega)
  have hlength := congrArg List.length hfront
  rw [List.length_append, List.length_append, List.length_singleton] at hlength
  refine ⟨mine, hfront.symm, ?_, ?_⟩
  · rw [← hfront, List.append_assoc, List.append_cancel_left_eq] at hall
    exact List.prefix_of_prefix_length_le (List.prefix_append mine back)
      (hall ▸ List.prefix_append own after) (by omega)
  · have hne : mine ≠ [] := by
      intro hnil
      rw [hnil, List.length_nil] at hlength
      omega
    have hlast : (front ++ [last]).getLast? = mine.getLast? := by
      rw [← hfront, List.getLast?_append_of_ne_nil _ hne]
    rw [List.getLast?_concat] at hlast
    exact List.mem_of_getLast? hlast.symm

/-- The system that a state of the pass is filling, and what stands before it. -/
structure Filling (s : Breaking α) (before own : List (Node α × Node α)) (last : Node α × Node α) :
    Prop where
  eq_of_mem : ∀ q ∈ own, q.1 = last.1
  ne_of_mem : ∀ q ∈ before, q.1.handle ≠ last.1.handle
  complete : before.length = (s.complete.flatMap SystemPlan.nodes).length
  current : own.length = s.current.nodes.length
  width : s.current.measuresWidth = totalWidth (own.map Prod.snd)
  opening : ∃ p : ScoreSystem α, last.1.kind = .system p ∧
    p.definitionWidth = s.current.definitionWidth
  mem : last ∈ own

/-- What is held is what the system of the last measure has got. -/
theorem Filling.held_eq {s : Breaking α} {front before own : List (Node α × Node α)}
    {last : Node α × Node α} (h : Filling s before own last)
    (hfront : front ++ [last] = before ++ own) :
    held front last = own.map Prod.snd := by
  have hbefore : before.filter (fun p => decide (p.1.handle = last.1.handle)) = [] :=
    List.filter_eq_nil_iff.2 fun q hq => by simpa using h.ne_of_mem q hq
  have hown : own.filter (fun p => decide (p.1.handle = last.1.handle)) = own :=
    List.filter_eq_self.2 fun q hq => by simp [h.eq_of_mem q hq]
  rw [held, hfront, List.filter_append, hbefore, hown, List.nil_append]

section Pass

variable {rules : BreakRules α} {used : List String} {k : Nat} {content systems : Forest (Node α)}
  {definition : ScoreDefinition} {metrics : GlyphMetrics α} {unit : α}
  (h : SystemsOf rules used k
    (planSystems rules (content.roots.map (BreakItem.ofNode definition metrics unit))) content
    systems)
  (hnodup : (systems.roots.map Node.handle).Nodup)

include h hnodup

/-- The system that is being filled once a measure is placed. -/
theorem exists_filling {front back : List (Node α × Node α)} {last : Node α × Node α}
    (hplacements : systems.placements = front ++ [last] ++ back) {s : Breaking α}
    (hs : s.After rules
      ((front ++ [last]).map fun q => BreakItem.ofNode definition metrics unit q.2)
      (back.map fun q => BreakItem.ofNode definition metrics unit q.2)) :
    ∃ before own, front ++ [last] = before ++ own ∧ Filling s before own last := by
  obtain ⟨p, rest, hplans, hprefix, hdefinition⟩ := hs.endsIn
  rw [← List.map_append, ← hplacements, h.map_ofNode_placements] at hplans
  have hp : p.nodes ≠ [] := fun hnil => hs.started.2 (List.prefix_nil.1 (hnil ▸ hprefix))
  obtain ⟨system, before, own, after, hall, -, hkind, hown, hbefore, hcomplete, hnodes⟩ :=
    h.exists_placements hnodup hplans hp
  have hplaced := congrArg List.length hs.placed
  have hcomplete := congrArg List.length hcomplete
  have hnodes := congrArg List.length hnodes
  have hprefix := hprefix.length_le
  have hcurrent := List.length_pos_iff.2 hs.started.2
  rw [List.length_append, List.length_map, List.length_map, List.length_append,
    List.length_singleton] at hplaced
  rw [List.length_map] at hcomplete hnodes
  obtain ⟨mine, hfront, hmine, hlast⟩ :=
    exists_prefix_of_append (hplacements.symm.trans hall) (by omega) (by omega)
  have hsystem : last.1 = system := hown last (hmine.subset hlast)
  refine ⟨before, mine, hfront, fun q hq => (hown q (hmine.subset hq)).trans hsystem.symm,
    hsystem ▸ hbefore, hcomplete, ?_, ?_, ⟨_, hsystem ▸ hkind, hdefinition⟩, hlast⟩
  · have hmineLength := congrArg List.length hfront
    rw [List.length_append, List.length_append, List.length_singleton] at hmineLength
    omega
  · have hdrop : ((before ++ mine).map fun q =>
        BreakItem.ofNode definition metrics unit q.2).drop
          (s.complete.flatMap SystemPlan.nodes).length =
        (mine.map Prod.snd).map (BreakItem.ofNode definition metrics unit) := by
      rw [List.map_append, ← hcomplete, List.drop_left' (List.length_map _), List.map_map]
      rfl
    rw [hs.width, hfront, hdrop, sum_measure?_ofNode]

/-- A measure opens a system exactly where the rules say so. -/
theorem ne_iff_opens (hwidow : rules.noWidow = false) (hmode : rules.mode ≠ .smart)
    {front between back : List (Node α × Node α)} {last next : Node α × Node α}
    (hplacements : systems.placements = front ++ last :: (between ++ next :: back))
    (hlast : last.2.tag = .measure) {m : Measure α} (hnext : next.2.kind = .measure m)
    (hbetween : ∀ q ∈ between, q.2.tag ≠ .measure) :
    ∃ p : ScoreSystem α, last.1.kind = .system p ∧ (next.1.handle ≠ last.1.handle ↔
      (rules.mode ≠ .unbroken ∧ ∃ q ∈ between, q.2.IsBreak) ∨
        (rules.byWidth ∧
          ¬ rules.fits (totalWidth (held front last) + m.width) p.definitionWidth)) := by
  let item : Node α × Node α → BreakItem α := fun q => BreakItem.ofNode definition metrics unit q.2
  have hitem {q : Node α × Node α} (hq : q.2.tag = .measure) :
      ∃ width opening, item q = .measure q.2.handle width opening := by
    obtain ⟨m, hm⟩ := NodeKind.exists_of_measure hq
    exact ⟨_, _, BreakItem.ofNode_measure definition metrics unit hm⟩
  obtain ⟨lastWidth, lastOpening, hlastItem⟩ := hitem hlast
  have hnextItem := BreakItem.ofNode_measure definition metrics unit hnext
  have hwaiting : (between.map item).filterMap BreakItem.measure? = [] := by
    rw [List.filterMap_map, List.filterMap_eq_nil_iff]
    intro q hq
    rw [Function.comp_apply, BreakItem.measure?_ofNode, Option.map_eq_none_iff]
    exact NodeKind.measure?_eq_none (hbetween q hq)
  -- the state after the last measure, and the state after the next one
  have hafter (front back : List (Node α × Node α)) {q : Node α × Node α} {width : α}
      {opening : Bool → α} (hq : item q = .measure q.2.handle width opening) :
      Breaking.After rules ((front ++ [q]).map item) (back.map item)
        (((front ++ [q]).map item).foldl (Breaking.step rules) .start) := by
    rw [List.map_append, List.map_singleton, hq]
    exact Breaking.after_foldl hwidow ..
  have hs := hafter front (between ++ next :: back) hlastItem
  have hs' := hafter (front ++ [last] ++ between) back hnextItem
  have hsplit : systems.placements = front ++ [last] ++ (between ++ next :: back) := by
    rw [hplacements, List.append_assoc, List.singleton_append]
  have hsplit' : systems.placements = front ++ [last] ++ between ++ [next] ++ back := by
    rw [hsplit, List.append_assoc (front ++ [last] ++ between), List.singleton_append,
      List.append_assoc (front ++ [last])]
  obtain ⟨before, own, hcut, hfilling⟩ := exists_filling h hnodup hsplit hs
  obtain ⟨before', own', hcut', hfilling'⟩ := exists_filling h hnodup hsplit' hs'
  obtain ⟨p, hp, hdefinition⟩ := hfilling.opening
  obtain ⟨hclosed, hkept⟩ := Breaking.complete_foldl hmode hs.started hs.calm hwaiting
    next.2.handle m.width (definitionWidth definition metrics unit m.signatures)
  rw [← hnextItem, ← List.map_singleton (f := item), ← List.map_append, ← List.foldl_append,
    ← List.map_append, ← List.append_assoc] at hclosed hkept
  have hopens : rules.Opens (((front ++ [last]).map item).foldl (Breaking.step rules) .start).current
      (between.map item) m.width ↔
      (rules.mode ≠ .unbroken ∧ ∃ q ∈ between, q.2.IsBreak) ∨
        (rules.byWidth ∧
          ¬ rules.fits (totalWidth (held front last) + m.width) p.definitionWidth) := by
    rw [BreakRules.Opens, hfilling.held_eq hcut, ← hfilling.width, hdefinition]
    simp [item, BreakItem.isBreak_ofNode]
  have hcuts : before ++ (own ++ (between ++ [next])) = before' ++ own' := by
    rw [← hcut', hcut]
    simp
  refine ⟨p, hp, ?_⟩
  rw [← hopens]
  constructor
  · intro hne
    by_contra hnot
    have hlength : before.length = before'.length := by
      rw [hfilling.complete, hfilling'.complete, hkept hnot]
    obtain ⟨-, hown⟩ := List.append_inj hcuts hlength
    exact hne (congrArg Node.handle
      (hfilling'.eq_of_mem last (hown ▸ List.mem_append_left _ hfilling.mem)).symm)
  · intro hopen
    have hlength : (before ++ own).length = before'.length := by
      rw [List.length_append, hfilling.complete, hfilling.current, hfilling'.complete,
        hclosed hopen, List.flatMap_append, List.length_append, List.flatMap_singleton]
    rw [← List.append_assoc] at hcuts
    obtain ⟨hbefore, -⟩ := List.append_inj hcuts hlength
    exact (hfilling'.ne_of_mem last (hbefore ▸ List.mem_append_right _ hfilling.mem)).symm

end Pass

end ScoreLayout
