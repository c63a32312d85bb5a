import ScoreLayout.Proofs.Layout.ForcedBreaks
import ScoreLayout.Proofs.Layout.GreedySystems
import ScoreLayout.Proofs.Layout.PageStarts

/-!
# The last two systems, apart and joined

The rule for a lone last measure looks at the last planned system: whether it holds a single
measure, and whether it has been started by a written break. The latter is decided by what stands
between the last measure of the system before and the first of its own. Two runs of breaking that
differ only in this rule make the same systems up to the last two. From there on one run makes two
systems and the other makes one of the same nodes, under the handle of the first.

## Main definitions

* `BreakRules.forces` — whether the next measure has to open a system.
* `Breaking.Remembers` — a state of the pass that knows why its current system has been opened.

## Main results

* `exists_last_two` — the last two planned systems, and what they are made of.
* `joinWidow_concat` — what the rule for a lone last measure makes of them.
* `Document.emitSystems_append` — systems made one after another.
* `Document.Shape.exists_joined` — the last two systems, apart and joined.
-/

namespace ScoreLayout

variable {α : Type} [Scalar α]

section LastTwo

variable {r : BreakRules α}

/-- Whether the next measure has to open a system, after an item behind the last measure of `p`. -/
def BreakRules.forces (r : BreakRules α) (p : SystemPlan α) (forced : Bool) : BreakItem α → Bool
  | .systemBreak _ => r.honoursBreak p
  | .pageBreak _ => forced ∨ r.mode ≠ .unbroken
  | .measure .. | .other _ => forced

namespace PlansOf

variable {withMeter : Bool} {plans : List (SystemPlan α)} {chunks : List (List (BreakItem α))}

/-- Planned systems have the nodes of their items. -/
theorem flatMap_nodes (h : PlansOf withMeter plans chunks) :
    plans.flatMap SystemPlan.nodes = chunks.flatten.map BreakItem.handle := by
  induction h with
  | nil => rfl
  | cons plan _ ih =>
    rw [List.flatMap_cons, ih, plan.nodes, List.flatten_cons, List.map_append]

/-- The last of several planned systems. -/
theorem exists_concat {p : SystemPlan α} (h : PlansOf withMeter (plans ++ [p]) chunks) :
    ∃ front items, chunks = front ++ [items] ∧ PlansOf withMeter plans front ∧
      ∃ withMeter, p.Of withMeter items := by
  induction plans generalizing withMeter chunks with
  | nil =>
    cases h with
    | cons plan rest =>
      cases rest
      exact ⟨[], _, rfl, .nil _, _, plan⟩
  | cons q plans ih =>
    cases h with
    | cons plan rest =>
      obtain ⟨front, items, rfl, hfront, hp⟩ := ih rest
      exact ⟨_ :: front, items, rfl, .cons plan hfront, hp⟩

end PlansOf

namespace Breaking

/-- A state of the pass that knows whether the next measure has to open a system, and whether the
current system has been started by a break. -/
structure Remembers (r : BreakRules α) (s : Breaking α) (current waiting : List (BreakItem α)) :
    Prop where
  filled : ∀ p ∈ s.complete, p.measures ≠ []
  forced : s.forced = waiting.foldl (r.forces s.current) false
  opened : ∀ a ∈ s.complete.getLast?, ∃ between i width opening rest,
    current = between ++ .measure i width opening :: rest ∧
      between.filterMap BreakItem.measure? = [] ∧
      s.current.forced = between.foldl (r.forces a) false

theorem remembers_start : (start : Breaking α).Remembers r [] [] := ⟨nofun, rfl, nofun⟩

variable {s : Breaking α} {chunks : List (List (BreakItem α))}
  {current waiting : List (BreakItem α)}

/-- One step of the pass. -/
theorem Remembers.step (h : s.Remembers r current waiting) (hs : s.Covers chunks current waiting)
    (i : BreakItem α) : ∃ chunks' current' waiting', (s.step r i).Covers chunks' current' waiting' ∧
      (s.step r i).Remembers r current' waiting' ∧
      chunks'.flatten ++ current' ++ waiting' = chunks.flatten ++ current ++ waiting ++ [i] := by
  have hwait (i : BreakItem α) :
      ({ s with pending := s.pending ++ [i.handle], forced := r.forces s.current s.forced i } :
        Breaking α).Remembers r current (waiting ++ [i]) :=
    ⟨h.filled, by rw [List.foldl_append, ← h.forced, List.foldl_cons, List.foldl_nil], h.opened⟩
  cases i with
  | measure i width opening =>
    rw [Breaking.step, breakBefore]
    split
    · rename_i hclosed
      refine ⟨_, _, _, (hs.close hclosed.1).place i width opening,
        ⟨List.forall_mem_append.2 ⟨h.filled, by simpa using hclosed.1⟩, rfl, fun a ha => ?_⟩,
        by simp⟩
      refine ⟨waiting, i, width, opening, [], by simp, hs.waiting, ?_⟩
      obtain rfl : s.current = a := by simpa [place] using ha
      exact h.forced
    · refine ⟨_, _, _, hs.place i width opening, ⟨h.filled, rfl, fun a ha => ?_⟩, by simp⟩
      obtain ⟨between, j, width', opening', rest, rfl, hbetween, hforced⟩ := h.opened a ha
      exact ⟨between, j, width', opening', rest ++ waiting ++ [.measure i width opening], by simp,
        hbetween, hforced⟩
  | systemBreak i =>
    exact ⟨_, _, _, hs.wait (i := .systemBreak i) rfl _, hwait (.systemBreak i), by simp⟩
  | pageBreak i => exact ⟨_, _, _, hs.wait (i := .pageBreak i) rfl _, hwait (.pageBreak i), by simp⟩
  | other i => exact ⟨_, _, _, hs.wait (i := .other i) rfl _, hwait (.other i), by simp⟩

theorem Remembers.foldl : (items : List (BreakItem α)) → {s : Breaking α} →
    {chunks : List (List (BreakItem α))} → {current waiting : List (BreakItem α)} →
    s.Remembers r current waiting → s.Covers chunks current waiting →
      ∃ chunks' current' waiting',
        (items.foldl (Breaking.step r) s).Covers chunks' current' waiting' ∧
        (items.foldl (Breaking.step r) s).Remembers r current' waiting' ∧
        chunks'.flatten ++ current' ++ waiting' = chunks.flatten ++ current ++ waiting ++ items
  | [], _, chunks, current, waiting, h, hs => ⟨chunks, current, waiting, hs, h, by simp⟩
  | i :: items, _, _, _, _, h, hs => by
      obtain ⟨_, _, _, hs', h', heq⟩ := h.step hs i
      obtain ⟨chunks', current', waiting', hfold, hremembers, heq'⟩ := Remembers.foldl items h' hs'
      exact ⟨chunks', current', waiting', hfold, hremembers, by rw [heq', heq]; simp⟩

/-- The last two planned systems with the items they are made of. The last one is forced if a break
counts among the items before its first measure. -/
theorem exists_last_two (r : BreakRules α) (items : List (BreakItem α)) :
    (items.foldl (step r) start).finish.length ≤ 1 ∨
      ∃ front a b before itemsA between i width opening rest,
        (items.foldl (step r) start).finish = front ++ [a, b] ∧
        items = before ++ itemsA ++ (between ++ .measure i width opening :: rest) ∧
        front.flatMap SystemPlan.nodes = before.map BreakItem.handle ∧
        (∃ withMeter, a.Of withMeter itemsA) ∧ a.measures ≠ [] ∧
        (∃ withMeter, b.Of withMeter (between ++ .measure i width opening :: rest)) ∧
        between.filterMap BreakItem.measure? = [] ∧
        b.forced = between.foldl (r.forces a) false := by
  obtain ⟨chunks, current, waiting, hcovers, hremembers, heq⟩ :=
    (remembers_start (r := r)).foldl items covers_start
  generalize items.foldl (step r) start = s at hcovers hremembers
  rcases s.complete.eq_nil_or_concat with hnil | ⟨front, a, hcomplete⟩
  · left
    rw [finish, hnil]
    simp
  · right
    obtain ⟨between, i, width, opening, rest, rfl, hbetween, hforced⟩ := hremembers.opened a (by
      rw [hcomplete, List.concat_eq_append, List.getLast?_concat]
      rfl)
    rw [List.concat_eq_append] at hcomplete
    obtain ⟨before, itemsA, rfl, hbefore, ha⟩ := (hcomplete ▸ hcovers.complete).exists_concat
    have hlast := hcovers.current.append_waiting hcovers.waiting
    rw [← hcovers.pending] at hlast
    refine ⟨front, a, { s.current with nodes := s.current.nodes ++ s.pending }, before.flatten,
      itemsA, between, i, width, opening, rest ++ waiting, ?_, ?_, hbefore.flatMap_nodes, ha,
      hremembers.filled a (by simp [hcomplete]), ?_, hbetween, hforced⟩
    · have hnodes : (s.current.nodes ++ s.pending).isEmpty = false := by
        have hne := hlast.nodes
        dsimp only at hne
        rw [hne]
        simp
      rw [finish]
      dsimp only
      rw [hnodes, if_pos (.inl (by simp)), hcomplete, List.append_assoc]
      rfl
    · simpa using heq.symm
    · rw [List.append_assoc, List.cons_append] at hlast
      exact ⟨_, hlast⟩

end Breaking

theorem joinWidow_of_length_le {plans : List (SystemPlan α)} (h : plans.length ≤ 1) :
    joinWidow plans = plans := by
  match plans with
  | [] => rfl
  | [_] => rfl

/-- The rule for a lone last measure looks at the last two systems only. -/
theorem joinWidow_concat (front : List (SystemPlan α)) (a b : SystemPlan α) :
    joinWidow (front ++ [a, b]) =
      if b.measures.length = 1 ∧ ¬ b.forced then front ++ [a.join b] else front ++ [a, b] := by
  rw [joinWidow_append, joinWidow]
  split_ifs <;> rfl

end LastTwo

/-! ### Placed measures -/

/-- Measures that follow on others are placed from their end on. -/
theorem placeRoots_append : (x : α) → (f g : Forest (Node α)) →
    placeRoots x (f ++ g) =
      placeRoots x f ++ placeRoots ((f.roots.filterMap Node.measureWidth?).foldl (· + ·) x) g
  | _, .nil, _ => rfl
  | x, .cons n below siblings, g => by
      rw [Forest.cons_append, placeRoots, placeRoots, Forest.roots]
      cases hm : n.kind.measure? with
      | some m =>
        have hwidth : n.measureWidth? = some m.width := by
          rw [Node.measureWidth?, hm, Option.map_some]
        rw [List.filterMap_cons_some hwidth, List.foldl_cons]
        dsimp only
        rw [placeRoots_append _ siblings g, Forest.cons_append]
      | none =>
        have hwidth : n.measureWidth? = none := by rw [Node.measureWidth?, hm, Option.map_none]
        rw [List.filterMap_cons_none hwidth]
        dsimp only
        rw [placeRoots_append _ siblings g, Forest.cons_append]

/-- Measures that are placed again are where they are placed last. -/
theorem placeRoots_placeRoots : (x y : α) → (f : Forest (Node α)) →
    placeRoots x (placeRoots y f) = placeRoots x f
  | _, _, .nil => rfl
  | x, y, .cons n below siblings => by
      rw [placeRoots.eq_def y]
      dsimp only
      cases hm : n.kind.measure? with
      | some m =>
        have hkind : n.kind = .measure m := NodeKind.measure?_eq_some_iff.1 hm
        dsimp only
        rw [placeRoots, placeRoots, hm]
        simp only [Node.mapKind, hkind, NodeKind.mapMeasure, NodeKind.measure?]
        rw [placeRoots_placeRoots _ _ siblings]
        rfl
      | none =>
        dsimp only
        rw [placeRoots, placeRoots, hm]
        dsimp only
        rw [placeRoots_placeRoots _ _ siblings]

/-! ### Systems made one after another -/

namespace Document

theorem emitSystems_congr {r r' : BreakRules α} (h : r.overflows = r'.overflows) (page : Handle) :
    (plans : List (SystemPlan α)) → (k : Nat) → (marks : List Mark) → (d : Document α) →
      emitSystems r page k marks d plans = emitSystems r' page k marks d plans
  | [], _, _, _ => rfl
  | p :: plans, k, marks, d => by
      rw [emitSystems, emitSystems, h]
      simp only [emitSystems_congr h page plans]

theorem emitSystems_append (r : BreakRules α) (page : Handle) (back : List (SystemPlan α)) :
    (front : List (SystemPlan α)) → (k : Nat) → (marks : List Mark) → (d : Document α) →
      emitSystems r page k marks d (front ++ back) = (do
        let (marks, d) ← emitSystems r page k marks d front
        emitSystems r page (k + front.length) marks d back)
  | [], _, _, _ => rfl
  | p :: front, k, marks, d => by
      have hlength : k + (p :: front).length = k + 1 + front.length := by
        rw [List.length_cons]
        omega
      rw [List.cons_append, emitSystems, emitSystems, hlength]
      split_ifs
      · exact emitSystems_append r page back front (k + 1) marks d
      · simp only [emitSystems_append r page back front]
        cases d.emitSystem page k (r.overflows p) p <;> rfl

/-- A planned system is made before those behind it. -/
theorem emitSystems_cons {r : BreakRules α} {page : Handle} {k : Nat} (marks : List Mark)
    {d d' : Document α} {p : SystemPlan α} (hp : p.nodes ≠ [])
    (hok : d.emitSystem page k (r.overflows p) p = .ok d') : ∃ marks', ∀ plans,
      emitSystems r page k marks d (p :: plans) = emitSystems r page (k + 1) marks' d' plans := by
  refine ⟨if r.overflows p then marks ++ p.measures.map d.overflowMark else marks, fun plans => ?_⟩
  rw [emitSystems, if_neg (by simpa using hp)]
  dsimp only
  rw [hok]
  rfl

namespace Shape

variable {D : ScoreDefinition} {r page system : Node α} {detached : Forest (Node α)}

/-- The last two planned systems, made one after another and joined, behind the same systems. -/
theorem exists_joined (rules : BreakRules α) (hpage : page.tag = .page)
    {before itemsA itemsB : Forest (Node α)} {d : Document α}
    (hd : d.Shape D r (.tree page (.tree system (before ++ (itemsA ++ itemsB)))) detached)
    {front : List (SystemPlan α)} {a b : SystemPlan α}
    (hfront : front.flatMap SystemPlan.nodes = before.roots.map Node.handle)
    (hmeasures : ∀ p ∈ front, p.measures ⊆ p.nodes)
    (ha : itemsA.roots.map Node.handle = a.nodes) (hb : itemsB.roots.map Node.handle = b.nodes)
    (hnil : a.nodes ≠ []) (hnil' : b.nodes ≠ []) :
    ∃ made i j idA idB marks marks' d₁ d₂,
      Document.emitSystems rules page.handle 1 [] d (front ++ [a, b]) = .ok (marks, d₁) ∧
      Document.emitSystems rules page.handle 1 [] d (front ++ [a.join b]) = .ok (marks', d₂) ∧
      d₁.Shape D r (.tree page (.cons system .nil (made ++
        (.cons (.new i idA (a.kind rules)) (placeRoots 0 itemsA)
          (.tree (.new j idB (b.kind rules)) (placeRoots 0 itemsB)))))) detached ∧
      d₂.Shape D r (.tree page (.cons system .nil (made ++
        .tree (.new i idA ((a.join b).kind rules)) (placeRoots 0 (itemsA ++ itemsB))))) detached ∧
      ∃ k, SystemsOf rules d.ids k front before made := by
  have hacc := hd.accepts_of_mem_unbroken
  rw [Forest.roots_append, Forest.roots_append] at hacc
  obtain ⟨made, d', hmade, hd', hsystems⟩ := emitSystems rules hpage 1 [] hd
    (fun n hn => hacc n (List.mem_append_left _ hn)) hfront hmeasures
  rw [Forest.nil_append] at hd'
  have haccA : ∀ n ∈ itemsA.roots, ∀ s : Node α, s.tag = .system → s.kind.accepts n.kind :=
    fun n hn => hacc n (List.mem_append_right _ (List.mem_append_left _ hn))
  have haccB : ∀ n ∈ itemsB.roots, ∀ s : Node α, s.tag = .system → s.kind.accepts n.kind :=
    fun n hn => hacc n (List.mem_append_right _ (List.mem_append_right _ hn))
  -- one run makes two systems
  obtain ⟨dA, hokA, hdA, -⟩ := hd'.emitSystem hpage haccA (1 + front.length) rules ha
  have hrest : dA.Shape D r (.tree page (.cons system (itemsB ++ .nil) (made ++
      .tree (.new d'.allocate.1 (systemId d'.ids (1 + front.length)) (a.kind rules))
        (placeRoots 0 itemsA)))) detached := by
    rw [Forest.append_nil]
    exact hdA
  obtain ⟨dB, hokB, hdB, -⟩ := hrest.emitSystem hpage haccB (1 + front.length + 1) rules hb
  -- the other run makes one
  have hjoin : (itemsA ++ itemsB).roots.map Node.handle = (a.join b).nodes := by
    rw [Forest.roots_append, List.map_append, ha, hb]
    rfl
  have hall : d'.Shape D r (.tree page (.cons system (itemsA ++ itemsB ++ .nil) made))
      detached := by
    rw [Forest.append_nil]
    exact hd'
  obtain ⟨dJ, hokJ, hdJ, -⟩ := hall.emitSystem hpage (fun n hn => by
    rw [Forest.roots_append] at hn
    exact (List.mem_append.1 hn).elim (haccA n) (haccB n)) (1 + front.length) rules hjoin
  obtain ⟨marksA, hstepA⟩ := emitSystems_cons
    ([] ++ front.flatMap (overflowMarks rules d)) hnil hokA
  obtain ⟨marksB, hstepB⟩ := emitSystems_cons marksA hnil' hokB
  obtain ⟨marksJ, hstepJ⟩ := emitSystems_cons
    ([] ++ front.flatMap (overflowMarks rules d)) (p := a.join b) (by simp [SystemPlan.join, hnil])
    hokJ
  have htwo : Document.emitSystems rules page.handle 1 [] d (front ++ [a, b]) =
      .ok (marksB, dB) := by
    rw [emitSystems_append, hmade]
    exact (hstepA [b]).trans (hstepB [])
  have hone : Document.emitSystems rules page.handle 1 [] d (front ++ [a.join b]) =
      .ok (marksJ, dJ) := by
    rw [emitSystems_append, hmade]
    exact hstepJ []
  rw [Forest.append_assoc] at hdB
  exact ⟨made, _, _, _, _, _, _, dB, dJ, htwo, hone, hdB, hdJ, 1, hsystems⟩

end Shape

end Document

end ScoreLayout
