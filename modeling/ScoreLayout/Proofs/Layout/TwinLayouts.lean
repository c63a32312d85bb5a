import ScoreLayout.DisplayList
import ScoreLayout.Query
import ScoreLayout.Proofs.Layout.TwinGrids
import ScoreLayout.Proofs.Layout.TwinPlacement
import ScoreLayout.Proofs.Safety

/-!
# Layouts of two documents side by side

Two documents that have been prepared alike stay side by side in all later passes: each pass ends the
same in both, with the same marks, and what it leaves differs as little as before. Once the systems
have been made anew the two are twins.

## Main definitions

* `Outcome.Beside` — two outcomes with one fault, the same marks and related documents.
* `Document.Underway` — a document that has come to some stage of a layout.

## Main results

* `Document.Readied.runAll_tail` — all that comes after preparation.
* `Document.Twin.displayList_eq`, `Document.Twin.pageCount_eq`, `Document.Twin.systemCount_eq` —
  what is drawn, and on how many pages and systems.
* `Document.Twin.timeOf?_eq` — times, where neither document has further control elements.
-/

namespace ScoreLayout

variable {α : Type} {T : Comparison α}

/-! ### Outcomes -/

/-- Two outcomes with the same fault and the same marks, whose documents are related unless there is
a fault. -/
structure Outcome.Beside (R : Document α → Document α → Prop) (o o' : Outcome α) : Prop where
  fault : o'.fault = o.fault
  marks : o'.marks = o.marks
  document : o.fault = none → R o.document o'.document

namespace Outcome.Beside

variable {R S : Document α → Document α → Prop} {o o' : Outcome α}

/-- Two runs that go on after related outcomes. -/
theorem andThen (h : Beside R o o') {next next' : Document α → Outcome α}
    (hnext : ∀ d d', R d d' → Beside S (next d) (next' d')) :
    Beside S (o.andThen next) (o'.andThen next') := by
  rw [Outcome.andThen, Outcome.andThen, h.fault]
  cases hfault : o.fault with
  | some f => exact ⟨h.fault, h.marks, fun hnone => absurd (hfault.symm.trans hnone) (by simp)⟩
  | none =>
    have hlater := hnext _ _ (h.document hfault)
    exact ⟨hlater.fault, congrArg₂ (· ++ ·) h.marks hlater.marks, hlater.document⟩

/-- A pass and those after it. -/
theorem runAll_cons [Scalar α] {e : Engine α} {d d' : Document α} {pass : LayoutPass}
    {passes : List LayoutPass} (h : Beside R (e.run d pass) (e.run d' pass))
    (hnext : ∀ d d', R d d' → Beside S (e.runAll d passes) (e.runAll d' passes)) :
    Beside S (e.runAll d (pass :: passes)) (e.runAll d' (pass :: passes)) := by
  rw [Engine.runAll_cons, Engine.runAll_cons]
  exact h.andThen hnext

theorem mono (h : Beside R o o') (hRS : ∀ d d', R d d' → S d d') : Beside S o o' :=
  ⟨h.fault, h.marks, fun hok => hRS _ _ (h.document hok)⟩

end Outcome.Beside

variable [Scalar α]

namespace Document

/-! ### On the way -/

/-- A document that has come to some stage of a layout. -/
structure Underway (s : Stage) (d : Document α) : Prop where
  ready : d.Ready
  staged : d.Staged
  stage : d.stage = s

variable {d d' : Document α} {s : Stage} {e : Engine α}

namespace Underway

/-- After preparation. -/
theorem prepare (hd : d.Ready) : d.prepare.document.Underway .prepared :=
  ⟨(hd.run (⟨.default, .default⟩ : Engine α) .prepare).2,
    .of_prepared hd.wellFormed.fault_prepare.2 hd.wellFormed.anchored_prepare,
    hd.wellFormed.fault_prepare.2⟩

/-- After a later pass that meets no fault. -/
theorem run_of_fault (h : d.Underway s) {pass : LayoutPass} (hs : pass.required ≤ s)
    (hok : (e.run d pass).fault = none) : (e.run d pass).document.Underway (pass.leaves s) := by
  have hrequired : pass.required ≤ d.stage := h.stage.symm ▸ hs
  refine ⟨(h.ready.run e pass).2,
    h.ready.wellFormed.staged_run h.ready.settled h.staged e fun _ => .inl hok, ?_⟩
  obtain ⟨-, hstage⟩ | ⟨-, hfault, -⟩ :=
    h.ready.wellFormed.fault_run h.ready.settled h.staged e hrequired
  · rw [hstage, h.stage]
  · rw [hok] at hfault
    cases hfault

/-- Passes behind alignment meet no fault. -/
theorem fault_run (h : d.Underway s) {pass : LayoutPass} (hs : pass.required ≤ s)
    (hp : pass ≠ .align) : (e.run d pass).fault = none := by
  obtain ⟨hok, -⟩ | ⟨halign, -⟩ := h.ready.wellFormed.fault_run h.ready.settled h.staged e
    (h.stage.symm ▸ hs : pass.required ≤ d.stage)
  · exact hok
  · exact absurd halign hp

end Underway

/-- Two related documents that have come to one stage of a layout. -/
structure Together (R : Document α → Document α → Prop) (s : Stage) (d d' : Document α) :
    Prop where
  related : R d d'
  left : d.Underway s
  right : d'.Underway s

/-- A pass behind alignment that takes related documents to related ones. -/
theorem Together.run {R S : Document α → Document α → Prop} (h : Together R s d d')
    (pass : LayoutPass) (hs : pass.required ≤ s) (hp : pass ≠ .align)
    (hrun : (e.run d pass).fault = none → (e.run d' pass).marks = (e.run d pass).marks ∧
      S (e.run d pass).document (e.run d' pass).document) :
    Outcome.Beside (Together S (pass.leaves s)) (e.run d pass) (e.run d' pass) := by
  have hok := h.left.fault_run (e := e) hs hp
  have hok' := h.right.fault_run (e := e) hs hp
  obtain ⟨hmarks, hS⟩ := hrun hok
  exact ⟨hok'.trans hok.symm, hmarks, fun _ =>
    ⟨hS, h.left.run_of_fault hs hok, h.right.run_of_fault hs hok'⟩⟩

/-! ### The passes -/

/-- Two documents without further control elements, or with at least one measure. -/
def Measured (T : Comparison α) (d : Document α) : Prop :=
  (∀ i, ¬ T.spare i) ∨ ∃ n ∈ d.content.roots, n.tag = .measure

omit [Scalar α] in
theorem Measured.of_sameContent [Scalar α] (h : d.Measured T) (hd : d.SameContent d') :
    d'.Measured T := by
  refine h.imp_right fun ⟨n, hn, ht⟩ => ?_
  obtain ⟨n', hn', hnn⟩ := exists_mem_of_forall₂ hd.content.flip.roots hn
  exact ⟨n', hn', hnn.tag.trans ht⟩

section Passes

variable (e)

theorem Together.place (hT : T.Strict) (h : Together (Twin T) .justified d d') :
    Outcome.Beside (Together (Twin T) .finalized) (e.run d .place) (e.run d' .place) :=
  h.run .place (by decide) (by decide) fun hok => (h.related.place hT hok).2

theorem Together.fillPages (h : Together (Twin T) .paginated d d') :
    Outcome.Beside (Together (Twin T) .justified) (e.run d .fillPages) (e.run d' .fillPages) :=
  h.run .fillPages (by decide) (by decide) fun hok => (h.related.fillPages hok).2

theorem Together.fillLines (h : Together (Twin T) .paginated d d') :
    Outcome.Beside (Together (Twin T) .paginated) (e.run d .fillLines) (e.run d' .fillLines) :=
  h.run .fillLines (by decide) (by decide) fun hok => (h.related.fillLines
    (h.left.staged.fitted (by rw [h.left.stage]; decide))
    (h.right.staged.fitted (by rw [h.right.stage]; decide)) hok).2

theorem Together.breakPages
    (h : Together (fun d d' => ∃ f f', TwinSystems T d d' f f') .stacked d d') :
    Outcome.Beside (Together (Twin T) .paginated) (e.run d .breakPages) (e.run d' .breakPages) :=
  h.run .breakPages (by decide) (by decide) fun hok => by
    obtain ⟨f, f', hsystems⟩ := h.related
    exact (hsystems.breakPages hok).2

theorem Together.stackStaves
    (h : Together (fun d d' => ∃ f f', TwinSystems T d d' f f') .systems d d') :
    Outcome.Beside (Together (fun d d' => ∃ f f', TwinSystems T d d' f f') .stacked)
      (e.run d .stackStaves) (e.run d' .stackStaves) :=
  h.run .stackStaves (by decide) (by decide) fun hok => by
    obtain ⟨f, f', hsystems⟩ := h.related
    exact (hsystems.stackStaves hok).2

theorem Together.breakSystems
    (h : Together (fun d d' => d.Abreast T (Node.NearUnplaced T) d' ∧ d.Measured T) .spaced d d') :
    Outcome.Beside (Together (fun d d' => ∃ f f', TwinSystems T d d' f f') .systems)
      (e.run d .breakSystems) (e.run d' .breakSystems) :=
  h.run .breakSystems (by decide) (by decide) fun _ =>
    h.related.1.breakSystems (by rw [h.left.stage]; decide) (h.related.2.imp_left fun hnone n _ hn =>
      hnone n.handle hn.spare) e.options e.metrics

theorem Together.space
    (h : Together (fun d d' => d.Abreast T (Node.NearUnplaced T) d' ∧ d.Measured T) .aligned d d') :
    Outcome.Beside
      (Together (fun d d' => d.Abreast T (Node.NearUnplaced T) d' ∧ d.Measured T) .spaced)
      (e.run d .space) (e.run d' .space) :=
  h.run .space (by decide) (by decide) fun hok => by
    have hok' : (d'.space e.options).fault = none :=
      h.right.fault_run (e := e) (by decide : LayoutPass.space.required ≤ .aligned) (by decide)
    obtain ⟨hmarks, hrelated⟩ := h.related.1.space e.options hok hok'
    exact ⟨hmarks, hrelated, h.related.2.of_sameContent (h.left.ready.run e .space).1⟩

/-- Alignment may break down, and does so in both documents. -/
theorem Readied.together_align (h : d.Readied T d') (hd : d.Underway .prepared)
    (hd' : d'.Underway .prepared) (hmeasured : d.Measured T) :
    Outcome.Beside
      (Together (fun d d' => d.Abreast T (Node.NearUnplaced T) d' ∧ d.Measured T) .aligned)
      (e.run d .align) (e.run d' .align) := by
  have hs : LayoutPass.align.required ≤ Stage.prepared := by decide
  obtain ⟨hfault, hmarks, hrelated⟩ := h.align e.metrics e.options.scaledUnit (hd.stage ▸ hs)
  refine ⟨hfault, hmarks, fun hok => ⟨⟨hrelated hok,
    hmeasured.of_sameContent (hd.ready.run e .align).1⟩,
    hd.run_of_fault hs hok, hd'.run_of_fault hs ?_⟩⟩
  exact hfault.trans hok

/-- All that comes after preparation. -/
theorem Readied.runAll_tail (h : d.Readied T d') (hT : T.Strict) (hd : d.Underway .prepared)
    (hd' : d'.Underway .prepared) (hmeasured : d.Measured T) :
    Outcome.Beside (Together (Twin T) .finalized) (e.runAll d LayoutPass.all.tail)
      (e.runAll d' LayoutPass.all.tail) :=
  (h.together_align e hd hd' hmeasured).runAll_cons fun _ _ h =>
    (h.space e).runAll_cons fun _ _ h => (h.breakSystems e).runAll_cons fun _ _ h =>
      (h.stackStaves e).runAll_cons fun _ _ h => (h.breakPages e).runAll_cons fun _ _ h =>
        (h.fillLines e).runAll_cons fun _ _ h => (h.fillPages e).runAll_cons fun _ _ h =>
          (h.place e hT).runAll_cons fun _ _ h => ⟨rfl, rfl, fun _ => h⟩

end Passes

end Document

/-! ### What is read off two documents -/

namespace DisplayList

/-- A control element that is left out is not collected. -/
theorem collector_enter_of_spare (options : LayoutOptions α) (s : Collecting α) {n : Node α}
    (hn : n.IsSpare T) : (collector options).enter s n = (s, .skipChildren) := by
  obtain ⟨control, hk⟩ := NodeKind.exists_of_control hn.tag
  simp [collector, add, hk, hn.omitted, hn.tag]

theorem collector_enter_eq (options : LayoutOptions α) (s : Collecting α) {n n' : Node α}
    (hT : T.Strict) (hn : n.Near T n') :
    (collector options).enter s n' = (collector options).enter s n := by
  obtain ⟨handle, dirty, rfl⟩ := hn.exists_eq hT
  obtain ⟨_, _, kind, _, _, _⟩ := n
  cases kind <;> rfl

end DisplayList

namespace Document

omit [Scalar α] in
/-- A node of the score is found in the score. -/
theorem WellFormed.liveNode?_eq {d : Document α} (hd : d.WellFormed) (id : String) :
    d.liveNode? id = d.score.find? (hasId id) := by
  have hids : (d.score.toList.map Node.id).Nodup := hd.ids.sublist ((score_sublist d).map _)
  refine Option.ext fun n => ?_
  rw [liveNode?, Option.filter_eq_some_iff,
    hd.findNode?_eq_some_iff, Forest.find?_eq_find?_toList]
  refine Iff.trans ?_ (find?_key_eq_some_iff hids).symm
  constructor
  · rintro ⟨⟨hn, rfl⟩, hlive⟩
    obtain ⟨m, hm, hh⟩ := (isLive_iff d n.handle).1 hlive
    rw [hd.eq_of_handle_eq ((score_sublist d).subset hm) hn hh] at hm
    exact ⟨hm, rfl⟩
  · rintro ⟨hn, rfl⟩
    exact ⟨⟨(score_sublist d).subset hn, rfl⟩, (isLive_iff d n.handle).2 ⟨n, hn, rfl⟩⟩

namespace Twin

variable {d d' : Document α} (h : d.Twin T d')

include h

/-- Twins have one display list. -/
theorem displayList_eq (hT : T.Strict) (options : LayoutOptions α) :
    d'.displayList options = d.displayList options := by
  rw [displayList, displayList, h.stage]
  split
  · rfl
  · refine congrArg (fun s : DisplayList.Collecting α => Except.ok s.list) (congrArg Prod.fst ?_)
    exact h.score.visit (fun s n n' hn => DisplayList.collector_enter_eq options s hT hn)
      (fun _ _ _ _ => rfl) (fun s n hn => DisplayList.collector_enter_of_spare options s hn) _

omit [Scalar α] in
theorem pageCount_eq : d'.pageCount = d.pageCount := by
  obtain ⟨r, r', pages, pages', hd, hd', -, hpages, htags, -⟩ := h.exists_shapes
  rw [pageCount, pageCount, h.stage, hd.pages_eq, hd'.pages_eq,
    (hpages.forall₂_roots htags).length_eq]

omit [Scalar α] in
theorem systemCount_eq : d'.systemCount = d.systemCount := by
  obtain ⟨r, r', pages, pages', hd, hd', -, hpages, -, htags⟩ := h.exists_shapes
  rw [systemCount, systemCount, h.stage, hd.systems_eq, hd'.systems_eq,
    (hpages.branches.forall₂_roots htags).length_eq]

omit [Scalar α] in
/-- Twins without further control elements have the same times. -/
theorem timeOf?_eq (hspare : ∀ i, ¬ T.spare i) (id : String) : d'.timeOf? id = d.timeOf? id := by
  have hscore : Forest.Forall₂ (Node.Near T) d.score d'.score :=
    (h.score.mono (fun n hn => hspare n.handle hn.spare) fun _ _ hn => hn).forall₂
  have hfind := hscore.find? (p := hasId id) (q := hasId id) fun n n' hn => by
    rw [hasId, hasId, hn.id]
  rw [timeOf?, timeOf?, h.stage, h.left.liveNode?_eq, h.right.liveNode?_eq]
  generalize d.score.find? (hasId id) = n, d'.score.find? (hasId id) = n' at hfind
  cases hfind with
  | none => rfl
  | some hn => rw [Option.bind_some, Option.bind_some, hn.onset]

end Twin

end Document

end ScoreLayout
