import ScoreLayout.Proofs.DetachedTrees
import ScoreLayout.Proofs.Layout.Renewal

/-!
# Marks of edits

A node is marked when it is added and when its children are changed, and a layout that has come to its
end should leave no mark. It takes all marks away when it prepares the score, but the pages and systems
that it makes later are marked like any new node, and keep the mark, which is a defect.

All else is as it should be. No other node of a finished layout is marked, and edits that follow mark
the nodes that they add and the parents whose children they change, and no other ones.

## Main definitions

* `Document.EditedTo` — edits that go through, with the nodes that they add and the parents that they
  change.
* `Document.MarksEdits` — what is marked behind a layout, and behind further edits.

## Main results

* `Document.clean_prepare` — the score as it is prepared.
* `Document.Addressed.marks_layout` — the nodes of a finished layout.
* `Document.Addressed.marks_editedTo` — the nodes behind further edits.
* `Document.FreelyReachable.marks_edits` — whatever identifiers a caller has chosen.
* `Document.Reachable.marked_iff` — where it keeps off the reserved ones.
* `Document.Reachable.marks_new_page` — the defect.
-/

namespace ScoreLayout

variable {α : Type} [Scalar α]

/-- Passes before others that all together meet no fault, and those that come behind them. -/
theorem Engine.split_runAll {e : Engine α} {d : Document α} (passes : List LayoutPass)
    {later : List LayoutPass} (h : (e.runAll d (passes ++ later)).fault = none) :
    (e.runAll d passes).fault = none ∧
      (e.runAll (e.runAll d passes).document later).fault = none ∧
      (e.runAll d (passes ++ later)).document =
        (e.runAll (e.runAll d passes).document later).document := by
  induction later using List.reverseRecOn with
  | nil =>
    rw [List.append_nil] at h ⊢
    exact ⟨h, rfl, rfl⟩
  | append_singleton later pass ih =>
    rw [← List.append_assoc] at h ⊢
    obtain ⟨hbefore, hpass, hdocument⟩ := Engine.of_runAll_concat h
    obtain ⟨hok, hlater, heq⟩ := ih hbefore
    rw [heq] at hpass hdocument
    rw [Engine.runAll_concat, Outcome.andThen, hlater]
    exact ⟨hok, hpass, hdocument⟩

/-- A pass before others that all together meet no fault, and those that come behind it. -/
theorem Engine.split_run {e : Engine α} {d : Document α} {pass : LayoutPass}
    {later : List LayoutPass} (h : (e.runAll d (pass :: later)).fault = none) :
    (e.run d pass).fault = none ∧ (e.runAll (e.run d pass).document later).fault = none ∧
      (e.runAll d (pass :: later)).document = (e.runAll (e.run d pass).document later).document := by
  rw [Engine.runAll_cons] at h ⊢
  exact Outcome.of_andThen h

namespace Document

/-- Successful edits one after another, with the handles of the nodes that they have added and of the
parents that they have changed. -/
inductive EditedTo (d : Document α) : List Handle → Document α → Prop
  | refl : EditedTo d [] d
  | add {touched : List Handle} {d₁ d₂ : Document α} {parent child : Handle} {kind : NodeKind α}
      (h : EditedTo d touched d₁) (hok : d₁.add parent kind = (.ok child, d₂)) :
      EditedTo d (parent :: child :: touched) d₂
  | addNamed {touched : List Handle} {d₁ d₂ : Document α} {parent child : Handle} {id : String}
      {kind : NodeKind α} (h : EditedTo d touched d₁)
      (hok : d₁.addNamed parent id kind = .ok (child, d₂)) :
      EditedTo d (parent :: child :: touched) d₂
  | remove {touched : List Handle} {d₁ d₂ : Document α} {parent child : Handle}
      (h : EditedTo d touched d₁) (hok : d₁.remove parent child = .ok d₂) :
      EditedTo d (parent :: touched) d₂
  | detach {touched : List Handle} {d₁ d₂ : Document α} {parent node : Handle}
      (h : EditedTo d touched d₁) (hparent : d₁.parent? node = some parent)
      (hok : d₁.detach node = .ok d₂) : EditedTo d (parent :: touched) d₂

/-- What a layout and the edits after it mark. -/
structure MarksEdits (d : Document α) (e : Engine α) : Prop where
  /-- Behind a layout no node is marked but pages and systems. -/
  marked : ∀ n ∈ (e.layout d).document.score.toList, n.dirty → n.tag = .page ∨ n.tag = .system
  /-- The others have been in the score that the layout has prepared, and were none of its pages and
  systems. -/
  unmarked : ∀ n ∈ (e.layout d).document.score.toList, ¬ n.dirty →
    ∃ m ∈ d.prepare.document.score.toList, m.handle = n.handle ∧ m.id = n.id ∧ m.tag = n.tag ∧
      m ∉ d.prepare.document.pages ∧ m ∉ d.prepare.document.systems
  /-- So it marks all pages and systems of a score that has none of them inside of its music. -/
  frames : (∀ m ∈ d.prepare.document.score.toList, m.tag = .page ∨ m.tag = .system →
      m ∈ d.prepare.document.pages ∨ m ∈ d.prepare.document.systems) →
    ∀ n ∈ (e.layout d).document.score.toList, n.dirty ↔ n.tag = .page ∨ n.tag = .system
  /-- Edits add the nodes to these that they add to the document, and the parents that they change. -/
  edited : ∀ touched d', (e.layout d).document.EditedTo touched d' → ∀ n ∈ d'.score.toList,
    n.dirty ↔ n.handle ∈ touched ∨
      ∃ m ∈ (e.layout d).document.score.toList, m.handle = n.handle ∧ m.dirty

/-! ### Preparation -/

/-- The score that has been prepared carries no mark. -/
theorem clean_prepare {d : Document α} (hok : d.prepare.fault = none) :
    ∀ n ∈ d.prepare.document.score.toList, n.dirty = false := by
  rw [prepare] at hok ⊢
  split at hok
  · cases hok
  · rename_i d₁ h₁
    have hreset : ∀ n ∈ d₁.reset.score.toList, n.dirty = false := by
      rw [reset, score_withScore (R := fun _ n => n.dirty = false)
        (Forest.Forall₂.map_right Node.reset fun _ _ => rfl), Forest.toList_map]
      intro n hn
      obtain ⟨m, -, rfl⟩ := List.mem_map.1 hn
      rfl
    have hrun := Forest.forall₂_run (R := fun n n' : Node α => n'.dirty = n.dirty) (fun _ => rfl)
      (fun _ _ _ h h' => h'.trans h) (p := d₁.reset.anchorPass) (fun marks parent n => ?_)
      (fun _ _ _ below => ⟨rfl, .refl fun _ _ => rfl⟩) [] d₁.reset.score
    · intro n hn
      dsimp only [Outcome.done] at hn
      have hscore : Document.score { d₁.reset.anchorControls.2 with stage := .prepared } =
          (d₁.reset.score.run d₁.reset.anchorPass []).2.1 := score_withScore hrun
      obtain ⟨m, hm, hdirty⟩ := exists_mem_of_forall₂ hrun.toList (hscore ▸ hn)
      exact hdirty.trans (hreset m hm)
    · rw [anchorPass]
      dsimp only
      split
      · rename_i c _
        obtain ⟨layout, heq⟩ := d₁.reset.anchorNode_eq marks parent n c
        rw [heq]
      · rfl
      · rfl

/-! ### Layout -/

theorem forall₂_childNodes {d d' : Document α} (h : Forest.Forall₂ Node.SameMusic d.trees d'.trees)
    (i : Handle) : List.Forall₂ Node.SameMusic (d.childNodes i) (d'.childNodes i) := by
  have hbelow := h.childrenOf? (p := hasHandle i) (q := hasHandle i)
    fun n n' hn => by rw [hasHandle, hasHandle, hn.handle]
  rw [childNodes, childNodes, Document.below, Document.below]
  revert hbelow
  generalize d.trees.childrenOf? (hasHandle i) = found
  generalize d'.trees.childrenOf? (hasHandle i) = found'
  rintro (hb | _)
  · exact hb.roots
  · exact .nil

/-- A pass that keeps the trees keeps the pages and systems. -/
theorem frames_eq {d d' : Document α} (h : Forest.Forall₂ Node.SameMusic d.trees d'.trees) :
    d'.frames = d.frames := by
  have hsystems {pages pages' : List (Node α)} (hpages : List.Forall₂ Node.SameMusic pages pages') :
      List.Forall₂ Node.SameMusic (pages.flatMap fun n => d.childNodes n.handle)
        (pages'.flatMap fun n => d'.childNodes n.handle) := by
    induction hpages with
    | nil => exact .nil
    | @cons n n' _ _ hn _ ih =>
      rw [List.flatMap_cons, List.flatMap_cons, hn.handle]
      exact List.rel_append (forall₂_childNodes h n.handle) ih
  have hnamed {pages pages' : List (Node α)} (hpages : List.Forall₂ Node.SameMusic pages pages') :
      List.Forall₂ Node.SameMusic (pages.filter fun n => n.id ≠ contentPageId)
        (pages'.filter fun n => n.id ≠ contentPageId) := by
    induction hpages with
    | nil => exact .nil
    | @cons n n' _ _ hn _ ih =>
      rw [List.filter_cons, List.filter_cons, hn.id]
      split_ifs
      · exact .cons hn ih
      · exact ih
  have hpages : List.Forall₂ Node.SameMusic d.pages d'.pages := forall₂_childNodes h root
  rw [frames, frames, systems, systems,
    ← map_eq_of_forall₂ (fun _ _ h => h.handle.symm) (hsystems hpages),
    ← map_eq_of_forall₂ (fun _ _ h => h.handle.symm) (hnamed hpages)]

namespace Addressed

variable {d d' : Document α}

omit [Scalar α] in
/-- What is new in the score, and what has been there before, where nothing detached gets into it. -/
theorem score_of_renews {gone : List Handle} (hd' : d'.Addressed d.trees.rest.toList)
    (h : Renews gone d d') : ∀ n ∈ d'.score.toList, n.IsNewFrame ∨
      ∃ m ∈ d.score.toList, m.handle ∉ gone ∧ m.KeepsMark n := by
  intro n hn
  refine (h n ((score_sublist d').subset hn)).imp_right ?_
  rintro ⟨m, hm, hgone, hkeeps⟩
  refine ⟨m, ?_, hgone, hkeeps⟩
  rw [toList_eq_score_append d, List.mem_append] at hm
  refine hm.resolve_right fun hrest => hd'.not_kept_of_mem_score hn ?_
  rw [hkeeps.handle]
  exact List.mem_map_of_mem hrest

/-- Passes that make no frames leave all marks alone. -/
theorem renews_runAll {kept : List (Node α)} {d : Document α} (hd : d.Addressed kept) {e : Engine α}
    (passes : List LayoutPass) (hpasses : ∀ pass ∈ passes, pass ≠ .prepare ∧ pass ≠ .breakSystems)
    (hok : (e.runAll d passes).fault = none) :
    (e.runAll d passes).document.Addressed kept ∧ Renews [] d (e.runAll d passes).document := by
  induction passes using List.reverseRecOn with
  | nil => exact ⟨hd, .refl d⟩
  | append_singleton passes pass ih =>
    rw [List.forall_mem_append, List.forall_mem_singleton] at hpasses
    obtain ⟨hbefore, hpass, hdocument⟩ := Engine.of_runAll_concat hok
    obtain ⟨hd₁, hrenews⟩ := ih hpasses.1 hbefore
    have hstep := hd₁.renews_run e hpasses.2.1 hpass
    rw [if_neg hpasses.2.2] at hstep
    rw [hdocument]
    exact ⟨hd₁.run e pass, hrenews.trans hstep⟩

/-- What the passes behind the preparation make of the score: no page and no system stays. -/
theorem renews_prepared {p : Document α} (hp : p.Addressed []) {e : Engine α}
    (hok : (e.runAll p LayoutPass.all.tail).fault = none) :
    ∀ n ∈ (e.runAll p LayoutPass.all.tail).document.score.toList, n.IsNewFrame ∨
      ∃ m ∈ p.score.toList, m.KeepsMark n ∧ m ∉ p.pages ∧ m ∉ p.systems := by
  obtain ⟨-, hok, heq₁⟩ := Engine.split_run hok
  obtain ⟨-, hok, heq₂⟩ := Engine.split_run hok
  obtain ⟨hsystems, hok, heq₃⟩ := Engine.split_run hok
  obtain ⟨-, hok, heq₄⟩ := Engine.split_run hok
  obtain ⟨hpages, hok, heq₅⟩ := Engine.split_run hok
  rw [show (e.runAll p LayoutPass.all.tail).document = _ from
    heq₁.trans (heq₂.trans (heq₃.trans (heq₄.trans heq₅)))]
  -- the passes before systems are broken keep the trees, and with them the frames
  have hsame : p.SameTree (e.run (e.run p .align).document .space).document :=
    (p.sameTree_align e.metrics e.options.scaledUnit).trans (sameTree_space _ e.options)
  have hp₂ : Addressed p.trees.rest.toList (e.run (e.run p .align).document .space).document :=
    (hp.keeps_rest.run e .align).run e .space
  have hrenews₂ : Renews [] p (e.run (e.run p .align).document .space).document :=
    (renews_align p e.metrics e.options.scaledUnit).trans (renews_space _ e.options)
  have hframes := frames_eq hsame.trees
  generalize (e.run (e.run p .align).document .space).document = p₂ at *
  have hrenews₄ : Renews _ p (e.run (e.run p₂ .breakSystems).document .stackStaves).document :=
    (hrenews₂.trans (hp₂.renews_breakSystems hsystems)).trans
      (renews_stackStaves (e.run p₂ .breakSystems).document e.options e.metrics)
  have hp₄ : Addressed p.trees.rest.toList (e.run (e.run p₂ .breakSystems).document
    .stackStaves).document := (hp₂.run e .breakSystems).run e .stackStaves
  generalize (e.run (e.run p₂ .breakSystems).document .stackStaves).document = p₄ at *
  obtain ⟨hrenews₅, hcontent⟩ := hp₄.new_or_kept_of_breakPages hpages
  have hp₅ := hp₄.run e .breakPages
  rw [show p₄.breakPages e.options = e.run p₄ .breakPages from rfl] at hrenews₅ hcontent
  generalize (e.run p₄ .breakPages).document = p₅ at *
  have hpasses : ∀ pass ∈ [LayoutPass.fillLines, .fillPages, .place],
      pass ≠ .prepare ∧ pass ≠ .breakSystems := by decide
  obtain ⟨hp₆, hrenews₆⟩ := renews_runAll hp₅ _ hpasses hok
  obtain ⟨hp₆', -⟩ := renews_runAll hp₅.keeps_rest _ hpasses hok
  intro n hn
  obtain hnew | ⟨m₅, hm₅, -, hkeeps₅⟩ := score_of_renews hp₆' hrenews₆ n hn
  · exact .inl hnew
  obtain hnew | hid := hcontent m₅ hm₅
  · exact .inl (hnew.of_keepsMark hkeeps₅)
  refine (score_of_renews hp₆ ((hrenews₄.trans hrenews₅).trans hrenews₆) n hn).imp_right ?_
  rintro ⟨m, hm, hgone, hkeeps⟩
  rw [hframes] at hgone
  refine ⟨m, hm, hkeeps, fun hpage => hgone ?_, fun hsystem => hgone ?_⟩
  · have hmid : m.id ≠ contentPageId := by rwa [← hkeeps.id, hkeeps₅.id]
    simp only [List.nil_append, List.append_nil, frames]
    exact List.mem_append_right _
      (List.mem_map_of_mem (List.mem_filter.2 ⟨hpage, by simpa using hmid⟩))
  · simp only [List.nil_append, List.append_nil, frames]
    exact List.mem_append_left _ (List.mem_map_of_mem hsystem)

/-- The nodes of a finished layout: frames that it has made, and nodes of the score that it has
prepared, which are neither a page nor a system of that. -/
theorem marks_layout {d : Document α} (hd : d.Addressed []) {e : Engine α}
    (hok : (e.layout d).fault = none) :
    ∀ n ∈ (e.layout d).document.score.toList, n.IsNewFrame ∨ n.dirty = false ∧
      ∃ m ∈ d.prepare.document.score.toList, m.KeepsMark n ∧
        m ∉ d.prepare.document.pages ∧ m ∉ d.prepare.document.systems := by
  obtain ⟨hprepare, hok, hdocument⟩ := Engine.split_run hok
  have hclean := clean_prepare hprepare
  have hprepared : d.prepare.document.Addressed [] := hd.prepare
  rw [show (e.layout d).document = _ from hdocument]
  rw [show (e.run d .prepare).document = d.prepare.document from rfl] at hok ⊢
  generalize d.prepare.document = p at hok hclean hprepared ⊢
  refine fun n hn => (hprepared.renews_prepared hok n hn).imp_right ?_
  rintro ⟨m, hm, hkeeps, hframe⟩
  exact ⟨hkeeps.dirty.trans (hclean m hm), m, hm, hkeeps, hframe⟩

end Addressed

/-! ### Further edits -/

omit [Scalar α] in
/-- A document that has got marks at some handles, and the nodes of another one at all others. -/
def Marks (touched : List Handle) (d d' : Document α) : Prop :=
  ∀ n' ∈ d'.trees.toList, (n'.handle ∈ touched → n'.dirty) ∧
    (n'.handle ∉ touched → ∃ n ∈ d.trees.toList, n.handle = n'.handle ∧ n'.dirty = n.dirty)

omit [Scalar α] in
theorem Marks.refl (d : Document α) : Marks [] d d := fun n hn =>
  ⟨fun h => absurd h List.not_mem_nil, fun _ => ⟨n, hn, rfl, rfl⟩⟩

omit [Scalar α] in
theorem Marks.trans {touched touched' : List Handle} {d d₁ d₂ : Document α}
    (h : Marks touched d d₁) (h' : Marks touched' d₁ d₂) : Marks (touched' ++ touched) d d₂ := by
  intro n₂ hn₂
  obtain ⟨hmarked', hkept'⟩ := h' n₂ hn₂
  by_cases ht' : n₂.handle ∈ touched'
  · exact ⟨fun _ => hmarked' ht', fun h => absurd (List.mem_append_left _ ht') h⟩
  · obtain ⟨n₁, hn₁, hh, hdirty⟩ := hkept' ht'
    obtain ⟨hmarked, hkept⟩ := h n₁ hn₁
    rw [List.mem_append, or_iff_right ht', hdirty, ← hh]
    exact ⟨hmarked, hkept⟩

omit [Scalar α] in
theorem marks_markDirty (d : Document α) (h : Handle) : Marks [h] d (d.markDirty h) := by
  intro n' hn'
  rw [markDirty, Document.modify, Forest.modify, Forest.toList_map] at hn'
  obtain ⟨n, hn, rfl⟩ := List.mem_map.1 hn'
  rw [List.mem_singleton]
  by_cases hh : n.handle = h
  · rw [if_pos (by simpa [hasHandle] using hh)]
    exact ⟨fun _ => rfl, fun hne => absurd hh hne⟩
  · rw [if_neg (by simpa [hasHandle] using hh)]
    exact ⟨fun heq => absurd heq hh, fun _ => ⟨n, hn, rfl, rfl⟩⟩

namespace Addressed

variable {kept : List (Node α)} {d d' : Document α} (hd : d.Addressed kept)

include hd

/-- A node that is added is marked, and so is its parent. -/
theorem marks_addNamed {parent child : Handle} {id : String} {kind : NodeKind α}
    (hok : d.addNamed parent id kind = .ok (child, d')) : Marks [parent, child] d d' := by
  rw [Document.addNamed] at hok
  split at hok
  · cases hok
  split_ifs at hok
  have hchild : d.allocate.1 = child := (Prod.mk.inj (Except.ok.inj hok)).1
  have hinserted : Marks [d.allocate.1] d (d.allocate.2.attach parent
      (.tree (.new d.allocate.1 id kind) .nil)) := by
    intro n hn
    rw [attach, allocate_trees] at hn
    rw [List.mem_singleton]
    obtain rfl | hn := List.mem_cons.1 ((toList_graft_subperm hd.nodup_handles _).subset hn)
    · exact ⟨fun _ => rfl, fun hne => absurd rfl hne⟩
    · exact ⟨fun hh => absurd (hh ▸ List.mem_map_of_mem hn) hd.allocate_not_mem,
        fun _ => ⟨n, hn, rfl, rfl⟩⟩
  rw [← (Prod.mk.inj (Except.ok.inj hok)).2, ← hchild]
  exact hinserted.trans (marks_markDirty _ parent)

theorem marks_add {parent child : Handle} {kind : NodeKind α}
    (hok : d.add parent kind = (.ok child, d')) : Marks [parent, child] d d' := by
  have hcount : Addressed kept { d with counter := (d.freshId kind.name).2 } :=
    hd.of_eq rfl rfl rfl
  rw [Document.add] at hok
  dsimp only at hok
  split at hok
  · rename_i hadded
    obtain ⟨h, rfl⟩ := Prod.mk.inj hok
    exact Except.ok.inj h ▸ hcount.marks_addNamed hadded
  · cases (Prod.mk.inj hok).1

omit [Scalar α] in
omit hd in
/-- The parent of a node that is taken out is marked. -/
theorem marks_remove {parent child : Handle} (hok : d.remove parent child = .ok d') :
    Marks [parent] d d' := by
  rw [Document.remove] at hok
  split_ifs at hok
  rw [← Except.ok.inj hok]
  have hcut : Marks [] d (d.cut child) := fun n hn => ⟨fun h => absurd h List.not_mem_nil,
    fun _ => ⟨n, (WellFormed.toList_cut_perm child).mem_iff.1 hn, rfl, rfl⟩⟩
  exact hcut.trans (marks_markDirty _ parent)

omit [Scalar α] hd in
theorem marks_detach {parent node : Handle} (hparent : d.parent? node = some parent)
    (hok : d.detach node = .ok d') : Marks [parent] d d' := by
  rw [Document.detach, hparent] at hok
  split_ifs at hok
  exact marks_remove hok

/-- Edits mark the nodes that they add and the parents that they change. -/
theorem marks_editedTo {touched : List Handle} (h : d.EditedTo touched d') :
    d'.Addressed kept ∧ Marks touched d d' := by
  induction h with
  | refl => exact ⟨hd, .refl d⟩
  | @add _ _ _ parent _ kind _ hok ih =>
    have hadded := ih.1.add parent kind
    rw [hok] at hadded
    exact ⟨hadded, ih.2.trans (ih.1.marks_add hok)⟩
  | addNamed _ hok ih => exact ⟨ih.1.addNamed hok, ih.2.trans (ih.1.marks_addNamed hok)⟩
  | remove _ hok ih => exact ⟨ih.1.remove hok, ih.2.trans (marks_remove hok)⟩
  | detach _ hparent hok ih => exact ⟨ih.1.detach hok, ih.2.trans (marks_detach hparent hok)⟩

end Addressed

/-! ### What is marked -/

theorem Addressed.marksEdits {d : Document α} (hd : d.Addressed []) {e : Engine α}
    (hok : (e.layout d).fault = none) : d.MarksEdits e := by
  have hnodes := hd.marks_layout hok
  have hlaid := hd.layout e
  have hmarked : ∀ n ∈ (e.layout d).document.score.toList, n.dirty →
      n.tag = .page ∨ n.tag = .system := by
    intro n hn hdirty
    obtain hnew | ⟨hclean, -⟩ := hnodes n hn
    · exact hnew.2
    · rw [hclean] at hdirty
      cases hdirty
  have hunmarked : ∀ n ∈ (e.layout d).document.score.toList, ¬ n.dirty →
      ∃ m ∈ d.prepare.document.score.toList, m.handle = n.handle ∧ m.id = n.id ∧ m.tag = n.tag ∧
        m ∉ d.prepare.document.pages ∧ m ∉ d.prepare.document.systems := by
    intro n hn hdirty
    obtain hnew | ⟨-, m, hm, hkeeps, hframe⟩ := hnodes n hn
    · exact absurd hnew.1 hdirty
    · exact ⟨m, hm, hkeeps.handle.symm, hkeeps.id.symm, hkeeps.tag.symm, hframe⟩
  refine ⟨hmarked, hunmarked, fun hinside n hn => ⟨hmarked n hn, fun htag => ?_⟩, ?_⟩
  · by_contra hclean
    obtain ⟨m, hm, -, -, hmtag, hpage, hsystem⟩ := hunmarked n hn hclean
    exact (hinside m hm (hmtag ▸ htag)).elim hpage hsystem
  · intro touched d' hedits n hn
    obtain ⟨hd', hmarks⟩ := hlaid.keeps_rest.marks_editedTo hedits
    obtain ⟨htouched, hkept⟩ := hmarks n ((score_sublist d').subset hn)
    by_cases ht : n.handle ∈ touched
    · exact iff_of_true (htouched ht) (.inl ht)
    · obtain ⟨m, hm, hh, hdirty⟩ := hkept ht
      have hlive : m ∈ (e.layout d).document.score.toList := by
        rw [toList_eq_score_append, List.mem_append] at hm
        refine hm.resolve_right fun hrest => hd'.not_kept_of_mem_score hn ?_
        exact hh ▸ List.mem_map_of_mem hrest
      rw [or_iff_right ht, hdirty]
      refine ⟨fun h => ⟨m, hlive, hh, h⟩, ?_⟩
      rintro ⟨m', hm', hh', h⟩
      rwa [List.inj_on_of_nodup_map hlaid.nodup_handles ((score_sublist _).subset hlive)
        ((score_sublist _).subset hm') (hh.trans hh'.symm)]

/-- Whatever identifiers a caller has chosen, a layout that meets no fault marks the pages and systems
that it makes, and edits that follow what they add and change. -/
theorem FreelyReachable.marks_edits {d : Document α} (h : d.FreelyReachable) {e : Engine α}
    (hok : (e.layout d).fault = none) : d.MarksEdits e :=
  h.addressed.marksEdits hok

omit [Scalar α] in
/-- The pages and systems of a score stand right below its root and right below its pages. -/
theorem WellFormed.mem_pages_or_systems {d : Document α} (hd : d.WellFormed) {n : Node α}
    (hn : n ∈ d.score.toList) (ht : n.tag = .page ∨ n.tag = .system) :
    n ∈ d.pages ∨ n ∈ d.systems := by
  obtain ⟨r, pages, hshape⟩ := hd.exists_shape
  have hpage {m : Node α} (hm : m ∈ d.score.toList) (ht : m.tag = .page) : m ∈ d.pages :=
    hshape.pages_eq ▸ hshape.mem_roots_of_tag hm ht
  refine ht.imp (hpage hn) fun ht => ?_
  rw [hshape.score, Forest.toList_tree] at hn
  obtain rfl | hn := List.mem_cons.1 hn
  · rw [hshape.root_tag] at ht
    cases ht
  · obtain ⟨a, hl⟩ := Forest.exists_link_some r hn
    have ha : a.tag = .page := NodeKind.eq_page_of_accepts (hshape.accepts hl) ht
    have hlink : (some a, n) ∈ d.trees.links none := by
      rw [hshape.trees, Forest.links]
      exact List.mem_cons_of_mem _ (List.mem_append_left _ hl)
    have hlive : a ∈ d.score.toList := by
      rw [hshape.score, Forest.toList_tree]
      exact List.mem_cons.2 ((Forest.mem_of_mem_links hl).imp_left fun h => (Option.some.inj h).symm)
    exact List.mem_flatMap.2 ⟨a, hpage hlive ha, hd.mem_childNodes_iff.2 ⟨a, hlink, rfl⟩⟩

theorem Reachable.freelyReachable {d : Document α} (h : d.Reachable) : d.FreelyReachable := by
  induction h with
  | ofDefinition definition => exact .ofDefinition definition
  | contentSystem _ h => exact h.contentSystem
  | add _ parent kind h => exact h.add parent kind
  | addNamed _ _ hok h => exact h.addNamed hok
  | remove _ hok h => exact h.remove hok
  | detach _ hok h => exact h.detach hok
  | collect _ h => exact h.collect
  | layout _ e h => exact h.layout e
  | pass _ e pass _ h => exact h.pass e pass

/-- A finished layout of a document whose caller keeps off the reserved identifiers carries the marks
of its pages and systems, and no other ones. -/
theorem Reachable.marked_iff {d : Document α} (h : d.Reachable) {e : Engine α}
    (hok : (e.layout d).fault = none) : ∀ n ∈ (e.layout d).document.score.toList,
      n.dirty ↔ n.tag = .page ∨ n.tag = .system :=
  (h.freelyReachable.addressed.marksEdits hok).frames fun _ hm ht =>
    (h.wellFormed.run e .prepare).mem_pages_or_systems hm ht

/-- A layout marks its page and its system, and a staff that is added behind it is marked with the
measure that takes it. -/
theorem FreelyReachable.marks_edits_of_staff : ∃ d : Document ℚ, d.FreelyReachable ∧
    (Engine.default.layout d).fault = none ∧ d.MarksEdits .default ∧
    ∃ d', (Engine.default.layout d).document.EditedTo [3, 1] d' ∧
      (d'.score.toList.filter Node.dirty).map Node.id =
        ["page-1", "system-1", "measure-0001", "staff-0002"] := by
  have hd := (FreelyReachable.ofDefinition (α := ℚ) default).contentSystem.add 2
    (.measure (.ofNumber 1))
  generalize hlaid : Engine.default.layout ((Document.ofDefinition (α := ℚ) default).contentSystem.2.add
    2 (.measure (.ofNumber 1))).2 = laid
  have hok : laid.fault = none := by
    rw [← hlaid]
    decide +kernel
  have hadd : (laid.document.add 3 (.staff ⟨1, false⟩)).1.toOption = some 1 := by
    rw [← hlaid]
    decide +kernel
  refine ⟨_, hd, hlaid ▸ hok, hd.marks_edits (hlaid ▸ hok),
    (laid.document.add 3 (.staff ⟨1, false⟩)).2, ?_, ?_⟩
  · rw [hlaid]
    have hok : laid.document.add 3 (.staff ⟨1, false⟩) =
        (.ok 1, (laid.document.add 3 (.staff ⟨1, false⟩)).2) := Prod.ext ?_ rfl
    · exact .add .refl hok
    generalize (laid.document.add 3 (.staff ⟨1, false⟩)).1 = added at hadd ⊢
    cases added with
    | ok h => exact congrArg Except.ok (Option.some.inj hadd)
    | error e => cases hadd
  · rw [← hlaid]
    decide +kernel

/-- The page and the system that a layout has made count as edited since then. -/
theorem Reachable.marks_new_page : ∃ d : Document ℚ, d.Reachable ∧
    (Engine.default.layout d).fault = none ∧
    ((Engine.default.layout d).document.score.toList.filter Node.dirty).map Node.id =
      ["page-1", "system-1"] :=
  ⟨_, (Reachable.ofDefinition (α := ℚ) default).contentSystem.add 2 (.measure (.ofNumber 1)),
    by decide +kernel, by decide +kernel⟩

end Document

end ScoreLayout
