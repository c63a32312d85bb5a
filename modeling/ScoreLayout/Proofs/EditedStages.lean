import Mathlib.Logic.Relation
import ScoreLayout.DisplayList
import ScoreLayout.Proofs.InRange
import ScoreLayout.Proofs.Layout.ContentSymbols

/-!
# Edits of a finished layout

The stage of a document is a promise about the tree that it stands for: positions, counts and the
display list are read off the tree as long as the stage says that they are there. An edit that
changes the score takes the stage back to the first one, and an edit that leaves the stage alone
leaves the score alone. So a document that is still finished shows what its last layout has made.

The system that holds unbroken content is the exception, which is a defect: it is made on demand, and
where a layout has put pages in its place, it is made a further page of a document that still counts
as finished.

## Main definitions

* `Document.Edited` — one edit by a caller.
* `Document.SameLive` — the same nodes belong to the score, each with the same children.
* `Document.ShowsSame` — two documents that answer for one layout.
* `Document.KeepsUp` — the stage of a document keeps up with edits.

## Main results

* `Document.Edited.stage_or_score` — what an edit takes back, or leaves alone.
* `Document.stage_keeps_up` — a document that is still finished shows its last layout.
* `Document.Reachable.finished_with_further_page` — the exception.
-/

namespace ScoreLayout

variable {α : Type}

/-! ### Looking into the first tree -/

namespace Forest

variable {β : Type} {p : β → Bool}

theorem childrenOf?_append (f g : Forest β) :
    (f ++ g).childrenOf? p = (f.childrenOf? p <|> g.childrenOf? p) := by
  induction f with
  | nil => simp [childrenOf?]
  | cons b children siblings _ hs =>
    rw [cons_append, childrenOf?, childrenOf?, hs]
    split
    · rfl
    · cases children.childrenOf? p <;> rfl

theorem isSome_childrenOf? (f : Forest β) : (f.childrenOf? p).isSome = (f.find? p).isSome := by
  induction f with
  | nil => rfl
  | cons b children siblings hc hs =>
    rw [childrenOf?, find?]
    split
    · rfl
    · cases hfind : children.find? p <;> cases hbelow : children.childrenOf? p <;>
        simp_all

/-- The trees below a label of a forest are made of its labels. -/
theorem subset_of_childrenOf? {f below : Forest β} (h : f.childrenOf? p = some below) :
    below.toList ⊆ f.toList := by
  induction f with
  | nil => cases h
  | cons b children siblings hc hs =>
    rw [childrenOf?] at h
    rw [toList]
    split at h
    · cases h
      exact fun c hc => List.mem_cons_of_mem _ (List.mem_append_left _ hc)
    · cases hchildren : children.childrenOf? p with
      | some found =>
        rw [hchildren] at h
        cases h
        exact fun c h => List.mem_cons_of_mem _ (List.mem_append_left _ (hc hchildren h))
      | none =>
        rw [hchildren] at h
        exact fun c hc => List.mem_cons_of_mem _ (List.mem_append_right _ (hs h hc))

end Forest

namespace Document

variable {d d' d₁ d₂ : Document α}

/-! ### Documents with one score -/

/-- What stands below a node of the score does not depend on what is detached. -/
theorem below_of_isLive {i : Handle} (hi : d.isLive i) :
    d.below i = (d.score.childrenOf? (hasHandle i)).getD .nil := by
  have hsome : (d.score.childrenOf? (hasHandle i)).isSome := by
    rw [Forest.isSome_childrenOf?]
    exact hi
  obtain ⟨below, hbelow⟩ := Option.isSome_iff_exists.1 hsome
  rw [Document.below, ← first_append_rest d.trees, Forest.childrenOf?_append]
  show ((d.score.childrenOf? _ <|> _).getD _) = _
  rw [hbelow]
  rfl

/-- The same nodes belong to the score, each with the same children. -/
structure SameLive (d d' : Document α) : Prop where
  live : ∀ i, d'.isLive i = d.isLive i
  children : ∀ i, d.isLive i → d'.children i = d.children i

theorem childNodes_of_score (h : d'.score = d.score) {i : Handle} (hi : d.isLive i) :
    d'.childNodes i = d.childNodes i := by
  have hi' : d'.isLive i := by rwa [isLive, h]
  rw [childNodes, childNodes, below_of_isLive hi, below_of_isLive hi', h]

theorem sameLive_of_score (h : d'.score = d.score) : d.SameLive d' where
  live i := by rw [isLive, isLive, h]
  children i hi := by rw [Document.children, Document.children, childNodes_of_score h hi]

/-- What stands directly below a node of the score belongs to the score. -/
theorem isLive_of_mem_childNodes {i : Handle} (hi : d.isLive i) {n : Node α}
    (hn : n ∈ d.childNodes i) : d.isLive n.handle := by
  rw [childNodes, below_of_isLive hi] at hn
  cases hbelow : d.score.childrenOf? (hasHandle i) with
  | none =>
    rw [hbelow] at hn
    exact absurd hn List.not_mem_nil
  | some below =>
    rw [hbelow] at hn
    exact (isLive_iff d _).2
      ⟨n, Forest.subset_of_childrenOf? hbelow (Forest.mem_toList_of_mem_roots hn), rfl⟩

/-- Two documents that answer for one layout. -/
structure ShowsSame [Scalar α] (d d' : Document α) : Prop where
  pageCount : d'.pageCount = d.pageCount
  systemCount : d'.systemCount = d.systemCount
  displayList : ∀ options, d'.displayList options = d.displayList options

/-- All that a document shows is read off its score. -/
theorem showsSame_of_score [Scalar α] (hroot : d.isLive root) (hscore : d'.score = d.score)
    (hstage : d'.stage = d.stage) : d.ShowsSame d' := by
  have hpages : d'.pages = d.pages := childNodes_of_score hscore hroot
  have hsystems : d'.systems = d.systems := by
    rw [systems, systems, hpages]
    exact List.flatMap_congr fun page hpage =>
      childNodes_of_score hscore (isLive_of_mem_childNodes hroot hpage)
  constructor
  · rw [pageCount, pageCount, hpages, hstage]
  · rw [systemCount, systemCount, hsystems, hstage]
  · intro options
    rw [Document.displayList, Document.displayList, hscore, hstage]

/-! ### Edits -/

variable [Scalar α]

/-- One edit by a caller, who asks for the system that holds unbroken content only where it is there
or where the document is not laid out. -/
inductive Edited (d : Document α) : Document α → Prop
  | contentSystem (h : (d.findLive? contentSystemId).isSome ∨ d.stage = .built) :
      Edited d d.contentSystem.2
  | add (parent : Handle) (kind : NodeKind α) : Edited d (d.add parent kind).2
  | addNamed {d' : Document α} {parent child : Handle} {id : String} {kind : NodeKind α}
      (hok : d.addNamed parent id kind = .ok (child, d')) : Edited d d'
  | remove {d' : Document α} {parent child : Handle} (hok : d.remove parent child = .ok d') :
      Edited d d'
  | detach {d' : Document α} {node : Handle} (hok : d.detach node = .ok d') : Edited d d'
  | collect : Edited d d.collect.2

/-- An edit takes the document back to the first stage, or it leaves stage and score alone. -/
theorem Edited.stage_or_score (h : d.Edited d') :
    d'.stage = .built ∨ d'.stage = d.stage ∧ d'.score = d.score := by
  cases h with
  | contentSystem h =>
    rcases h with h | h
    · obtain ⟨system, hsystem⟩ := Option.isSome_iff_exists.1 h
      rw [contentSystem_eq, hsystem]
      exact .inr ⟨rfl, rfl⟩
    · exact .inl ((stage_contentSystem d).trans h)
  | add parent kind =>
    rw [Document.add]
    dsimp only
    split
    · rename_i hok
      exact .inl (stage_addNamed hok)
    · exact .inr ⟨rfl, rfl⟩
  | addNamed hok => exact .inl (stage_addNamed hok)
  | remove hok => exact .inl (stage_remove hok)
  | detach hok =>
    rw [Document.detach] at hok
    split_ifs at hok
    split at hok
    · exact .inl (stage_remove hok)
    · exact Except.ok.inj hok ▸ .inr ⟨rfl, rfl⟩
  | collect =>
    rw [collect_eq, score, score]
    exact .inr ⟨rfl, by cases d.trees <;> rfl⟩

/-- Edits one after another that leave a document finished have left its score alone. -/
theorem score_of_edits (h : Relation.ReflTransGen Edited d d') (hstage : d'.stage = .finalized) :
    d.stage = .finalized ∧ d'.score = d.score := by
  induction h with
  | refl => exact ⟨hstage, rfl⟩
  | tail _ hedit ih =>
    obtain hbuilt | ⟨hsame, hscore⟩ := hedit.stage_or_score
    · rw [hbuilt] at hstage
      cases hstage
    · obtain ⟨hd, hscore'⟩ := ih (hsame.symm.trans hstage)
      exact ⟨hd, hscore.trans hscore'⟩

/-- The stage of a document keeps up with its edits. -/
structure KeepsUp (d : Document α) : Prop where
  /-- An edit that changes what belongs to the score, or what stands below a part of it, takes the
  document back to the first stage. -/
  edit : ∀ d', d.Edited d' → ¬ d.SameLive d' → d'.stage = .built
  /-- After a layout and edits a document that is still finished answers for that layout. -/
  shows : ∀ (e : Engine α) d', (e.layout d).document.isLive root →
    Relation.ReflTransGen Edited (e.layout d).document d' → d'.stage = .finalized →
      (e.layout d).document.stage = .finalized ∧ (e.layout d).document.ShowsSame d'

/-- Whatever the document, its stage keeps up with its edits. -/
theorem stage_keeps_up (d : Document α) : d.KeepsUp where
  edit d' h hchanged := h.stage_or_score.resolve_right fun hsame =>
    hchanged (sameLive_of_score hsame.2)
  shows e d' hroot h hstage := by
    obtain ⟨hfinished, hscore⟩ := score_of_edits h hstage
    exact ⟨hfinished, showsSame_of_score hroot hscore (hstage.trans hfinished.symm)⟩

theorem Reachable.isLive_root (h : d.Reachable) : d.isLive root := h.wellFormed.isLive_root

/-- The end of what has been detached before a layout. -/
theorem stage_keeps_up_with_collect : ∃ d : Document Float, d.Reachable ∧ d.trees.rest.size = 1 ∧
    (Engine.default.layout d).document.collect.2.stage = .finalized ∧
      (Engine.default.layout d).document.ShowsSame
        (Engine.default.layout d).document.collect.2 := by
  have hd := (((Reachable.ofDefinition (α := Float) default).contentSystem.add 2
    (.measure (.ofNumber 1))).add 2 (.measure (.ofNumber 2))).remove
    (show Document.remove _ 2 3 = _ from rfl)
  have hroot := (hd.layout .default).isLive_root
  refine ⟨_, hd, by decide +kernel, ?_, ((stage_keeps_up _).shows .default _ hroot
    (.single .collect) ?_).2⟩ <;> decide +kernel

/-- Asking a finished document for the system of unbroken content gives it a second page. -/
theorem Reachable.finished_with_further_page : ∃ d : Document Float, d.Reachable ∧
    d.stage = .finalized ∧ d.contentSystem.2.stage = .finalized ∧
      d.pageCount = 1 ∧ d.contentSystem.2.pageCount = 2 :=
  ⟨_, ((Reachable.ofDefinition (α := Float) default).contentSystem.add 2
    (.measure (.ofNumber 1))).layout .default, by decide +kernel, by decide +kernel,
    by decide +kernel, by decide +kernel⟩

end Document

end ScoreLayout
