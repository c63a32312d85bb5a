import ScoreLayout.Proofs.Exact
import ScoreLayout.Proofs.Forest.Surgery
import ScoreLayout.Proofs.Reachable

/-!
# One order for all walks

The walks that look, the walks that change labels, the walk with a stack and the searches all go
through a tree in one order. A walk that is told to go on throughout enters every node once, in the
order in which its descendants are listed, and leaves it after all that is below it and before it
enters what comes beside it. A search finds the first node in this order at which it is told to stop,
among those that are not below one whose children it is told to pass over.

## Main definitions

* `Forest.events` — what a walk that goes on throughout does.
* `Visitor.recorded`, `Pass.recorded` — callbacks that record what the walk does.
* `Document.WalkOrder` — events in the order of the document.
* `IsFirst` — the first item of a list with a property, or none.

## Main results

* `Forest.visit_recorded`, `Forest.runWithin_recorded` — both kinds of walks do the same.
* `Forest.isFirst_findFirst` — what a search finds.
* `Document.Reachable.oneOrder` — all walks through a document.
-/

namespace ScoreLayout

/-! ### Events -/

namespace WalkEvent

variable {β : Type}

/-- The label that is entered. -/
def entered? : WalkEvent β → Option β
  | entered b => some b
  | left _ => none

end WalkEvent

variable {β κ σ : Type}

/-- A visitor that tells every walk to go on. -/
def Visitor.Proceeds (v : Visitor σ β) : Prop :=
  (∀ s b, (v.enter s b).2 = .proceed) ∧ ∀ s b, (v.leave s b).2 = .proceed

/-- The visitor with a record of the keys of what it enters and leaves. -/
def Visitor.recorded (v : Visitor σ β) (key : β → κ) : Visitor (σ × List (WalkEvent κ)) β where
  enter s b := (((v.enter s.1 b).1, s.2 ++ [.entered (key b)]), (v.enter s.1 b).2)
  leave s b := (((v.leave s.1 b).1, s.2 ++ [.left (key b)]), (v.leave s.1 b).2)

/-- A pass that tells every walk to go on and keeps the keys of all labels and their places. -/
structure Pass.Keeps (p : Pass σ β) (key : β → κ) : Prop where
  enter : ∀ s parent b, key (p.enter s parent b).2.1 = key b ∧ (p.enter s parent b).2.2 = .proceed
  leave : ∀ s whole b children, key (p.leave s whole b children).2.1 = key b ∧
    (p.leave s whole b children).2.2.1.map key = children.map key ∧
      (p.leave s whole b children).2.2.2 = .proceed

/-- The pass with a record of the keys of what it enters and leaves. -/
def Pass.recorded (p : Pass σ β) (key : β → κ) : Pass (σ × List (WalkEvent κ)) β where
  enter s parent b :=
    (((p.enter s.1 parent b).1, s.2 ++ [.entered (key b)]), (p.enter s.1 parent b).2)
  leave s whole b children := (((p.leave s.1 whole b children).1, s.2 ++ [.left (key b)]),
    (p.leave s.1 whole b children).2)

namespace Forest

/-- What a walk that goes on throughout does. -/
def events : Forest β → List (WalkEvent β)
  | nil => []
  | cons b children siblings => .entered b :: (children.events ++ .left b :: siblings.events)

variable {f below : Forest β} {b c : β}

theorem filterMap_entered?_events (f : Forest β) :
    f.events.filterMap WalkEvent.entered? = f.toList := by
  induction f with
  | nil => rfl
  | cons b children siblings hc hs =>
    rw [events, toList, List.filterMap_cons_some (f := WalkEvent.entered?) rfl,
      List.filterMap_append, hc, List.filterMap_cons_none (f := WalkEvent.entered?) rfl, hs]

theorem mem_events_iff {f : Forest β} {b : β} :
    (.entered b ∈ f.events ↔ b ∈ f.toList) ∧ (.left b ∈ f.events ↔ b ∈ f.toList) := by
  induction f with
  | nil => simp [events, toList]
  | cons c children siblings hc hs =>
    simp [events, toList, hc.1, hc.2, hs.1, hs.2]
    tauto

theorem nodup_events (h : f.toList.Nodup) : f.events.Nodup := by
  induction f with
  | nil => exact List.nodup_nil
  | cons b children siblings hc hs =>
    rw [toList, List.nodup_cons, List.nodup_append, List.mem_append, not_or] at h
    obtain ⟨⟨hbc, hbs⟩, hcn, hsn, hdisjoint⟩ := h
    rw [events, List.nodup_cons, List.mem_append, List.mem_cons, List.nodup_append, List.nodup_cons]
    refine ⟨?_, hc hcn, ⟨mem_events_iff.2.not.2 hbs, hs hsn⟩, ?_⟩
    · rintro (h | h | h)
      · exact hbc (mem_events_iff.1.1 h)
      · cases h
      · exact hbs (mem_events_iff.1.1 h)
    · rintro e he e' he' rfl
      cases e with
      | entered c =>
        rcases List.mem_cons.1 he' with h | h
        · cases h
        · exact hdisjoint c (mem_events_iff.1.1 he) c (mem_events_iff.1.1 h) rfl
      | left c =>
        rcases List.mem_cons.1 he' with h | h
        · cases h
          exact hbc (mem_events_iff.2.1 he)
        · exact hdisjoint c (mem_events_iff.2.1 he) c (mem_events_iff.2.1 h) rfl

/-- A walk enters a label, goes through what is below it, and leaves it. -/
theorem HasTree.sublist_events (h : HasTree b below f) :
    (.entered b :: (below.events ++ [.left b])).Sublist f.events := by
  induction h with
  | here siblings =>
    rw [events]
    refine .cons_cons _ (.append_left ?_ _)
    exact List.singleton_sublist.2 List.mem_cons_self
  | deeper siblings _ ih =>
    rw [events]
    exact (ih.trans (List.sublist_append_left ..)).cons _
  | beside c children _ ih =>
    rw [events]
    exact ((ih.cons _).trans (List.sublist_append_right ..)).cons _

/-- A walk leaves a tree before it enters a later one. -/
theorem sublist_events_of_roots (h : [b, c].Sublist f.roots) :
    [WalkEvent.left b, .entered c].Sublist f.events := by
  induction f with
  | nil => cases h
  | cons a children siblings _ hs =>
    rw [events]
    refine .cons _ (.trans ?_ (List.sublist_append_right ..))
    rw [roots] at h
    cases h with
    | cons _ h => exact (hs h).cons _
    | cons_cons _ h =>
      refine .cons_cons _ (List.singleton_sublist.2 ?_)
      exact mem_events_iff.1.2 (mem_toList_of_mem_roots (List.singleton_sublist.1 h))

/-! ### Walks that go on throughout -/

/-- A walk that looks, and goes on throughout, with its record. -/
theorem visit_recorded {v : Visitor σ β} (hv : v.Proceeds) (key : β → κ) (f : Forest β) (s : σ)
    (es : List (WalkEvent κ)) :
    f.visit (v.recorded key) (s, es) =
      (((f.visit v s).1, es ++ (f.map key).events), .proceed) ∧ (f.visit v s).2 = .proceed := by
  induction f generalizing s es with
  | nil => exact ⟨by rw [map, events, List.append_nil]; rfl, rfl⟩
  | cons b children siblings hc hs =>
    have henter := hv.1 s b
    generalize hentered : v.enter s b = r at henter
    obtain ⟨s₁, _⟩ := r
    cases henter
    have henter' : (v.recorded key).enter (s, es) b = ((s₁, es ++ [.entered (key b)]), .proceed) := by
      rw [Visitor.recorded]
      dsimp only
      rw [hentered]
    obtain ⟨hbelow, hbelow'⟩ := hc s₁ (es ++ [.entered (key b)])
    generalize hvisited : children.visit v s₁ = r at hbelow hbelow'
    obtain ⟨s₂, _⟩ := r
    cases hbelow'
    have hleave := hv.2 s₂ b
    generalize hleft : v.leave s₂ b = r at hleave
    obtain ⟨s₃, _⟩ := r
    cases hleave
    have hleave' (es : List (WalkEvent κ)) :
        (v.recorded key).leave (s₂, es) b = ((s₃, es ++ [.left (key b)]), .proceed) := by
      rw [Visitor.recorded]
      dsimp only
      rw [hleft]
    rw [visit, visit, henter', hentered]
    dsimp only
    rw [hbelow, hvisited]
    dsimp only
    rw [hleave', hleft]
    dsimp only
    obtain ⟨hrest, hrest'⟩ :=
      hs s₃ (es ++ [.entered (key b)] ++ (children.map key).events ++ [.left (key b)])
    refine ⟨?_, hrest'⟩
    rw [hrest, map, events]
    simp only [List.append_assoc, List.cons_append, List.nil_append]

/-- A walk that changes labels, but no key, and goes on throughout, with its record. -/
theorem runWithin_recorded {p : Pass σ β} {key : β → κ} (hp : p.Keeps key) (f : Forest β)
    (parent : Option β) (around : Forest β → Forest β) (s : σ) (es : List (WalkEvent κ)) :
    f.runWithin (p.recorded key) parent around (s, es) =
      (((f.runWithin p parent around s).1, es ++ (f.map key).events),
        (f.runWithin p parent around s).2.1, .proceed) ∧
      (f.runWithin p parent around s).2.1.map key = f.map key ∧
        (f.runWithin p parent around s).2.2 = .proceed := by
  induction f generalizing parent around s es with
  | nil => exact ⟨by rw [map, events, List.append_nil]; rfl, rfl, rfl⟩
  | cons b children siblings hc hs =>
    obtain ⟨hkey, henter⟩ := hp.enter s parent b
    generalize hentered : p.enter s parent b = r at hkey henter
    obtain ⟨s₁, b₁, _⟩ := r
    cases henter
    have henter' : (p.recorded key).enter (s, es) parent b =
        ((s₁, es ++ [.entered (key b)]), b₁, .proceed) := by
      rw [Pass.recorded]
      dsimp only
      rw [hentered]
    obtain ⟨hbelow, hkeys, hbelow'⟩ :=
      hc (some b₁) (fun f => around (cons b₁ f siblings)) s₁ (es ++ [.entered (key b)])
    generalize hwalked : children.runWithin p (some b₁) (fun f => around (cons b₁ f siblings)) s₁ =
      r at hbelow hkeys hbelow'
    obtain ⟨s₂, children₁, _⟩ := r
    cases hbelow'
    obtain ⟨hkey', hkeys', hleave⟩ :=
      hp.leave s₂ (fun b children => around (cons b children siblings)) b₁ children₁
    generalize hleft : p.leave s₂ (fun b children => around (cons b children siblings)) b₁
      children₁ = r at hkey' hkeys' hleave
    obtain ⟨s₃, b₂, children₂, _⟩ := r
    cases hleave
    have hleave' (es : List (WalkEvent κ)) : (p.recorded key).leave (s₂, es)
        (fun b children => around (cons b children siblings)) b₁ children₁ =
          ((s₃, es ++ [.left (key b₁)]), b₂, children₂, .proceed) := by
      rw [Pass.recorded]
      dsimp only
      rw [hleft]
    rw [runWithin, runWithin, henter', hentered]
    dsimp only
    rw [hbelow, hwalked]
    dsimp only
    rw [hleave', hleft]
    dsimp only
    obtain ⟨hrest, hrestkeys, hrest'⟩ := hs parent (fun f => around (cons b₂ children₂ f)) s₃
      (es ++ [.entered (key b)] ++ (children.map key).events ++ [.left (key b₁)])
    generalize siblings.runWithin p parent (fun f => around (cons b₂ children₂ f)) s₃ = r
      at hrest hrestkeys hrest'
    obtain ⟨s₄, siblings₁, _⟩ := r
    cases hrest'
    dsimp only at hkey hkey' hkeys hkeys' hrestkeys
    rw [hrest]
    refine ⟨?_, ?_, rfl⟩
    · rw [map, events, hkey]
      simp only [List.append_assoc, List.cons_append, List.nil_append]
    · rw [map, map, hkey', hkey, hkeys', hkeys, hrestkeys]

end Forest

/-! ### Searches -/

/-- The first item of a list with a property; none if no item has it. -/
def IsFirst (P : β → Prop) (l : List β) : Option β → Prop
  | none => ∀ b ∈ l, ¬ P b
  | some b => P b ∧ ∃ front back, l = front ++ b :: back ∧ ∀ c ∈ front, ¬ P c

/-- The first item of a part of a list is the first item of the list that is in this part. -/
theorem isFirst_find?_of_sublist {part l : List β} (h : part.Sublist l) (hl : l.Nodup)
    (q : β → Bool) : IsFirst (fun b => b ∈ part ∧ q b) l (part.find? q) := by
  induction h with
  | slnil => exact fun b hb => absurd hb List.not_mem_nil
  | @cons part l b h ih =>
    obtain ⟨hb, hl⟩ := List.nodup_cons.1 hl
    have hnot : b ∉ part := fun hmem => hb (h.subset hmem)
    have ih := ih hl
    cases hfind : part.find? q with
    | none =>
      rw [hfind] at ih
      exact List.forall_mem_cons.2 ⟨fun hP => hnot hP.1, ih⟩
    | some c =>
      rw [hfind] at ih
      obtain ⟨hc, front, back, rfl, hfront⟩ := ih
      exact ⟨hc, b :: front, back, rfl, List.forall_mem_cons.2 ⟨fun hP => hnot hP.1, hfront⟩⟩
  | @cons_cons part l b h ih =>
    obtain ⟨hb, hl⟩ := List.nodup_cons.1 hl
    have ih := ih hl
    by_cases hq : q b
    · rw [List.find?_cons_of_pos hq]
      exact ⟨⟨List.mem_cons_self, hq⟩, [], l, rfl, fun c hc => absurd hc List.not_mem_nil⟩
    · rw [List.find?_cons_of_neg hq]
      have hrest {c : β} (hc : c ∈ l) (hP : ¬ (c ∈ part ∧ q c)) : ¬ (c ∈ b :: part ∧ q c) := by
        rintro ⟨hmem, hqc⟩
        rcases List.mem_cons.1 hmem with rfl | hmem
        · exact hq hqc
        · exact hP ⟨hmem, hqc⟩
      cases hfind : part.find? q with
      | none =>
        rw [hfind] at ih
        exact List.forall_mem_cons.2 ⟨fun hP => hq hP.2, fun c hc => hrest hc (ih c hc)⟩
      | some c =>
        rw [hfind] at ih
        obtain ⟨hc, front, back, rfl, hfront⟩ := ih
        refine ⟨⟨List.mem_cons_of_mem b hc.1, hc.2⟩, b :: front, back, rfl, ?_⟩
        exact List.forall_mem_cons.2 ⟨fun hP => hq hP.2,
          fun d hd => hrest (List.mem_append_left _ hd) (hfront d hd)⟩

theorem IsFirst.congr {P Q : β → Prop} {l : List β} {o : Option β} (h : IsFirst P l o)
    (hPQ : ∀ b ∈ l, P b ↔ Q b) : IsFirst Q l o := by
  cases o with
  | none => exact fun b hb hQ => h b hb ((hPQ b hb).2 hQ)
  | some b =>
    obtain ⟨hb, front, back, rfl, hfront⟩ := h
    have hmem : b ∈ front ++ b :: back := List.mem_append_right _ List.mem_cons_self
    exact ⟨(hPQ b hmem).1 hb, front, back, rfl,
      fun c hc hQ => hfront c hc ((hPQ c (List.mem_append_left _ hc)).2 hQ)⟩

/-- Looking for a decidable property finds its first item. -/
theorem IsFirst.eq_find? {q : β → Bool} {l : List β} {o : Option β}
    (h : IsFirst (fun b => q b) l o) : o = l.find? q := by
  cases o with
  | none => exact (List.find?_eq_none.2 h).symm
  | some b =>
    obtain ⟨hb, front, back, rfl, hfront⟩ := h
    rw [List.find?_append, List.find?_eq_none.2 hfront, List.find?_cons_of_pos hb]
    rfl

namespace Forest

variable {f below : Forest β} {b c : β} {decide : β → Visit}

/-- The labels that a walk comes to which never stops but passes over children as it is told. -/
def opened (decide : β → Visit) : Forest β → List β
  | nil => []
  | cons b children siblings =>
    b :: ((if decide b = .skipChildren then [] else children.opened decide) ++
      siblings.opened decide)

theorem opened_sublist (decide : β → Visit) (f : Forest β) :
    (f.opened decide).Sublist f.toList := by
  induction f with
  | nil => exact .slnil
  | cons b children siblings hc hs =>
    rw [opened, toList]
    refine (List.Sublist.append ?_ hs).cons_cons b
    split_ifs
    · exact List.nil_sublist _
    · exact hc

/-- A walk comes to the labels that are not below one whose children it passes over. -/
theorem mem_opened_iff (hf : f.toList.Nodup) (hc : c ∈ f.toList) :
    c ∈ f.opened decide ↔
      ∀ b below, HasTree b below f → c ∈ below.toList → decide b ≠ .skipChildren := by
  induction f with
  | nil => cases hc
  | cons a children siblings hchildren hsiblings =>
    rw [toList, List.nodup_cons, List.nodup_append, List.mem_append, not_or] at hf
    obtain ⟨⟨hac, has⟩, hcn, hsn, hdisjoint⟩ := hf
    have hapart (h : c ∈ children.toList) (h' : c ∈ siblings.toList) : False :=
      hdisjoint c h c h' rfl
    rw [opened, List.mem_cons, List.mem_append]
    rcases List.mem_cons.1 hc with rfl | hc
    · -- the first label stands below no other
      refine iff_of_true (.inl rfl) fun b below hb hcb => ?_
      cases hb with
      | here => exact absurd hcb hac
      | deeper _ hb => exact absurd (hb.mem_of_mem hcb) hac
      | beside _ _ hb => exact absurd (hb.mem_of_mem hcb) has
    rcases List.mem_append.1 hc with hc | hc
    · have hne : c ≠ a := fun h => hac (h ▸ hc)
      have hsib : c ∉ siblings.opened decide := fun h =>
        hapart hc ((opened_sublist decide siblings).subset h)
      constructor
      · rintro (h | h | h) b below hb hcb
        · exact absurd h hne
        · split_ifs at h with hskip
          · cases h
          · cases hb with
            | here => exact hskip
            | deeper _ hb => exact (hchildren hcn hc).1 h b below hb hcb
            | beside _ _ hb => exact absurd (hb.mem_of_mem hcb) (hapart hc)
        · exact absurd h hsib
      · intro h
        rw [if_neg (h a children (.here siblings) hc)]
        exact .inr (.inl ((hchildren hcn hc).2 fun b below hb => h b below (.deeper siblings hb)))
    · have hne : c ≠ a := fun h => has (h ▸ hc)
      constructor
      · rintro (h | h | h) b below hb hcb
        · exact absurd h hne
        · split_ifs at h
          · cases h
          · exact (hapart ((opened_sublist decide children).subset h) hc).elim
        · cases hb with
          | here => exact (hapart hcb hc).elim
          | deeper _ hb => exact (hapart (hb.mem_of_mem hcb) hc).elim
          | beside _ _ hb => exact (hsiblings hsn hc).1 h b below hb hcb
      · exact fun h => .inr (.inr ((hsiblings hsn hc).2 fun b below hb =>
          h b below (.beside a children hb)))

/-- A search goes on until it finds a label at which it is told to stop. -/
theorem visit_searcher (decide : β → Visit) (f : Forest β) (looked : ℕ) :
    ∃ looked', f.visit (searcher decide) ⟨none, looked⟩ =
      (⟨(f.opened decide).find? fun b => decide b = .stop, looked'⟩,
        if ((f.opened decide).find? fun b => decide b = .stop).isSome then .stop else .proceed) := by
  induction f generalizing looked with
  | nil => exact ⟨looked, rfl⟩
  | cons a children siblings hchildren hsiblings =>
    have henter : (searcher decide).enter ⟨none, looked⟩ a =
        (⟨if decide a = .stop then some a else none, looked + 1⟩, decide a) := by
      rw [searcher]
      dsimp only
      cases decide a <;> rfl
    rw [visit, opened, henter]
    cases ha : decide a with
    | stop =>
      rw [List.find?_cons_of_pos (by rw [ha]; rfl)]
      exact ⟨looked + 1, rfl⟩
    | skipChildren =>
      obtain ⟨looked', h⟩ := hsiblings (looked + 1)
      rw [List.find?_cons_of_neg (by rw [ha]; nofun), if_pos rfl, List.nil_append]
      exact ⟨looked', h⟩
    | proceed =>
      obtain ⟨looked₁, hc⟩ := hchildren (looked + 1)
      rw [List.find?_cons_of_neg (by rw [ha]; nofun), if_neg (by nofun), if_neg (by nofun),
        List.find?_append]
      dsimp only
      rw [hc]
      cases hfound : (children.opened decide).find? fun b => decide b = .stop with
      | some b => exact ⟨looked₁, rfl⟩
      | none =>
        obtain ⟨looked₂, hs⟩ := hsiblings looked₁
        exact ⟨looked₂, hs⟩

/-- A search finds the first label that it comes to and at which it is told to stop. -/
theorem found_findFirst (decide : β → Visit) (f : Forest β) :
    (f.findFirst decide).found = (f.opened decide).find? fun b => decide b = .stop := by
  obtain ⟨looked, h⟩ := visit_searcher decide f 0
  rw [findFirst, h]

/-- A search finds the first label at which it is told to stop, below none whose children it is told
to pass over. -/
theorem isFirst_findFirst (hf : f.toList.Nodup) (decide : β → Visit) :
    IsFirst (fun c => decide c = .stop ∧
      ∀ b below, HasTree b below f → c ∈ below.toList → decide b ≠ .skipChildren)
      f.toList (f.findFirst decide).found := by
  rw [found_findFirst]
  refine (isFirst_find?_of_sublist (opened_sublist decide f) hf _).congr fun c hc => ?_
  rw [mem_opened_iff hf hc, decide_eq_true_iff, and_comm]

end Forest

/-! ### Documents -/

namespace Document

variable {α : Type} {d : Document α} {h : Handle} {n : Node α}

/-- Events at the nodes from a node downward, in the order of the document. -/
structure WalkOrder (d : Document α) (h : Handle) (events : List (WalkEvent Handle)) : Prop where
  /-- The nodes are entered in the order in which the walk with a stack lists them. -/
  entered : events.filterMap WalkEvent.entered? = h :: (d.descendants h).map Node.handle
  /-- No node is entered or left twice. -/
  nodup : events.Nodup
  /-- What is entered is left afterwards. -/
  left : ∀ i, (.left i ∈ events ↔ .entered i ∈ events) ∧
    (.entered i ∈ events → [WalkEvent.entered i, .left i].Sublist events)
  /-- A node is left after all that is below it. -/
  below : ∀ i, .entered i ∈ events → ∀ j ∈ (d.descendants i).map Node.handle,
    [WalkEvent.entered i, .left j, .left i].Sublist events
  /-- A node is left before a later child of its parent is entered. -/
  beside : ∀ p, .entered p ∈ events → ∀ i j, [i, j].Sublist (d.children p) →
    [WalkEvent.left i, .entered j].Sublist events

/-- All walks and searches through a document go through it in one order. -/
structure OneOrder (d : Document α) : Prop where
  /-- Walks that are told to go on throughout, whether they look or change nodes. -/
  walk : ∀ h tree, d.treeAt? h = some tree → ∃ events, d.WalkOrder h events ∧
    (∀ (σ : Type) (v : Visitor σ (Node α)), v.Proceeds → ∀ s,
      tree.visit (v.recorded Node.handle) (s, []) = (((tree.visit v s).1, events), .proceed)) ∧
    ∀ (σ : Type) (p : Pass σ (Node α)), p.Keeps Node.handle → ∀ parent around s,
      tree.runWithin (p.recorded Node.handle) parent around (s, []) =
        (((tree.runWithin p parent around s).1, events),
          (tree.runWithin p parent around s).2.1, .proceed) ∧
      (tree.runWithin p parent around s).2.1.map Node.handle = tree.map Node.handle
  /-- A search from a node finds the first node at which it is told to stop, among those that are
  not below a node whose children it is told to pass over. -/
  findFirst : ∀ h n, d.node? h = some n → ∃ tree, d.treeAt? h = some tree ∧ ∀ decide,
    IsFirst (fun m => decide m = .stop ∧ ∀ a ∈ n :: d.descendants h,
      m ∈ d.descendants a.handle → decide a ≠ .skipChildren)
      (n :: d.descendants h) (tree.findFirst decide).found
  findDescendant? : ∀ h n, d.node? h = some n → ∀ p,
    d.findDescendant? h p = (n :: d.descendants h).find? p
  measureByNumber? : ∀ number, d.measureByNumber? number =
    d.measures.find? fun m => m.kind.measure?.any fun measure => measure.n = number

namespace WellFormed

variable (hd : d.WellFormed)

include hd

/-- The tree at a node stands in the document, and so do the trees in it. -/
theorem exists_treeAt? (hn : d.node? h = some n) :
    ∃ below, d.treeAt? h = some (.tree n below) ∧ d.below h = below ∧
      Forest.HasTree n below d.trees := by
  obtain ⟨hmem, rfl⟩ := hd.node?_eq_some_iff.1 hn
  obtain ⟨below, htree⟩ := Forest.exists_hasTree hmem
  have hbelow := below_eq_of_nodup hd.nodup_handles htree
  exact ⟨below, by rw [treeAt?, hn, Option.map_some, hbelow], hbelow, htree⟩

omit hd in
theorem hasTree_of_tree {below f : Forest (Node α)} (hn : Forest.HasTree n below f)
    {m : Node α} {under : Forest (Node α)} (hm : Forest.HasTree m under (.tree n below)) :
    Forest.HasTree m under f := by
  cases hm with
  | here => exact hn
  | deeper _ hm => exact hn.trans hm
  | beside _ _ hm => cases hm

theorem nodup_toList_tree {below : Forest (Node α)} (hn : Forest.HasTree n below d.trees) :
    ((Forest.tree n below).toList.map Node.handle).Nodup := by
  rw [Forest.toList_tree]
  exact hd.nodup_handles.sublist (hn.cons_sublist.map _)

/-- The events of a walk through a tree of the document. -/
theorem ordered {below : Forest (Node α)} (hn : Forest.HasTree n below d.trees) :
    d.WalkOrder n.handle ((Forest.tree n below).map Node.handle).events := by
  have hinside {i : Handle} (hi : .entered i ∈ ((Forest.tree n below).map Node.handle).events) :
      ∃ (a : Node α) (under : Forest (Node α)), Forest.HasTree a.handle (under.map Node.handle)
        ((Forest.tree n below).map Node.handle) ∧ a.handle = i ∧ d.below i = under := by
    rw [Forest.mem_events_iff.1, Forest.toList_map] at hi
    obtain ⟨a, ha, rfl⟩ := List.mem_map.1 hi
    obtain ⟨under, hunder⟩ := Forest.exists_hasTree ha
    exact ⟨a, under, hunder.map _, rfl,
      below_eq_of_nodup hd.nodup_handles (hasTree_of_tree hn hunder)⟩
  constructor
  case entered =>
    rw [Forest.filterMap_entered?_events, Forest.toList_map, Forest.toList_tree, List.map_cons,
      descendants, below_eq_of_nodup hd.nodup_handles hn, Forest.unwind_eq_toList]
  case nodup =>
    refine Forest.nodup_events ?_
    rw [Forest.toList_map]
    exact hd.nodup_toList_tree hn
  case left =>
    intro i
    refine ⟨Forest.mem_events_iff.2.trans Forest.mem_events_iff.1.symm, fun hi => ?_⟩
    obtain ⟨a, under, hunder, rfl, -⟩ := hinside hi
    refine (List.Sublist.cons_cons _ ?_).trans hunder.sublist_events
    exact List.sublist_append_right ..
  case below =>
    intro i hi j hj
    obtain ⟨a, under, hunder, rfl, hbelow⟩ := hinside hi
    rw [descendants, hbelow, Forest.unwind_eq_toList, ← Forest.toList_map] at hj
    refine (List.Sublist.cons_cons _ ?_).trans hunder.sublist_events
    exact (List.singleton_sublist.2 (Forest.mem_events_iff.2.2 hj)).append (List.Sublist.refl _)
  case beside =>
    intro p hp i j hij
    obtain ⟨a, under, hunder, rfl, hbelow⟩ := hinside hp
    rw [children, childNodes, hbelow, ← Forest.roots_map] at hij
    exact ((Forest.sublist_events_of_roots hij).trans (List.sublist_append_left ..)).trans
      ((List.sublist_cons_self ..).trans hunder.sublist_events)

/-- A search from a node of the document. -/
theorem isFirst_findFirst {below : Forest (Node α)} (hn : Forest.HasTree n below d.trees)
    (decide : Node α → Visit) :
    IsFirst (fun m => decide m = .stop ∧ ∀ a ∈ n :: d.descendants n.handle,
      m ∈ d.descendants a.handle → decide a ≠ .skipChildren)
      (n :: d.descendants n.handle) ((Forest.tree n below).findFirst decide).found := by
  have hbelow {m : Node α} {under : Forest (Node α)}
      (hm : Forest.HasTree m under (.tree n below)) : d.descendants m.handle = under.toList := by
    rw [descendants, below_eq_of_nodup hd.nodup_handles (hasTree_of_tree hn hm),
      Forest.unwind_eq_toList]
  have hlist : n :: d.descendants n.handle = (Forest.tree n below).toList := by
    rw [hbelow (.here .nil), Forest.toList_tree]
  rw [hlist]
  refine (Forest.isFirst_findFirst (hd.nodup_toList_tree hn).of_map decide).congr fun m hm => ?_
  refine and_congr_right fun _ => ?_
  constructor
  · intro h a ha hma
    obtain ⟨under, hunder⟩ := Forest.exists_hasTree ha
    exact h a under hunder (hbelow hunder ▸ hma)
  · intro h a under hunder hma
    exact h a hunder.mem (hbelow hunder ▸ hma)

/-- Nothing below a measure is a measure. -/
theorem tag_ne_measure_of_below {m : Node α} {under : Forest (Node α)}
    (hm : Forest.HasTree m under d.trees) (htag : m.tag = .measure) :
    ∀ c ∈ under.toList, c.tag ≠ .measure := by
  have hstep {a b : NodeKind α} (hab : a.accepts b) :
      a.tag ∈ [NodeTag.measure, .staff, .layer, .element, .control] →
        b.tag ∈ [NodeTag.staff, .layer, .element, .control] := by
    cases a <;> cases b <;> simp_all [NodeKind.accepts, NodeKind.tag]
  have hrel := Forest.rel_of_links (f := under) (n := m)
    (R := fun a b => a.tag ∈ [NodeTag.measure, .staff, .layer, .element, .control] →
      b.tag ∈ [NodeTag.staff, .layer, .element, .control])
    (fun a b c hab hbc ha => hbc (List.mem_cons_of_mem _ (hab ha)))
    (fun a b hl => hstep (hd.accepts a b (hm.mem_links hl none)))
  intro c hc hmeasure
  have hmem := hrel c hc (by rw [htag]; exact List.mem_cons_self)
  rw [hmeasure] at hmem
  revert hmem
  decide

/-- A search for a measure by its number, which does not look below measures. -/
theorem measureByNumber?_eq (number : UInt32) : d.measureByNumber? number =
    d.measures.find? fun m => m.kind.measure?.any fun measure => measure.n = number := by
  obtain ⟨r, below, detached, htrees, hroot, htag⟩ := hd.root
  have hr : Forest.HasTree r below d.trees := htrees ▸ .here detached
  have hscore : d.score = .tree r below := by rw [score, htrees]; rfl
  have hmeasure {m : Node α} (hm : m.kind.measure?.any fun measure => measure.n = number) :
      m.tag = .measure := by
    rw [Node.tag]
    cases hk : m.kind <;> rw [hk] at hm <;> first | rfl | cases hm
  obtain ⟨decide, hdecide, hstop, hskip⟩ : ∃ decide : Node α → Visit,
      d.measureByNumber? number = (d.score.findFirst decide).found ∧
        (∀ m, decide m = .stop ↔ m.kind.measure?.any fun measure => measure.n = number) ∧
          ∀ m, decide m = .skipChildren → m.tag = .measure := by
    refine ⟨_, rfl, fun m => ?_, fun m h => ?_⟩
    · cases m.kind <;> simp [NodeKind.measure?]
    · rw [Node.tag]
      cases hk : m.kind <;> simp [hk, NodeKind.tag] at h ⊢
  have hfirst := (hd.isFirst_findFirst hr decide).congr
    (Q := fun m => m.kind.measure?.any fun measure => measure.n = number) fun m _ => by
      rw [hstop]
      refine ⟨And.left, fun hnumber => ⟨hnumber, fun a ha hma ha_skip => ?_⟩⟩
      -- a measure does not stand below another
      obtain ⟨under, hunder⟩ := Forest.exists_hasTree (f := .tree r below) (b := a) (by
        rw [Forest.toList_tree]
        rwa [descendants, below_eq_of_nodup hd.nodup_handles hr, Forest.unwind_eq_toList] at ha)
      have hunder := hasTree_of_tree hr hunder
      rw [descendants, below_eq_of_nodup hd.nodup_handles hunder, Forest.unwind_eq_toList] at hma
      exact hd.tag_ne_measure_of_below hunder (hskip a ha_skip) m hma (hmeasure hnumber)
  have hfound := hfirst.eq_find?
  have hr_not : ¬ r.kind.measure?.any fun measure => measure.n = number := fun h => by
    have := hmeasure h
    rw [htag] at this
    cases this
  rw [List.find?_cons_of_neg (p := fun m : Node α => m.kind.measure?.any fun measure =>
    measure.n = number) hr_not] at hfound
  rw [hdecide, hscore, measures, nodesOfKind, List.find?_filter, ← hroot]
  refine hfound.trans (congrArg (List.find? · _) (funext fun m => ?_))
  cases hm : m.kind.measure?.any fun measure => measure.n = number
  · simp
  · simp [hmeasure hm]

end WellFormed

/-- All walks and searches through a document go through it in one order. -/
theorem Reachable.oneOrder [Scalar α] (hd : d.Reachable) : d.OneOrder := by
  have hd := hd.wellFormed
  constructor
  case walk =>
    intro h tree htree
    obtain ⟨n, hn, -⟩ := Option.map_eq_some_iff.1 htree
    obtain ⟨below, htree', -, hbelow⟩ := hd.exists_treeAt? hn
    obtain rfl := Option.some.inj (htree.symm.trans htree')
    obtain ⟨-, rfl⟩ := hd.node?_eq_some_iff.1 hn
    refine ⟨_, hd.ordered hbelow, fun σ v hv s => ?_, fun σ p hp parent around s => ?_⟩
    · exact (Forest.visit_recorded hv Node.handle _ s []).1
    · obtain ⟨hrun, hkeys, -⟩ :=
        Forest.runWithin_recorded hp (.tree n below) parent around s []
      exact ⟨hrun, hkeys⟩
  case findFirst =>
    intro h n hn
    obtain ⟨below, htree, -, hbelow⟩ := hd.exists_treeAt? hn
    obtain ⟨-, rfl⟩ := hd.node?_eq_some_iff.1 hn
    exact ⟨_, htree, hd.isFirst_findFirst hbelow⟩
  case findDescendant? =>
    intro h n hn p
    obtain ⟨below, htree, -, hbelow⟩ := hd.exists_treeAt? hn
    obtain ⟨-, rfl⟩ := hd.node?_eq_some_iff.1 hn
    rw [findDescendant?, htree, Option.bind_some]
    refine ((hd.isFirst_findFirst hbelow _).congr fun m _ => ?_).eq_find?
    cases hp : p m
    · simp
    · -- such a search passes over no children
      refine iff_of_true ⟨if_pos rfl, fun a _ _ => ?_⟩ rfl
      split_ifs <;> nofun
  case measureByNumber? => exact hd.measureByNumber?_eq

/-- Two measures, each with a staff. -/
theorem Reachable.oneOrder_of_measures : ∃ d : Document ℚ, d.Reachable ∧ d.OneOrder ∧
    (d.descendants root).map Node.handle = [1, 2, 3, 5, 4, 6] ∧
      d.measures.map Node.handle = [3, 4] ∧ (d.measureByNumber? 2).map Node.handle = some 4 := by
  have hd := ((((Reachable.ofDefinition (α := ℚ) default).contentSystem.add 2
    (.measure (.ofNumber 1))).add 2 (.measure (.ofNumber 2))).add 3 (.staff ⟨1, false⟩)).add 4
    (.staff ⟨1, false⟩)
  exact ⟨_, hd, hd.oneOrder, by decide +kernel, by decide +kernel, by decide +kernel⟩

end Document

end ScoreLayout
