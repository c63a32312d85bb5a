import Mathlib.Data.List.Forall2
import ScoreLayout.Forest.Walk
import ScoreLayout.Proofs.Forest.Links

/-!
# Forests of one shape

Two forests have one shape when they differ in their labels only. A walk keeps the shape of a forest
whatever its callbacks do with labels. What a walk keeps of every label it keeps of the forest, and
two walks whose callbacks agree on related labels end in related forests.

A walk that no callback stops enters every label that stands below none whose children it passes
over, and leaves it once it is through with its children. Such a walk is a derivation: what is
proved about it is proved by induction over that.

## Main definitions

* `Forest.Forall₂` — two forests of one shape whose labels at the same places are related.
* `Forest.Completes` — what a walk makes of a forest, on its way from one state to another.

## Main results

* `Forest.forall₂_run` — a walk relates a forest to what it makes of it.
* `Forest.Forall₂.run` — two walks over related forests.
* `Forest.Forall₂.find?`, `Forest.Forall₂.childrenOf?`, `Forest.Forall₂.ancestors?` — looking up
  related forests.
* `Forest.completes_runWithin` — a walk that has not been stopped.
-/

namespace ScoreLayout

/-- Choosing the first of two results that are there. -/
theorem optionRel_orElse {β γ : Type} {R : β → γ → Prop} {a a' : Option β} {b b' : Option γ}
    (h : Option.Rel R a b) (h' : Option.Rel R a' b') : Option.Rel R (a <|> a') (b <|> b') := by
  cases h with
  | none => simpa using h'
  | some h => exact .some h

theorem optionRel_map {β γ β' γ' : Type} {R : β → γ → Prop} {S : β' → γ' → Prop} {a : Option β}
    {b : Option γ} (h : Option.Rel R a b) {u : β → β'} {v : γ → γ'}
    (huv : ∀ b c, R b c → S (u b) (v c)) : Option.Rel S (a.map u) (b.map v) := by
  cases h with
  | none => exact .none
  | some h => exact .some (huv _ _ h)

/-- Every item of a list has its partner in a related list. -/
theorem exists_mem_of_forall₂ {β γ : Type} {R : β → γ → Prop} {c : γ} :
    {l : List β} → {m : List γ} → List.Forall₂ R l m → c ∈ m → ∃ b ∈ l, R b c
  | [], [], _, hc => absurd hc List.not_mem_nil
  | b :: _, _ :: _, h, hc => by
      rw [List.forall₂_cons] at h
      rcases List.mem_cons.1 hc with rfl | hc
      · exact ⟨b, List.mem_cons_self, h.1⟩
      · obtain ⟨b, hmem, hR⟩ := exists_mem_of_forall₂ h.2 hc
        exact ⟨b, List.mem_cons_of_mem _ hmem, hR⟩

/-- A list related to two that are joined is joined of two that are related to these. -/
theorem exists_append_of_forall₂ {β γ : Type} {R : β → γ → Prop} : {front back : List β} →
    {l : List γ} → List.Forall₂ R (front ++ back) l →
      ∃ front' back', l = front' ++ back' ∧ List.Forall₂ R front front' ∧ List.Forall₂ R back back'
  | [], _, l, h => ⟨[], l, rfl, .nil, h⟩
  | b :: front, back, l, h => by
      rw [List.cons_append] at h
      cases h with
      | cons hb h =>
        obtain ⟨front', back', rfl, hfront, hback⟩ := exists_append_of_forall₂ h
        exact ⟨_ :: front', back', rfl, .cons hb hfront, hback⟩

/-- Functions that agree on related items make one list of related lists. -/
theorem map_eq_of_forall₂ {β γ δ : Type} {R : β → γ → Prop} {u : β → δ} {v : γ → δ}
    (huv : ∀ b c, R b c → u b = v c) :
    {l : List β} → {m : List γ} → List.Forall₂ R l m → l.map u = m.map v
  | [], [], _ => rfl
  | b :: l, c :: m, h => by
      rw [List.forall₂_cons] at h
      rw [List.map_cons, List.map_cons, huv b c h.1, map_eq_of_forall₂ huv h.2]

/-- Functions that agree on related items pick one list out of related lists. -/
theorem filterMap_eq_of_forall₂ {β γ δ : Type} {R : β → γ → Prop} {u : β → Option δ}
    {v : γ → Option δ} (huv : ∀ b c, R b c → u b = v c) {l : List β} {m : List γ}
    (h : List.Forall₂ R l m) : l.filterMap u = m.filterMap v := by
  have hmap := congrArg (List.filterMap id) (map_eq_of_forall₂ huv h)
  rwa [List.filterMap_map, List.filterMap_map] at hmap

namespace Forest

variable {β γ δ : Type}

/-- Two forests of one shape whose labels at the same places are related. -/
inductive Forall₂ (R : β → γ → Prop) : Forest β → Forest γ → Prop
  | nil : Forall₂ R nil nil
  | cons {b : β} {c : γ} {children siblings : Forest β} {children' siblings' : Forest γ}
      (label : R b c) (below : Forall₂ R children children')
      (beside : Forall₂ R siblings siblings') :
      Forall₂ R (cons b children siblings) (cons c children' siblings')

namespace Forall₂

variable {R : β → γ → Prop} {f : Forest β} {g : Forest γ}

theorem refl {R : β → β → Prop} : {f : Forest β} → (∀ b ∈ f.toList, R b b) → Forall₂ R f f
  | .nil, _ => .nil
  | .cons b children siblings, h => by
      simp only [toList, List.mem_cons, List.mem_append, or_imp, forall_and, forall_eq] at h
      exact .cons h.1 (refl h.2.1) (refl h.2.2)

theorem mono {S : β → γ → Prop} (h : Forall₂ R f g) (hRS : ∀ b c, R b c → S b c) :
    Forall₂ S f g := by
  induction h with
  | nil => exact .nil
  | cons hb _ _ hc hs => exact .cons (hRS _ _ hb) hc hs

theorem flip (h : Forall₂ R f g) : Forall₂ (fun c b => R b c) g f := by
  induction h with
  | nil => exact .nil
  | cons hb _ _ hc hs => exact .cons hb hc hs

theorem trans {S : γ → δ → Prop} {T : β → δ → Prop} {k : Forest δ} (h : Forall₂ R f g)
    (h' : Forall₂ S g k) (hT : ∀ b c d, R b c → S c d → T b d) : Forall₂ T f k := by
  induction h generalizing k with
  | nil => cases h'; exact .nil
  | cons hb _ _ hc hs =>
    cases h' with
    | cons hb' hc' hs' => exact .cons (hT _ _ _ hb hb') (hc hc') (hs hs')

theorem and {S : β → γ → Prop} (h : Forall₂ R f g) (h' : Forall₂ S f g) :
    Forall₂ (fun b c => R b c ∧ S b c) f g := by
  induction h with
  | nil => exact .nil
  | cons hb _ _ hc hs =>
    cases h' with
    | cons hb' hc' hs' => exact .cons ⟨hb, hb'⟩ (hc hc') (hs hs')

theorem append {f' : Forest β} {g' : Forest γ} (h : Forall₂ R f g) (h' : Forall₂ R f' g') :
    Forall₂ R (f ++ f') (g ++ g') := by
  induction h with
  | nil => exact h'
  | cons hb hc _ _ hs => exact .cons hb hc hs

/-- A relation that holds between a label and what a function makes of it. -/
theorem map_right {R : β → γ → Prop} (h : β → γ) : {f : Forest β} → (∀ b ∈ f.toList, R b (h b)) →
    Forall₂ R f (f.map h)
  | .nil, _ => .nil
  | .cons b children siblings, hR => by
      simp only [toList, List.mem_cons, List.mem_append, or_imp, forall_and, forall_eq] at hR
      exact .cons hR.1 (map_right h hR.2.1) (map_right h hR.2.2)

theorem map {β' γ' : Type} {S : β' → γ' → Prop} (h : Forall₂ R f g) {u : β → β'} {v : γ → γ'}
    (huv : ∀ b c, R b c → S (u b) (v c)) : Forall₂ S (f.map u) (g.map v) := by
  induction h with
  | nil => exact .nil
  | cons hb _ _ hc hs => exact .cons (huv _ _ hb) hc hs

/-- Functions that agree on related labels make one forest of related forests. -/
theorem map_eq {u : β → δ} {v : γ → δ} (h : Forall₂ R f g) (huv : ∀ b c, R b c → u b = v c) :
    f.map u = g.map v := by
  induction h with
  | nil => rfl
  | cons hb _ _ hc hs => rw [Forest.map, Forest.map, huv _ _ hb, hc, hs]

theorem toList (h : Forall₂ R f g) : List.Forall₂ R f.toList g.toList := by
  induction h with
  | nil => exact .nil
  | cons hb _ _ hc hs => exact .cons hb (List.rel_append hc hs)

theorem roots (h : Forall₂ R f g) : List.Forall₂ R f.roots g.roots := by
  induction h with
  | nil => exact .nil
  | cons hb _ _ _ hs => exact .cons hb hs

theorem first (h : Forall₂ R f g) : Forall₂ R f.first g.first := by
  cases h with
  | nil => exact .nil
  | cons hb hc _ => exact .cons hb hc .nil

theorem rest (h : Forall₂ R f g) : Forall₂ R f.rest g.rest := by
  cases h with
  | nil => exact .nil
  | cons _ _ hs => exact hs

theorem links (h : Forall₂ R f g) {a : Option β} {b : Option γ} (hab : Option.Rel R a b) :
    List.Forall₂ (fun l m => Option.Rel R l.1 m.1 ∧ R l.2 m.2) (f.links a) (g.links b) := by
  induction h generalizing a b with
  | nil => exact .nil
  | cons hb _ _ hc hs => exact .cons ⟨hab, hb⟩ (List.rel_append (hc (.some hb)) (hs hab))

variable {p : β → Bool} {q : γ → Bool}

theorem find? (h : Forall₂ R f g) (hpq : ∀ b c, R b c → p b = q c) :
    Option.Rel R (f.find? p) (g.find? q) := by
  induction h with
  | nil => exact .none
  | @cons b c _ _ _ _ hb _ _ hc hs =>
    rw [Forest.find?, Forest.find?, hpq b c hb]
    split
    · exact .some hb
    · exact optionRel_orElse hc hs

theorem childrenOf? (h : Forall₂ R f g) (hpq : ∀ b c, R b c → p b = q c) :
    Option.Rel (Forall₂ R) (f.childrenOf? p) (g.childrenOf? q) := by
  induction h with
  | nil => exact .none
  | @cons b c _ _ _ _ hb hch _ hc hs =>
    rw [Forest.childrenOf?, Forest.childrenOf?, hpq b c hb]
    split
    · exact .some hch
    · exact optionRel_orElse hc hs

theorem ancestors? (h : Forall₂ R f g) (hpq : ∀ b c, R b c → p b = q c) :
    Option.Rel (List.Forall₂ R) (f.ancestors? p) (g.ancestors? q) := by
  induction h with
  | nil => exact .none
  | @cons b c _ _ _ _ hb _ _ hc hs =>
    rw [Forest.ancestors?, Forest.ancestors?, hpq b c hb]
    split
    · exact .some .nil
    · exact optionRel_orElse
        (optionRel_map hc fun _ _ h => List.rel_append h (.cons hb .nil)) hs

end Forall₂

/-! ### Walks -/

section Walk

variable {σ : Type}

/-- A walk whose callbacks relate every label to what they make of it relates the whole forest to
what it makes of that, also where it is stopped. The callbacks may rely on an invariant of the state
and on a property of the labels that related labels share. -/
theorem forall₂_runWithin {R : β → β → Prop} {I : σ → Prop} {P : β → Prop} (hrefl : ∀ b, R b b)
    (htrans : ∀ a b c, R a b → R b c → R a c) (hP : ∀ b c, R b c → P b → P c) {p : Pass σ β}
    (henter : ∀ s parent b, I s → P b →
      R b (p.enter s parent b).2.1 ∧ I (p.enter s parent b).1)
    (hleave : ∀ s whole b children, I s → P b → R b (p.leave s whole b children).2.1 ∧
      Forall₂ R children (p.leave s whole b children).2.2.1 ∧ I (p.leave s whole b children).1) :
    (f : Forest β) → (∀ b ∈ f.toList, P b) → (parent : Option β) →
      (around : Forest β → Forest β) → (s : σ) → I s →
        Forall₂ R f (f.runWithin p parent around s).2.1 ∧ I (f.runWithin p parent around s).1
  | nil, _, _, _, _, hs => ⟨.nil, hs⟩
  | cons b children siblings, hf, parent, around, s, hs => by
      have hstay (f : Forest β) : Forall₂ R f f := .refl fun b _ => hrefl b
      simp only [toList, List.mem_cons, List.mem_append, or_imp, forall_and, forall_eq] at hf
      obtain ⟨hPb, hPc, hPs⟩ := hf
      obtain ⟨hb, hs₁⟩ := henter s parent b hs hPb
      rw [runWithin]
      generalize p.enter s parent b = r at hb hs₁
      obtain ⟨s₁, b₁, v⟩ := r
      cases v with
      | stop => exact ⟨.cons hb (hstay _) (hstay _), hs₁⟩
      | skipChildren =>
        obtain ⟨h, hI⟩ := forall₂_runWithin hrefl htrans hP henter hleave siblings hPs parent
          (fun f => around (cons b₁ children f)) s₁ hs₁
        exact ⟨.cons hb (hstay _) h, hI⟩
      | proceed =>
        obtain ⟨hc, hs₂⟩ := forall₂_runWithin hrefl htrans hP henter hleave children hPc (some b₁)
          (fun f => around (cons b₁ f siblings)) s₁ hs₁
        dsimp only
        generalize children.runWithin p (some b₁) (fun f => around (cons b₁ f siblings)) s₁ = r
          at hc hs₂
        obtain ⟨s₂, children₁, v⟩ := r
        obtain ⟨hl, hlc, hs₃⟩ := hleave s₂ (fun b children => around (cons b children siblings)) b₁
          children₁ hs₂ (hP _ _ hb hPb)
        have htwo (f : Forest β) : Forall₂ R children₁ f → Forall₂ R children f := fun h =>
          hc.trans h htrans
        -- a walk that is stopped below leaves nothing any more
        cases v with
        | stop => exact ⟨.cons hb hc (hstay _), hs₂⟩
        | skipChildren | proceed =>
          dsimp only
          generalize p.leave s₂ (fun b children => around (cons b children siblings)) b₁ children₁ =
            r at hl hlc hs₃
          obtain ⟨s₃, b₂, children₂, v⟩ := r
          cases v with
          | stop => exact ⟨.cons (htrans _ _ _ hb hl) (htwo _ hlc) (hstay _), hs₃⟩
          | skipChildren | proceed =>
            obtain ⟨h, hI⟩ := forall₂_runWithin hrefl htrans hP henter hleave siblings hPs parent
              (fun f => around (cons b₂ children₂ f)) s₃ hs₃
            exact ⟨.cons (htrans _ _ _ hb hl) (htwo _ hlc) h, hI⟩

/-- What holds of the state of a walk and is kept by every callback holds at its end, also where it
is stopped. What a label is left with may rely on what entering it has made of it. -/
theorem invariant_runWithin {I : σ → Prop} {P E : β → Prop} {p : Pass σ β}
    (henter : ∀ s parent b, I s → P b → I (p.enter s parent b).1 ∧ E (p.enter s parent b).2.1)
    (hleave : ∀ s whole b children, I s → E b → I (p.leave s whole b children).1) :
    (f : Forest β) → (∀ b ∈ f.toList, P b) → (parent : Option β) →
      (around : Forest β → Forest β) → (s : σ) → I s → I (f.runWithin p parent around s).1
  | nil, _, _, _, _, hs => hs
  | cons b children siblings, hf, parent, around, s, hs => by
      simp only [toList, List.mem_cons, List.mem_append, or_imp, forall_and, forall_eq] at hf
      obtain ⟨hPb, hPc, hPs⟩ := hf
      obtain ⟨hs₁, hE⟩ := henter s parent b hs hPb
      rw [runWithin]
      generalize p.enter s parent b = r at hs₁ hE
      obtain ⟨s₁, b₁, v⟩ := r
      cases v with
      | stop => exact hs₁
      | skipChildren =>
        exact invariant_runWithin henter hleave siblings hPs parent
          (fun f => around (cons b₁ children f)) s₁ hs₁
      | proceed =>
        have hs₂ := invariant_runWithin henter hleave children hPc (some b₁)
          (fun f => around (cons b₁ f siblings)) s₁ hs₁
        dsimp only
        generalize children.runWithin p (some b₁) (fun f => around (cons b₁ f siblings)) s₁ = r
          at hs₂
        obtain ⟨s₂, children₁, v⟩ := r
        have hs₃ := hleave s₂ (fun b children => around (cons b children siblings)) b₁ children₁ hs₂ hE
        cases v with
        | stop => exact hs₂
        | skipChildren | proceed =>
          dsimp only
          generalize p.leave s₂ (fun b children => around (cons b children siblings)) b₁ children₁ =
            r at hs₃
          obtain ⟨s₃, b₂, children₂, v⟩ := r
          cases v with
          | stop => exact hs₃
          | skipChildren | proceed =>
            exact invariant_runWithin henter hleave siblings hPs parent
              (fun f => around (cons b₂ children₂ f)) s₃ hs₃

/-- A walk whose callbacks relate every label to what they make of it relates the whole forest to
what it makes of that. -/
theorem forall₂_run {R : β → β → Prop} (hrefl : ∀ b, R b b)
    (htrans : ∀ a b c, R a b → R b c → R a c) {p : Pass σ β}
    (henter : ∀ s parent b, R b (p.enter s parent b).2.1)
    (hleave : ∀ s whole b children, R b (p.leave s whole b children).2.1 ∧
      Forall₂ R children (p.leave s whole b children).2.2.1) (s : σ) (f : Forest β) :
    Forall₂ R f (f.run p s).2.1 :=
  (forall₂_runWithin (I := fun _ => True) (P := fun _ => True) hrefl htrans (fun _ _ _ h => h)
    (fun s parent b _ _ => ⟨henter s parent b, trivial⟩)
    (fun s whole b children _ _ =>
      ⟨(hleave s whole b children).1, (hleave s whole b children).2, trivial⟩)
    f (fun _ _ => trivial) none id s trivial).1

end Walk

/-! ### Walks that come to their end -/

variable {σ : Type}

/-- A walk below a label that comes to its end: the state and the forest before it, and those after
it. What lies around the forest is not kept. -/
inductive Completes (p : Pass σ β) : (above : Option β) → (before : σ) → Forest β →
    (after : σ) → Forest β → Prop
  | nil (above : Option β) (s : σ) : Completes p above s nil s nil
  | skip {above : Option β} {s s₁ s₂ : σ} {b b₁ : β} {children siblings siblings' : Forest β}
      (enter : p.enter s above b = (s₁, b₁, .skipChildren))
      (beside : Completes p above s₁ siblings s₂ siblings') :
      Completes p above s (cons b children siblings) s₂ (cons b₁ children siblings')
  | walk {above : Option β} {s s₁ s₂ s₃ s₄ : σ} {b b₁ b₂ : β}
      {children siblings children₁ children₂ siblings' : Forest β}
      {whole : β → Forest β → Forest β} {v : Visit}
      (enter : p.enter s above b = (s₁, b₁, .proceed))
      (below : Completes p (some b₁) s₁ children s₂ children₁)
      (leave : p.leave s₂ whole b₁ children₁ = (s₃, b₂, children₂, v)) (going : v ≠ .stop)
      (beside : Completes p above s₃ siblings s₄ siblings') :
      Completes p above s (cons b children siblings) s₄ (cons b₂ children₂ siblings')

/-- What the callbacks relate to each label they relate to the whole forest. -/
theorem Completes.forall₂ {p : Pass σ β} {R : β → β → Prop} (hrefl : ∀ b, R b b)
    (htrans : ∀ a b c, R a b → R b c → R a c) (henter : ∀ s above b, R b (p.enter s above b).2.1)
    (hleave : ∀ s whole b f, R b (p.leave s whole b f).2.1 ∧
      Forall₂ R f (p.leave s whole b f).2.2.1)
    {above : Option β} {s s' : σ} {f f' : Forest β} (h : Completes p above s f s' f') :
    Forall₂ R f f' := by
  induction h with
  | nil => exact .nil
  | @skip above s s₁ s₂ b b₁ children siblings siblings' enter _ ih =>
    have hb := henter s above b
    rw [enter] at hb
    exact .cons hb (.refl fun b _ => hrefl b) ih
  | @walk above s s₁ s₂ s₃ s₄ b b₁ b₂ children siblings children₁ children₂ siblings' whole v enter _
      leave _ _ ihbelow ihbeside =>
    have hb := henter s above b
    obtain ⟨hl, hc⟩ := hleave s₂ whole b₁ children₁
    rw [enter] at hb
    rw [leave] at hl hc
    exact .cons (htrans _ _ _ hb hl) (ihbelow.trans hc htrans) ihbeside

/-- A walk that has not been stopped has come to its end. -/
theorem completes_runWithin (p : Pass σ β) : (f : Forest β) → (above : Option β) →
    (around : Forest β → Forest β) → (s : σ) → (f.runWithin p above around s).2.2 ≠ .stop →
      Completes p above s f (f.runWithin p above around s).1 (f.runWithin p above around s).2.1
  | nil, above, _, s, _ => .nil above s
  | cons b children siblings, above, around, s, h => by
      rw [runWithin] at h ⊢
      generalize henter : p.enter s above b = r at h ⊢
      obtain ⟨s₁, b₁, v⟩ := r
      cases v with
      | stop => exact absurd rfl h
      | skipChildren =>
        exact .skip henter (completes_runWithin p siblings above _ s₁ h)
      | proceed =>
        have hbelow := completes_runWithin p children (some b₁)
          (fun f => around (cons b₁ f siblings)) s₁
        dsimp only at h ⊢
        generalize children.runWithin p (some b₁) (fun f => around (cons b₁ f siblings)) s₁ = r
          at h hbelow ⊢
        obtain ⟨s₂, children₁, v⟩ := r
        cases v with
        | stop => exact absurd rfl h
        | skipChildren | proceed =>
          dsimp only at h ⊢
          generalize hleave : p.leave s₂ (fun b children => around (cons b children siblings)) b₁
            children₁ = r at h ⊢
          obtain ⟨s₃, b₂, children₂, v⟩ := r
          cases v with
          | stop => exact absurd rfl h
          | skipChildren | proceed =>
            exact .walk henter (hbelow (by simp)) hleave (by simp)
              (completes_runWithin p siblings above _ s₃ h)

/-- A walk over a tree whose children are entered, and over the trees behind it. -/
theorem runWithin_cons_of_proceed {p : Pass σ β} {above : Option β} {around : Forest β → Forest β}
    {s s₁ : σ} {b b₁ : β} {below siblings : Forest β}
    (henter : p.enter s above b = (s₁, b₁, .proceed)) {r : σ × Forest β × Visit}
    (hbelow : below.runWithin p (some b₁) (fun f => around (cons b₁ f siblings)) s₁ = r)
    {l : σ × β × Forest β × Visit}
    (hleave : p.leave r.1 (fun b children => around (cons b children siblings)) b₁ r.2.1 = l) :
    (((cons b below siblings).runWithin p above around s).2.2 ≠ .stop →
        r.2.2 ≠ .stop ∧ l.2.2.2 ≠ .stop) ∧
      (r.2.2 ≠ .stop → l.2.2.2 ≠ .stop → ∃ q,
        siblings.runWithin p above (fun f => around (cons l.2.1 l.2.2.1 f)) l.1 = q ∧
          (cons b below siblings).runWithin p above around s =
            (q.1, cons l.2.1 l.2.2.1 q.2.1, q.2.2)) := by
  obtain ⟨s₂, children, v⟩ := r
  obtain ⟨s₃, b₃, children₃, w⟩ := l
  rw [runWithin, henter]
  dsimp only at hleave ⊢
  rw [hbelow]
  cases v with
  | stop => exact ⟨fun h => absurd rfl h, fun h => absurd rfl h⟩
  | skipChildren | proceed =>
    dsimp only
    rw [hleave]
    cases w with
    | stop => exact ⟨fun h => absurd rfl h, fun _ h => absurd rfl h⟩
    | skipChildren | proceed => exact ⟨fun _ => ⟨by simp, by simp⟩, fun _ _ => ⟨_, rfl, rfl⟩⟩

end Forest

end ScoreLayout
