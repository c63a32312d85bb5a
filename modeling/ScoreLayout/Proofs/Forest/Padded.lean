import ScoreLayout.Proofs.Forest.Surgery
import ScoreLayout.Proofs.Forest.TwoWalks

/-!
# Forests with further leaves

One forest is another with further leaves in it. A pass that passes over the further leaves walks
both side by side: it goes through related states, decides alike at the labels that the forests
share, and leaves two such forests again.

## Main definitions

* `Forest.Padded` — two forests of one shape, but for further leaves in the second.
* `Forest.Parallel` — two passes that can walk side by side over such forests.

## Main results

* `Forest.Parallel.runWithin` — two walks over such forests.
* `Forest.Padded.visit` — the same where the walks only look.
* `Forest.Padded.relabel` — such forests after changes of their labels.
* `Forest.Padded.filterMap_toList` — what no further leaf adds to.
-/

namespace ScoreLayout

namespace Forest

variable {σ τ β γ δ : Type}

/-- Two ways to split a forest behind as many trees. -/
theorem append_inj : {f₁ f₂ g₁ g₂ : Forest β} → f₁ ++ f₂ = g₁ ++ g₂ →
    f₁.roots.length = g₁.roots.length → f₁ = g₁ ∧ f₂ = g₂
  | nil, _, nil, _, h, _ => ⟨rfl, h⟩
  | cons b children siblings, _, cons c children' siblings', _, h, hl => by
      obtain ⟨rfl, rfl, hrest⟩ := Forest.cons.inj h
      obtain ⟨rfl, rfl⟩ := append_inj hrest (Nat.succ.inj hl)
      exact ⟨rfl, rfl⟩

/-- Two forests with related labels at the same places, where the second may have further leaves. -/
inductive Padded (P : γ → Prop) (R : β → γ → Prop) : Forest β → Forest γ → Prop
  | nil : Padded P R nil nil
  | cons {b : β} {c : γ} {children siblings : Forest β} {children' siblings' : Forest γ}
      (label : R b c) (below : Padded P R children children')
      (beside : Padded P R siblings siblings') :
      Padded P R (cons b children siblings) (cons c children' siblings')
  | leaf {c : γ} {f : Forest β} {g : Forest γ} (further : P c) (beside : Padded P R f g) :
      Padded P R f (cons c nil g)

namespace Padded

variable {P : γ → Prop} {R : β → γ → Prop} {f : Forest β} {g : Forest γ}

theorem of_forall₂ (h : Forall₂ R f g) : Padded P R f g := by
  induction h with
  | nil => exact .nil
  | cons hb _ _ hc hs => exact .cons hb hc hs

/-- Without further leaves the two forests have one shape. -/
theorem forall₂ (h : Padded (fun _ => False) R f g) : Forall₂ R f g := by
  induction h with
  | nil => exact .nil
  | cons hb _ _ hc hs => exact .cons hb hc hs
  | leaf hfalse => exact hfalse.elim

theorem eq {f g : Forest β} (h : Padded (fun _ => False) Eq f g) : f = g := by
  induction h with
  | nil => rfl
  | cons hb _ _ hc hs => rw [hb, hc, hs]
  | leaf hfalse => exact hfalse.elim

theorem mono {Q : γ → Prop} {S : β → γ → Prop} (h : Padded P R f g) (hPQ : ∀ c, P c → Q c)
    (hRS : ∀ b c, R b c → S b c) : Padded Q S f g := by
  induction h with
  | nil => exact .nil
  | cons hb _ _ hc hs => exact .cons (hRS _ _ hb) hc hs
  | leaf hc _ hs => exact .leaf (hPQ _ hc) hs

theorem append {f' : Forest β} {g' : Forest γ} (h : Padded P R f g) (h' : Padded P R f' g') :
    Padded P R (f ++ f') (g ++ g') := by
  induction h with
  | nil => exact h'
  | cons hb hc _ _ hs => exact .cons hb hc hs
  | leaf hc _ hs => exact .leaf hc hs

/-- The second forest split in two. -/
theorem exists_append {g₁ g₂ : Forest γ} (h : Padded P R f (g₁ ++ g₂)) :
    ∃ f₁ f₂, f = f₁ ++ f₂ ∧ Padded P R f₁ g₁ ∧ Padded P R f₂ g₂ := by
  generalize hg : g₁ ++ g₂ = g at h
  induction h generalizing g₁ with
  | nil =>
    cases g₁ with
    | nil => exact ⟨.nil, .nil, rfl, .nil, by rw [← nil_append g₂, hg]; exact .nil⟩
    | cons => cases hg
  | @cons b c children siblings children' siblings' hb hc hs _ ih =>
    cases g₁ with
    | nil => exact ⟨.nil, _, rfl, .nil, by rw [← nil_append g₂, hg]; exact .cons hb hc hs⟩
    | cons c₁ children₁ siblings₁ =>
      obtain ⟨rfl, rfl, hrest⟩ := Forest.cons.inj hg
      obtain ⟨f₁, f₂, rfl, h₁, h₂⟩ := ih hrest
      exact ⟨.cons b children f₁, f₂, rfl, .cons hb hc h₁, h₂⟩
  | @leaf c f g hc hs ih =>
    cases g₁ with
    | nil => exact ⟨.nil, f, rfl, .nil, by rw [← nil_append g₂, hg]; exact .leaf hc hs⟩
    | cons c₁ children₁ siblings₁ =>
      obtain ⟨rfl, rfl, hrest⟩ := Forest.cons.inj hg
      obtain ⟨f₁, f₂, rfl, h₁, h₂⟩ := ih hrest
      exact ⟨f₁, f₂, rfl, .leaf hc h₁, h₂⟩

theorem branches (h : Padded P R f g) : Padded P R f.branches g.branches := by
  induction h with
  | nil => exact .nil
  | cons _ hc _ _ hs => exact hc.append hs
  | leaf _ _ hs => exact hs

theorem map {β' γ' : Type} {Q : γ' → Prop} {S : β' → γ' → Prop} (h : Padded P R f g) {u : β → β'}
    {v : γ → γ'} (hv : ∀ c, P c → Q (v c)) (huv : ∀ b c, R b c → S (u b) (v c)) :
    Padded Q S (f.map u) (g.map v) := by
  induction h with
  | nil => exact .nil
  | cons hb _ _ hc hs => exact .cons (huv _ _ hb) hc hs
  | leaf hc _ hs => exact .leaf (hv _ hc) hs

/-- Two forests that change in their labels only. -/
theorem relabel {β' γ' : Type} {U : β → β' → Prop} {V : γ → γ' → Prop} {Q : γ' → Prop}
    {S : β' → γ' → Prop} {f' : Forest β'} {g' : Forest γ'} (h : Padded P R f g)
    (hf : Forall₂ U f f') (hg : Forall₂ V g g') (hQ : ∀ c c', P c → V c c' → Q c')
    (hS : ∀ b c b' c', R b c → U b b' → V c c' → S b' c') : Padded Q S f' g' := by
  induction h generalizing f' g' with
  | nil =>
    cases hf
    cases hg
    exact .nil
  | cons hb _ _ ihc ihs =>
    cases hf with
    | cons hbb hfc hfs =>
      cases hg with
      | cons hcc hgc hgs => exact .cons (hS _ _ _ _ hb hbb hcc) (ihc hfc hgc) (ihs hfs hgs)
  | leaf hc _ ih =>
    cases hg with
    | cons hcc hnil hgs =>
      cases hnil
      exact .leaf (hQ _ _ hc hcc) (ih hf hgs)

/-- What has no partner is a further leaf. -/
theorem exists_left (h : Padded P R f g) : ∀ c ∈ g.toList, P c ∨ ∃ b ∈ f.toList, R b c := by
  induction h with
  | nil => exact fun c hc => absurd hc List.not_mem_nil
  | @cons b c _ _ _ _ hb _ _ ihc ihs =>
    simp only [toList, List.mem_cons, List.mem_append]
    rintro d (rfl | hd | hd)
    · exact .inr ⟨b, .inl rfl, hb⟩
    · exact (ihc d hd).imp_right (.imp fun _ ha => ⟨.inr (.inl ha.1), ha.2⟩)
    · exact (ihs d hd).imp_right (.imp fun _ ha => ⟨.inr (.inr ha.1), ha.2⟩)
  | leaf hc _ ih =>
    simp only [toList, List.nil_append, List.mem_cons]
    rintro d (rfl | hd)
    · exact .inl hc
    · exact ih d hd

/-- Every label of the first forest has a partner. -/
theorem exists_right (h : Padded P R f g) : ∀ b ∈ f.toList, ∃ c ∈ g.toList, R b c := by
  induction h with
  | nil => exact fun b hb => absurd hb List.not_mem_nil
  | @cons b c _ _ _ _ hb _ _ ihc ihs =>
    simp only [toList, List.mem_cons, List.mem_append]
    rintro d (rfl | hd | hd)
    · exact ⟨c, .inl rfl, hb⟩
    · obtain ⟨a, ha, hR⟩ := ihc d hd
      exact ⟨a, .inr (.inl ha), hR⟩
    · obtain ⟨a, ha, hR⟩ := ihs d hd
      exact ⟨a, .inr (.inr ha), hR⟩
  | leaf _ _ ih =>
    intro d hd
    obtain ⟨a, ha, hR⟩ := ih d hd
    exact ⟨a, by simp [toList, ha], hR⟩

/-- Every tree of the first forest has a partner. -/
theorem exists_hasTree_right (h : Padded P R f g) {b : β} {below : Forest β}
    (hb : HasTree b below f) : ∃ c below', HasTree c below' g ∧ R b c ∧ Padded P R below below' := by
  induction h with
  | nil => cases hb
  | @cons a c children siblings children' siblings' ha hchildren _ ihc ihs =>
    cases hb with
    | here => exact ⟨c, children', .here siblings', ha, hchildren⟩
    | deeper _ hb =>
      obtain ⟨d, below', hd, h⟩ := ihc hb
      exact ⟨d, below', .deeper siblings' hd, h⟩
    | beside _ _ hb =>
      obtain ⟨d, below', hd, h⟩ := ihs hb
      exact ⟨d, below', .beside c children' hd, h⟩
  | @leaf c f g hc _ ih =>
    obtain ⟨d, below', hd, h⟩ := ih hb
    exact ⟨d, below', .beside c .nil hd, h⟩

/-- Related labels are labels of the two forests. -/
theorem mem (h : Padded P R f g) :
    Padded (fun c => P c ∧ c ∈ g.toList) (fun b c => R b c ∧ b ∈ f.toList ∧ c ∈ g.toList) f g := by
  have hwithin {F : List β} {G : List γ} {f : Forest β} {g : Forest γ} (h : Padded P R f g) :
      (∀ b ∈ f.toList, b ∈ F) → (∀ c ∈ g.toList, c ∈ G) →
        Padded (fun c => P c ∧ c ∈ G) (fun b c => R b c ∧ b ∈ F ∧ c ∈ G) f g := by
    intro hf hg
    induction h with
    | nil => exact .nil
    | cons hb _ _ hc hs =>
      simp only [toList, List.mem_cons, List.mem_append, or_imp, forall_and, forall_eq] at hf hg
      exact .cons ⟨hb, hf.1, hg.1⟩ (hc hf.2.1 hg.2.1) (hs hf.2.2 hg.2.2)
    | leaf hc _ hs =>
      simp only [toList, List.nil_append, List.mem_cons, or_imp, forall_and, forall_eq] at hg
      exact .leaf ⟨hc, hg.1⟩ (hs hf hg.2)
  exact hwithin h (fun _ hb => hb) fun _ hc => hc

/-- Further leaves from which nothing is picked add nothing. -/
theorem filterMap_toList (h : Padded P R f g) {u : β → Option δ} {v : γ → Option δ}
    (hv : ∀ c, P c → v c = none) (huv : ∀ b c, R b c → u b = v c) :
    f.toList.filterMap u = g.toList.filterMap v := by
  induction h with
  | nil => rfl
  | cons hb _ _ hc hs =>
    rw [toList, toList, List.filterMap_cons, List.filterMap_cons, List.filterMap_append,
      List.filterMap_append, hc, hs, huv _ _ hb]
  | leaf hc _ hs => rw [toList, toList, List.nil_append, List.filterMap_cons_none (hv _ hc), hs]

theorem filterMap_roots (h : Padded P R f g) {u : β → Option δ} {v : γ → Option δ}
    (hv : ∀ c, P c → v c = none) (huv : ∀ b c, R b c → u b = v c) :
    f.roots.filterMap u = g.roots.filterMap v := by
  induction h with
  | nil => rfl
  | cons hb _ _ _ hs =>
    rw [roots, roots, List.filterMap_cons, List.filterMap_cons, huv _ _ hb, hs]
  | leaf hc _ hs => rw [roots, List.filterMap_cons_none (hv _ hc), hs]

/-- The roots without the further leaves among them. -/
theorem map_roots (h : Padded P R f g) {q : γ → Bool} (hq : ∀ c, P c → ¬ q c) {u : β → δ}
    {v : γ → δ} (huv : ∀ b c, R b c → q c ∧ u b = v c) :
    f.roots.map u = (g.roots.filter q).map v := by
  induction h with
  | nil => rfl
  | cons hb _ _ _ hs =>
    obtain ⟨hkept, heq⟩ := huv _ _ hb
    rw [roots, roots, List.filter_cons_of_pos hkept, List.map_cons, List.map_cons, heq, hs]
  | leaf hc _ hs => rw [roots, List.filter_cons_of_neg (hq _ hc), hs]

/-- Where no root is a further leaf, the roots are related one by one. -/
theorem roots (h : Padded P R f g) (hg : ∀ c ∈ g.roots, ¬ P c) :
    List.Forall₂ R f.roots g.roots := by
  induction h with
  | nil => exact .nil
  | cons hb _ _ _ hs =>
    rw [Forest.roots, List.forall_mem_cons] at hg
    exact .cons hb (hs hg.2)
  | leaf hc =>
    rw [Forest.roots, List.forall_mem_cons] at hg
    exact absurd hc hg.1

end Padded

/-! ### Two walks -/

section Walks

/-- Two passes that can walk side by side over such forests. Labels are related by `R` before they
are entered, by `R'` while what is below them is visited, and by `R₁` once they are left; parents
are related by `A`. The states are related by `S`, or by `Q` after a stop. -/
structure Parallel (P : γ → Prop) (R R' R₁ : β → γ → Prop) (S Q : σ → τ → Prop)
    (A : Option β → Option γ → Prop) (V : β → Forest β → Prop) (p : Pass σ β) (q : Pass τ γ) :
    Prop where
  parent : ∀ {b c}, R' b c → A (some b) (some c)
  /-- The two agree at the labels that the forests share. -/
  enter : ∀ {s t a a' b c f g}, S s t → A a a' → R b c → V b f → Padded P R f g →
    ∃ s' t' b' c' v, p.enter s a b = (s', b', v) ∧ q.enter t a' c = (t', c', v) ∧
      match v with
      | .stop => Q s' t'
      | .skipChildren => S s' t' ∧ R₁ b' c' ∧ Padded P R₁ f g
      | .proceed => S s' t' ∧ R' b' c'
  /-- The second passes over the further leaves. -/
  leaf : ∀ {s t o c}, S s t → P c → ∃ t' c', q.enter t o c = (t', c', .skipChildren) ∧
    P c' ∧ S s t'
  leave : ∀ {s t} w w' {b c f g}, S s t → R' b c → Padded P R₁ f g →
    ∃ s' t' b' c' f' g' v, p.leave s w b f = (s', b', f', v) ∧ q.leave t w' c g = (t', c', g', v) ∧
      match v with
      | .stop => Q s' t'
      | _ => S s' t' ∧ R₁ b' c' ∧ Padded P R₁ f' g'

variable {P : γ → Prop} {R R' R₁ : β → γ → Prop} {S Q : σ → τ → Prop}
  {A : Option β → Option γ → Prop} {V : β → Forest β → Prop} {p : Pass σ β} {q : Pass τ γ}

/-- Two walks side by side. -/
theorem Parallel.runWithin (hpq : Parallel P R R' R₁ S Q A V p q) {f : Forest β} {g : Forest γ}
    (h : Padded P R f g) (hf : ∀ b below, HasTree b below f → V b below) {a : Option β}
    {o : Option γ} (ha : A a o) (around : Forest β → Forest β) (around' : Forest γ → Forest γ)
    {s : σ} {t : τ} (hs : S s t) :
    ∃ s' t' f' g' v, f.runWithin p a around s = (s', f', v) ∧
      g.runWithin q o around' t = (t', g', v) ∧
      match v with
      | .stop => Q s' t'
      | _ => S s' t' ∧ Padded P R₁ f' g' := by
  induction h generalizing a o around around' s t with
  | nil => exact ⟨s, t, .nil, .nil, .proceed, rfl, rfl, hs, .nil⟩
  | @leaf c f g hc _ ih =>
    obtain ⟨t₁, c₁, hq, hc₁, hs₁⟩ := hpq.leaf (o := o) hs hc
    obtain ⟨s', t', f', g', v, hp, hq', hv⟩ := @ih hf a o ha around
      (fun g => around' (.cons c₁ .nil g)) s t₁ hs₁
    refine ⟨s', t', f', .cons c₁ .nil g', v, hp, ?_, ?_⟩
    · rw [Forest.runWithin, hq]
      dsimp only
      rw [hq']
    · cases v with
      | stop => exact hv
      | skipChildren | proceed => exact ⟨hv.1, .leaf hc₁ hv.2⟩
  | @cons b c children siblings children' siblings' hb hc _ ihc ihs =>
    have hbelow : ∀ b below, HasTree b below children → V b below := fun b below h =>
      hf b below (.deeper siblings h)
    have hbeside : ∀ b below, HasTree b below siblings → V b below := fun c below h =>
      hf c below (.beside b children h)
    obtain ⟨s₁, t₁, b₁, c₁, v, hp, hq, hv⟩ := hpq.enter hs ha hb (hf b children (.here siblings)) hc
    rw [Forest.runWithin, Forest.runWithin, hp, hq]
    cases v with
    | stop => exact ⟨s₁, t₁, _, _, .stop, rfl, rfl, hv⟩
    | skipChildren =>
      obtain ⟨hs₁, hb₁, hc₁⟩ := hv
      obtain ⟨s₂, t₂, f₂, g₂, v, hp₂, hq₂, hv₂⟩ := @ihs hbeside a o ha
        (fun f => around (.cons b₁ children f)) (fun g => around' (.cons c₁ children' g)) s₁ t₁ hs₁
      dsimp only
      rw [hp₂, hq₂]
      refine ⟨s₂, t₂, _, _, v, rfl, rfl, ?_⟩
      cases v with
      | stop => exact hv₂
      | skipChildren | proceed => exact ⟨hv₂.1, .cons hb₁ hc₁ hv₂.2⟩
    | proceed =>
      obtain ⟨hs₁, hb₁⟩ := hv
      obtain ⟨s₂, t₂, f₂, g₂, v, hp₂, hq₂, hv₂⟩ := @ihc hbelow (some b₁) (some c₁)
        (hpq.parent hb₁) (fun f => around (.cons b₁ f siblings))
        (fun g => around' (.cons c₁ g siblings')) s₁ t₁ hs₁
      dsimp only
      rw [hp₂, hq₂]
      cases v with
      | stop => exact ⟨s₂, t₂, _, _, .stop, rfl, rfl, hv₂⟩
      | skipChildren | proceed =>
        obtain ⟨s₃, t₃, b₃, c₃, f₃, g₃, v, hp₃, hq₃, hv₃⟩ := hpq.leave
          (fun b children => around (.cons b children siblings))
          (fun c children => around' (.cons c children siblings')) hv₂.1 hb₁ hv₂.2
        dsimp only
        rw [hp₃, hq₃]
        cases v with
        | stop => exact ⟨s₃, t₃, _, _, .stop, rfl, rfl, hv₃⟩
        | skipChildren | proceed =>
          obtain ⟨hs₃, hb₃, hf₃⟩ := hv₃
          obtain ⟨s₄, t₄, f₄, g₄, v, hp₄, hq₄, hv₄⟩ := @ihs hbeside a o ha
            (fun f => around (.cons b₃ f₃ f)) (fun g => around' (.cons c₃ g₃ g)) s₃ t₃ hs₃
          dsimp only
          rw [hp₄, hq₄]
          refine ⟨s₄, t₄, _, _, v, rfl, rfl, ?_⟩
          cases v with
          | stop => exact hv₄
          | skipChildren | proceed => exact ⟨hv₄.1, .cons hb₃ hf₃ hv₄.2⟩

/-- Two walks side by side by visitors that agree on related labels. The second passes over the
further leaves. -/
theorem Padded.visit {v : Visitor σ β} {w : Visitor σ γ}
    (henter : ∀ s b c, R b c → w.enter s c = v.enter s b)
    (hleave : ∀ s b c, R b c → w.leave s c = v.leave s b)
    (hleaf : ∀ s c, P c → w.enter s c = (s, .skipChildren)) {f : Forest β} {g : Forest γ}
    (h : Padded P R f g) (s : σ) : g.visit w s = f.visit v s := by
  induction h generalizing s with
  | nil => rfl
  | leaf hc _ hs =>
    rw [Forest.visit, hleaf s _ hc]
    exact hs s
  | cons hb _ _ hc hs =>
    rw [Forest.visit, Forest.visit, henter s _ _ hb]
    split
    · rfl
    · exact hs _
    · rw [hc]
      split
      · rfl
      · rw [hleave _ _ _ hb]
        split
        · rfl
        · exact hs _

end Walks

end Forest

end ScoreLayout
