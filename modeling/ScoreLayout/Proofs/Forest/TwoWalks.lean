import Mathlib.Logic.Relator
import ScoreLayout.Proofs.Forest.Walk

/-!
# Two walks side by side

Two forests of one shape are walked side by side by two passes that agree on related labels: they go
through the same states, decide alike, and leave related forests. Where the labels of each forest
are told apart by keys, the places that the forests share pair these keys off.

## Main results

* `Forest.Forall₂.runWithin` — two walks over related forests.
* `Forest.Forall₂.visit` — the same where the walks only look.
* `Forest.runWithin_congr` — two passes that agree on all labels of one forest.
* `Forest.Forall₂.exists_pairing` — the keys of related forests paired off.
-/

namespace ScoreLayout

namespace Forest

variable {σ β γ : Type}

/-! ### The places that two forests share -/

namespace Forall₂

variable {R : β → γ → Prop} {f : Forest β} {g : Forest γ}

/-- Two forests of one shape are the two sides of a forest of pairs. -/
theorem exists_pairs (h : Forall₂ R f g) :
    ∃ z : Forest (β × γ), z.map Prod.fst = f ∧ z.map Prod.snd = g ∧ ∀ p ∈ z.toList, R p.1 p.2 := by
  induction h with
  | nil => exact ⟨.nil, rfl, rfl, fun p hp => absurd hp List.not_mem_nil⟩
  | @cons b c _ _ _ _ hb _ _ hc hs =>
    obtain ⟨z, rfl, rfl, hz⟩ := hc
    obtain ⟨z', rfl, rfl, hz'⟩ := hs
    refine ⟨.cons (b, c) z z', rfl, rfl, fun p hp => ?_⟩
    rw [Forest.toList, List.mem_cons, List.mem_append] at hp
    rcases hp with rfl | hp | hp
    · exact hb
    · exact hz p hp
    · exact hz' p hp

theorem of_pairs : {z : Forest (β × γ)} → (∀ p ∈ z.toList, R p.1 p.2) →
    Forall₂ R (z.map Prod.fst) (z.map Prod.snd)
  | .nil, _ => .nil
  | .cons p below siblings, h => by
      simp only [Forest.toList, List.mem_cons, List.mem_append, or_imp, forall_and,
        forall_eq] at h
      exact .cons h.1 (of_pairs h.2.1) (of_pairs h.2.2)

/-- Related labels are labels of the two forests. -/
theorem mem (h : Forall₂ R f g) :
    Forall₂ (fun b c => R b c ∧ b ∈ f.toList ∧ c ∈ g.toList) f g := by
  obtain ⟨z, rfl, rfl, hz⟩ := h.exists_pairs
  refine of_pairs fun p hp => ⟨hz p hp, ?_, ?_⟩
  · rw [toList_map]
    exact List.mem_map_of_mem hp
  · rw [toList_map]
    exact List.mem_map_of_mem hp

/-- Keys that tell the labels of two forests of one shape apart are paired off by the places of the
forests. -/
theorem exists_pairing {κ : Type} (h : Forall₂ R f g) {key : β → κ} {key' : γ → κ}
    (hf : (f.toList.map key).Nodup) (hg : (g.toList.map key').Nodup) :
    ∃ ρ : κ → κ → Prop, Relator.BiUnique ρ ∧ Forall₂ (fun b c => R b c ∧ ρ (key b) (key' c)) f g := by
  obtain ⟨z, rfl, rfl, hz⟩ := h.exists_pairs
  rw [toList_map, List.map_map] at hf hg
  refine ⟨fun k k' => ∃ p ∈ z.toList, key p.1 = k ∧ key' p.2 = k', ⟨?_, ?_⟩,
    of_pairs fun p hp => ⟨hz p hp, p, hp, rfl, rfl⟩⟩
  · rintro k k' - ⟨p, hp, rfl, rfl⟩ ⟨q, hq, rfl, heq⟩
    rw [List.inj_on_of_nodup_map hg hp hq heq.symm]
  · rintro - k k' ⟨p, hp, rfl, rfl⟩ ⟨q, hq, heq, rfl⟩
    rw [List.inj_on_of_nodup_map hf hp hq heq.symm]

/-- Labels that are related only if they are the same make one forest. -/
theorem eq {f g : Forest β} {R : β → β → Prop} (h : Forall₂ R f g)
    (hR : ∀ b ∈ f.toList, ∀ c, R b c → c = b) : g = f := by
  induction h with
  | nil => rfl
  | cons hb _ _ hc hs =>
    simp only [Forest.toList, List.mem_cons, List.mem_append, or_imp, forall_and, forall_eq] at hR
    rw [hR.1 _ hb, hc hR.2.1, hs hR.2.2]

end Forall₂

/-! ### Two passes -/

section Passes

variable {R : β → γ → Prop} {I : σ → Prop} {p : Pass σ β} {q : Pass σ γ}

/-- Two walks over related forests. The callbacks may rely on an invariant of the states. -/
theorem Forall₂.runWithin
    (henter : ∀ s a a' b c, I s → Option.Rel R a a' → R b c → ∃ s' b' c' v,
      p.enter s a b = (s', b', v) ∧ q.enter s a' c = (s', c', v) ∧ R b' c' ∧ I s')
    (hleave : ∀ s (w : β → Forest β → Forest β) (w' : γ → Forest γ → Forest γ) b c f g, I s →
      (∀ b c f g, R b c → Forall₂ R f g → Forall₂ R (w b f) (w' c g)) → R b c → Forall₂ R f g →
        ∃ s' b' c' f' g' v, p.leave s w b f = (s', b', f', v) ∧
          q.leave s w' c g = (s', c', g', v) ∧ R b' c' ∧ Forall₂ R f' g' ∧ I s')
    {f : Forest β} {g : Forest γ} (h : Forall₂ R f g) {a : Option β} {a' : Option γ}
    (ha : Option.Rel R a a') {around : Forest β → Forest β} {around' : Forest γ → Forest γ}
    (haround : ∀ f g, Forall₂ R f g → Forall₂ R (around f) (around' g)) {s : σ} (hs : I s) :
    ∃ s' f' g' v, f.runWithin p a around s = (s', f', v) ∧
      g.runWithin q a' around' s = (s', g', v) ∧ Forall₂ R f' g' ∧ I s' := by
  induction h generalizing a a' around around' s with
  | nil => exact ⟨s, .nil, .nil, .proceed, rfl, rfl, .nil, hs⟩
  | @cons b c children siblings children' siblings' hb hc hs₀ ihc ihs =>
    obtain ⟨s₁, b₁, c₁, v, hp, hq, hb₁, hs₁⟩ := henter s a a' b c hs ha hb
    rw [Forest.runWithin, Forest.runWithin, hp, hq]
    cases v with
    | stop => exact ⟨s₁, _, _, .stop, rfl, rfl, .cons hb₁ hc hs₀, hs₁⟩
    | skipChildren =>
      obtain ⟨s₂, f₂, g₂, v, hp₂, hq₂, hf₂, hs₂⟩ := @ihs a a' ha
        (fun f => around (.cons b₁ children f)) (fun g => around' (.cons c₁ children' g))
        (fun f g hfg => haround _ _ (.cons hb₁ hc hfg)) s₁ hs₁
      dsimp only
      rw [hp₂, hq₂]
      exact ⟨s₂, _, _, v, rfl, rfl, .cons hb₁ hc hf₂, hs₂⟩
    | proceed =>
      obtain ⟨s₂, f₂, g₂, v, hp₂, hq₂, hf₂, hs₂⟩ := @ihc (some b₁) (some c₁) (.some hb₁)
        (fun f => around (.cons b₁ f siblings)) (fun g => around' (.cons c₁ g siblings'))
        (fun f g hfg => haround _ _ (.cons hb₁ hfg hs₀)) s₁ hs₁
      dsimp only
      rw [hp₂, hq₂]
      cases v with
      | stop => exact ⟨s₂, _, _, .stop, rfl, rfl, .cons hb₁ hf₂ hs₀, hs₂⟩
      | skipChildren | proceed =>
        obtain ⟨s₃, b₃, c₃, f₃, g₃, v, hp₃, hq₃, hb₃, hf₃, hs₃⟩ := hleave s₂
          (fun b children => around (.cons b children siblings))
          (fun c children => around' (.cons c children siblings')) b₁ c₁ f₂ g₂ hs₂
          (fun b c f g hbc hfg => haround _ _ (.cons hbc hfg hs₀)) hb₁ hf₂
        dsimp only
        rw [hp₃, hq₃]
        cases v with
        | stop => exact ⟨s₃, _, _, .stop, rfl, rfl, .cons hb₃ hf₃ hs₀, hs₃⟩
        | skipChildren | proceed =>
          obtain ⟨s₄, f₄, g₄, v, hp₄, hq₄, hf₄, hs₄⟩ := @ihs a a' ha
            (fun f => around (.cons b₃ f₃ f)) (fun g => around' (.cons c₃ g₃ g))
            (fun f g hfg => haround _ _ (.cons hb₃ hf₃ hfg)) s₃ hs₃
          dsimp only
          rw [hp₄, hq₄]
          exact ⟨s₄, _, _, v, rfl, rfl, .cons hb₃ hf₃ hf₄, hs₄⟩

/-- Two walks over related forests by passes that change nothing when they leave a label. -/
theorem Forall₂.run_of_enter
    (henter : ∀ s a a' b c, I s → Option.Rel R a a' → R b c → ∃ s' b' c' v,
      p.enter s a b = (s', b', v) ∧ q.enter s a' c = (s', c', v) ∧ R b' c' ∧ I s')
    (hp : ∀ s w b f, p.leave s w b f = (s, b, f, .proceed))
    (hq : ∀ s w c g, q.leave s w c g = (s, c, g, .proceed))
    {f : Forest β} {g : Forest γ} (h : Forall₂ R f g) {s : σ} (hs : I s) :
    ∃ s' f' g' v, f.run p s = (s', f', v) ∧ g.run q s = (s', g', v) ∧ Forall₂ R f' g' ∧ I s' :=
  h.runWithin henter (fun s w w' b c f g hs _ hb hf =>
    ⟨s, b, c, f, g, .proceed, hp s w b f, hq s w' c g, hb, hf, hs⟩) .none (fun _ _ h => h) hs

/-- Two walks over related forests by visitors that agree on related labels. -/
theorem Forall₂.visit {v : Visitor σ β} {w : Visitor σ γ}
    (henter : ∀ s b c, R b c → w.enter s c = v.enter s b)
    (hleave : ∀ s b c, R b c → w.leave s c = v.leave s b) {f : Forest β} {g : Forest γ}
    (h : Forall₂ R f g) (s : σ) : g.visit w s = f.visit v s := by
  induction h generalizing s with
  | nil => rfl
  | cons hb _ _ hc hs =>
    rw [Forest.visit, Forest.visit, henter s _ _ hb]
    split
    · rfl
    · exact hs _
    · rw [hc]
      split
      · rfl
      · rw [hleave _ _ _ hb]
        split
        · rfl
        · exact hs _

end Passes

/-! ### One forest -/

variable {p q : Pass σ β}

/-- A walk past a label that the pass leaves alone. -/
theorem runWithin_tree {b : β} (henter : ∀ s a, p.enter s a b = (s, b, .proceed))
    (hleave : ∀ s w f, p.leave s w b f = (s, b, f, .proceed)) (children : Forest β) (a : Option β)
    (around : Forest β → Forest β) (s : σ) :
    ((tree b children).runWithin p a around s).1 =
        (children.runWithin p (some b) (fun f => around (tree b f)) s).1 ∧
      ((tree b children).runWithin p a around s).2.1 =
        tree b (children.runWithin p (some b) (fun f => around (tree b f)) s).2.1 := by
  rw [tree, runWithin, henter]
  dsimp only
  change _ = (children.runWithin p (some b) (fun f => around (cons b f nil)) s).1 ∧
    _ = cons b (children.runWithin p (some b) (fun f => around (cons b f nil)) s).2.1 nil
  generalize children.runWithin p (some b) (fun f => around (cons b f nil)) s = r
  obtain ⟨s₁, children₁, v⟩ := r
  cases v with
  | stop => exact ⟨rfl, rfl⟩
  | skipChildren | proceed =>
    dsimp only
    rw [hleave]
    exact ⟨rfl, rfl⟩

/-- Whatever holds where a callback stops the walk holds where the walk has been stopped. -/
theorem runWithin_of_stop {P : σ → Prop} (henter : ∀ s a b, (p.enter s a b).2.2 = .stop →
    P (p.enter s a b).1) (hleave : ∀ s w b f, (p.leave s w b f).2.2.2 = .stop →
      P (p.leave s w b f).1) : (f : Forest β) → (a : Option β) → (around : Forest β → Forest β) →
    (s : σ) → (f.runWithin p a around s).2.2 = .stop → P (f.runWithin p a around s).1
  | .nil, _, _, _, h => by simp [runWithin] at h
  | .cons b children siblings, a, around, s, h => by
      have hb := henter s a b
      rw [runWithin] at h ⊢
      generalize p.enter s a b = r at h hb ⊢
      obtain ⟨s₁, b₁, v⟩ := r
      cases v with
      | stop => exact hb rfl
      | skipChildren => exact runWithin_of_stop henter hleave siblings _ _ _ h
      | proceed =>
        have hc := runWithin_of_stop henter hleave children (some b₁)
          (fun f => around (cons b₁ f siblings)) s₁
        dsimp only at h ⊢
        generalize children.runWithin p (some b₁) (fun f => around (cons b₁ f siblings)) s₁ = r
          at h hc ⊢
        obtain ⟨s₂, children₂, v⟩ := r
        cases v with
        | stop => exact hc rfl
        | skipChildren | proceed =>
          have hl := hleave s₂ (fun b children => around (cons b children siblings)) b₁ children₂
          dsimp only at h ⊢
          generalize p.leave s₂ (fun b children => around (cons b children siblings)) b₁ children₂ =
            r at h hl ⊢
          obtain ⟨s₃, b₃, children₃, v⟩ := r
          cases v with
          | stop => exact hl rfl
          | skipChildren | proceed => exact runWithin_of_stop henter hleave siblings _ _ _ h

/-- What stands above a forest matters to its roots alone. -/
theorem runWithin_above_congr {a a' : Option β} : {f : Forest β} →
    (∀ b ∈ f.roots, ∀ s, p.enter s a' b = p.enter s a b) → (around : Forest β → Forest β) →
    (s : σ) → f.runWithin p a' around s = f.runWithin p a around s
  | .nil, _, _, _ => rfl
  | .cons b children siblings, h, around, s => by
      rw [roots, List.forall_mem_cons] at h
      have hsiblings (around : Forest β → Forest β) (s : σ) :
          siblings.runWithin p a' around s = siblings.runWithin p a around s :=
        runWithin_above_congr h.2 around s
      rw [runWithin, runWithin, h.1 s]
      simp only [hsiblings]

/-- Two passes that agree on the labels of a forest, whatever they make of these before they leave
them. -/
theorem runWithin_congr (hleave : ∀ s w w' b f, q.leave s w' b f = p.leave s w b f) :
    {f : Forest β} → (∀ s a, ∀ b ∈ f.toList, q.enter s a b = p.enter s a b) → (a : Option β) →
    (around around' : Forest β → Forest β) → (s : σ) →
      f.runWithin q a around' s = f.runWithin p a around s
  | .nil, _, _, _, _, _ => rfl
  | .cons b children siblings, henter, a, around, around', s => by
      have hchildren : ∀ s a, ∀ b ∈ children.toList, q.enter s a b = p.enter s a b :=
        fun s a b hb => henter s a b (List.mem_cons_of_mem _ (List.mem_append_left _ hb))
      have hsiblings : ∀ s a, ∀ b ∈ siblings.toList, q.enter s a b = p.enter s a b :=
        fun s a b hb => henter s a b (List.mem_cons_of_mem _ (List.mem_append_right _ hb))
      rw [runWithin, runWithin, henter s a b List.mem_cons_self]
      generalize p.enter s a b = r
      obtain ⟨s₁, b₁, v⟩ := r
      cases v with
      | stop => rfl
      | skipChildren =>
        dsimp only
        rw [runWithin_congr hleave hsiblings]
      | proceed =>
        dsimp only
        rw [runWithin_congr hleave hchildren _ (fun f => around (cons b₁ f siblings))]
        generalize children.runWithin p (some b₁) (fun f => around (cons b₁ f siblings)) s₁ = r
        obtain ⟨s₂, children₂, v⟩ := r
        cases v with
        | stop => rfl
        | skipChildren | proceed =>
          dsimp only
          rw [hleave s₂ (fun b children => around (cons b children siblings))]
          generalize p.leave s₂ (fun b children => around (cons b children siblings)) b₁ children₂ =
            r
          obtain ⟨s₃, b₃, children₃, v⟩ := r
          cases v with
          | stop => rfl
          | skipChildren | proceed =>
            dsimp only
            rw [runWithin_congr hleave hsiblings]

end Forest

end ScoreLayout
