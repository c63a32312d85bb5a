import ScoreLayout.Proofs.Layout.SystemStaves
import ScoreLayout.Proofs.Reachable
import ScoreLayout.Proofs.RunningSignatures

/-!
# Staves defined more than once

A score definition may name a staff number more than once. Stacking then goes by the first definition
of the number: a system has one place for the staff, as high as the lines of that definition, and
hidden where that definition hides it or all measures of the system do.

The clef in which the staff begins is that of the last definition, which is a defect. It shows as soon
as the first definition of a number and the last one name different clefs, and never otherwise.

## Main definitions

* `ScoreDefinition.lastStaff?` — the last definition of a staff number.
* `StaffStack.Sized` — a stack in which the height of a place depends on the staff alone.
* `Document.FollowsDefinitions` — what a document makes of the definitions of its staves.

## Main results

* `Signatures.clef_ofDefinition` — the clef in which a staff begins.
* `Stacking.sized_stackStaves` — the heights of the places in a stacked score.
* `Document.Reachable.follows_definitions` — every document that a caller comes to.
* `Document.Reachable.clefs_disagree` — the defect.
-/

namespace ScoreLayout

variable {α : Type}

/-- The last definition of a staff number. -/
def ScoreDefinition.lastStaff? (D : ScoreDefinition) (n : UInt32) : Option StaffDefinition :=
  (D.staves.filter fun s => s.n = n).getLast?

/-! ### The clef in which a staff begins -/

namespace Signatures

theorem clef_setClef_of_ne (s : Signatures) {n k : UInt32} (h : k ≠ n) (c : Clef) :
    (s.setClef n c).clef k = s.clef k := by
  have hfilter (l : List (UInt32 × Clef)) :
      (l.filter fun entry => entry.1 ≠ n).lookup k = l.lookup k := by
    induction l with
    | nil => rfl
    | cons x l ih =>
      by_cases hx : x.1 = n
      · rw [List.filter_cons_of_neg (by simpa using hx), ih, lookup_cons_eq_ite,
          if_neg (by rwa [hx])]
      · rw [List.filter_cons_of_pos (by simpa using hx), lookup_cons_eq_ite, lookup_cons_eq_ite, ih]
  rw [clef, setClef]
  dsimp only
  rw [lookup_cons_eq_ite, if_neg h, hfilter, clef]

/-- Of several clefs for one staff, the last one stays. -/
theorem clef_setClefs (clefs : List (UInt32 × Clef)) (s : Signatures) (k : UInt32) :
    (s.setClefs clefs).clef k =
      ((clefs.filter fun entry => entry.1 = k).getLast?.map Prod.snd).getD (s.clef k) := by
  induction clefs generalizing s with
  | nil => rfl
  | cons entry clefs ih =>
    rw [setClefs, List.foldl_cons, ← setClefs, ih]
    by_cases hk : entry.1 = k
    · rw [List.filter_cons_of_pos (by simpa using hk), List.getLast?_cons, hk, clef_setClef]
      cases (clefs.filter fun entry => entry.1 = k).getLast? <;> rfl
    · rw [List.filter_cons_of_neg (by simpa using hk), clef_setClef_of_ne _ (Ne.symm hk)]

theorem clef_ofDefinition (D : ScoreDefinition) (n : UInt32) :
    (ofDefinition D).clef n = ((D.lastStaff? n).map StaffDefinition.clef).getD default := by
  have hclefs : (ofDefinition D).clef n =
      ((default : Signatures).setClefs (D.staves.map fun s => (s.n, s.clef))).clef n := rfl
  rw [hclefs, clef_setClefs, List.filter_map, List.getLast?_map, Option.map_map]
  rfl

end Signatures

/-- A staff that has a definition has a last one. -/
theorem ScoreDefinition.exists_lastStaff? {D : ScoreDefinition} {n : UInt32} {s : StaffDefinition}
    (h : D.staff? n = some s) : ∃ last, D.lastStaff? n = some last := by
  have hmem : s ∈ D.staves.filter fun s => s.n = n :=
    List.mem_filter.2 ⟨List.mem_of_find?_eq_some h, by simpa using List.find?_some h⟩
  exact ⟨_, List.getLast?_eq_some_getLast (List.ne_nil_of_mem hmem)⟩

theorem ScoreDefinition.lastStaff?_eq_none {D : ScoreDefinition} {n : UInt32}
    (h : D.staff? n = none) : D.lastStaff? n = none := by
  rw [lastStaff?, List.getLast?_eq_none_iff, List.filter_eq_nil_iff]
  exact List.find?_eq_none.1 h

/-! ### The height of a staff -/

variable [Scalar α]

/-- A stack in which the height of a place depends on the staff alone. -/
def StaffStack.Sized (height : UInt32 → α) (s : StaffStack α) : Prop :=
  ∀ slot ∈ s.staves, slot.height = height slot.staff

namespace StaffStack

variable {height : UInt32 → α} {s : StaffStack α}

theorem Sized.ensure (h : s.Sized height) (k : UInt32) (hidden : Bool) :
    (s.ensure k (height k) hidden).Sized height := by
  rw [StaffStack.ensure]
  split_ifs
  · exact h
  · intro slot hslot
    obtain hslot | rfl := List.mem_append.1 hslot |>.imp_right List.mem_singleton.1
    · exact h slot hslot
    · rfl

theorem isSome_get?_ensure {k n : UInt32} {x : α} {hidden : Bool} :
    ((s.ensure k x hidden).get? n).isSome ↔ n = k ∨ (s.get? n).isSome := by
  rw [StaffStack.ensure]
  split_ifs with hk
  · exact ⟨.inr, fun h => h.elim (fun h => h ▸ hk) id⟩
  · rw [get?, List.find?_append, Option.isSome_or, ← get?, Bool.or_eq_true, or_comm,
      List.find?_isSome]
    simp only [List.mem_singleton, exists_eq_left, StaffSlot.new, decide_eq_true_iff]
    rw [eq_comm]

omit [Scalar α] in
theorem Sized.modify (h : s.Sized height) (k : UInt32) {f : StaffSlot α → StaffSlot α}
    (hf : ∀ slot, (f slot).staff = slot.staff ∧ (f slot).height = slot.height) :
    (s.modify k f).Sized height := by
  intro slot' hslot'
  obtain ⟨slot, hslot, rfl⟩ := List.mem_map.1 hslot'
  split_ifs
  · rw [(hf slot).1, (hf slot).2]
    exact h slot hslot
  · exact h slot hslot

theorem Sized.stack (h : s.Sized height) (spacing : α) : (s.stack spacing).Sized height := by
  have hplace : (slots : List (StaffSlot α)) → (first : Bool) → (y : α) →
      (placeFrom spacing slots first y).1.map (fun slot => (slot.staff, slot.height)) =
        slots.map fun slot => (slot.staff, slot.height) := by
    intro slots
    induction slots with
    | nil => exact fun _ _ => rfl
    | cons slot slots ih =>
      intro first y
      rw [placeFrom]
      split_ifs <;> exact congrArg ((slot.staff, slot.height) :: ·) (ih ..)
  intro slot hslot
  have hmem := List.mem_map_of_mem (f := fun slot => (slot.staff, slot.height)) hslot
  rw [StaffStack.stack, hplace, List.mem_map] at hmem
  obtain ⟨slot₀, hslot₀, heq⟩ := hmem
  rw [Prod.mk.injEq] at heq
  rw [← heq.1, ← heq.2]
  exact h slot₀ hslot₀

end StaffStack

namespace Stacking

variable {c : StackingContext α} {s s' : Stacking α} {f f' : Forest (Node α)}

/-- The places of the staves of a definition: a number that has its place already keeps it. -/
theorem sized_definedStaves (D : ScoreDefinition) (unit : α) :
    (definedStaves D unit).Sized fun n => staffHeight (D.linesOf n) unit := by
  have hfold : (before behind : List StaffDefinition) → (stack : StaffStack α) →
      D.staves = before ++ behind → (∀ s ∈ before, (stack.get? s.n).isSome) →
      stack.Sized (fun n => staffHeight (D.linesOf n) unit) →
      (behind.foldl (fun stack s => stack.ensure s.n (staffHeight s.lines unit) s.hidden)
        stack).Sized fun n => staffHeight (D.linesOf n) unit := by
    intro before behind
    induction behind generalizing before with
    | nil => exact fun stack _ _ h => h
    | cons s behind ih =>
      intro stack hD hbefore h
      rw [List.foldl_cons]
      refine ih (before ++ [s]) _ (by rw [hD, List.append_assoc, List.singleton_append]) ?_ ?_
      · intro s' hs'
        exact StaffStack.isSome_get?_ensure.2
          ((List.mem_append.1 hs').symm.imp (fun h => by rw [List.mem_singleton.1 h]) (hbefore s'))
      · by_cases hplace : (stack.get? s.n).isSome
        · rwa [StaffStack.ensure, if_pos hplace]
        · -- no definition before this one has its number
          have hfirst : D.staff? s.n = some s := by
            rw [ScoreDefinition.staff?, hD, List.find?_append, List.find?_cons_of_pos (by simp),
              List.find?_eq_none.2 fun s' hs' heq => hplace ?_, Option.none_or]
            rw [← show s'.n = s.n by simpa using heq]
            exact hbefore s' hs'
          have hlines : D.linesOf s.n = s.lines := by
            rw [ScoreDefinition.linesOf, hfirst]
            rfl
          rw [← hlines]
          exact h.ensure s.n s.hidden
  exact hfold [] D.staves .empty rfl (fun _ h => absurd h List.not_mem_nil) fun _ h =>
    absurd h List.not_mem_nil

/-- A state that collects for a system in which every place has the height that the score definition
gives to its staff. -/
def Sized (c : StackingContext α) (s : Stacking α) : Prop :=
  ∀ stack, s.stack? = some stack →
    stack.Sized fun n => staffHeight (c.document.definition.linesOf n) c.unit

theorem Sized.withStack (h : s.Sized c) {stack stack' : StaffStack α} (hstack : s.stack? = some stack)
    (hsized : (stack.Sized fun n => staffHeight (c.document.definition.linesOf n) c.unit) →
      stack'.Sized fun n => staffHeight (c.document.definition.linesOf n) c.unit) :
    (s.withStack stack').Sized c := by
  intro stack₁ hstack₁
  rw [stack?_withStack hstack, Option.some.injEq] at hstack₁
  exact hstack₁ ▸ hsized (h stack hstack)

theorem Sized.reserve (h : s.Sized c) (staff : UInt32) (top bottom : α) :
    (s.reserve staff top bottom).Sized c := by
  rw [Stacking.reserve]
  cases hstack : s.stack? with
  | none => exact h
  | some stack =>
    refine h.withStack hstack fun hsized => hsized.modify staff fun slot => ?_
    rw [StaffSlot.addExtent]
    split_ifs <;> exact ⟨rfl, rfl⟩

theorem Sized.enterControl (h : s.Sized c) (n : Node α) (control : Control α) :
    (s.enterControl c n control).Sized c := by
  rw [Stacking.enterControl]
  split_ifs
  · exact h
  · split
    · rename_i s₁ hs₁
      rw [reserveControl] at hs₁
      obtain ⟨staff, -, hs₁⟩ := except_bind_eq_ok.1 hs₁
      split at hs₁
      · obtain ⟨symbols, -, hs₁⟩ := except_bind_eq_ok.1 hs₁
        exact Except.ok.inj hs₁ ▸ h.reserve _ _ _
      · exact Except.ok.inj hs₁ ▸ h
    · exact h

/-- A system begins with places of the right height, and every step gives such a place to a staff
that has none yet. -/
theorem Sized.enter (h : s.Sized c) (above : Option (Node α)) (n : Node α) :
    ((stackingPass c).enter s above n).1.Sized c := by
  dsimp only [stackingPass]
  split
  · intro stack hstack
    exact Option.some.inj hstack ▸ sized_definedStaves _ _
  · rename_i staff hk
    dsimp only
    rw [enterStaff]
    cases hstack : s.stack? with
    | none => exact h
    | some stack => exact h.withStack hstack fun hsized => hsized.ensure staff.n false
  · dsimp only
    rw [enterElement]
    cases n.extent? with
    | none => exact h
    | some extent => exact h.reserve _ _ _
  · exact h.enterControl n _
  · exact h

/-- Where a system has been left, nothing is collected. -/
theorem Sized.leave (h : s.Sized c) (whole : Node α → Forest (Node α) → Forest (Node α)) (n : Node α)
    (f : Forest (Node α)) : ((stackingPass c).leave s whole n f).1.Sized c := by
  dsimp only [stackingPass]
  split
  · dsimp only
    rw [leaveSystem]
    split
    · exact fun _ hstack => by cases hstack
    · exact h
  · exact h

/-- A walk keeps all heights. -/
theorem Sized.walk {above : Option (Node α)}
    (h : Forest.Completes (stackingPass c) above s f s' f') (hs : s.Sized c) : s'.Sized c := by
  induction h with
  | nil => exact hs
  | @skip above s s₁ s₂ n n₁ children siblings siblings' henter _ ih =>
    have hs₁ := hs.enter above n
    rw [henter] at hs₁
    exact ih hs₁
  | @walk above s s₁ s₂ s₃ s₄ n n₁ n₂ children siblings children₁ children₂ siblings' whole v henter
      _ hleave _ _ ihbelow ihbeside =>
    have hs₁ := hs.enter above n
    rw [henter] at hs₁
    have hs₃ := (ihbelow hs₁).leave whole n₁ children₁
    rw [hleave] at hs₃
    exact ihbeside hs₃

omit [Scalar α] in
theorem sized_hideUnseen {height : UInt32 → α} (shown : List (UInt32 × Bool)) {stack : StaffStack α}
    (h : stack.Sized height) : (hideUnseen stack shown).Sized height := by
  induction shown generalizing stack with
  | nil => exact h
  | cons x shown ih => exact ih (h.modify x.1 fun _ => ⟨rfl, rfl⟩)

/-- Every place in every system has the height that the score definition gives to its staff. -/
theorem sized_score {above : Option (Node α)}
    (h : Forest.Completes (stackingPass c) above s f s' f') (hf : f.Nested)
    (hroots : ∀ n ∈ f.roots, n.tag = .document ∨ n.tag = .page ∨ n.tag = .system)
    {n : Node α} {below : Forest (Node α)} {system : ScoreSystem α} (htree : Forest.HasTree n below f')
    (hn : n.kind = .system system) :
    system.stack.Sized fun n => staffHeight (c.document.definition.linesOf n) c.unit := by
  obtain ⟨n₀, s₀, s₁, hbefore, -, hno, hwalk, hplaced⟩ :=
    exists_walk_of_system h hf hroots n below system htree hn
  obtain ⟨-, ⟨stack, hstack, -⟩, -⟩ := met_content hwalk (hf.of_hasTree hbefore).2 hno
    (show Met _ [] _ from ⟨⟨_, rfl, outline_definedStaves ..⟩, rfl⟩)
  have hstart : (s₀.enterSystem c).Sized c := fun stack hstack =>
    Option.some.inj hstack ▸ sized_definedStaves _ _
  have hsized := hstart.walk hwalk stack hstack
  rw [stack?] at hstack
  split_ifs at hstack
  obtain ⟨outer, hsystems⟩ := List.head?_eq_some_iff.1 hstack
  rw [hplaced stack outer hsystems]
  exact (sized_hideUnseen s₁.shown hsized).stack c.spacing

end Stacking

/-! ### Documents -/

namespace Document

/-- The place of a staff in a system that goes by the first definition of its number; `staves` are
those in the measures of the system. -/
structure PlacedByFirst (D : ScoreDefinition) (unit : α) (staves : List Staff) (stack : StaffStack α)
    (n : UInt32) : Prop where
  /-- There is a place for a staff that the definition names, or a measure has. -/
  exists_iff : (∃ slot, stack.get? n = some slot) ↔ D.HasStaff staves n
  /-- It is as high as the lines of the first definition, or of an ordinary staff. -/
  height : ∀ slot, stack.get? n = some slot →
    slot.height = staffHeight (((D.staff? n).map StaffDefinition.lines).getD defaultLines) unit
  /-- It is hidden where the first definition hides the staff, or all of the measures that have it
  do. -/
  hidden : ∀ slot, stack.get? n = some slot →
    (slot.hidden ↔ (∃ s, D.staff? n = some s ∧ s.hidden) ∨
      (∃ s ∈ staves, s.n = n) ∧ ∀ s ∈ staves, s.n = n → s.hidden)

/-- A document that reads the first definition of a staff number, but for the clef in which the staff
begins. -/
structure FollowsDefinitions (d : Document α) : Prop where
  /-- A staff begins with the clef of the last definition of its number. -/
  clef : ∀ n, (Signatures.ofDefinition d.definition).clef n =
    ((d.definition.lastStaff? n).map StaffDefinition.clef).getD default
  /-- That is the clef of the first one, or the default where there is none, unless both are there and
  differ. -/
  clef_eq_iff : ∀ n, (Signatures.ofDefinition d.definition).clef n =
      ((d.definition.staff? n).map StaffDefinition.clef).getD default ↔
    ∀ first last, d.definition.staff? n = some first → d.definition.lastStaff? n = some last →
      last.clef = first.clef
  /-- All systems have one place for each staff. -/
  nodup : ∀ options metrics, (d.stackStaves options metrics).fault = none →
    ∀ x below system, Forest.HasTree x below (d.stackStaves options metrics).document.score →
      x.kind = .system system → system.stack.numbers.Nodup
  /-- It goes by the first definition. -/
  placed : ∀ options metrics, (d.stackStaves options metrics).fault = none →
    ∀ x below system, Forest.HasTree x below (d.stackStaves options metrics).document.score →
      x.kind = .system system → ∀ n,
        PlacedByFirst d.definition options.scaledUnit below.staves system.stack n

omit [Scalar α] in
theorem clef_ofDefinition_eq_iff (D : ScoreDefinition) (n : UInt32) :
    (Signatures.ofDefinition D).clef n = ((D.staff? n).map StaffDefinition.clef).getD default ↔
      ∀ first last, D.staff? n = some first → D.lastStaff? n = some last →
        last.clef = first.clef := by
  rw [Signatures.clef_ofDefinition]
  cases hfirst : D.staff? n with
  | none => simp [ScoreDefinition.lastStaff?_eq_none hfirst]
  | some first =>
    obtain ⟨last, hlast⟩ := ScoreDefinition.exists_lastStaff? hfirst
    simp [hlast]

/-- Whatever a caller comes to, staves are placed by the first definition of their number, and begin
with the clef of the last one. -/
theorem Reachable.follows_definitions {d : Document α} (h : d.Reachable) : d.FollowsDefinitions where
  clef := Signatures.clef_ofDefinition d.definition
  clef_eq_iff := clef_ofDefinition_eq_iff d.definition
  nodup options metrics hok x below system htree hx := by
    exact ((h.wellFormed.seats_stackStaves hok x below htree).1 system hx).nodup
  placed options metrics hok x below system htree hx n := by
    have hlists := (h.wellFormed.seats_stackStaves hok x below htree).1 system hx
    obtain ⟨hdefinition, s, hwalk⟩ := exists_walk_stackStaves hok
    rw [hdefinition] at hlists
    have hnumber {slot : StaffSlot α} (hslot : system.stack.get? n = some slot) : slot.staff = n := by
      simpa using List.find?_some hslot
    refine ⟨?_, fun slot hslot => ?_, fun slot hslot => ?_⟩
    · rw [← StaffStack.mem_numbers_iff]
      exact hlists.mem_iff n
    · have hheight := Stacking.sized_score hwalk h.wellFormed.nested_score h.wellFormed.tag_roots
        htree hx slot (List.mem_of_find?_eq_some hslot)
      rw [hnumber hslot] at hheight
      exact hheight
    · have hhidden := hlists.hidden_iff slot (List.mem_of_find?_eq_some hslot)
      rw [hnumber hslot] at hhidden
      exact hhidden

/-- A staff of five lines in the treble clef, defined again as a hidden one of one line in the bass
clef. -/
def twiceDefined : ScoreDefinition :=
  ⟨[⟨1, 5, .treble, none, none, false, none⟩, ⟨1, 1, .bass, none, none, true, none⟩], none, none⟩

/-- The staff is shown with its five lines, and has the bass clef. -/
theorem Reachable.follows_definitions_twice : ∃ d : Document ℚ, d.Reachable ∧ d.FollowsDefinitions ∧
    d.definition = twiceDefined ∧ (Signatures.ofDefinition d.definition).clef 1 = .bass ∧
    (d.stackStaves .default .default).fault = none ∧
    ((d.stackStaves .default .default).document.systems.filterMap fun n =>
      n.kind.system?).flatMap (fun s => s.stack.staves.map fun slot => (slot.staff, slot.height,
        slot.hidden)) = [(1, 72, false)] := by
  have hd := (((Reachable.ofDefinition (α := ℚ) twiceDefined).contentSystem.add 2
    (.measure (.ofNumber 1))).add 3 (.staff ⟨1, false⟩)).layout .default
  refine ⟨_, hd, hd.follows_definitions, ?_, ?_, ?_, ?_⟩
  · decide +kernel
  · decide +kernel
  · decide +kernel
  · decide +kernel

/-- The clef in which a staff begins is not that of the definition by which it is placed. -/
theorem Reachable.clefs_disagree : ∃ d : Document ℚ, d.Reachable ∧
    (Signatures.ofDefinition d.definition).clef 1 ≠
      ((d.definition.staff? 1).map StaffDefinition.clef).getD default :=
  ⟨_, Reachable.ofDefinition (α := ℚ) twiceDefined, by decide⟩

end Document

end ScoreLayout
