import ScoreLayout.Proofs.Layout.LoneLayers
import ScoreLayout.Proofs.Layout.MeasureSlots

/-!
# The voices of a measure

All layers of a measure write into one time grid. What the walk over its staves comes to is put
together from what each layer comes to on its own, so it is the same whatever comes first.

## Main definitions

* `Forest.voices` — the layers of a forest.
* `Forest.spoken` — the nodes of a forest, timed as the layers are on their own.
* `AlignState.Voiced` — what walking the staves of a measure comes to.

## Main results

* `AlignState.told_staves` — the walk over the staves of a measure.
-/

namespace ScoreLayout

variable {α : Type}

/-! ### Layers -/

/-- The staff on which the nodes below a node stand. -/
def Node.staffUnder (n : Node α) (staff : UInt32) : UInt32 :=
  match n.kind with
  | .staff s => s.n
  | _ => staff

/-- The layers of a forest that is reached on a staff under a meter. -/
def Forest.voices : UInt32 → MeterSig → Forest (Node α) → List (Voice α)
  | _, _, .nil => []
  | staff, meter, .cons n below siblings =>
    (if n.tag = .layer then [⟨n.meterAfter meter, staff, n, below⟩]
      else below.voices (n.staffUnder staff) (n.meterAfter meter)) ++
      siblings.voices staff (runningMeter (n.meterAfter meter) below.toList)

namespace Forest

variable {staff : UInt32} {meter : MeterSig} {f below siblings : Forest (Node α)} {n : Node α}

theorem voices_cons (staff : UInt32) (meter : MeterSig) (n : Node α)
    (below siblings : Forest (Node α)) :
    (cons n below siblings).voices staff meter = (tree n below).voices staff meter ++
      siblings.voices staff (runningMeter meter (tree n below).toList) := by
  rw [tree, voices, voices, voices, List.append_nil, toList, toList, List.append_nil,
    runningMeter_cons]

/-- A tree that is a layer. -/
theorem voices_of_layer {k : UInt32} (hn : n.kind = .layer k) :
    (tree n below).voices staff meter = [⟨meter, staff, n, below⟩] := by
  have htag : n.tag = .layer := congrArg NodeKind.tag hn
  rw [tree, voices, if_pos htag, Node.meterAfter, hn]
  rfl

/-- A tree that is no layer. -/
theorem voices_of_passed (hn : n.tag ≠ .layer) (hmeter : n.meterAfter meter = meter) :
    (tree n below).voices staff meter = below.voices (n.staffUnder staff) meter := by
  rw [tree, voices, if_neg hn, hmeter, voices, List.append_nil]

/-- The trees of the layers. -/
theorem hasTree_of_mem_voices {v : Voice α} (hv : v ∈ f.voices staff meter) :
    HasTree v.layer v.below f ∧ v.layer.tag = .layer := by
  induction f generalizing staff meter with
  | nil => exact absurd hv List.not_mem_nil
  | cons n below siblings hbelow hsiblings =>
    rw [voices, List.mem_append] at hv
    rcases hv with hv | hv
    · split_ifs at hv with ht
      · obtain rfl := List.mem_singleton.1 hv
        exact ⟨.here siblings, ht⟩
      · exact (hbelow hv).imp_left (.deeper siblings)
    · exact (hsiblings hv).imp_left (.beside n below)

theorem mem_handles_of_mem_voices {v : Voice α} (hv : v ∈ f.voices staff meter) {h : Handle}
    (hh : h ∈ v.below.toList.map Node.handle) : h ∈ f.toList.map Node.handle := by
  obtain ⟨m, hm, rfl⟩ := List.mem_map.1 hh
  exact List.mem_map_of_mem ((hasTree_of_mem_voices hv).1.mem_of_mem hm)

end Forest

variable [Scalar α]

/-- The time at which a layer ends. -/
def Voice.last (c : AlignContext α) (v : Voice α) : ℚ := (v.walk c).1.layer.time.value

/-- The nodes of a forest that is reached on a staff under a meter, timed as the layers are on their
own. -/
def Forest.spoken (c : AlignContext α) : UInt32 → MeterSig → Forest (Node α) → List (Node α)
  | _, _, .nil => []
  | staff, meter, .cons n below siblings =>
    n :: ((if n.tag = .layer then
        ((⟨n.meterAfter meter, staff, n, below⟩ : Voice α).walk c).2.1.toList
      else below.spoken c (n.staffUnder staff) (n.meterAfter meter)) ++
      siblings.spoken c staff (runningMeter (n.meterAfter meter) below.toList))

theorem Forest.spoken_cons (c : AlignContext α) (staff : UInt32) (meter : MeterSig) (n : Node α)
    (below siblings : Forest (Node α)) :
    (cons n below siblings).spoken c staff meter = (tree n below).spoken c staff meter ++
      siblings.spoken c staff (runningMeter meter (tree n below).toList) := by
  rw [tree, spoken, spoken, spoken, List.append_nil, toList, toList, List.append_nil,
    runningMeter_cons, List.cons_append]

theorem Forest.spoken_of_layer (c : AlignContext α) {staff : UInt32} {meter : MeterSig} {n : Node α}
    {below : Forest (Node α)} {k : UInt32} (hn : n.kind = .layer k) :
    (tree n below).spoken c staff meter =
      n :: ((⟨meter, staff, n, below⟩ : Voice α).walk c).2.1.toList := by
  have htag : n.tag = .layer := congrArg NodeKind.tag hn
  rw [tree, spoken, if_pos htag, Node.meterAfter, hn, spoken, List.append_nil]

theorem Forest.spoken_of_passed (c : AlignContext α) {staff : UInt32} {meter : MeterSig} {n : Node α}
    {below : Forest (Node α)} (hn : n.tag ≠ .layer) (hmeter : n.meterAfter meter = meter) :
    (tree n below).spoken c staff meter = n :: below.spoken c (n.staffUnder staff) meter := by
  rw [tree, spoken, if_neg hn, hmeter, spoken, List.append_nil]

namespace AlignState

/-- A state inside a measure that collects slots. -/
structure Stands (s : AlignState α) : Prop where
  collecting : s.collecting
  fault : s.fault = none
  grid : ∃ g, s.grids = [g] ∧ g.Open ∧ g.Sorted ∧ g.AllDrawn

omit [Scalar α] in
theorem Stands.grids_open {s : AlignState α} (h : s.Stands) : ∀ g ∈ s.grids, g.Open := by
  obtain ⟨g, hgrids, hopen, -⟩ := h.grid
  rw [hgrids]
  exact List.forall_mem_singleton.2 hopen

/-- What walking the staves of a measure comes to, in terms of what its layers come to on their
own. -/
structure Voiced (c : AlignContext α) (staff : UInt32) (s s' : AlignState α)
    (f f' : Forest (Node α)) : Prop where
  stands : s'.Stands
  meter : s'.signatures.meter = runningMeter s.signatures.meter f.toList
  lasts : s'.lasts = raise ((f.voices staff s.signatures.meter).map (Voice.last c)) s.lasts
  has : ∀ key, s'.Has key ↔
    s.Has key ∨ ∃ v ∈ f.voices staff s.signatures.meter, (v.ending c).Has key
  nodes : List.Forall₂ Node.Synced (f.spoken c staff s.signatures.meter) f'.toList
  found : ∀ v ∈ f.voices staff s.signatures.meter, ∀ h ∈ v.below.toList.map Node.handle,
    s'.graceSlots.lookup h = (v.ending c).graceSlots.lookup h
  others : ∀ h, (∀ v ∈ f.voices staff s.signatures.meter, h ∉ v.below.toList.map Node.handle) →
    s'.graceSlots.lookup h = s.graceSlots.lookup h

/-- How a walk over the staves of a measure ends. Only a layer stops it that would stop on its
own. -/
structure Told (c : AlignContext α) (staff : UInt32) (s : AlignState α) (f : Forest (Node α))
    (r : AlignState α × Forest (Node α) × Visit) : Prop where
  stopped : r.2.2 = .stop → ∃ v ∈ f.voices staff s.signatures.meter, ¬ v.Sound c
  sound : r.2.2 ≠ .stop → ∀ v ∈ f.voices staff s.signatures.meter, v.Sound c
  voiced : r.2.2 ≠ .stop → Voiced c staff s r.1 f r.2.1

variable {c c' : AlignContext α} {staff : UInt32} {s s₁ s₂ s' : AlignState α} {n n' : Node α}
  {below below' siblings siblings' : Forest (Node α)}

theorem Voiced.nil (hs : s.Stands) : Voiced c staff s s .nil .nil where
  stands := hs
  meter := rfl
  lasts := (raise_nil _).symm
  has key := by simp [Forest.voices]
  nodes := .nil
  found v hv := absurd hv List.not_mem_nil
  others _ _ := rfl

/-- A tree, and those behind it. -/
theorem Voiced.cons (hhandles : ((Forest.cons n below siblings).toList.map Node.handle).Nodup)
    (htree : Voiced c staff s s₁ (.tree n below) (.tree n' below'))
    (hsiblings : Voiced c staff s₁ s' siblings siblings') :
    Voiced c staff s s' (.cons n below siblings) (.cons n' below' siblings') := by
  have hmeter := htree.meter
  have hapart {v w : Voice α} {meter meter' : MeterSig} (hv : v ∈ (Forest.tree n below).voices staff meter)
      (hw : w ∈ siblings.voices staff meter') {h : Handle} (hh : h ∈ v.below.toList.map Node.handle) :
      h ∉ w.below.toList.map Node.handle := fun hin =>
    not_mem_tree_of_mem hhandles (Forest.mem_handles_of_mem_voices hw hin)
      (Forest.mem_handles_of_mem_voices hv hh)
  refine ⟨hsiblings.stands, ?_, ?_, fun key => ?_, ?_, fun v hv h hh => ?_, fun h hh => ?_⟩
  · rw [hsiblings.meter, hmeter, ← runningMeter_append, ← Forest.toList_append]
    rfl
  · rw [hsiblings.lasts, htree.lasts, hmeter, Forest.voices_cons, List.map_append, raise_append]
  · rw [hsiblings.has, htree.has, hmeter, Forest.voices_cons]
    simp only [List.mem_append, or_and_right, exists_or, or_assoc]
  · have hnodes := List.rel_append htree.nodes hsiblings.nodes
    dsimp only at hnodes
    rw [hmeter, ← Forest.spoken_cons, ← Forest.toList_append] at hnodes
    exact hnodes
  · rw [Forest.voices_cons, List.mem_append] at hv
    rcases hv with hv | hv
    · rw [hsiblings.others h fun w hw => hapart hv hw hh, htree.found v hv h hh]
    · exact hsiblings.found v (hmeter ▸ hv) h hh
  · simp only [Forest.voices_cons, List.mem_append, or_imp, forall_and] at hh
    rw [hsiblings.others h (hmeter ▸ hh.2), htree.others h hh.1]

/-- A node that holds no symbols itself, with the layers below it. -/
theorem Voiced.passed (hn : n.tag ≠ .layer) (hmeter : ∀ meter, n.meterAfter meter = meter)
    (hsynced : n.Synced n') (hsignatures : s₁.signatures = s.signatures)
    (hgrids : s₁.grids = s.grids) (hslots : s₁.graceSlots = s.graceSlots)
    (hbelow : Voiced c (n.staffUnder staff) s₁ s₂ below below') : Voiced c staff s s₂ (.tree n below) (.tree n' below') := by
  have hvoices (meter : MeterSig) :
      (Forest.tree n below).voices staff meter = below.voices (n.staffUnder staff) meter :=
    Forest.voices_of_passed hn (hmeter meter)
  have hhas (key : SlotKey) : s₁.Has key ↔ s.Has key := by rw [Has, Has, hgrids]
  refine ⟨hbelow.stands, ?_, ?_, fun key => ?_, ?_, ?_, ?_⟩
  · rw [hbelow.meter, hsignatures, Forest.toList_tree,
      runningMeter_cons, hmeter]
  · rw [hvoices, hbelow.lasts, hsignatures, lasts_eq (congrArg _ hgrids)]
  · rw [hvoices, hbelow.has, hsignatures, hhas]
  · have hnodes := hbelow.nodes
    rw [hsignatures] at hnodes
    rw [Forest.spoken_of_passed c hn (hmeter _), Forest.toList_tree]
    exact .cons hsynced hnodes
  · rw [hvoices, ← hsignatures]
    exact hbelow.found
  · rw [hvoices, ← hsignatures, ← hslots]
    exact hbelow.others

omit [Scalar α] in
/-- The meter behind two states of some nodes. -/
theorem runningMeter_eq_of_meterAfter {l l' : List (Node α)}
    (h : List.Forall₂ (fun n n' => ∀ meter, n'.meterAfter meter = n.meterAfter meter) l l')
    (meter : MeterSig) : runningMeter meter l' = runningMeter meter l := by
  induction h generalizing meter with
  | nil => rfl
  | cons hn _ ih => rw [runningMeter_cons, runningMeter_cons, hn, ih]

section Layer

variable {k : UInt32} {clef : Clef} {around : Forest (Node α) → Forest (Node α)} (hs : s.Stands)
  (hn : n.kind = .layer k) (hkind : n'.kind = n.kind) (hbelow : below.Symbolic)
  (hids : (below.toList.map Node.id).Nodup) (hhandles : (below.toList.map Node.handle).Nodup)
  (hunder : below.HandlesBelow c'.symbolsBelow)
  (hsame : ∀ m ∈ below.toList, c'.symbolsBelow m.handle = c.symbolsBelow m.handle)
  (hfree : ∀ h ∈ below.toList.map Node.handle, s.graceSlots.lookup h = none)
  (hlines : s.lines = c.linesOf staff)

include hs hn hkind hbelow hids hhandles hunder hsame hfree hlines

/-- A layer of a measure. -/
theorem told_layer (hsynced : n.Synced n')
    {r : AlignState α × Forest (Node α) × Visit}
    (hrun : below.runWithin (alignPass c') (some n') around
      { s with layer := .ofClef (s.signatures.clef s.staff) } = r) :
    (r.2.2 = .stop ∨ r.1.leaveLayer.fault.isSome →
      ¬ (⟨s.signatures.meter, staff, n, below⟩ : Voice α).Sound c) ∧
      (r.2.2 ≠ .stop → r.1.leaveLayer.fault = none →
        (⟨s.signatures.meter, staff, n, below⟩ : Voice α).Sound c ∧
          Voiced c staff s r.1.leaveLayer (.tree n below) (.tree n' r.2.1) ∧
          r.1.leaveLayer.lines = s.lines) := by
  obtain ⟨g, hgrids, hopen, hsorted, hdrawn⟩ := hs.grid
  obtain ⟨s₁, t₁, f, f', v, hwalk, hwalk', hstop, hgo⟩ := synced_layer hs.collecting hs.fault hgrids
    hopen.state hdrawn hsynced.handle hbelow hsame hfree (s.signatures.clef s.staff) hlines around
  obtain rfl : (t₁, f', v) = r := hwalk'.symm.trans hrun
  dsimp only at hgo ⊢
  generalize hvoice : (⟨s.signatures.meter, staff, n, below⟩ : Voice α) = voice at hwalk ⊢
  have hending : voice.ending c = s₁.leaveLayer := by rw [Voice.ending, hwalk]
  refine ⟨fun hbad hsound => ?_, fun hv hend => ?_⟩
  · by_cases hv : v = .stop
    · exact hsound.walked (by rw [hwalk]; exact hv)
    · have hfault := (hgo hv).1.leaveLayer.fault
      rw [← hending, hsound.ended] at hfault
      have hsome := hbad.resolve_left hv
      rw [hfault] at hsome
      cases hsome
  obtain ⟨hsync, hnodes⟩ := hgo hv
  have hleft := hsync.leaveLayer
  have hcompletes := Forest.completes_runWithin (alignPass c') below (some n') around
    { s with layer := .ofClef (s.signatures.clef s.staff) } (by rw [hwalk']; exact hv)
  rw [hwalk'] at hcompletes
  have hwalked := walked_symbols hcompletes hbelow hids hs.collecting hs.fault rfl
  obtain ⟨htimes, hcollecting⟩ := Times.layer (n := n) (hkind.trans hn) hs.collecting hs.fault hbelow hids
    hcompletes hend
  obtain ⟨hcollects, hothers, -⟩ := booked_layer hs.collecting (by rw [hgrids]; exact List.cons_ne_nil _ _)
    hs.fault hbelow hids hhandles hunder hcompletes hend hfree
  obtain ⟨-, -, -, -, hlasts⟩ := leaveLayer_spec (hwalked.collecting.trans hs.collecting) hend
  obtain ⟨hopens, hmax⟩ := hwalked.grids hs.grids_open
  have hgrow := hcollects.grids
  rw [hgrids] at hgrow
  obtain ⟨g', outer, hgg', houter, hgrids'⟩ := List.forall₂_cons_left_iff.1 hgrow
  obtain rfl := List.forall₂_nil_left_iff.1 houter
  -- what the layer draws on its own it draws here, too
  have hbeyond := hleft.grids
  rw [hgrids', List.forall₂_cons_right_iff] at hbeyond
  obtain ⟨g₀, outer₀, hg₀, -, hgrids₀⟩ := hbeyond
  have hopen' := (htimes.grids hs.grids_open).1 g' (hgrids' ▸ List.mem_singleton_self g')
  refine ⟨⟨by rw [hwalk]; exact hv, by rw [hending, ← hleft.fault]; exact hend⟩,
    ⟨⟨hcollecting.trans hs.collecting, hend, g', hgrids', hopen', hgg'.sorted hsorted, hg₀.drawn⟩,
      ?_, ?_, fun key => ?_, ?_, ?_, ?_⟩, hleft.ruled.2.trans hlines.symm⟩
  · have hnodes : List.Forall₂ (fun n n' => ∀ meter, n'.meterAfter meter = n.meterAfter meter)
        (Forest.tree n below).toList (Forest.tree n' f').toList := by
      rw [Forest.tree, Forest.tree, Forest.toList, Forest.toList, Forest.toList, Forest.toList,
        List.append_nil, List.append_nil]
      refine .cons (fun meter => ?_) (hwalked.nodes.toList.imp fun _ _ h => h.meterAfter)
      rw [Node.meterAfter, Node.meterAfter, hkind]
    rw [htimes.meter, runningMeter_eq_of_meterAfter hnodes]
  · rw [Forest.voices_of_layer hn, hvoice, (hlasts hopens).2, lasts_eq hmax, hsync.time,
      List.map_singleton, Voice.last, hwalk]
    rfl
  · rw [Forest.voices_of_layer hn, hvoice, has_iff_of_grids hgrids', hg₀.has]
    simp only [List.mem_singleton, exists_eq_left]
    rw [hending, has_iff_of_grids hgrids₀]
  · rw [Forest.spoken_of_layer c hn, hvoice, hwalk, Forest.toList_tree]
    exact .cons hsynced hnodes.toList
  · rw [Forest.voices_of_layer hn, hvoice]
    refine List.forall_mem_singleton.2 fun h hh => ?_
    subst hvoice
    rw [hending, hleft.found h hh]
  · rw [Forest.voices_of_layer hn]
    exact fun h hh => hothers h (hh _ List.mem_cons_self)

end Layer

/-- A walk that is stopped in a tree is stopped. -/
theorem Told.of_stop {f : Forest (Node α)}
    (h : ∃ v ∈ (Forest.tree n below).voices staff s.signatures.meter, ¬ v.Sound c) :
    Told c staff s (.cons n below siblings) (s', f, .stop) := by
  obtain ⟨v, hv, hbad⟩ := h
  exact ⟨fun _ => ⟨v, by rw [Forest.voices_cons]; exact List.mem_append_left _ hv, hbad⟩,
    fun h => absurd rfl h, fun h => absurd rfl h⟩

/-- The walk over the staves of a measure. -/
theorem told_staves {f : Forest (Node α)} (hf : f.Nested) (hlines : c'.linesOf = c.linesOf)
    (hroots : (∀ n ∈ f.roots, n.tag = .staff ∨ n.tag = .control) ∨
      (∀ n ∈ f.roots, n.tag = .layer ∨ n.tag = .control) ∧ s.lines = c.linesOf staff)
    (hids : (f.toList.map Node.id).Nodup) (hhandles : (f.toList.map Node.handle).Nodup)
    (hunder : f.HandlesBelow c'.symbolsBelow)
    (hsame : ∀ v ∈ f.voices staff s.signatures.meter, ∀ m ∈ v.below.toList,
      c'.symbolsBelow m.handle = c.symbolsBelow m.handle)
    (hs : s.Stands) (hfree : ∀ h ∈ f.toList.map Node.handle, s.graceSlots.lookup h = none)
    (above : Option (Node α)) (around : Forest (Node α) → Forest (Node α)) :
    Told c staff s f (f.runWithin (alignPass c') above around s) := by
  induction f generalizing s staff above around with
  | nil =>
    exact ⟨fun h => (by cases h), fun _ v hv => absurd hv List.not_mem_nil, fun _ => .nil hs⟩
  | cons n below siblings ihbelow ihsiblings =>
    rw [Forest.roots, List.forall_mem_cons, List.forall_mem_cons] at hroots
    obtain ⟨htakes, hbelow, hsiblings⟩ := hf
    obtain ⟨hidsBelow, hidsSiblings⟩ := Forest.nodup_of_cons hids
    obtain ⟨hhandlesBelow, hhandlesSiblings⟩ := Forest.nodup_of_cons hhandles
    rw [Forest.voices_cons] at hsame
    simp only [List.mem_append, or_imp, forall_and] at hsame
    -- a tree that does not stop the walk leaves those behind it alone
    have hrest {s₁ : AlignState α} {n' : Node α} {below' : Forest (Node α)}
        (hruled : n.tag ≠ .staff → s₁.lines = s.lines)
        (hsound : ∀ v ∈ (Forest.tree n below).voices staff s.signatures.meter, v.Sound c)
        (htree : Voiced c staff s s₁ (.tree n below) (.tree n' below')) (above : Option (Node α))
        (around : Forest (Node α) → Forest (Node α)) :
        ∃ s' siblings' v, siblings.runWithin (alignPass c') above around s₁ = (s', siblings', v) ∧
          Told c staff s (.cons n below siblings) (s', .cons n' below' siblings', v) := by
      have hmeter := htree.meter
      have hkinds : (∀ n ∈ siblings.roots, n.tag = .staff ∨ n.tag = .control) ∨
          (∀ n ∈ siblings.roots, n.tag = .layer ∨ n.tag = .control) ∧ s₁.lines = c.linesOf staff :=
        hroots.imp And.right fun h => ⟨h.1.2, (hruled (by
          rcases h.1.1 with ht | ht <;> rw [ht] <;> decide)).trans h.2⟩
      obtain ⟨hstopped, hsounds, hvoiced⟩ := ihsiblings hsiblings hkinds hidsSiblings
        hhandlesSiblings hunder.beside (hmeter ▸ hsame.2) htree.stands (fun h hh => by
          rw [htree.others h fun v hv hin => not_mem_tree_of_mem hhandles hh
            (Forest.mem_handles_of_mem_voices hv hin)]
          exact hfree h (Forest.mem_map_cons (.inr hh))) above around
      rw [hmeter] at hstopped hsounds
      refine ⟨_, _, _, rfl, fun hstop => ?_, fun hgo v hv => ?_, fun hgo =>
        .cons hhandles htree (hvoiced hgo)⟩
      · obtain ⟨v, hv, hbad⟩ := hstopped hstop
        exact ⟨v, by rw [Forest.voices_cons]; exact List.mem_append_right _ hv, hbad⟩
      · rw [Forest.voices_cons, List.mem_append] at hv
        exact hv.elim (hsound v) (hsounds hgo v)
    have htags : n.tag = .staff ∨ n.tag = .layer ∧ s.lines = c.linesOf staff ∨ n.tag = .control := by
      tauto
    rcases htags with htag | ⟨htag, hstaff⟩ | htag
    · obtain ⟨st, hn⟩ := Node.exists_staff htag
      have henter : (alignPass c').enter s above n =
          ((s.enterStaff c' n st).1, (s.enterStaff c' n st).2, .proceed) := by
        dsimp only [alignPass]
        rw [enter, hn]
      obtain ⟨hkind, hsignatures, -, hgrids, hcollecting, hfault⟩ := enter_of_staff hn henter
      have hplain (meter : MeterSig) : n.meterAfter meter = meter := by rw [Node.meterAfter, hn]
      have hst : n.staffUnder staff = st.n := by rw [Node.staffUnder, hn]
      have hvoices (meter : MeterSig) :
          (Forest.tree n below).voices staff meter = below.voices st.n meter := by
        rw [← hst]
        exact Forest.voices_of_passed (by rw [htag]; decide) (hplain meter)
      have hs₁ : (s.enterStaff c' n st).1.Stands :=
        ⟨hcollecting.trans hs.collecting, hfault.trans hs.fault, hgrids ▸ hs.grid⟩
      have htold := ihbelow hbelow (.inr ⟨fun b hb => ?_, congrFun hlines st.n⟩) hidsBelow hhandlesBelow
        hunder.deeper (by rw [hsignatures, ← hvoices]; exact hsame.1) hs₁
        (fun h hh => hfree h (Forest.mem_map_cons (.inl hh))) (some (s.enterStaff c' n st).2)
        fun f => around (.cons (s.enterStaff c' n st).2 f siblings)
      · rw [Forest.runWithin, henter]
        dsimp only
        generalize below.runWithin (alignPass c') (some (s.enterStaff c' n st).2)
          (fun f => around (.cons (s.enterStaff c' n st).2 f siblings))
          (s.enterStaff c' n st).1 = r at htold ⊢
        obtain ⟨s₂, below₂, v⟩ := r
        have hstopped := htold.stopped
        have hsound := htold.sound
        rw [hsignatures, ← hvoices] at hstopped hsound
        cases v with
        | stop => exact .of_stop (hstopped rfl)
        | skipChildren | proceed =>
          have hleave (whole : Node α → Forest (Node α) → Forest (Node α)) :
              (alignPass c').leave s₂ whole (s.enterStaff c' n st).2 below₂ =
                (s₂, (s.enterStaff c' n st).2, below₂, .proceed) := by
            dsimp only [alignPass]
            rw [leave, hkind, hn]
          have htree : Voiced c staff s s₂ (.tree n below) (.tree (s.enterStaff c' n st).2 below₂) :=
            .passed (by rw [htag]; decide) hplain ⟨rfl, hkind, rfl, rfl, rfl, rfl⟩ hsignatures
              hgrids rfl (hst.symm ▸ htold.voiced (by simp))
          obtain ⟨s', siblings', v, hrun, hall⟩ := hrest (fun h => absurd htag h)
            (hsound (by simp)) htree above
            fun f => around (.cons (s.enterStaff c' n st).2 below₂ f)
          dsimp only
          rw [hleave]
          dsimp only
          rw [hrun]
          exact hall
      · have htakes := htakes b hb
        rw [hn] at htakes
        rw [Node.tag]
        cases hk : b.kind <;> simp [hk, NodeKind.accepts, NodeKind.tag] at htakes ⊢
    · obtain ⟨k, hn⟩ := Node.exists_layer htag
      have henter : (alignPass c').enter s above n =
          ({ s with layer := .ofClef (s.signatures.clef s.staff) },
            n.mapLayout fun l => { l with staff := some s.staff }, .proceed) := by
        dsimp only [alignPass]
        rw [enter, hn]
        rfl
      generalize hn' : (n.mapLayout fun l => { l with staff := some s.staff }) = n' at henter
      have hsynced : n.Synced n' := hn' ▸ ⟨rfl, rfl, rfl, rfl, rfl, rfl⟩
      have hsymbols : below.Symbolic := hbelow.symbolic fun b hb =>
        NodeKind.tag_of_layer htag (htakes b hb)
      rw [Forest.voices_of_layer hn] at hsame
      rw [Forest.runWithin, henter]
      dsimp only
      generalize hrun : below.runWithin (alignPass c') (some n')
        (fun f => around (.cons n' f siblings))
        { s with layer := .ofClef (s.signatures.clef s.staff) } = r
      obtain ⟨hbad, hgood⟩ := told_layer (c := c) hs hn hsynced.kind hsymbols hidsBelow hhandlesBelow
        hunder.deeper (List.forall_mem_singleton.1 hsame.1)
        (fun h hh => hfree h (Forest.mem_map_cons (.inl hh))) hstaff hsynced hrun
      obtain ⟨s₂, below₂, v⟩ := r
      dsimp only at hbad hgood
      have hunsound (h : v = .stop ∨ s₂.leaveLayer.fault.isSome) :
          ∃ v ∈ (Forest.tree n below).voices staff s.signatures.meter, ¬ v.Sound c := by
        rw [Forest.voices_of_layer hn]
        exact ⟨_, List.mem_singleton_self _, hbad h⟩
      cases v with
      | stop => exact .of_stop (hunsound (.inl rfl))
      | skipChildren | proceed =>
        have hleave (whole : Node α → Forest (Node α) → Forest (Node α)) :
            (alignPass c').leave s₂ whole n' below₂ =
              (s₂.leaveLayer, n', below₂, s₂.leaveLayer.outcome .proceed) := by
          dsimp only [alignPass]
          rw [leave, hsynced.kind, hn]
        dsimp only
        rw [hleave, outcome]
        by_cases hfault : s₂.leaveLayer.fault.isSome
        · rw [if_pos hfault]
          exact .of_stop (hunsound (.inr hfault))
        · rw [if_neg hfault]
          obtain ⟨hsound, htree, hruled⟩ := hgood (by simp) (Option.not_isSome_iff_eq_none.1 hfault)
          obtain ⟨s', siblings', v, hrun, hall⟩ := hrest (fun _ => hruled) (by
            rw [Forest.voices_of_layer hn]
            exact List.forall_mem_singleton.2 hsound) htree above
              fun f => around (.cons n' below₂ f)
          dsimp only
          rw [hrun]
          exact hall
    · obtain ⟨k, hn⟩ := Node.exists_control htag
      obtain rfl := eq_nil_of_control hn htakes
      have henter : (alignPass c').enter s above n = (s, n, .skipChildren) := by
        dsimp only [alignPass]
        rw [enter, hn]
      have htree : Voiced c staff s s (.tree n .nil) (.tree n .nil) :=
        .passed (by rw [htag]; decide) (fun meter => by rw [Node.meterAfter, hn]) (.refl n) rfl rfl
          rfl (.nil hs)
      obtain ⟨s', siblings', v, hrun, htold⟩ := hrest (fun _ => rfl) (fun v hv => by
        rw [Forest.tree, Forest.voices, if_neg (by rw [htag]; decide)] at hv
        exact absurd hv List.not_mem_nil) htree above fun f => around (.cons n .nil f)
      rw [Forest.runWithin, henter]
      dsimp only
      rw [hrun]
      exact htold

end AlignState

end ScoreLayout
