import ScoreLayout.Proofs.Reachable
import ScoreLayout.Proofs.Score.Counter

/-!
# Refused edits

An edit is refused before it has changed anything. The document is then the one it was, so no later
call, edit or layout, can tell that the edit has been tried.

An edit that leaves the choice of an identifier to the document is the exception, which is a defect:
the number of the identifier is used up before the child is refused. All else is as it was, and later
calls answer as they would have done until the document generates an identifier again, which may then
be another one.

## Main definitions

* `Call`, `Answer`, `Document.perform` — what a caller does, and what it learns.
* `Document.record` — the answers to calls one after another, with all that can be read in between.
* `Document.RefusesCleanly` — what a refused edit leaves behind.

## Main results

* `Document.record_withCounter` — what later calls make of another number.
* `Document.refuses_cleanly` — refused edits of all documents.
* `Document.Reachable.number_used_up` — the defect.
-/

namespace ScoreLayout

variable {α : Type}

/-! ### Calls -/

/-- A call by which a caller edits a document or lays it out. -/
inductive Call (α : Type) where
  | contentSystem
  | add (parent : Handle) (kind : NodeKind α)
  | addNamed (parent : Handle) (id : String) (kind : NodeKind α)
  | remove (parent child : Handle)
  | detach (node : Handle)
  | collect
  /-- A node changed in place. -/
  | change (node : Handle) (f : Node α → Node α)
  | define (definition : ScoreDefinition)
  | layout (e : Engine α)
  | pass (e : Engine α) (pass : LayoutPass)

/-- What a call answers. -/
inductive Answer where
  | node (h : Handle)
  | added (result : Except EditError Handle)
  | edited (refused : Option EditError)
  | count (n : Nat)
  | done
  | laidOut (marks : List Mark) (fault : Option Fault)

/-- Why a call has been refused, if it has been. -/
def Answer.refusal? : Answer → Option EditError
  | added (.error e) => some e
  | edited refused => refused
  | _ => none

/-- All that can be read of a document. -/
structure Readings (α : Type) where
  trees : Forest (Node α)
  definition : ScoreDefinition
  stage : Stage

namespace Document

/-- All that can be read of the document. -/
def readings (d : Document α) : Readings α := ⟨d.trees, d.definition, d.stage⟩

variable [Scalar α]

/-- The answer to a call, and the document after it. -/
def perform (d : Document α) : Call α → Answer × Document α
  | .contentSystem => (.node d.contentSystem.1, d.contentSystem.2)
  | .add parent kind => (.added (d.add parent kind).1, (d.add parent kind).2)
  | .addNamed parent id kind =>
    match d.addNamed parent id kind with
    | .ok (h, d) => (.added (.ok h), d)
    | .error e => (.added (.error e), d)
  | .remove parent child =>
    match d.remove parent child with
    | .ok d => (.edited none, d)
    | .error e => (.edited (some e), d)
  | .detach node =>
    match d.detach node with
    | .ok d => (.edited none, d)
    | .error e => (.edited (some e), d)
  | .collect => (.count d.collect.1, d.collect.2)
  | .change node f => (.done, d.modify node f)
  | .define definition => (.done, { d with definition })
  | .layout e => (.laidOut (e.layout d).marks (e.layout d).fault, (e.layout d).document)
  | .pass e pass => (.laidOut (e.run d pass).marks (e.run d pass).fault, (e.run d pass).document)

/-- The document after calls one after another. -/
def performAll (d : Document α) (calls : List (Call α)) : Document α :=
  calls.foldl (fun d call => (d.perform call).2) d

/-- The answers to calls one after another, each with all that can be read of the document after
it. -/
def record (d : Document α) : List (Call α) → List (Answer × Readings α)
  | [] => []
  | call :: calls =>
    let (answer, d) := d.perform call
    (answer, d.readings) :: d.record calls

/-! ### Numbers of identifiers -/

omit [Scalar α] in
theorem lt_nextNumber (inUse : Nat → Bool) (fuel n : Nat) : n < nextNumber inUse fuel n := by
  induction fuel generalizing n with
  | zero => exact Nat.lt_succ_self n
  | succ fuel ih =>
    rw [nextNumber]
    split
    · exact Nat.lt_trans (Nat.lt_succ_self n) (ih (n + 1))
    · exact Nat.lt_succ_self n

omit [Scalar α] in
/-- Numbers that are passed over stand for identifiers in use. -/
theorem inUse_of_lt_nextNumber {inUse : Nat → Bool} {fuel n k : Nat} (hn : n < k)
    (hk : k < nextNumber inUse fuel n) : inUse k := by
  induction fuel generalizing n with
  | zero =>
    rw [nextNumber] at hk
    omega
  | succ fuel ih =>
    rw [nextNumber] at hk
    split at hk
    · rename_i huse
      obtain rfl | hlt := Nat.eq_or_lt_of_le (Nat.succ_le_of_lt hn)
      · exact huse
      · exact ih hlt hk
    · omega

omit [Scalar α] in
theorem freshId_fst (d : Document α) (name : String) :
    (d.freshId name).1 = numberedId name (d.freshId name).2 := rfl

/-! ### Later calls -/

variable (k : Nat) (d : Document α)

/-- No call but one that generates an identifier reads the number or changes it. -/
theorem perform_withCounter {call : Call α} (hcall : ∀ parent kind, call ≠ .add parent kind) :
    (d.withCounter k).perform call = ((d.perform call).1, (d.perform call).2.withCounter k) := by
  cases call with
  | contentSystem =>
    rw [perform, contentSystem_withCounter]
    rfl
  | add parent kind => exact absurd rfl (hcall parent kind)
  | addNamed parent id kind =>
    rw [perform, perform, addNamed_withCounter]
    cases d.addNamed parent id kind <;> rfl
  | remove parent child =>
    rw [perform, perform, remove_withCounter]
    cases d.remove parent child <;> rfl
  | detach node =>
    rw [perform, perform, detach_withCounter]
    cases d.detach node <;> rfl
  | collect =>
    rw [perform, collect_withCounter]
    rfl
  | change node f => rfl
  | define definition => rfl
  | layout e =>
    rw [perform, e.layout_withCounter]
    rfl
  | pass e pass =>
    rw [perform, e.run_withCounter]
    rfl

/-- Whether a child is refused does not depend on its identifier where that is not in use. -/
theorem map_fst_addNamed {d : Document α} {id id' : String} (hid : ¬ d.hasNodeWithId id)
    (hid' : ¬ d.hasNodeWithId id') (parent : Handle) (kind : NodeKind α) :
    (d.addNamed parent id kind).map Prod.fst = (d.addNamed parent id' kind).map Prod.fst := by
  rw [addNamed, addNamed]
  cases d.node? parent with
  | none => rfl
  | some p =>
    dsimp only
    rw [if_neg hid, if_neg hid']
    split_ifs <;> rfl

theorem fst_add (parent : Handle) (kind : NodeKind α) : (d.add parent kind).1 =
    (d.addNamed parent (d.freshId kind.name).1 kind).map Prod.fst := by
  have hadd : (d.withCounter (d.freshId kind.name).2).addNamed parent (d.freshId kind.name).1 kind =
    _ := addNamed_withCounter ..
  rw [add]
  dsimp only
  rw [show { d with counter := (d.freshId kind.name).2 } = d.withCounter (d.freshId kind.name).2
    from rfl, hadd]
  cases d.addNamed parent (d.freshId kind.name).1 kind <;> rfl

/-- A document with another number gives out the same handle, or refuses a child for the same
reason. -/
theorem fst_add_withCounter (parent : Handle) (kind : NodeKind α) :
    ((d.withCounter k).add parent kind).1 = (d.add parent kind).1 := by
  have hfree (k : Nat) : ¬ d.hasNodeWithId ((d.withCounter k).freshId kind.name).1 := fun h =>
    (d.withCounter k).freshId_not_mem kind.name ((d.hasNodeWithId_iff _).1 h)
  have hfst (r : Except EditError (Handle × Document α)) :
      (r.map fun p => (p.1, p.2.withCounter k)).map Prod.fst = r.map Prod.fst := by
    cases r <;> rfl
  rw [fst_add, fst_add, addNamed_withCounter, hfst]
  exact map_fst_addNamed (hfree k) (hfree d.counter) parent kind

/-- A document that generates the same identifier in spite of another number is the same from then
on. -/
theorem add_withCounter (parent : Handle) {kind : NodeKind α}
    (hid : (d.withCounter k).freshId kind.name = d.freshId kind.name) :
    (d.withCounter k).add parent kind = d.add parent kind := by
  rw [add, add, hid]
  rfl

/-- Another number makes no difference to later calls until an identifier is generated that is
another one. -/
theorem record_withCounter (calls : List (Call α)) :
    (d.withCounter k).record calls = d.record calls ∨
      ∃ before parent kind after, calls = before ++ .add parent kind :: after ∧
        (d.withCounter k).record before = d.record before ∧
        (((d.withCounter k).performAll before).add parent kind).1 =
          ((d.performAll before).add parent kind).1 ∧
        (((d.withCounter k).performAll before).freshId kind.name).1 ≠
          ((d.performAll before).freshId kind.name).1 := by
  induction calls generalizing d k with
  | nil => exact .inl rfl
  | cons call calls ih =>
    by_cases hcall : ∃ parent kind, call = .add parent kind
    · obtain ⟨parent, kind, rfl⟩ := hcall
      by_cases hid : ((d.withCounter k).freshId kind.name).1 = (d.freshId kind.name).1
      · refine .inl ?_
        have hadd := d.add_withCounter k parent (Prod.ext hid
          (numberedId_injective kind.name hid))
        rw [record, record, perform, perform, hadd]
      · exact .inr ⟨[], parent, kind, calls, rfl, rfl, d.fst_add_withCounter k parent kind, hid⟩
    · push Not at hcall
      have hperform := d.perform_withCounter k hcall
      have hrecord (calls : List (Call α)) : (d.withCounter k).record (call :: calls) =
          ((d.perform call).1, (d.perform call).2.readings) ::
            ((d.perform call).2.withCounter k).record calls := by
        rw [record, hperform]
        rfl
      have hall (calls : List (Call α)) : (d.withCounter k).performAll (call :: calls) =
          ((d.perform call).2.withCounter k).performAll calls := by
        rw [performAll, List.foldl_cons, hperform]
        rfl
      obtain heq | ⟨before, parent, kind, after, rfl, hbefore, hadd, hid⟩ :=
        ih k (d.perform call).2
      · exact .inl ((hrecord calls).trans (congrArg _ heq))
      · refine .inr ⟨call :: before, parent, kind, after, rfl, ?_, ?_, ?_⟩
        · exact (hrecord before).trans (congrArg _ hbefore)
        · rw [hall]
          exact hadd
        · rw [hall]
          exact hid

/-! ### Refused edits -/

/-- What a refused edit leaves behind. -/
structure RefusesCleanly (d : Document α) : Prop where
  /-- All is as it was, but for the number of an identifier that the document has generated. -/
  document : ∀ call e, (d.perform call).1.refusal? = some e → (d.perform call).2 = d ∨
    ∃ parent kind, call = .add parent kind ∧
      (d.perform call).2 = d.withCounter (d.freshId kind.name).2
  /-- That number is the first one after the last whose identifier is not in use. -/
  number : ∀ name, d.counter < (d.freshId name).2 ∧ numberedId name (d.freshId name).2 ∉ d.ids ∧
    ∀ k, d.counter < k → k < (d.freshId name).2 → numberedId name k ∈ d.ids
  /-- Once the number is used up, the next identifier of the same name is another one. -/
  next : ∀ name, ((d.withCounter (d.freshId name).2).freshId name).1 ≠ (d.freshId name).1
  /-- Later calls answer as if the edit had not been tried, with the same readings in between, until
  an identifier is generated that is another one. This takes a refused edit that has generated an
  identifier, and even then the handle is the same, or the reason for refusing the child. -/
  later : ∀ call e, (d.perform call).1.refusal? = some e → ∀ calls,
    (d.perform call).2.record calls = d.record calls ∨
      (∃ parent kind, call = .add parent kind) ∧
        ∃ before parent kind after, calls = before ++ .add parent kind :: after ∧
          (d.perform call).2.record before = d.record before ∧
          (((d.perform call).2.performAll before).add parent kind).1 =
            ((d.performAll before).add parent kind).1 ∧
          (((d.perform call).2.performAll before).freshId kind.name).1 ≠
            ((d.performAll before).freshId kind.name).1

/-- A refused edit leaves the document as it was, but for the number of a generated identifier. -/
theorem perform_of_refusal {call : Call α} {e : EditError}
    (h : (d.perform call).1.refusal? = some e) : (d.perform call).2 = d ∨
      ∃ parent kind, call = .add parent kind ∧
        (d.perform call).2 = d.withCounter (d.freshId kind.name).2 := by
  cases call with
  | contentSystem | collect | change | define | layout | pass => cases h
  | add parent kind =>
    refine .inr ⟨parent, kind, rfl, ?_⟩
    rw [perform, add] at h ⊢
    dsimp only at h ⊢
    generalize hr : Document.addNamed _ parent (d.freshId kind.name).1 kind = r at h ⊢
    cases r with
    | ok p => cases h
    | error e => rfl
  | addNamed parent id kind =>
    rw [perform] at h ⊢
    cases hr : d.addNamed parent id kind with
    | ok p =>
      rw [hr] at h
      cases h
    | error e => exact .inl rfl
  | remove parent child =>
    rw [perform] at h ⊢
    cases hr : d.remove parent child with
    | ok d' =>
      rw [hr] at h
      cases h
    | error e => exact .inl rfl
  | detach node =>
    rw [perform] at h ⊢
    cases hr : d.detach node with
    | ok d' =>
      rw [hr] at h
      cases h
    | error e => exact .inl rfl

/-- Whatever the document, a refused edit leaves nothing behind but a number. -/
theorem refuses_cleanly : d.RefusesCleanly where
  document call e h := d.perform_of_refusal h
  number name := by
    refine ⟨lt_nextNumber .., d.freshId_not_mem name, fun k hk hlt => ?_⟩
    exact (d.hasNodeWithId_iff _).1 (inUse_of_lt_nextNumber hk hlt)
  next name h := by
    have hlt : (d.freshId name).2 < ((d.withCounter (d.freshId name).2).freshId name).2 :=
      lt_nextNumber ..
    exact absurd (numberedId_injective name h) (Nat.ne_of_gt hlt)
  later call e h calls := by
    obtain heq | ⟨parent, kind, rfl, heq⟩ := d.perform_of_refusal h
    · exact .inl (by rw [heq])
    · rw [heq]
      exact (d.record_withCounter _ calls).imp id fun h => ⟨⟨parent, kind, rfl⟩, h⟩

/-- A measure that is refused below the root takes the number of the next measure. -/
theorem Reachable.number_used_up : ∃ d : Document Float, d.Reachable ∧
    (d.perform (.add root (.measure (.ofNumber 1)))).1.refusal? =
      some (.invalidChild "doc" "measure") ∧
    ((d.record [.add 2 (.measure (.ofNumber 1))]).map fun r => r.2.trees.toList.map Node.id) =
      [["doc", "page-content", "system-content", "measure-0001"]] ∧
    (((d.perform (.add root (.measure (.ofNumber 1)))).2.record
        [.add 2 (.measure (.ofNumber 1))]).map fun r => r.2.trees.toList.map Node.id) =
      [["doc", "page-content", "system-content", "measure-0002"]] :=
  ⟨_, (Reachable.ofDefinition (α := Float) default).contentSystem, by decide +kernel,
    by decide +kernel, by decide +kernel⟩

end Document

end ScoreLayout
