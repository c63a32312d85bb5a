import ScoreLayout.Diagnostics
import ScoreLayout.Score.Edit

/-!
# Outcomes of layout steps

A step of the layout changes a document, reports marks, and may meet a fault. A fault ends the
sequence of steps; the document stays as far as the step has come.

## Main definitions

* `Outcome` — the document, the marks and the fault after a step.
* `Outcome.andThen` — the next step, unless there was a fault.
* `Document.unbreak?` — all content back in one system on one page.
-/

namespace ScoreLayout

/-- What a step leaves behind. -/
structure Outcome (α : Type) where
  document : Document α
  marks : List Mark
  fault : Option Fault

namespace Outcome

variable {α : Type}

/-- A step that has met no fault. -/
def done (d : Document α) (marks : List Mark) : Outcome α := ⟨d, marks, none⟩

/-- A step that has met a fault. -/
def failed (d : Document α) (marks : List Mark) (f : Fault) : Outcome α := ⟨d, marks, some f⟩

/-- A step that changes a document if it meets no fault. -/
def ofExcept (d : Document α) (marks : List Mark) : Except Fault (Document α) → Outcome α
  | .ok d => done d marks
  | .error f => failed d marks f

/-- The next step after this one, unless this one has met a fault. -/
def andThen (o : Outcome α) (next : Document α → Outcome α) : Outcome α :=
  match o.fault with
  | some _ => o
  | none =>
    let o' := next o.document
    { o' with marks := o.marks ++ o'.marks }

/-- A step that runs only on documents that have reached the stage it needs. -/
def guarded (step : Step) (d : Document α) (run : Document α → Outcome α) : Outcome α :=
  match step.fault? d.stage with
  | some f => failed d [] f
  | none => run d

end Outcome

namespace Document

variable {α : Type}

/-- Whether all content already is in one system on one page, under the identifiers kept for
them. -/
def isUnbroken (d : Document α) : Bool :=
  match d.pages, d.systems with
  | [page], [system] => page.id = contentPageId ∧ system.id = contentSystemId
  | _, _ => false

/-- All content in one system on one page. What stands in the systems keeps its order; the systems
and pages are gone. -/
def unbreak? [Scalar α] (d : Document α) : Except Fault (Document α) :=
  if d.isUnbroken then .ok d
  else
    let pages := d.pages.map Node.handle
    let systems := d.systems.map Node.handle
    let content := systems.flatMap d.children
    let (target, d) := (pages.foldl destroy (systems.foldl destroy d)).contentSystem
    d.reparentAll? content target

end Document

end ScoreLayout
