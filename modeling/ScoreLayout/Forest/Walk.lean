import ScoreLayout.Forest

/-!
# Walking a forest

A walk enters the labels of a forest in document order, each before its children, and leaves each
after them. A visitor carries a state along and decides at every label how the walk goes on.

## Main definitions

* `Visit` — what a visitor decides: go on, pass over the children, or stop the walk.
* `Visitor`, `Forest.visit` — a walk that only looks.
* `Visitor.recording` — the visitor that records its way.
* `Pass`, `Forest.run` — a walk that changes the labels on its way.
* `Forest.findFirst` — the first label at which a visitor stops.
-/

namespace ScoreLayout

/-- How a walk goes on. -/
inductive Visit where
  | proceed
  /-- Neither enter the children nor leave this label. -/
  | skipChildren
  | stop
deriving DecidableEq, Repr

/-- Callbacks of a walk that only looks at the labels. -/
structure Visitor (σ β : Type) where
  enter : σ → β → σ × Visit
  leave : σ → β → σ × Visit := fun s _ => (s, .proceed)

/-- Callbacks of a walk that changes the labels. A label is entered together with the label above
it. When it is left, its children may be changed as well, and `whole` gives the forest as the walk
has left it so far around a label and its children. -/
structure Pass (σ β : Type) where
  enter : σ → (parent : Option β) → β → σ × β × Visit
  leave : σ → (whole : β → Forest β → Forest β) → β → Forest β → σ × β × Forest β × Visit :=
    fun s _ b children => (s, b, children, .proceed)

/-- The pass that looks like a visitor and changes nothing. -/
def Visitor.toPass {σ β : Type} (v : Visitor σ β) : Pass σ β where
  enter s _ b := let (s, visit) := v.enter s b; (s, b, visit)
  leave s _ b children := let (s, visit) := v.leave s b; (s, b, children, visit)

/-- What a walk does at a label. -/
inductive WalkEvent (β : Type) where
  | entered (b : β)
  | left (b : β)
deriving DecidableEq, Repr

/-- The visitor that records where it comes and goes on as it is told. -/
def Visitor.recording {β : Type} (enter leave : β → Visit) :
    Visitor (List (WalkEvent β)) β where
  enter events b := (events ++ [.entered b], enter b)
  leave events b := (events ++ [.left b], leave b)

namespace Forest

variable {σ β : Type}

/-- A walk over a forest: the last state, and whether a callback stopped it. -/
def visit (v : Visitor σ β) : σ → Forest β → σ × Visit
  | s, nil => (s, .proceed)
  | s, cons b children siblings =>
    match v.enter s b with
    | (s, .stop) => (s, .stop)
    | (s, .skipChildren) => siblings.visit v s
    | (s, .proceed) =>
      match children.visit v s with
      | (s, .stop) => (s, .stop)
      | (s, _) =>
        match v.leave s b with
        | (s, .stop) => (s, .stop)
        | (s, _) => siblings.visit v s

/-- A walk that changes the forest below a label: the last state, the forest as far as the walk
came, and whether a callback stopped it. The whole forest is what `around` makes of this one. -/
def runWithin (p : Pass σ β) : (parent : Option β) → (around : Forest β → Forest β) → σ →
    Forest β → σ × Forest β × Visit
  | _, _, s, nil => (s, nil, .proceed)
  | parent, around, s, cons b children siblings =>
    match p.enter s parent b with
    | (s, b, .stop) => (s, cons b children siblings, .stop)
    | (s, b, .skipChildren) =>
      match siblings.runWithin p parent (fun f => around (cons b children f)) s with
      | (s, siblings, v) => (s, cons b children siblings, v)
    | (s, b, .proceed) =>
      match children.runWithin p (some b) (fun f => around (cons b f siblings)) s with
      | (s, children, .stop) => (s, cons b children siblings, .stop)
      | (s, children, _) =>
        match p.leave s (fun b children => around (cons b children siblings)) b children with
        | (s, b, children, .stop) => (s, cons b children siblings, .stop)
        | (s, b, children, _) =>
          match siblings.runWithin p parent (fun f => around (cons b children f)) s with
          | (s, siblings, v) => (s, cons b children siblings, v)

/-- A walk that changes a forest: the last state, the forest as far as the walk came, and whether a
callback stopped it. -/
def run (p : Pass σ β) (s : σ) (f : Forest β) : σ × Forest β × Visit := f.runWithin p none id s

/-- The result of a search: the label found, and the number of labels looked at. -/
structure Search (β : Type) where
  found : Option β
  looked : Nat

/-- The visitor of a search. -/
def searcher (decide : β → Visit) : Visitor (Search β) β where
  enter s b :=
    let looked := s.looked + 1
    match decide b with
    | .stop => (⟨some b, looked⟩, .stop)
    | v => (⟨s.found, looked⟩, v)

/-- The first label at which `decide` stops, below none whose children it passes over. -/
def findFirst (decide : β → Visit) (f : Forest β) : Search β :=
  (f.visit (searcher decide) ⟨none, 0⟩).1

end Forest

end ScoreLayout
