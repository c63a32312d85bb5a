/-!
# Forests

An ordered forest of labelled trees, as first tree and remaining trees. Document order is the order
in which a parent comes before its children and these before the next tree.

## Main definitions

* `Forest` — trees in order, each with a label and a forest of children.
* `Forest.toList` — the labels in document order.
* `Forest.unwind` — the same order, walked with a stack of pending forests.
* `Forest.find?`, `Forest.childrenOf?`, `Forest.ancestors?` — looking up a label.
* `Forest.modify`, `Forest.graft`, `Forest.prune?` — changing a label, adding a tree below one, and
  taking a tree out.
-/

namespace ScoreLayout

/-- Trees in order: the label and the children of the first, and the trees after it. -/
inductive Forest (β : Type) where
  | nil
  | cons (label : β) (children siblings : Forest β)
deriving DecidableEq, Repr

namespace Forest

variable {β : Type}

instance : Inhabited (Forest β) := ⟨nil⟩

/-- The number of labels. -/
def size : Forest β → Nat
  | nil => 0
  | cons _ children siblings => 1 + children.size + siblings.size

/-- The labels in document order. -/
def toList : Forest β → List β
  | nil => []
  | cons b children siblings => b :: (children.toList ++ siblings.toList)

/-- The labels of the trees themselves. -/
def roots : Forest β → List β
  | nil => []
  | cons b _ siblings => b :: siblings.roots

/-- One forest after another. -/
def append : Forest β → Forest β → Forest β
  | nil, other => other
  | cons b children siblings, other => cons b children (siblings.append other)

instance : Append (Forest β) := ⟨append⟩

/-- A single tree. -/
def tree (b : β) (children : Forest β) : Forest β := cons b children nil

/-- The first tree alone. -/
def first : Forest β → Forest β
  | nil => nil
  | cons b children _ => tree b children

/-- The trees after the first. -/
def rest : Forest β → Forest β
  | nil => nil
  | cons _ _ siblings => siblings

/-- The forest with every label changed. -/
def map {γ : Type} (f : β → γ) : Forest β → Forest γ
  | nil => nil
  | cons b children siblings => cons (f b) (children.map f) (siblings.map f)

/-- The labels of a stack of forests, taken from the top in document order. -/
def unwindStack : List (Forest β) → List β
  | [] => []
  | nil :: pending => unwindStack pending
  | cons b children siblings :: pending => b :: unwindStack (children :: siblings :: pending)
termination_by stack => stack.foldr (fun f n => 2 * f.size + 1 + n) 0
decreasing_by all_goals simp only [List.foldr_cons, size]; omega

/-- The labels in document order, walked with a stack of pending forests. -/
def unwind (f : Forest β) : List β := unwindStack [f]

/-- The first label in document order that satisfies a test. -/
def find? (p : β → Bool) : Forest β → Option β
  | nil => none
  | cons b children siblings =>
    if p b then some b else children.find? p <|> siblings.find? p

/-- The children of the first label that satisfies a test. -/
def childrenOf? (p : β → Bool) : Forest β → Option (Forest β)
  | nil => none
  | cons b children siblings =>
    if p b then some children else children.childrenOf? p <|> siblings.childrenOf? p

/-- The labels above the first label that satisfies a test, the closest first. -/
def ancestors? (p : β → Bool) : Forest β → Option (List β)
  | nil => none
  | cons b children siblings =>
    if p b then some []
    else ((children.ancestors? p).map (· ++ [b])) <|> siblings.ancestors? p

/-- The forest with the labels that satisfy a test changed. -/
def modify (p : β → Bool) (f : β → β) (forest : Forest β) : Forest β :=
  forest.map fun b => if p b then f b else b

/-- The forest with further children at the end of those of the labels that satisfy a test. -/
def graft (p : β → Bool) : Forest β → (added : Forest β) → Forest β
  | nil, _ => nil
  | cons b children siblings, added =>
    let children := children.graft p added
    cons b (if p b then children ++ added else children) (siblings.graft p added)

/-- The tree at the first label that satisfies a test, and the forest without it. -/
def prune? (p : β → Bool) : Forest β → Option ((β × Forest β) × Forest β)
  | nil => none
  | cons b children siblings =>
    if p b then some ((b, children), siblings)
    else
      match children.prune? p with
      | some (taken, children) => some (taken, cons b children siblings)
      | none => (siblings.prune? p).map fun (taken, siblings) => (taken, cons b children siblings)

@[simp] theorem length_toList (f : Forest β) : f.toList.length = f.size := by
  induction f with
  | nil => rfl
  | cons b children siblings hc hs => simp [toList, size, hc, hs]; omega

@[simp] theorem nil_append (g : Forest β) : nil ++ g = g := rfl

@[simp] theorem cons_append (b : β) (c s g : Forest β) : cons b c s ++ g = cons b c (s ++ g) := rfl

@[simp] theorem append_nil (f : Forest β) : f ++ nil = f := by
  induction f with
  | nil => rfl
  | cons b children siblings _ hs => rw [cons_append, hs]

@[simp] theorem toList_append (f g : Forest β) : (f ++ g).toList = f.toList ++ g.toList := by
  induction f with
  | nil => rfl
  | cons b children siblings _ hs => simp [toList, hs]

@[simp] theorem roots_append (f g : Forest β) : (f ++ g).roots = f.roots ++ g.roots := by
  induction f with
  | nil => rfl
  | cons b children siblings _ hs => simp [roots, hs]

@[simp] theorem toList_map {γ : Type} (h : β → γ) (f : Forest β) :
    (f.map h).toList = f.toList.map h := by
  induction f with
  | nil => rfl
  | cons b children siblings hc hs => simp [toList, map, hc, hs]

theorem unwindStack_eq_flatMap (stack : List (Forest β)) :
    unwindStack stack = stack.flatMap toList := by
  fun_induction unwindStack stack with
  | case1 => rfl
  | case2 pending ih => simp [ih, toList]
  | case3 b children siblings pending ih => simp [ih, toList]

/-- Walking with a stack visits the labels in document order. -/
@[simp] theorem unwind_eq_toList (f : Forest β) : f.unwind = f.toList := by
  simp [unwind, unwindStack_eq_flatMap]

theorem find?_eq_find?_toList (p : β → Bool) (f : Forest β) : f.find? p = f.toList.find? p := by
  induction f with
  | nil => rfl
  | cons b children siblings hc hs =>
    by_cases h : p b <;> simp [find?, toList, h, hc, hs]

end Forest

end ScoreLayout
