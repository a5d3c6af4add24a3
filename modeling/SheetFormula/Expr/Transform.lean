import SheetFormula.Expr.Basic

/-!
Transformation of trees from the root down. A function is asked for each node, and the children of its
answer are visited in turn, so an answer may bring new nodes to visit. A node that is kept is the very
node it was. A list of children is copied when the first of them changes, and a node is built anew only
where it has got another child: trees in which nothing changes are shared with the old tree.
-/

set_option autoImplicit false

namespace SheetFormula

/-- What becomes of something: it is kept as the very thing it was, or another takes its place. -/
inductive Revision (α : Type) where
  | kept
  | changed (new : α)
deriving DecidableEq, Repr

namespace Revision

variable {m : Type → Type} {α β γ : Type}

/-- What there is after a revision of `old`. -/
def value (old : α) : Revision α → α
  | kept => old
  | changed new => new

@[simp] theorem value_kept (old : α) : value old kept = old := rfl

@[simp] theorem value_changed (old new : α) : value old (changed new) = new := rfl

def isChanged : Revision α → Bool
  | kept => false
  | changed _ => true

def map (f : α → β) : Revision α → Revision β
  | kept => kept
  | changed new => changed (f new)

/-- The revision of what is made of two parts. -/
def map₂ (f : α → β → γ) (a : α) (b : β) (left : Revision α) (right : Revision β) : Revision γ :=
  if left.isChanged || right.isChanged then changed (f (left.value a) (right.value b)) else kept

/-- A revision of `old` and then one of what there is. -/
def andThen (old : α) (f : α → Revision α) : Revision α → Revision α
  | kept => f old
  | changed new => changed ((f new).value new)

/-- Revises the elements of a list from position `i` on, one after the other. There is no copy of the list
until the first element changes; `copy` gives the copy that is made at a position. From then on each
element is put in its place in the copy. -/
def loop [Monad m] (visit : α → m (Revision α)) (copy : Nat → List α) :
    Nat → Option (List α) → List α → m (Revision (List α))
  | _, none, [] => pure kept
  | _, some new, [] => pure (changed new)
  | i, new, a :: as => do
    let revision ← visit a
    let new := if revision.isChanged && new.isNone then some (copy i) else new
    loop visit copy (i + 1) (new.map (·.set i (revision.value a))) as

/-- Revises a list. A copy is made of the elements before the one that changes; the places after them are
blank at first. -/
def list [Monad m] [Inhabited α] (visit : α → m (Revision α)) (as : List α) :
    m (Revision (List α)) :=
  loop visit (fun i => as.take i ++ List.replicate (as.length - i) default) 0 none as

/-- Revises a list of rows. A copy is made of all rows. -/
def rows [Monad m] [Inhabited α] (visit : α → m (Revision α)) (rs : List (List α)) :
    m (Revision (List (List α))) :=
  loop (list visit) (fun _ => rs) 0 none rs

end Revision

namespace Expr

variable {m : Type → Type}

/-- Revises each node and then the children of the answer, down to the given depth. What lies deeper is
kept. A node that has got another child is built anew. -/
def reviseM [Monad m] (f : Expr → m (Revision Expr)) : Nat → Expr → m (Revision Expr)
  | 0, _ => pure .kept
  | depth + 1, e => do
    let answer ← f e
    let rebuilt ← match answer.value e with
      | .leaf .. => pure .kept
      | .unary l suffix a => do
        let operand ← reviseM f depth a
        pure (operand.map (.unary l suffix))
      | .binary l a b => do
        let left ← reviseM f depth a
        let right ← reviseM f depth b
        pure (Revision.map₂ (.binary l) a b left right)
      | .call l as => do
        let arguments ← Revision.list (reviseM f depth) as
        pure (arguments.map (.call l))
      | .array l rs => do
        let rows ← Revision.rows (reviseM f depth) rs
        pure (rows.map (.array l))
    pure (if rebuilt.isChanged then rebuilt else answer)

/-- The tree after a revision without effects. -/
def transform (f : Expr → Revision Expr) (depth : Nat) (e : Expr) : Expr :=
  (Id.run (reviseM (fun e => pure (f e)) depth e)).value e

/-- Restricts a revision to the nodes of one kind. -/
def onKind [Monad m] (kind : Kind) (f : Expr → m (Revision Expr)) (e : Expr) :
    m (Revision Expr) :=
  if e.kind = kind then f e else pure .kept

end Expr

end SheetFormula
