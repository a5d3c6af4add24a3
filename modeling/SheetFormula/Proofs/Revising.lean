import Mathlib.Data.List.Basic
import SheetFormula.Expr.Transform

/-!
Copies on the first change. A list of children is copied where the first of them changes, its elements
before that place are carried over, and each later element is put in its own place; of the rows of an
array all are carried over at once. No element is lost or moved on the way (`Revision.list_eq`,
`Revision.rows_eq`): the list is kept if all its elements are, and otherwise it is the list of what there
is in their places. So the tree after a revision is the one that the plain map gives, which builds every
node anew (`Expr.value_reviseM`), whatever the answers are and in whatever monad they are given.
-/

set_option autoImplicit false

namespace SheetFormula

namespace Revision

variable {m : Type → Type} {α β γ : Type}

theorem value_of_kept {r : Revision α} (h : r.isChanged = false) (a : α) : r.value a = a := by
  cases r with
  | kept => rfl
  | changed new => cases h

theorem value_map (f : α → β) (r : Revision α) (a : α) : (r.map f).value (f a) = f (r.value a) := by
  cases r <;> rfl

theorem isChanged_map (f : α → β) (r : Revision α) : (r.map f).isChanged = r.isChanged := by
  cases r <;> rfl

theorem value_map₂ (f : α → β → γ) (a : α) (b : β) (left : Revision α) (right : Revision β) :
    (map₂ f a b left right).value (f a b) = f (left.value a) (right.value b) := by
  cases left <;> cases right <;> rfl

theorem isChanged_map₂ (f : α → β → γ) (a : α) (b : β) (left : Revision α) (right : Revision β) :
    (map₂ f a b left right).isChanged = (left.isChanged || right.isChanged) := by
  cases left <;> cases right <;> rfl

/-- A node that is built anew comes after the answer for it. -/
theorem value_ite (rebuilt answer : Revision α) (a : α) :
    (if rebuilt.isChanged then rebuilt else answer).value a = rebuilt.value (answer.value a) := by
  cases rebuilt <;> rfl

theorem isChanged_ite (rebuilt answer : Revision α) :
    (if rebuilt.isChanged then rebuilt else answer).isChanged =
      (rebuilt.isChanged || answer.isChanged) := by
  cases rebuilt <;> rfl

theorem value_andThen (a : α) (f : α → Revision α) (r : Revision α) :
    (r.andThen a f).value a = (f (r.value a)).value (r.value a) := by
  cases r <;> rfl

/-- A revision of something is known by what there is after it and by whether that is another thing. -/
theorem ext {r r' : Revision α} {a : α} (hchanged : r.isChanged = r'.isChanged)
    (hvalue : r.value a = r'.value a) : r = r' := by
  cases r <;> cases r' <;> simp_all [isChanged]

/-- What there is in the places of a list after their revisions. -/
def values : List α → List (Revision α) → List α
  | a :: as, r :: rs => r.value a :: values as rs
  | as, _ => as

/-- The revision of a list by revisions of its elements. -/
def ofList (as : List α) (rs : List (Revision α)) : Revision (List α) :=
  if rs.any isChanged then .changed (values as rs) else .kept

theorem values_of_kept {rs : List (Revision α)} (h : rs.any isChanged = false) (as : List α) :
    values as rs = as := by
  fun_induction values as rs with
  | case1 a as r rs ih =>
    rw [List.any_cons, Bool.or_eq_false_iff] at h
    rw [value_of_kept h.1, ih h.2]
  | case2 => rfl

theorem value_ofList (as : List α) (rs : List (Revision α)) :
    (ofList as rs).value as = values as rs := by
  cases h : rs.any isChanged with
  | true => simp [ofList, h, value]
  | false => simp [ofList, h, value, values_of_kept h]

theorem isChanged_ofList (as : List α) (rs : List (Revision α)) :
    (ofList as rs).isChanged = rs.any isChanged := by
  cases h : rs.any isChanged <;> simp [ofList, h, isChanged]

theorem values_map (f : α → Revision α) (as : List α) :
    values as (as.map f) = as.map fun a => (f a).value a := by
  induction as with
  | nil => rfl
  | cons a as ih => rw [List.map_cons, values, ih, List.map_cons]

/-! ### Loops -/

variable [Monad m] [LawfulMonad m] {visit : α → m (Revision α)} {copy : Nat → List α}

/-- Once there is a copy, its places are filled one after the other. -/
theorem loop_some (visit : α → m (Revision α)) (copy : Nat → List α) (done : List α)
    {tail as : List α} (h : tail.length = as.length) :
    loop visit copy done.length (some (done ++ tail)) as =
      (fun rs => .changed (done ++ values as rs)) <$> as.mapM visit := by
  induction as generalizing done tail with
  | nil =>
    rw [List.length_eq_zero_iff.mp h]
    simp [loop, values]
  | cons a as ih =>
    obtain ⟨blank, tail, rfl⟩ := List.exists_cons_of_length_eq_add_one h
    have hset (new : α) : (done ++ blank :: tail).set done.length new = (done ++ [new]) ++ tail := by
      simp
    have hnext (r : Revision α) := ih (done ++ [r.value a]) (Nat.succ.inj h)
    simp only [List.length_append, List.length_singleton] at hnext
    rw [List.mapM_cons, map_bind, loop]
    refine bind_congr fun r => ?_
    simp only [Option.isNone_some, Bool.and_false, Bool.false_eq_true, if_false, Option.map_some, hset,
      hnext]
    simp [values]

/-- Until an element changes there is no copy. The copy that is made then has the elements before it in
their places, and places for the others. -/
theorem loop_none {all : List α}
    (hcopy : ∀ i ≤ all.length, ∃ tail, copy i = all.take i ++ tail ∧ tail.length = all.length - i)
    (done : List α) {as : List α} (h : all = done ++ as) :
    loop visit copy done.length none as =
      (fun rs => if rs.any isChanged then .changed (done ++ values as rs) else .kept) <$>
        as.mapM visit := by
  induction as generalizing done with
  | nil => simp [loop]
  | cons a as ih =>
    rw [List.mapM_cons, map_bind, loop]
    refine bind_congr fun r => ?_
    cases hr : r.isChanged with
    | false =>
      have hnext := ih (done ++ [a]) (by simp [h])
      rw [List.length_append, List.length_singleton] at hnext
      simp only [Bool.false_and, Bool.false_eq_true, if_false, Option.map_none, hnext]
      simp [values, hr, value_of_kept hr]
    | true =>
      obtain ⟨tail, htail, hlength⟩ := hcopy done.length (by simp [h])
      rw [h, List.take_left] at htail
      rw [h, List.length_append, Nat.add_sub_cancel_left] at hlength
      obtain ⟨blank, tail, rfl⟩ := List.exists_cons_of_length_eq_add_one hlength
      have hset : (copy done.length).set done.length (r.value a) = (done ++ [r.value a]) ++ tail := by
        simp [htail]
      have hnext := loop_some visit copy (done ++ [r.value a]) (Nat.succ.inj hlength)
      rw [List.length_append, List.length_singleton] at hnext
      simp only [Option.isNone_none, Bool.and_self, if_true, Option.map_some, hset, hnext]
      simp [values, hr]

theorem loop_eq {as : List α}
    (hcopy : ∀ i ≤ as.length, ∃ tail, copy i = as.take i ++ tail ∧ tail.length = as.length - i) :
    loop visit copy 0 none as = ofList as <$> as.mapM visit :=
  loop_none hcopy [] rfl

theorem list_eq [Inhabited α] (visit : α → m (Revision α)) (as : List α) :
    list visit as = ofList as <$> as.mapM visit :=
  loop_eq fun _ _ => ⟨_, rfl, List.length_replicate⟩

theorem rows_eq [Inhabited α] (visit : α → m (Revision α)) (rs : List (List α)) :
    rows visit rs = ofList rs <$> rs.mapM (list visit) :=
  loop_eq fun i _ => ⟨rs.drop i, (List.take_append_drop i rs).symm, List.length_drop⟩

/-- What there is after each element has been revised in its turn. -/
theorem values_mapM (visit : α → m (Revision α)) (as : List α) :
    values as <$> as.mapM visit = as.mapM fun a => value a <$> visit a := by
  induction as with
  | nil => simp [values]
  | cons a as ih => simp [values, ← ih]

theorem value_list [Inhabited α] (visit : α → m (Revision α)) (as : List α) :
    value as <$> list visit as = as.mapM fun a => value a <$> visit a := by
  rw [list_eq, ← values_mapM, Functor.map_map]
  simp only [value_ofList]

theorem value_rows [Inhabited α] (visit : α → m (Revision α)) (rs : List (List α)) :
    value rs <$> rows visit rs = rs.mapM fun r => r.mapM fun a => value a <$> visit a := by
  rw [rows_eq, Functor.map_map]
  simp only [value_ofList, values_mapM, value_list]

end Revision

namespace Expr

open Revision (value value_map value_map₂ value_ite)

variable {m : Type → Type} [Monad m]

/-- The plain map: replaces each node and then the children of the answer, and builds every node anew. -/
def rebuildM (f : Expr → m Expr) : Nat → Expr → m Expr
  | 0, e => pure e
  | depth + 1, e => do
    match ← f e with
    | .leaf l a => pure (.leaf l a)
    | .unary l suffix e => return .unary l suffix (← rebuildM f depth e)
    | .binary l a b => do
      let a ← rebuildM f depth a
      let b ← rebuildM f depth b
      return .binary l a b
    | .call l as => return .call l (← as.mapM (rebuildM f depth))
    | .array l rs => return .array l (← rs.mapM fun r => r.mapM (rebuildM f depth))

/-- The tree after a revision is the one that the plain map gives. -/
theorem value_reviseM [LawfulMonad m] (f : Expr → m (Revision Expr)) (depth : Nat) (e : Expr) :
    value e <$> reviseM f depth e = rebuildM (fun e => value e <$> f e) depth e := by
  induction depth generalizing e with
  | zero => simp [reviseM, rebuildM, value]
  | succ depth ih =>
    have hchild : rebuildM (fun e => value e <$> f e) depth =
        fun e => value e <$> reviseM f depth e := (funext ih).symm
    simp only [reviseM, rebuildM, map_bind, bind_map_left, hchild]
    refine bind_congr fun answer => ?_
    cases hnode : answer.value e with
    | leaf l a => simp [value_ite, hnode]
    | unary l suffix a => simp [value_ite, hnode, value_map (unary l suffix)]
    | binary l a b => simp [value_ite, hnode, value_map₂ (binary l)]
    | call l as => simp [value_ite, hnode, value_map (call l), ← Revision.value_list]
    | array l rs => simp [value_ite, hnode, value_map (array l), ← Revision.value_rows]

end Expr

end SheetFormula
