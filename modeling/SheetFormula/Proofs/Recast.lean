import SheetFormula.Proofs.Congruence

/-!
Trees up to their places. Recasting a tree puts every token at zero and other contents into its leaves.
The parser looks neither at places nor into leaves, so that it does the same with recast terminals; what
it makes of them is the recast tree.
-/

set_option autoImplicit false

namespace SheetFormula

/-- What is put in place of the text and the atom of a leaf. -/
abbrev Casting := String → Atom → String × Atom

/-- The label without its place. -/
def Label.unplaced (l : Label) : Label :=
  { l with span := ⟨0, 0⟩ }

namespace Expr

mutual

/-- The tree with all its places at zero and other contents. -/
def recast (g : Casting) : Expr → Expr
  | .leaf l a => .leaf ⟨(g l.text a).1, l.debug, ⟨0, 0⟩⟩ (g l.text a).2
  | .unary l suffix e => .unary l.unplaced suffix (recast g e)
  | .binary l a b => .binary l.unplaced (recast g a) (recast g b)
  | .call l as => .call l.unplaced (recastList g as)
  | .array l rs => .array l.unplaced (recastRows g rs)

def recastList (g : Casting) : List Expr → List Expr
  | [] => []
  | e :: es => recast g e :: recastList g es

def recastRows (g : Casting) : List (List Expr) → List (List Expr)
  | [] => []
  | r :: rs => recastList g r :: recastRows g rs

end

variable (g : Casting)

theorem recastList_eq_map (es : List Expr) : recastList g es = es.map (recast g) := by
  induction es with
  | nil => rfl
  | cons e es ih => rw [recastList, ih, List.map_cons]

theorem recastRows_eq_map (rs : List (List Expr)) :
    recastRows g rs = rs.map (List.map (recast g)) := by
  induction rs with
  | nil => rfl
  | cons r rs ih => rw [recastRows, ih, recastList_eq_map, List.map_cons]

@[simp] theorem recast_leaf (l : Label) (a : Atom) :
    recast g (.leaf l a) = .leaf ⟨(g l.text a).1, l.debug, ⟨0, 0⟩⟩ (g l.text a).2 := by
  rw [recast]

@[simp] theorem recast_unary (l : Label) (suffix : Bool) (e : Expr) :
    recast g (.unary l suffix e) = .unary l.unplaced suffix (recast g e) := by
  rw [recast]

@[simp] theorem recast_binary (l : Label) (a b : Expr) :
    recast g (.binary l a b) = .binary l.unplaced (recast g a) (recast g b) := by
  rw [recast]

@[simp] theorem recast_call (l : Label) (as : List Expr) :
    recast g (.call l as) = .call l.unplaced (as.map (recast g)) := by
  rw [recast, recastList_eq_map]

@[simp] theorem recast_array (l : Label) (rs : List (List Expr)) :
    recast g (.array l rs) = .array l.unplaced (rs.map (List.map (recast g))) := by
  rw [recast, recastRows_eq_map]

@[simp] theorem span_recast (e : Expr) : (e.recast g).span = ⟨0, 0⟩ := by
  cases e <;> simp [span, label, Label.unplaced]

@[simp] theorem recast_marked (e : Expr) (index : Nat) :
    (e.marked index).recast g = (e.recast g).marked (0 : Nat) := by
  cases e <;> simp [marked, withLabel, label, span, Label.unplaced]

/-- The tree with all its places at zero. -/
def unplaced (e : Expr) : Expr :=
  e.recast fun text atom => (text, atom)

theorem unplaced_leaf (l : Label) (atom : Atom) :
    (leaf l atom).unplaced = .leaf l.unplaced atom := by
  simp [unplaced, Label.unplaced]

theorem unplaced_unary (l : Label) (suffix : Bool) (e : Expr) :
    (unary l suffix e).unplaced = .unary l.unplaced suffix e.unplaced :=
  recast_unary _ l suffix e

theorem unplaced_binary (l : Label) (a b : Expr) :
    (binary l a b).unplaced = .binary l.unplaced a.unplaced b.unplaced :=
  recast_binary _ l a b

theorem unplaced_call (l : Label) (as : List Expr) :
    (call l as).unplaced = .call l.unplaced (as.map unplaced) :=
  recast_call _ l as

theorem unplaced_array (l : Label) (rs : List (List Expr)) :
    (array l rs).unplaced = .array l.unplaced (rs.map (List.map unplaced)) :=
  recast_array _ l rs

end Expr

/-- The terminal at place zero, with other contents in its leaf. -/
def Terminal.recast (g : Casting) (t : Terminal) : Terminal :=
  match t.role with
  | .operand leaf => ⟨.operand (leaf.recast g), "", 0⟩
  | role => ⟨role, t.text, 0⟩

namespace Parser

variable (g : Casting)

def Frame.recast : Frame → Frame
  | .marker _ => .marker 0
  | .sign op _ => .sign op 0
  | .operation op left => .operation op (left.recast g)
  | .group => .group
  | .call name _ arguments => .call name 0 (arguments.map (Expr.recast g))
  | .array _ rows row =>
    .array 0 (rows.map (List.map (Expr.recast g))) (row.map (Expr.recast g))

def Stage.recast : Stage → Stage
  | .operand frames => .operand (frames.map (Frame.recast g))
  | .argument name _ arguments frames =>
    .argument name 0 (arguments.map (Expr.recast g)) (frames.map (Frame.recast g))
  | .operator left frames => .operator (left.recast g) (frames.map (Frame.recast g))

theorem forall₂_map_recast (es : List Expr) :
    List.Forall₂ (fun e e' => e.recast g = e') es (es.map (Expr.recast g)) :=
  List.forall₂_map_right_iff.mpr (List.forall₂_same.mpr fun _ _ => rfl)

theorem map_recast_of_forall₂ {es es' : List Expr}
    (h : List.Forall₂ (fun e e' => e.recast g = e') es es') : es.map (Expr.recast g) = es' :=
  List.forall₂_eq_eq_eq ▸ List.forall₂_map_left_iff.mpr h

/-- Recasting is kept by everything that the parser builds. -/
theorem congruence_recast (hg : g "" .empty = ("", .empty)) :
    Congruence (fun e e' => e.recast g = e') (fun _ i' => i' = 0) where
  omitted := by
    rintro i _ rfl
    simp [omitted, Terminal.leaf, hg]
  marked := by
    rintro e _ i _ rfl rfl
    exact Expr.recast_marked g e i
  sign := by
    rintro e _ i _ op rfl rfl
    simp [Label.unplaced]
  suffix := by
    rintro e _ i _ op rfl rfl
    simp [Label.unplaced]
  operation := by
    rintro a _ b _ op rfl rfl
    simp [Label.unplaced]
  call := by
    rintro as as' i _ j _ name has rfl rfl
    simp [finishCall, Label.unplaced, map_recast_of_forall₂ g has]
  array := by
    rintro rs rs' i _ j _ hrs rfl rfl
    have hrows : rs.map (List.map (Expr.recast g)) = rs' := by
      rw [← List.forall₂_eq_eq_eq, List.forall₂_map_left_iff]
      exact hrs.imp fun _ _ => map_recast_of_forall₂ g
    simp [Label.unplaced, hrows]

theorem Frame.like_recast (frame : Frame) :
    frame.Like (fun e e' => e.recast g = e') (fun _ i' => i' = 0) (frame.recast g) := by
  cases frame with
  | marker index => exact .marker rfl
  | sign op index => exact .sign op rfl
  | operation op left => exact .operation op rfl
  | group => exact .group
  | call name index arguments => exact .call name rfl (forall₂_map_recast g arguments)
  | array index rows row =>
    refine .array rfl ?_ (forall₂_map_recast g row)
    exact List.forall₂_map_right_iff.mpr (List.forall₂_same.mpr fun r _ => forall₂_map_recast g r)

theorem Stage.like_recast (stage : Stage) :
    stage.Like (fun e e' => e.recast g = e') (fun _ i' => i' = 0) (stage.recast g) := by
  have hframes (frames : List Frame) :
      List.Forall₂ (Frame.Like (fun e e' => e.recast g = e') (fun _ i' => i' = 0)) frames
        (frames.map (Frame.recast g)) :=
    List.forall₂_map_right_iff.mpr (List.forall₂_same.mpr fun frame _ => frame.like_recast g)
  cases stage with
  | operand frames => exact .operand (hframes frames)
  | argument name index arguments frames =>
    exact .argument name rfl (forall₂_map_recast g arguments) (hframes frames)
  | operator left frames => exact .operator rfl (hframes frames)

theorem like_recast (t : Terminal) :
    t.Like (fun e e' => e.recast g = e') (fun _ i' => i' = 0) (t.recast g) := by
  obtain ⟨role, text, index⟩ := t
  cases role with
  | operand leaf => exact ⟨.operand rfl, by simp, rfl⟩
  | _ => exact ⟨.same (by simp), fun _ => rfl, rfl⟩

theorem bindingOf_recast (t : Terminal) : bindingOf (t.recast g) = bindingOf t :=
  (bindingOf_like (like_recast g t)).symm

variable (hg : g "" .empty = ("", .empty))
include hg

/-- The tree of recast terminals is the recast tree. -/
theorem run_recast (limit : Option Nat) (stop stop' : Nat) (stage : Stage)
    (terminals : List Terminal) :
    (run limit stop (stage.recast g) (terminals.map (Terminal.recast g))).toOption =
      (run limit stop' stage terminals).toOption.map (Expr.recast g) := by
  have hts := List.forall₂_map_right_iff.mpr
    (List.forall₂_same.mpr fun t (_ : t ∈ terminals) => like_recast g t)
  have hrun := run_like (F := fun _ _ => True) (congruence_recast g hg) limit stop' stop
    (fun _ _ _ _ _ _ _ => trivial) (fun _ _ => trivial) (stage.like_recast g) hts
  generalize run limit stop' stage terminals = answer,
    run limit stop (stage.recast g) (terminals.map (Terminal.recast g)) = answer' at hrun
  cases hrun with
  | ok h => exact congrArg some h.symm
  | error => rfl

omit hg in
theorem dropEquals_recast (terminals : List Terminal) :
    dropEquals (terminals.map (Terminal.recast g)) =
      (dropEquals terminals).map (Terminal.recast g) := by
  cases terminals with
  | nil => rfl
  | cons t terminals =>
    simp only [List.map_cons, dropEquals]
    cases hrole : t.role with
    | operator =>
      simp only [Terminal.recast, hrole]
      split <;> simp [Terminal.recast, hrole]
    | _ => simp [Terminal.recast, hrole]

/-- The tree of a list of tokens, recast, is the tree of its recast terminals. -/
theorem recast_ofTokens (reading : Reading) (tokens : List Token) :
    (Expr.ofTokens reading tokens).toOption.map (Expr.recast g) =
      (run reading.limit 0 (.operand []) (dropEquals
        ((Terminal.ofTokens reading.locale tokens).map (Terminal.recast g)))).toOption := by
  rw [toOption_ofTokens, dropEquals_recast]
  exact (run_recast g hg reading.limit 0 tokens.length (.operand []) _).symm

theorem run_recast_of_ofTokens {reading : Reading} {tokens : List Token} {root : Expr}
    (h : Expr.ofTokens reading tokens = .ok root) :
    (run reading.limit 0 (.operand []) (dropEquals
      ((Terminal.ofTokens reading.locale tokens).map (Terminal.recast g)))).toOption =
        some (root.recast g) := by
  rw [← recast_ofTokens g hg, h]
  rfl

end Parser

end SheetFormula
