import Mathlib.Data.List.Forall2
import SheetFormula.Proofs.Revising
import SheetFormula.Proofs.Tree

/-!
Trees under other labels. A relabelling keeps a node or puts another in its place, which may say something
else of itself and has its kind and its children. A tree that is transformed by a relabelling has the
nodes of the tree, each with its new label; each node is asked for once, in their order, and no node is
lost or moved. The tree is kept as it is exactly where all its nodes are. The transformation by two
relabellings one after the other is the transformation by both at once, and the nodes of one kind can be
relabelled by themselves.
-/

set_option autoImplicit false

namespace SheetFormula

namespace Expr

/-- What a node says of itself, without its children. -/
inductive Head where
  | leaf (label : Label) (atom : Atom)
  | unary (label : Label) (suffix : Bool)
  | binary (label : Label)
  | call (label : Label)
  | array (label : Label)
deriving DecidableEq

def head : Expr → Head
  | .leaf l a => .leaf l a
  | .unary l suffix _ => .unary l suffix
  | .binary l _ _ => .binary l
  | .call l _ => .call l
  | .array l _ => .array l

/-- The children of a node by rows. The operands of an operation and the arguments of a call are one
row. -/
def childRows : Expr → List (List Expr)
  | .leaf .. => []
  | .unary _ _ e => [[e]]
  | .binary _ a b => [[a, b]]
  | .call _ as => [as]
  | .array _ rs => rs

theorem label_of_head {d e : Expr} (h : d.head = e.head) : d.label = e.label := by
  cases d <;> cases e <;> simp_all [head, label]

theorem kind_of_head {d e : Expr} (h : d.head = e.head) : d.kind = e.kind := by
  cases d <;> cases e <;> simp_all [head, kind]

/-- A node is known by what it says of itself and its children. -/
theorem eq_of_head {d e : Expr} (hhead : d.head = e.head) (hrows : d.childRows = e.childRows) :
    d = e := by
  cases d <;> cases e <;> simp_all [head, childRows]

/-- Nodes of one kind with the same children differ by their labels. -/
theorem eq_withLabel {d e : Expr} (hkind : d.kind = e.kind) (hleaf : e.kind.isLeaf = false)
    (hsigned : d.isSigned = e.isSigned) (hrows : d.childRows = e.childRows) :
    d = e.withLabel d.label := by
  have hinner : d.kind.isLeaf = false := by rw [hkind, hleaf]
  cases d with
  | leaf l a => cases a <;> cases hinner
  | _ =>
    cases e with
    | leaf l a => cases a <;> cases hleaf
    | _ => simp_all [kind, isSigned, childRows, withLabel, label]

/-- Induction with a hypothesis for each child. -/
theorem childInduction {motive : Expr → Prop}
    (node : ∀ e, (∀ c ∈ e.childRows.flatten, motive c) → motive e) (e : Expr) : motive e := by
  induction e with
  | leaf l a => exact node _ (by simp [childRows])
  | unary l suffix e ih => exact node _ (by simpa [childRows] using ih)
  | binary l a b iha ihb => exact node _ (by simpa [childRows] using ⟨iha, ihb⟩)
  | call l as ih => exact node _ (by simpa [childRows] using ih)
  | array l rs ih =>
    refine node _ fun c hc => ?_
    obtain ⟨r, hr, hc⟩ := List.mem_flatten.mp hc
    exact ih r hr c hc

theorem nodes_eq_cons (e : Expr) : e.nodes = e :: e.childRows.flatten.flatMap nodes := by
  cases e with
  | leaf l a => rfl
  | unary l suffix e => simp [nodes_unary, childRows]
  | binary l a b => simp [nodes_binary, childRows]
  | call l as => simp [nodes_call, childRows]
  | array l rs => rw [nodes_array, childRows, ← List.flatMap_id, List.flatMap_assoc]; rfl

/-! ### How high a tree is -/

mutual

/-- The number of nodes on the longest way from the root to a leaf. -/
def height : Expr → Nat
  | .leaf .. => 1
  | .unary _ _ e => height e + 1
  | .binary _ a b => max (height a) (height b) + 1
  | .call _ as => heightOfList as + 1
  | .array _ rs => heightOfRows rs + 1

def heightOfList : List Expr → Nat
  | [] => 0
  | e :: es => max (height e) (heightOfList es)

def heightOfRows : List (List Expr) → Nat
  | [] => 0
  | r :: rs => max (heightOfList r) (heightOfRows rs)

end

theorem heightOfList_le_iff {es : List Expr} {n : Nat} :
    heightOfList es ≤ n ↔ ∀ e ∈ es, e.height ≤ n := by
  induction es with
  | nil => simp [heightOfList]
  | cons e es ih => rw [heightOfList, Nat.max_le, ih, List.forall_mem_cons]

theorem heightOfRows_le_iff {rs : List (List Expr)} {n : Nat} :
    heightOfRows rs ≤ n ↔ ∀ e ∈ rs.flatten, e.height ≤ n := by
  induction rs with
  | nil => simp [heightOfRows]
  | cons r rs ih =>
    rw [heightOfRows, Nat.max_le, ih, heightOfList_le_iff, List.flatten_cons, List.forall_mem_append]

/-- A tree is as high as its highest child and one node more. -/
theorem height_le_succ_iff {e : Expr} {n : Nat} :
    e.height ≤ n + 1 ↔ ∀ c ∈ e.childRows.flatten, c.height ≤ n := by
  cases e with
  | leaf l a => simp [height, childRows]
  | unary l suffix e => simp [height, childRows]
  | binary l a b =>
    rw [height, Nat.add_le_add_iff_right, Nat.max_le]
    simp [childRows]
  | call l as => simp [height, childRows, heightOfList_le_iff]
  | array l rs => rw [height, Nat.add_le_add_iff_right, heightOfRows_le_iff, childRows]

theorem height_pos (e : Expr) : 0 < e.height := by
  cases e <;> simp [height]

end Expr

open SheetFormula.Expr (Head Kind)

/-- A change of labels: the kind of a node, the side on which its operator stands and its children stay,
and what it says of itself comes from what it said before. -/
structure Relabelling where
  answer : Expr → Revision Expr
  kind_answer : ∀ e, ((answer e).value e).kind = e.kind
  isSigned_answer : ∀ e, ((answer e).value e).isSigned = e.isSigned
  childRows_answer : ∀ e, ((answer e).value e).childRows = e.childRows
  head_answer : ∀ e e', e.head = e'.head →
    ((answer e).value e).head = ((answer e').value e').head

namespace Relabelling

/-- The node after the change. -/
def apply (f : Relabelling) (e : Expr) : Expr :=
  (f.answer e).value e

instance : CoeFun Relabelling fun _ => Expr → Expr := ⟨apply⟩

variable (f g : Relabelling)

/-! ### What a relabelling does with a node -/

theorem exists_leaf (l : Label) (a : Atom) : ∃ l' a', f (.leaf l a) = .leaf l' a' := by
  have hkind : (f (.leaf l a)).kind = _ := f.kind_answer (.leaf l a)
  generalize f (.leaf l a) = e at hkind
  cases e with
  | leaf l' a' => exact ⟨l', a', rfl⟩
  | _ => cases a <;> cases hkind

/-- Nodes with children that say the same of themselves get the same label. -/
theorem exists_label {e : Expr} (h : e.kind.isLeaf = false) :
    ∃ l, ∀ e', e'.head = e.head → f e' = e'.withLabel l := by
  refine ⟨(f e).label, fun e' he => ?_⟩
  have hkind : e'.kind.isLeaf = false := by rw [Expr.kind_of_head he, h]
  have hlabel : (f e').label = (f e).label := Expr.label_of_head (f.head_answer e' e he)
  rw [← hlabel]
  exact Expr.eq_withLabel (f.kind_answer e') hkind (f.isSigned_answer e') (f.childRows_answer e')

theorem exists_unary (l : Label) (suffix : Bool) :
    ∃ l', ∀ e, f (.unary l suffix e) = .unary l' suffix e := by
  obtain ⟨l', h⟩ := f.exists_label (e := .unary l suffix default) rfl
  exact ⟨l', fun e => h (.unary l suffix e) rfl⟩

theorem exists_binary (l : Label) : ∃ l', ∀ a b, f (.binary l a b) = .binary l' a b := by
  obtain ⟨l', h⟩ := f.exists_label (e := .binary l default default) rfl
  exact ⟨l', fun a b => h (.binary l a b) rfl⟩

theorem exists_call (l : Label) : ∃ l', ∀ as, f (.call l as) = .call l' as := by
  obtain ⟨l', h⟩ := f.exists_label (e := .call l []) rfl
  exact ⟨l', fun as => h (.call l as) rfl⟩

theorem exists_array (l : Label) : ∃ l', ∀ rs, f (.array l rs) = .array l' rs := by
  obtain ⟨l', h⟩ := f.exists_label (e := .array l []) rfl
  exact ⟨l', fun rs => h (.array l rs) rfl⟩

/-! ### Whole trees -/

mutual

/-- The tree with each node relabelled. -/
def tree : Expr → Expr
  | .leaf l a => f (.leaf l a)
  | .unary l suffix e => .unary (f (.unary l suffix e)).label suffix (tree e)
  | .binary l a b => .binary (f (.binary l a b)).label (tree a) (tree b)
  | .call l as => .call (f (.call l as)).label (treeList as)
  | .array l rs => .array (f (.array l rs)).label (treeRows rs)

def treeList : List Expr → List Expr
  | [] => []
  | e :: es => tree e :: treeList es

def treeRows : List (List Expr) → List (List Expr)
  | [] => []
  | r :: rs => treeList r :: treeRows rs

end

theorem treeList_eq_map (es : List Expr) : f.treeList es = es.map f.tree := by
  induction es with
  | nil => rfl
  | cons e es ih => rw [treeList, ih, List.map_cons]

theorem treeRows_eq_map (rs : List (List Expr)) : f.treeRows rs = rs.map (List.map f.tree) := by
  induction rs with
  | nil => rfl
  | cons r rs ih => rw [treeRows, ih, treeList_eq_map, List.map_cons]

/-- The new root, over the new trees of the children. -/
theorem tree_call (l : Label) (as : List Expr) :
    f.tree (.call l as) = .call (f (.call l as)).label (as.map f.tree) := by
  rw [tree, treeList_eq_map]

theorem tree_array (l : Label) (rs : List (List Expr)) :
    f.tree (.array l rs) = .array (f (.array l rs)).label (rs.map (List.map f.tree)) := by
  rw [tree, treeRows_eq_map]

theorem head_tree (e : Expr) : (f.tree e).head = (f e).head := by
  cases e with
  | leaf l a => rw [tree]
  | unary l suffix e =>
    obtain ⟨l', h⟩ := f.exists_unary l suffix
    rw [tree, h]
    rfl
  | binary l a b =>
    obtain ⟨l', h⟩ := f.exists_binary l
    rw [tree, h]
    rfl
  | call l as =>
    obtain ⟨l', h⟩ := f.exists_call l
    rw [tree, h]
    rfl
  | array l rs =>
    obtain ⟨l', h⟩ := f.exists_array l
    rw [tree, h]
    rfl

theorem childRows_tree (e : Expr) : (f.tree e).childRows = e.childRows.map (List.map f.tree) := by
  cases e with
  | leaf l a =>
    rw [tree]
    exact f.childRows_answer (.leaf l a)
  | unary l suffix e => rw [tree]; rfl
  | binary l a b => rw [tree]; rfl
  | call l as => rw [tree_call]; rfl
  | array l rs => rw [tree_array]; rfl

/-- The nodes of the new tree are the new trees of the nodes. -/
theorem nodes_tree (e : Expr) : (f.tree e).nodes = e.nodes.map f.tree := by
  induction e using Expr.childInduction with
  | node e ih =>
    rw [Expr.nodes_eq_cons, Expr.nodes_eq_cons e, childRows_tree, ← List.map_flatten, List.flatMap_map,
      List.map_cons, List.map_flatMap]
    exact congrArg _ (List.flatMap_congr ih)

/-- The new tree is as high as the old one. -/
theorem height_tree_le_iff (e : Expr) (n : Nat) : (f.tree e).height ≤ n ↔ e.height ≤ n := by
  induction e using Expr.childInduction generalizing n with
  | node e ih =>
    cases n with
    | zero =>
      have hnew := (f.tree e).height_pos
      have hold := e.height_pos
      omega
    | succ n =>
      rw [Expr.height_le_succ_iff, Expr.height_le_succ_iff, childRows_tree, ← List.map_flatten,
        List.forall_mem_map]
      exact forall₂_congr fun c hc => ih c hc n

/-! ### Relabellings together -/

/-- The relabelling that keeps all nodes. -/
def refl : Relabelling where
  answer _ := .kept
  kind_answer _ := rfl
  isSigned_answer _ := rfl
  childRows_answer _ := rfl
  head_answer _ _ h := h

/-- Another text for each node. -/
def retext (text : String → String) : Relabelling where
  answer e := .changed (e.withText (text e.text))
  kind_answer e := by
    cases e with
    | leaf l a => cases a <;> rfl
    | _ => rfl
  isSigned_answer e := by cases e <;> rfl
  childRows_answer e := by cases e <;> rfl
  head_answer e e' h := by
    cases e <;> cases e' <;>
      simp_all [Expr.head, Expr.withText, Expr.withLabel, Expr.text, Expr.label]

/-- One relabelling after another. -/
def trans : Relabelling where
  answer e := (f.answer e).andThen e g.answer
  kind_answer e := by
    rw [Revision.value_andThen]
    exact (g.kind_answer _).trans (f.kind_answer e)
  isSigned_answer e := by
    rw [Revision.value_andThen]
    exact (g.isSigned_answer _).trans (f.isSigned_answer e)
  childRows_answer e := by
    rw [Revision.value_andThen]
    exact (g.childRows_answer _).trans (f.childRows_answer e)
  head_answer e e' h := by
    rw [Revision.value_andThen, Revision.value_andThen]
    exact g.head_answer _ _ (f.head_answer _ _ h)

/-- The relabelling of the nodes of one kind. -/
def onKind (kind : Kind) : Relabelling where
  answer e := if e.kind = kind then f.answer e else .kept
  kind_answer e := by split <;> simp [f.kind_answer]
  isSigned_answer e := by split <;> simp [f.isSigned_answer]
  childRows_answer e := by split <;> simp [f.childRows_answer]
  head_answer e e' h := by
    rw [Expr.kind_of_head h]
    split
    · exact f.head_answer e e' h
    · exact h

theorem map_rows_congr {f g : Expr → Expr} {rs : List (List Expr)}
    (h : ∀ c ∈ rs.flatten, f c = g c) : rs.map (List.map f) = rs.map (List.map g) :=
  List.map_congr_left fun _ hr => List.map_congr_left fun c hc =>
    h c (List.mem_flatten_of_mem hr hc)

/-- A tree whose nodes are all kept is the tree it was. -/
theorem tree_of_kept {e : Expr} (h : ∀ n ∈ e.nodes, f n = n) : f.tree e = e := by
  induction e using Expr.childInduction with
  | node e ih =>
    rw [Expr.nodes_eq_cons, List.forall_mem_cons] at h
    have hchildren (c : Expr) (hc : c ∈ e.childRows.flatten) : f.tree c = c :=
      ih c hc fun n hn => h.2 n (List.mem_flatMap.mpr ⟨c, hc, hn⟩)
    refine Expr.eq_of_head ((f.head_tree e).trans (congrArg Expr.head h.1)) ?_
    rw [childRows_tree, map_rows_congr hchildren]
    simp

theorem tree_trans (e : Expr) : (f.trans g).tree e = g.tree (f.tree e) := by
  induction e using Expr.childInduction with
  | node e ih =>
    refine Expr.eq_of_head ?_ ?_
    · calc ((f.trans g).tree e).head = ((f.trans g) e).head := head_tree _ e
        _ = (g (f e)).head := congrArg Expr.head (Revision.value_andThen ..)
        _ = (g (f.tree e)).head := g.head_answer _ _ (f.head_tree e).symm
        _ = (g.tree (f.tree e)).head := (g.head_tree _).symm
    · rw [childRows_tree, childRows_tree, childRows_tree, map_rows_congr ih]
      simp

/-! ### The transformation -/

/-- What becomes of a tree: it is kept if all its nodes are. -/
def revision (e : Expr) : Revision Expr :=
  if e.nodes.any fun n => (f.answer n).isChanged then .changed (f.tree e) else .kept

theorem isChanged_revision (e : Expr) :
    (f.revision e).isChanged = e.nodes.any fun n => (f.answer n).isChanged := by
  unfold revision
  split <;> simp_all [Revision.isChanged]

theorem value_revision (e : Expr) : (f.revision e).value e = f.tree e := by
  unfold revision
  split
  · rfl
  · rename_i hkept
    refine (f.tree_of_kept fun n hn => Revision.value_of_kept ?_ n).symm
    simpa using fun hchanged => hkept (List.any_eq_true.mpr ⟨n, hn, hchanged⟩)

/-- A tree changes where its root is replaced or one of its children changes. -/
theorem revision_eq (e : Expr) (rebuilt : Revision Expr)
    (hchanged : rebuilt.isChanged = e.childRows.flatten.any fun c => (f.revision c).isChanged)
    (hvalue : rebuilt.value (f e) = f.tree e) :
    (if rebuilt.isChanged then rebuilt else f.answer e) = f.revision e := by
  refine Revision.ext (a := e) ?_ ?_
  · rw [Revision.isChanged_ite, isChanged_revision, Expr.nodes_eq_cons, List.any_cons,
      List.any_flatMap, hchanged, Bool.or_comm]
    simp only [isChanged_revision]
  · rw [Revision.value_ite, value_revision]
    exact hvalue

section Transform

variable {m : Type → Type} [Monad m] [LawfulMonad m]

/-- Where each element is first visited in its parts, all parts are visited before the results are put
together. -/
theorem mapM_eq_forM_flatMap {α β γ : Type} {visit : γ → m Unit} {parts : α → List γ} {g : α → m β}
    {h : α → β} {as : List α} (hg : ∀ a ∈ as, g a = do forM (parts a) visit; pure (h a)) :
    as.mapM g = (do forM (as.flatMap parts) visit; pure (as.map h)) := by
  induction as with
  | nil => simp
  | cons a as ih =>
    obtain ⟨ha, has⟩ := List.forall_mem_cons.mp hg
    simp [ha, ih has, List.forM_append]

/-- The children in a row are visited one after the other. -/
theorem list_eq_forM {visit : Expr → m Unit} {ask : Expr → m (Revision Expr)} {es : List Expr}
    (h : ∀ e ∈ es, ask e = do forM e.nodes visit; pure (f.revision e)) :
    Revision.list ask es =
      (do forM (es.flatMap Expr.nodes) visit; pure (Revision.ofList es (es.map f.revision))) := by
  rw [Revision.list_eq, mapM_eq_forM_flatMap h]
  simp

theorem value_ofList_revision (es : List Expr) :
    (Revision.ofList es (es.map f.revision)).value es = es.map f.tree := by
  simp only [Revision.value_ofList, Revision.values_map, value_revision]

/-- Each node is visited once, before its children and in their order, and the tree is relabelled. -/
theorem reviseM_eq_forM {visit : Expr → m Unit} {ask : Expr → m (Revision Expr)}
    (hask : ∀ e, ask e = do visit e; pure (f.answer e)) {e : Expr} {depth : Nat}
    (h : e.height ≤ depth) :
    Expr.reviseM ask depth e = (do forM e.nodes visit; pure (f.revision e)) := by
  induction depth generalizing e with
  | zero => exact absurd h (Nat.not_le.mpr e.height_pos)
  | succ depth ih =>
    have hchildren := Expr.height_le_succ_iff.mp h
    cases e with
    | leaf l a =>
      obtain ⟨l', a', hf⟩ := f.exists_leaf l a
      have hvalue : (f.answer (.leaf l a)).value (.leaf l a) = .leaf l' a' := hf
      have hnode := f.revision_eq (.leaf l a) .kept rfl (by rw [tree]; rfl)
      simp [Expr.reviseM, hask, hvalue, hnode, Expr.nodes_leaf]
    | unary l suffix e =>
      obtain ⟨l', hf⟩ := f.exists_unary l suffix
      have hvalue : (f.answer (.unary l suffix e)).value (.unary l suffix e) = _ := hf e
      have he := ih (hchildren e (by simp [Expr.childRows]))
      have hnode := f.revision_eq (.unary l suffix e) ((f.revision e).map (.unary l' suffix))
        (by simp [Revision.isChanged_map, Expr.childRows])
        (by rw [hf, Revision.value_map, value_revision, tree, hf]; rfl)
      simp [Expr.reviseM, hask, hvalue, he, hnode, Expr.nodes_unary]
    | binary l a b =>
      obtain ⟨l', hf⟩ := f.exists_binary l
      have hvalue : (f.answer (.binary l a b)).value (.binary l a b) = _ := hf a b
      have ha := ih (hchildren a (by simp [Expr.childRows]))
      have hb := ih (hchildren b (by simp [Expr.childRows]))
      have hnode := f.revision_eq (.binary l a b)
        (Revision.map₂ (.binary l') a b (f.revision a) (f.revision b))
        (by simp [Revision.isChanged_map₂, Expr.childRows])
        (by rw [hf, Revision.value_map₂, value_revision, value_revision, tree, hf]; rfl)
      simp [Expr.reviseM, hask, hvalue, ha, hb, hnode, Expr.nodes_binary, List.forM_append]
    | call l as =>
      obtain ⟨l', hf⟩ := f.exists_call l
      have hvalue : (f.answer (.call l as)).value (.call l as) = _ := hf as
      have has := f.list_eq_forM fun a (ha : a ∈ as) =>
        ih (hchildren a (by simpa [Expr.childRows] using ha))
      have hnode := f.revision_eq (.call l as)
        ((Revision.ofList as (as.map f.revision)).map (.call l'))
        (by simp [Revision.isChanged_map, Revision.isChanged_ofList, Expr.childRows,
          Function.comp_def])
        (by rw [hf, Revision.value_map, value_ofList_revision, tree_call, hf]; rfl)
      simp [Expr.reviseM, hask, hvalue, has, hnode, Expr.nodes_call]
    | array l rs =>
      obtain ⟨l', hf⟩ := f.exists_array l
      have hvalue : (f.answer (.array l rs)).value (.array l rs) = _ := hf rs
      have hrows := mapM_eq_forM_flatMap fun r (hr : r ∈ rs) =>
        f.list_eq_forM fun e (he : e ∈ r) => ih (hchildren e (List.mem_flatten_of_mem hr he))
      let revised := rs.map fun r => Revision.ofList r (r.map f.revision)
      have hvalues : (Revision.ofList rs revised).value rs = rs.map (List.map f.tree) := by
        simp only [revised, Revision.value_ofList, Revision.values_map, value_revision]
      have hnode := f.revision_eq (.array l rs) ((Revision.ofList rs revised).map (.array l'))
        (by simp [revised, Revision.isChanged_map, Revision.isChanged_ofList, Expr.childRows,
          Function.comp_def, List.any_flatten])
        (by rw [hf, Revision.value_map, hvalues, tree_array, hf]; rfl)
      simp [Expr.reviseM, hask, hvalue, Revision.rows_eq, hrows, hnode, revised, Expr.nodes_array]

theorem forM_ite_eq_forM_filter {α : Type} (p : α → Prop) [DecidablePred p] (visit : α → m Unit)
    (as : List α) :
    forM as (fun a => if p a then visit a else pure ()) = forM (as.filter (p ·)) visit := by
  induction as with
  | nil => rfl
  | cons a as ih => by_cases ha : p a <;> simp [ha, ih]

/-- Asked for the nodes of one kind alone, a relabelling visits and changes no others. -/
theorem reviseM_onKind (kind : Kind) {visit : Expr → m Unit} {ask : Expr → m (Revision Expr)}
    (hask : ∀ e, ask e = do visit e; pure (f.answer e)) {e : Expr} {depth : Nat}
    (h : e.height ≤ depth) :
    Expr.reviseM (Expr.onKind kind ask) depth e =
      (do forM (e.nodes.filter (·.kind = kind)) visit; pure ((f.onKind kind).revision e)) := by
  have hkind (e : Expr) : Expr.onKind kind ask e =
      (do (if e.kind = kind then visit e else pure ()); pure ((f.onKind kind).answer e)) := by
    by_cases he : e.kind = kind <;> simp [Expr.onKind, Relabelling.onKind, he, hask]
  rw [reviseM_eq_forM _ hkind h, forM_ite_eq_forM_filter]

/-- Without effects the transformation is the relabelled tree. -/
theorem transform_eq_tree {e : Expr} {depth : Nat} (h : e.height ≤ depth) :
    Expr.transform f.answer depth e = f.tree e := by
  let visit (_ : Expr) : Id Unit := pure ()
  have hask (e : Expr) : (pure (f.answer e) : Id (Revision Expr)) =
      (do visit e; pure (f.answer e)) := rfl
  rw [Expr.transform, f.reviseM_eq_forM hask h]
  exact f.value_revision e

end Transform

end Relabelling

/-- The transformation of a tree by a relabelling, to a depth that reaches its leaves. Each node is visited
once, in the order of the nodes. The tree is kept as the very tree it was exactly if none of its nodes is
replaced. The nodes of the result stand in the same order and shape, each with the new label of its node.
If all nodes are kept, the tree is, and two changes one after the other are both at once. Restricted to
one kind, only the nodes of that kind are visited and relabelled. Whatever the answers are, the tree after
the transformation is the one that comes of building every node anew. -/
theorem Expr.transform_relabelling (f g : Relabelling) (kind : Kind) {m : Type → Type} [Monad m]
    [LawfulMonad m] (visit : Expr → m Unit) {t : Expr} {depth : Nat} (h : t.height ≤ depth) :
    reviseM (fun e => do visit e; pure (f.answer e)) depth t =
        (do forM t.nodes visit
            pure (if t.nodes.any fun n => (f.answer n).isChanged then
              .changed (transform f.answer depth t) else .kept)) ∧
      List.Forall₂ (fun n n' => n'.head = (f n).head ∧
          n'.childRows.map List.length = n.childRows.map List.length)
        t.nodes (transform f.answer depth t).nodes ∧
      reviseM (fun e => do visit e; pure .kept) depth t = (do forM t.nodes visit; pure .kept) ∧
      transform g.answer depth (transform f.answer depth t) =
        transform (fun e => (f.answer e).andThen e g.answer) depth t ∧
      reviseM (Expr.onKind kind fun e => do visit e; pure (f.answer e)) depth t =
        (do forM (t.nodes.filter (·.kind = kind)) visit
            pure (if (t.nodes.filter (·.kind = kind)).any fun n => (f.answer n).isChanged then
              .changed (transform (fun e => if e.kind = kind then f.answer e else .kept) depth t)
              else .kept)) ∧
      ∀ ask : Expr → m (Revision Expr), Revision.value t <$> reviseM ask depth t =
        rebuildM (fun e => Revision.value e <$> ask e) depth t := by
  have htree := f.transform_eq_tree h
  refine ⟨?_, ?_, ?_, ?_, ?_, fun ask => value_reviseM ask depth t⟩
  · rw [htree]
    exact f.reviseM_eq_forM (fun _ => rfl) h
  · rw [htree, f.nodes_tree, List.forall₂_map_right_iff]
    refine List.forall₂_same.mpr fun n _ => ⟨f.head_tree n, ?_⟩
    rw [f.childRows_tree, List.map_map]
    simp
  · have hkept : Relabelling.refl.revision t = .kept := by
      simp [Relabelling.revision, Relabelling.refl, Revision.isChanged]
    have hask (e : Expr) : (do visit e; pure .kept : m (Revision Expr)) =
        (do visit e; pure (Relabelling.refl.answer e)) := rfl
    have hvisits := Relabelling.refl.reviseM_eq_forM hask h
    rwa [hkept] at hvisits
  · rw [htree, g.transform_eq_tree ((f.height_tree_le_iff t depth).mpr h), ← f.tree_trans g]
    exact ((f.trans g).transform_eq_tree h).symm
  · have hany : (t.nodes.any fun n => ((f.onKind kind).answer n).isChanged) =
        (t.nodes.filter (·.kind = kind)).any fun n => (f.answer n).isChanged := by
      rw [List.any_filter]
      refine congrArg t.nodes.any (funext fun n => ?_)
      by_cases hn : n.kind = kind <;> simp [Relabelling.onKind, hn, Revision.isChanged]
    rw [f.reviseM_onKind kind (fun _ => rfl) h, Relabelling.revision, hany,
      ← (f.onKind kind).transform_eq_tree h]
    rfl

/-- Of the references in a call over an array with rows of one cell: they are seen in order, and each gets
its sheet. -/
theorem Expr.transform_relabelling_of_call :
    let label (text : String) : Label := ⟨text, false, ⟨0, 0⟩⟩
    let t : Expr := .call (label "SUM") [.leaf (label "A1") .reference,
      .array (label "") [[.leaf (label "") (.boolean true)], [.leaf (label "B2") .reference]]]
    let f := Relabelling.retext ("Data!" ++ ·)
    let visit (e : Expr) : StateM (List String) Unit := modify (· ++ [e.text])
    let new := transform (fun e => if e.kind = .reference then f.answer e else .kept) 3 t
    t.height ≤ 3 ∧
      (reviseM (Expr.onKind .reference fun e => do visit e; pure (f.answer e)) 3 t).run [] =
        (.changed new, ["A1", "B2"]) ∧
      new.toFormula = "SUM(Data!A1,\x7bTRUE;Data!B2\x7d)" := by
  intro label t f visit new
  have hheight : t.height ≤ 3 := by decide
  obtain ⟨-, -, -, -, hkind, -⟩ := transform_relabelling f f .reference visit hheight
  refine ⟨hheight, ?_, by decide +kernel⟩
  rw [hkind]
  rfl

end SheetFormula
