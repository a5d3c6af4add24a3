import SheetFormula.Expr.Formula
import SheetFormula.Routine.Run

/-!
Trees of formulas as a whole. Induction over a tree gives a hypothesis for every argument of a call and
for every cell of an array. The contents of a tree are its leaves in the order of the formula, without
the arguments that were left out; the inputs of a run are taken from them.
-/

set_option autoImplicit false

namespace SheetFormula

/-- What the leaves of a tree may hold and which functions it may call. -/
structure Vocabulary where
  leaf : String → Atom → Prop
  function : String → Prop

/-- The vocabulary in which functions have names that can be called. -/
def Vocabulary.callable : Vocabulary where
  leaf _ _ := True
  function name := Literal.isFunctionName name = true

namespace Expr

/-- Induction with a hypothesis for each argument and each cell. -/
@[elab_as_elim, induction_eliminator]
theorem treeInduction {motive : Expr → Prop}
    (leaf : ∀ label atom, motive (.leaf label atom))
    (unary : ∀ label suffix operand, motive operand → motive (.unary label suffix operand))
    (binary : ∀ label left right, motive left → motive right → motive (.binary label left right))
    (call : ∀ label arguments, (∀ a ∈ arguments, motive a) → motive (.call label arguments))
    (array : ∀ label rows, (∀ r ∈ rows, ∀ c ∈ r, motive c) → motive (.array label rows))
    (e : Expr) : motive e :=
  @Expr.rec motive (fun es => ∀ e ∈ es, motive e) (fun rows => ∀ r ∈ rows, ∀ c ∈ r, motive c)
    leaf unary binary call array
    (List.forall_mem_nil _) (fun _ _ he hes => List.forall_mem_cons.mpr ⟨he, hes⟩)
    (List.forall_mem_nil _) (fun _ _ hr hrs => List.forall_mem_cons.mpr ⟨hr, hrs⟩) e

/-! ### All nodes -/

section Nodes

variable {p : Expr → Prop}

theorem nodes_leaf (l : Label) (a : Atom) : (leaf l a).nodes = [.leaf l a] := rfl

theorem nodes_unary (l : Label) (suffix : Bool) (e : Expr) :
    (unary l suffix e).nodes = .unary l suffix e :: e.nodes := rfl

theorem nodes_binary (l : Label) (a b : Expr) :
    (binary l a b).nodes = .binary l a b :: (a.nodes ++ b.nodes) := rfl

theorem nodesOfList_eq_flatMap (es : List Expr) : nodesOfList es = es.flatMap nodes := by
  induction es with
  | nil => rfl
  | cons e es ih =>
    rw [List.flatMap_cons, ← ih]
    rfl

theorem nodesOfRows_eq_flatMap (rs : List (List Expr)) :
    nodesOfRows rs = rs.flatMap fun r => r.flatMap nodes := by
  induction rs with
  | nil => rfl
  | cons r rs ih =>
    rw [List.flatMap_cons, ← ih, ← nodesOfList_eq_flatMap]
    rfl

theorem nodes_call (l : Label) (as : List Expr) :
    (call l as).nodes = .call l as :: as.flatMap nodes :=
  congrArg (List.cons _) (nodesOfList_eq_flatMap as)

theorem nodes_array (l : Label) (rs : List (List Expr)) :
    (array l rs).nodes = .array l rs :: rs.flatMap fun r => r.flatMap nodes :=
  congrArg (List.cons _) (nodesOfRows_eq_flatMap rs)

theorem forall_nodes_leaf (l : Label) (a : Atom) :
    (∀ n ∈ (leaf l a).nodes, p n) ↔ p (.leaf l a) := by
  simp [nodes_leaf]

theorem forall_nodes_unary (l : Label) (suffix : Bool) (e : Expr) :
    (∀ n ∈ (unary l suffix e).nodes, p n) ↔ p (.unary l suffix e) ∧ ∀ n ∈ e.nodes, p n := by
  simp [nodes_unary]

theorem forall_nodes_binary (l : Label) (a b : Expr) :
    (∀ n ∈ (binary l a b).nodes, p n) ↔
      p (.binary l a b) ∧ (∀ n ∈ a.nodes, p n) ∧ ∀ n ∈ b.nodes, p n := by
  simp [nodes_binary, or_imp, forall_and]

theorem forall_nodes_call (l : Label) (as : List Expr) :
    (∀ n ∈ (call l as).nodes, p n) ↔ p (.call l as) ∧ ∀ a ∈ as, ∀ n ∈ a.nodes, p n := by
  simp only [nodes_call, List.forall_mem_cons, List.mem_flatMap]
  exact and_congr_right fun _ => ⟨fun h a ha n hn => h n ⟨a, ha, hn⟩,
    fun h n ⟨a, ha, hn⟩ => h a ha n hn⟩

theorem forall_nodes_array (l : Label) (rs : List (List Expr)) :
    (∀ n ∈ (array l rs).nodes, p n) ↔ p (.array l rs) ∧ ∀ r ∈ rs, ∀ c ∈ r, ∀ n ∈ c.nodes, p n := by
  simp only [nodes_array, List.forall_mem_cons, List.mem_flatMap]
  exact and_congr_right fun _ => ⟨fun h r hr c hc n hn => h n ⟨r, hr, c, hc, hn⟩,
    fun h n ⟨r, hr, c, hc, hn⟩ => h r hr c hc n hn⟩

end Nodes

/-! ### Contents -/

/-- What a leaf stands for: its text and its atom. An argument that was left out has no content. -/
def content? : Expr → Option (String × Atom)
  | .leaf _ .empty => none
  | .leaf l a => some (l.text, a)
  | _ => none

/-- The contents of the leaves in the order of the formula. -/
def contents (e : Expr) : List (String × Atom) :=
  e.nodes.filterMap content?

/-- The contents of several trees. -/
def contentsOf (es : List Expr) : List (String × Atom) :=
  es.flatMap contents

@[simp] theorem contentsOf_nil : contentsOf [] = [] := rfl

@[simp] theorem contentsOf_cons (e : Expr) (es : List Expr) :
    contentsOf (e :: es) = contents e ++ contentsOf es := List.flatMap_cons

@[simp] theorem contentsOf_append (es fs : List Expr) :
    contentsOf (es ++ fs) = contentsOf es ++ contentsOf fs := List.flatMap_append

@[simp] theorem contents_leaf (l : Label) (a : Atom) :
    contents (.leaf l a) = (content? (.leaf l a)).toList := by
  cases a <;> rfl

@[simp] theorem contents_unary (l : Label) (suffix : Bool) (e : Expr) :
    contents (.unary l suffix e) = contents e := by
  rw [contents, nodes_unary, List.filterMap_cons_none rfl, contents]

@[simp] theorem contents_binary (l : Label) (a b : Expr) :
    contents (.binary l a b) = contents a ++ contents b := by
  rw [contents, nodes_binary, List.filterMap_cons_none rfl, List.filterMap_append, contents,
    contents]

@[simp] theorem contents_call (l : Label) (as : List Expr) :
    contents (.call l as) = contentsOf as := by
  rw [contents, nodes_call, List.filterMap_cons_none rfl, List.filterMap_flatMap]
  rfl

@[simp] theorem contents_array (l : Label) (rs : List (List Expr)) :
    contents (.array l rs) = contentsOf rs.flatten := by
  rw [contents, nodes_array, List.filterMap_cons_none rfl]
  induction rs with
  | nil => rfl
  | cons r rs ih =>
    rw [List.flatMap_cons, List.filterMap_append, ih, List.filterMap_flatMap, List.flatten_cons,
      contentsOf_append]
    rfl

theorem debug_marked (e : Expr) (index : Int) : (e.marked index).debug = true := by
  cases e <;> rfl

@[simp] theorem contents_marked (e : Expr) (index : Int) :
    contents (e.marked index) = contents e := by
  cases e with
  | leaf l a => cases a <;> rfl
  | unary l s e => simp [marked, withLabel]
  | binary l a b => simp [marked, withLabel]
  | call l as => simp [marked, withLabel]
  | array l rs => simp [marked, withLabel]

/-! ### Well-formed trees -/

/-- An argument that was left out. -/
def isOmitted : Expr → Bool
  | .leaf _ .empty => true
  | _ => false

/-- The node is one that the grammar builds: operators where they may stand, arrays without gaps, and
leaves and calls with words of the vocabulary. -/
def Sound (V : Vocabulary) : Expr → Prop
  | .leaf l .empty => l.debug = false ∧ l.text = ""
  | .leaf l a => V.leaf l.text a
  | .unary l suffix e =>
    (if suffix then Operator.isSuffix l.text else Operator.isSign l.text) = true ∧
      e.isOmitted = false
  | .binary l a b =>
    0 < Operator.priority l.text ∧ Operator.isSuffix l.text = false ∧ a.isOmitted = false ∧
      b.isOmitted = false
  | .call l as => V.function l.text ∧ ∀ a, as = [a] → a.isOmitted = false
  | .array l rs => l.text = "" ∧ rs ≠ [] ∧ ∀ r ∈ rs, r ≠ [] ∧ ∀ c ∈ r, c.isOmitted = false

/-- Every node of the tree is one that the grammar builds. -/
def WellFormed (V : Vocabulary) (e : Expr) : Prop :=
  ∀ n ∈ e.nodes, n.Sound V

/-- A well-formed tree that can stand as an operand. -/
def IsOperand (V : Vocabulary) (e : Expr) : Prop :=
  e.WellFormed V ∧ e.isOmitted = false

variable {V : Vocabulary}

@[simp] theorem wellFormed_leaf (l : Label) (a : Atom) :
    WellFormed V (.leaf l a) ↔ Sound V (.leaf l a) :=
  forall_nodes_leaf l a

@[simp] theorem wellFormed_unary (l : Label) (suffix : Bool) (e : Expr) :
    WellFormed V (.unary l suffix e) ↔ Sound V (.unary l suffix e) ∧ WellFormed V e :=
  forall_nodes_unary l suffix e

@[simp] theorem wellFormed_binary (l : Label) (a b : Expr) :
    WellFormed V (.binary l a b) ↔
      Sound V (.binary l a b) ∧ WellFormed V a ∧ WellFormed V b :=
  forall_nodes_binary l a b

@[simp] theorem wellFormed_call (l : Label) (as : List Expr) :
    WellFormed V (.call l as) ↔ Sound V (.call l as) ∧ ∀ a ∈ as, WellFormed V a :=
  forall_nodes_call l as

@[simp] theorem wellFormed_array (l : Label) (rs : List (List Expr)) :
    WellFormed V (.array l rs) ↔
      Sound V (.array l rs) ∧ ∀ r ∈ rs, ∀ c ∈ r, WellFormed V c :=
  forall_nodes_array l rs

theorem IsOperand.marked {e : Expr} (h : e.IsOperand V) (index : Int) :
    (e.marked index).IsOperand V := by
  obtain ⟨hformed, homitted⟩ := h
  cases e with
  | leaf l a =>
    cases a with
    | empty => cases homitted
    | _ => exact ⟨by simpa [Expr.marked, withLabel, label, Sound] using hformed, rfl⟩
  | unary l s e => exact ⟨by simpa [Expr.marked, withLabel, label, Sound] using hformed, rfl⟩
  | binary l a b => exact ⟨by simpa [Expr.marked, withLabel, label, Sound] using hformed, rfl⟩
  | call l as => exact ⟨by simpa [Expr.marked, withLabel, label, Sound] using hformed, rfl⟩
  | array l rs => exact ⟨by simpa [Expr.marked, withLabel, label, Sound] using hformed, rfl⟩

end Expr

namespace Inputs

/-- The literals that leaves hold, each kind in order. -/
def ofContents (cs : List (String × Atom)) : Inputs where
  dependencies := cs.filterMap fun
    | (text, .reference) => some text
    | _ => none
  numbers := cs.filterMap fun
    | (_, .number value) => some value
    | _ => none
  strings := cs.filterMap fun
    | (text, .string) => some text
    | _ => none
  symbols := cs.filterMap fun
    | (text, .symbol) => some (Literal.unquote text)
    | _ => none

theorem ofContents_number (text : String) (value : Number) (cs : List (String × Atom)) :
    ofContents ((text, .number value) :: cs) =
      { ofContents cs with numbers := value :: (ofContents cs).numbers } := rfl

theorem ofContents_string (text : String) (cs : List (String × Atom)) :
    ofContents ((text, .string) :: cs) =
      { ofContents cs with strings := text :: (ofContents cs).strings } := rfl

theorem ofContents_reference (text : String) (cs : List (String × Atom)) :
    ofContents ((text, .reference) :: cs) =
      { ofContents cs with dependencies := text :: (ofContents cs).dependencies } := rfl

theorem ofContents_symbol (text : String) (cs : List (String × Atom)) :
    ofContents ((text, .symbol) :: cs) =
      { ofContents cs with symbols := Literal.unquote text :: (ofContents cs).symbols } := rfl

end Inputs

end SheetFormula
