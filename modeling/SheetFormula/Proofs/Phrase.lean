import SheetFormula.Proofs.Recast

/-!
Formulas as they are written: trees with their parentheses. A phrase is proper where each of its
operators takes the operands that the tree gives it. All places are zero.
-/

set_option autoImplicit false

namespace SheetFormula

/-- A tree with its parentheses. An argument that is left out is a phrase of its own. -/
inductive Phrase where
  | leaf (text : String) (atom : Atom)
  | omitted
  | group (inner : Phrase)
  | marked (operand : Phrase)
  | sign (op : String) (operand : Phrase)
  | suffix (op : String) (operand : Phrase)
  | operation (op : String) (left right : Phrase)
  | call (function : String) (arguments : List Phrase)
  | array (rows : List (List Phrase))

/-- A label with nothing but a text. -/
def Label.bare (text : String) : Label :=
  ⟨text, false, ⟨0, 0⟩⟩

theorem Operator.priority_lt {op : String} (h : isSuffix op = false) :
    priority op < priority "%" := by
  unfold priority
  split
  · cases h
  all_goals decide

theorem Operator.priority_pos_of_isSign {op : String} (h : isSign op = true) : 0 < priority op := by
  simp only [isSign, Bool.or_eq_true, beq_iff_eq] at h
  rcases h with rfl | rfl <;> decide

theorem Operator.priority_pos_of_isSuffix {op : String} (h : isSuffix op = true) :
    0 < priority op := by
  obtain rfl : op = "%" := by simpa [isSuffix] using h
  decide

namespace Terminal

/-- A terminal that is an operand by itself. -/
def atom (text : String) (a : Atom) : Terminal :=
  ⟨.operand (.leaf (.bare text) a), "", 0⟩

def comma : Terminal := ⟨.argSeparator, ",", 0⟩

def semicolon : Terminal := ⟨.rowSeparator, ";", 0⟩

def opening : Terminal := ⟨.leftParen, "(", 0⟩

def closing : Terminal := ⟨.rightParen, ")", 0⟩

def openingBrace : Terminal := ⟨.leftBrace, "\x7b", 0⟩

def closingBrace : Terminal := ⟨.rightBrace, "\x7d", 0⟩

def question : Terminal := ⟨.marker, "?", 0⟩

end Terminal

namespace Phrase

mutual

/-- The tree of a phrase. -/
def tree : Phrase → Expr
  | .leaf text atom => .leaf (.bare text) atom
  | .omitted => .leaf (.bare "") .empty
  | .group d => tree d
  | .marked d => (tree d).marked 0
  | .sign op d => .unary (.bare op) false (tree d)
  | .suffix op d => .unary (.bare op) true (tree d)
  | .operation op a b => .binary (.bare op) (tree a) (tree b)
  | .call function as => .call (.bare function) (trees as)
  | .array rs => .array (.bare "") (treeRows rs)

def trees : List Phrase → List Expr
  | [] => []
  | d :: ds => tree d :: trees ds

def treeRows : List (List Phrase) → List (List Expr)
  | [] => []
  | r :: rs => trees r :: treeRows rs

end

mutual

/-- The terminals of a phrase, in order. -/
def yield : Phrase → List Terminal
  | .leaf text a => [.atom text a]
  | .omitted => []
  | .group d => .opening :: (yield d ++ [.closing])
  | .marked d => .question :: yield d
  | .sign op d => ⟨.operator, op, 0⟩ :: yield d
  | .suffix op d => yield d ++ [⟨.operator, op, 0⟩]
  | .operation op a b => yield a ++ ⟨.operator, op, 0⟩ :: yield b
  | .call function as => ⟨.callStart, function, 0⟩ :: ([.comma].intercalate (yields as) ++ [.closing])
  | .array rs =>
    .openingBrace :: ([.semicolon].intercalate (yieldRows rs) ++ [.closingBrace])

def yields : List Phrase → List (List Terminal)
  | [] => []
  | d :: ds => yield d :: yields ds

def yieldRows : List (List Phrase) → List (List Terminal)
  | [] => []
  | r :: rs => [.comma].intercalate (yields r) :: yieldRows rs

end

theorem trees_eq_map (ds : List Phrase) : trees ds = ds.map tree := by
  induction ds with
  | nil => rfl
  | cons d ds ih => rw [trees, ih, List.map_cons]

theorem treeRows_eq_map (rs : List (List Phrase)) : treeRows rs = rs.map (List.map tree) := by
  induction rs with
  | nil => rfl
  | cons r rs ih => rw [treeRows, ih, trees_eq_map, List.map_cons]

theorem yields_eq_map (ds : List Phrase) : yields ds = ds.map yield := by
  induction ds with
  | nil => rfl
  | cons d ds ih => rw [yields, ih, List.map_cons]

theorem yieldRows_eq_map (rs : List (List Phrase)) :
    yieldRows rs = rs.map fun r => [.comma].intercalate (r.map yield) := by
  induction rs with
  | nil => rfl
  | cons r rs ih => rw [yieldRows, ih, yields_eq_map, List.map_cons]

@[simp] theorem span_tree (d : Phrase) : d.tree.span = ⟨0, 0⟩ := by
  cases d with
  | group d => exact span_tree d
  | marked d =>
    rw [tree, Expr.marked, span_tree d]
    cases d.tree <;> rfl
  | _ => rfl

/-! ### Proper phrases -/

/-- The operators that follow the phrase's first operand bind more tightly than `bound`. -/
def StaysAbove (bound : Nat) : Phrase → Prop
  | .suffix op d => bound < Operator.priority op ∧ d.StaysAbove bound
  | .operation op a _ => bound < Operator.priority op ∧ a.StaysAbove bound
  | _ => True

/-- The operations that the phrase ends in bind at least as tightly as `next`. -/
def EndsBefore (next : Nat) : Phrase → Prop
  | .marked d => next ≤ Operator.atomPriority ∧ d.EndsBefore next
  | .sign _ d => next ≤ Operator.signPriority ∧ d.EndsBefore next
  | .operation op _ b => next ≤ Operator.priority op ∧ b.EndsBefore next
  | _ => True

/-- Every operator of the phrase takes the operands that it has in the tree. -/
inductive Proper : Phrase → Prop
  | leaf (text : String) (atom : Atom) : Proper (.leaf text atom)
  | group {d : Phrase} (inner : Proper d) : Proper (.group d)
  | marked {d : Phrase} (operand : Proper d) (above : d.StaysAbove Operator.atomPriority) :
    Proper (.marked d)
  | sign {op : String} {d : Phrase} (sign : Operator.isSign op = true) (operand : Proper d)
    (above : d.StaysAbove Operator.signPriority) : Proper (.sign op d)
  | suffix {op : String} {d : Phrase} (suffix : Operator.isSuffix op = true) (operand : Proper d)
    (before : d.EndsBefore (Operator.priority op)) : Proper (.suffix op d)
  | operation {op : String} {a b : Phrase} (binds : 0 < Operator.priority op)
    (binary : Operator.isSuffix op = false) (left : Proper a) (right : Proper b)
    (before : a.EndsBefore (Operator.priority op)) (above : b.StaysAbove (Operator.priority op)) :
    Proper (.operation op a b)
  | call {function : String} {as : List Phrase} (arguments : ∀ a ∈ as, a ≠ .omitted → Proper a)
    (single : as ≠ [.omitted]) : Proper (.call function as)
  | array {rs : List (List Phrase)} (some : rs ≠ []) (rows : ∀ r ∈ rs, r ≠ [])
    (cells : ∀ r ∈ rs, ∀ c ∈ r, Proper c) : Proper (.array rs)

theorem endsBefore_zero (d : Phrase) : d.EndsBefore 0 := by
  cases d with
  | marked d => exact ⟨Nat.zero_le _, endsBefore_zero d⟩
  | sign op d => exact ⟨Nat.zero_le _, endsBefore_zero d⟩
  | operation op a b => exact ⟨Nat.zero_le _, endsBefore_zero b⟩
  | _ => trivial

theorem Proper.staysAbove_zero {d : Phrase} (h : d.Proper) : d.StaysAbove 0 := by
  induction h with
  | suffix suffix operand before ih => exact ⟨Operator.priority_pos_of_isSuffix suffix, ih⟩
  | operation binds binary left right before above ihleft ihright => exact ⟨binds, ihleft⟩
  | _ => trivial

/-- If the phrase is an operation, its operator has the property. -/
def RootOperator (p : String → Prop) : Phrase → Prop
  | .operation op _ _ => p op
  | _ => True

theorem RootOperator.imp {r : Phrase} {p q : String → Prop} (h : r.RootOperator p)
    (hpq : ∀ op, p op → q op) : r.RootOperator q := by
  cases r with
  | operation op b c => exact hpq op h
  | _ => trivial

theorem EndsBefore.rootOperator {r : Phrase} {next : Nat} (h : r.EndsBefore next) :
    r.RootOperator fun op => next ≤ Operator.priority op := by
  cases r with
  | operation op b c => exact h.1
  | _ => trivial

/-- Where the loosest operator of a phrase is its root, all of it stays above what the root does. -/
theorem Proper.staysAbove {r : Phrase} (h : r.Proper) {bound : Nat}
    (hbound : bound < Operator.priority "%")
    (hroot : r.RootOperator fun op => bound < Operator.priority op) : r.StaysAbove bound := by
  induction h with
  | @suffix op d suffix operand before ih =>
    obtain rfl : op = "%" := by simpa [Operator.isSuffix] using suffix
    exact ⟨hbound, ih (before.rootOperator.imp fun op hop => Nat.lt_of_lt_of_le hbound hop)⟩
  | operation binds binary left right before above ihleft ihright =>
    exact ⟨hroot, ihleft (before.rootOperator.imp fun op hop => Nat.lt_of_lt_of_le hroot hop)⟩
  | _ => trivial

/-- A proper phrase begins where an operand is awaited. -/
theorem Proper.exists_cons {d : Phrase} (h : d.Proper) :
    ∃ t ts, d.yield = t :: ts ∧ t.role ≠ .argSeparator ∧ t.role ≠ .rightParen := by
  induction h with
  | suffix suffix operand before ih =>
    obtain ⟨t, ts, hyield, hrole⟩ := ih
    exact ⟨t, ts ++ [_], by rw [yield, hyield]; rfl, hrole⟩
  | operation binds binary left right before above ihleft ihright =>
    obtain ⟨t, ts, hyield, hrole⟩ := ihleft
    exact ⟨t, ts ++ _ :: _, by rw [yield, hyield]; rfl, hrole⟩
  | _ =>
    rw [yield]
    exact ⟨_, _, rfl, nofun, nofun⟩

end Phrase

end SheetFormula
