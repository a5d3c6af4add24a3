import SheetFormula.Expr.Basic
import SheetFormula.Expr.Literal

/-!
The text of an expression in the canonical locale, with the fewest parentheses. The rules that decide on
parentheses look only at an operation and its operand; a marked operand is written apart and needs none.
-/

set_option autoImplicit false

namespace SheetFormula.Expr

/-- The right operand of a binary operation needs parentheses where it is an operation that binds less
tightly, or as tightly and the operator is not associative. -/
def rightNeedsParens (op : String) (right : Expr) : Bool :=
  match right with
  | .binary l _ _ =>
    !l.debug &&
      (Operator.priority l.text < Operator.priority op ||
        (Operator.priority l.text == Operator.priority op && !Operator.isAssociative op))
  | _ => false

/-- The text of the expression ends with the operand of a sign. -/
def endsInSign : Expr → Bool
  | .unary l suffix _ => !l.debug && !suffix
  | .binary l _ right => !l.debug && !rightNeedsParens l.text right && endsInSign right
  | _ => false

/-- The left operand needs parentheses where it binds less tightly, or where a sign at its end would
take the operator along. -/
def leftNeedsParens (op : String) (left : Expr) : Bool :=
  !left.debug && (left.kind == .binary || left.isSigned) &&
    (left.priority < Operator.priority op ||
      (Operator.signPriority < Operator.priority op && endsInSign left))

/-- The operand of a sign needs parentheses where it binds no more tightly than the sign. -/
def signedNeedsParens (operand : Expr) : Bool :=
  match operand with
  | .binary l _ _ => !l.debug && Operator.priority l.text ≤ Operator.signPriority
  | _ => false

/-- The operand of a suffix needs parentheses unless it is an atom or has a suffix itself. -/
def suffixedNeedsParens (operand : Expr) : Bool :=
  !operand.debug && (operand.kind == .binary || operand.isSigned)

/-- A text in parentheses where they are needed. -/
def parenthesize (needed : Bool) (text : String) : String :=
  if needed then "(" ++ text ++ ")" else text

/-- A text with the debugger's mark, if the node has one; an operation is kept together. -/
def markText (debug operation : Bool) (text : String) : String :=
  if debug then "?" ++ parenthesize operation text else text

/-- The text of a leaf. -/
def atomText (text : String) : Atom → String
  | .number value => Literal.numberText value
  | .string => Literal.quote text
  | .boolean value => Literal.booleanText value
  | .reference => text
  | .symbol => text
  | .empty => ""
  | .other _ => ""

mutual

/-- The text of an expression. -/
def toFormula : Expr → String
  | .leaf l a => markText l.debug false (atomText l.text a)
  | .unary l suffix e =>
    markText l.debug true
      (if suffix then parenthesize (suffixedNeedsParens e) (toFormula e) ++ l.text
       else l.text ++ parenthesize (signedNeedsParens e) (toFormula e))
  | .binary l a b =>
    markText l.debug true
      (parenthesize (leftNeedsParens l.text a) (toFormula a) ++ l.text ++
        parenthesize (rightNeedsParens l.text b) (toFormula b))
  | .call l as => markText l.debug false (l.text ++ "(" ++ ",".intercalate (formulas as) ++ ")")
  | .array l rs => markText l.debug false ("\x7b" ++ ";".intercalate (rowFormulas rs) ++ "\x7d")

/-- The texts of expressions. -/
def formulas : List Expr → List String
  | [] => []
  | e :: es => toFormula e :: formulas es

/-- The texts of the rows of an array. -/
def rowFormulas : List (List Expr) → List String
  | [] => []
  | r :: rs => ",".intercalate (formulas r) :: rowFormulas rs

end

end SheetFormula.Expr
