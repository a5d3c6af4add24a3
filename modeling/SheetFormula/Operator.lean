/-!
Operators of formulas, known by their text: how tightly each binds, and which may stand before or after
its operand.
-/

set_option autoImplicit false

namespace SheetFormula.Operator

/-- How tightly an operator binds; zero for a text that is no operator of expressions. -/
def priority (op : String) : Nat :=
  match op with
  | "%" => 40
  | "^" => 30
  | "*" => 20
  | "/" => 20
  | "+" => 15
  | "-" => 15
  | "&" => 13
  | ">" => 10
  | "<>" => 10
  | ">=" => 10
  | "<" => 10
  | "<=" => 10
  | "=" => 10
  | _ => 0

/-- How tightly a sign binds to its operand. -/
def signPriority : Nat := 15

/-- The priority of what is no operation: it holds together in any place. -/
def atomPriority : Nat := 1000

/-- May be written before its operand. -/
def isSign (op : String) : Bool :=
  op == "+" || op == "-"

/-- Is written after its operand. -/
def isSuffix (op : String) : Bool :=
  op == "%"

/-- A chain of this operator means the same however it is grouped. -/
def isAssociative (op : String) : Bool :=
  op == "*" || op == "+" || op == "&"

end SheetFormula.Operator
