import SheetFormula.Grouping

/-!
Routines: what a formula computes, apart from its literals. Instructions ask for cells, ranges and named
values by their position in the formula, call functions and build arrays; each puts its value into a
slot of its own. Formulas that differ only in literals share a routine.
-/

set_option autoImplicit false

namespace SheetFormula

/-- A value that an instruction takes: a slot, a literal by its position, or a constant. -/
inductive Operand where
  | slot (index : Nat)
  | number (index : Nat)
  | string (index : Nat)
  | boolean (value : Bool)
  | empty
deriving DecidableEq, Repr, Inhabited

/-- One instruction, with the slot that it fills. A `bare` request wants the reference itself. -/
inductive Instruction where
  | cell (slot index : Nat) (bare : Bool)
  | range (slot index : Nat) (bare : Bool)
  | symbol (slot index : Nat)
  | call (slot : Nat) (name : String) (arguments : List Operand)
  | array (slot columns : Nat) (cells : List Operand)
  | debug
deriving DecidableEq, Repr, Inhabited

/-- Instructions and the operand that holds the result; `slots` of them are filled. -/
structure Routine where
  key : String
  code : List Instruction
  result : Operand
  slots : Nat
deriving DecidableEq, Repr, Inhabited

/-- The cells of an array row by row. -/
def rowsOf {α : Type} (columns : Nat) (cells : List α) : List (List α) :=
  (groups (columns - 1) cells).1

namespace Operand

/-- An operand as listings show it. -/
def text : Operand → String
  | .slot index => "_" ++ toString index
  | .number index => "NUMBER[" ++ toString index ++ "]"
  | .string index => "STRING[" ++ toString index ++ "]"
  | .boolean value => if value then "TRUE" else "FALSE"
  | .empty => "EMPTY"

/-- Operands with commas between them. -/
def listText (operands : List Operand) : String :=
  ", ".intercalate (operands.map text)

end Operand

namespace Instruction

private def assignment (slot : Nat) (value : String) : String :=
  "_" ++ toString slot ++ " = " ++ value

private def request (kind : String) (index : Nat) (bare : Bool) : String :=
  kind ++ "[" ++ toString index ++ "]" ++ if bare then " meta" else ""

/-- An instruction as listings show it. -/
def text : Instruction → String
  | .cell slot index bare => assignment slot (request "REF" index bare)
  | .range slot index bare => assignment slot (request "RANGE" index bare)
  | .symbol slot index => assignment slot (request "SYMBOL" index false)
  | .call slot name arguments =>
    assignment slot (name ++ "(" ++ Operand.listText arguments ++ ")")
  | .array slot columns cells =>
    assignment slot
      ("\x7b" ++ "; ".intercalate ((rowsOf columns cells).map Operand.listText) ++ "\x7d")
  | .debug => "DEBUG"

end Instruction

/-- The lines of a routine's listing. -/
def Routine.listing (r : Routine) : List String :=
  r.code.map Instruction.text ++ ["return " ++ r.result.text]

end SheetFormula
