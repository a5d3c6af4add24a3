import SheetFormula.Text.Quoted

/-!
Faults: why a formula is refused. A fault has a code, a reason with its wording, the index of the token
to blame and that token's text, and sometimes a cause by which callers tell it apart.
-/

set_option autoImplicit false

namespace SheetFormula

/-- The class of a fault, shown in the cell that holds the formula. -/
inductive Code where
  | badExpression
  | unknownFunction
  | invalidReference
  | custom (text : String)
deriving DecidableEq, Repr

namespace Code

def text : Code → String
  | .badExpression => "#BAD_EXPR"
  | .unknownFunction => "#NAME?"
  | .invalidReference => "#REF"
  | .custom text => text

/-- The code with a given text. -/
def ofText (text : String) : Code :=
  ([.badExpression, .unknownFunction, .invalidReference].find? (·.text == text)).getD (.custom text)

end Code

/-- Why a formula is refused. -/
inductive Reason where
  | emptyExpression
  | unexpectedRange
  | unexpectedEnd
  | unexpectedToken (text : String)
  | unexpectedOperator (op : String)
  | unexpectedNode (kind : String)
  | tooDeep
  | unreadableNumber (text : String)
  | unclosedCall
  | unclosedGroup
  | unclosedArray
  | raggedArray
  | unknownFunction (name : String)
  | noImplementation (name : String)
  | tooFewArguments (name : String) (least : Int) (given : Int)
  | tooManyArguments (name : String) (most : Int) (given : Int)
  | incompleteGroup (name : String) (start : Int) (size : Int)
  | notReference (argument : Nat) (name : String)
  | notRange (name : String) (argument : Nat) (given : String)
  | aborted (text : String)
  | custom (message : String)
deriving DecidableEq, Repr

namespace Reason

private def argumentCount (name : String) : String :=
  "Invalid number of arguments for the " ++ name ++ " function. Expected "

/-- The wording of a reason, with texts put in quotes by `quote`. -/
def messageBy (quote : String → String) : Reason → String
  | .emptyExpression => "Invalid formula: empty expression"
  | .unexpectedRange => "Invalid formula: unexpected range operator"
  | .unexpectedEnd => "Invalid formula: unexpected end of formula"
  | .unexpectedToken text => "Invalid formula: unexpected token " ++ quote text
  | .unexpectedOperator op => "Invalid formula: unexpected operator " ++ quote op
  | .unexpectedNode kind => "Invalid formula: unexpected " ++ kind
  | .tooDeep => "Invalid formula: expression is nested too deeply"
  | .unreadableNumber text => "Invalid number " ++ quote text
  | .unclosedCall => "Wrong function call: missing closing parenthesis"
  | .unclosedGroup => "Missing closing parenthesis"
  | .unclosedArray => "Missing closing brace"
  | .raggedArray => "Invalid array: all rows must have the same number of values"
  | .unknownFunction name => "Invalid formula: unknown function " ++ name
  | .noImplementation name => "Invalid formula: no implementation for " ++ name
  | .tooFewArguments name least given =>
    argumentCount name ++ toString least ++ " minimum, but got " ++ toString given ++ " instead."
  | .tooManyArguments name most given =>
    argumentCount name ++ toString most ++ " maximum, but got " ++ toString given ++ " instead."
  | .incompleteGroup name start size =>
    argumentCount name ++ "all arguments after position " ++ toString start ++
      " to be supplied by groups of " ++ toString size ++ " arguments"
  | .notReference argument name =>
    "Argument must be a reference to a cell or range (argument " ++ toString argument ++ " of " ++
      name ++ ")."
  | .notRange name argument given =>
    "Function " ++ name ++ " expects the parameter " ++ toString argument ++
      " to be reference to a cell or range, not a " ++ given ++ "."
  | .aborted text => "Invalid formula: " ++ text
  | .custom message => message

end Reason

/-- What lies behind a fault. A fault can also come from another one, known by its code and wording. -/
inductive Cause where
  | argumentCount
  | metaArgument
  | rangeArgument
  | fault (code : Code) (message : String)
  | plain (text : String)
deriving DecidableEq, Repr

namespace Cause

def text : Cause → String
  | .argumentCount => "invalid number of arguments"
  | .metaArgument => "argument must be a reference to a cell or range"
  | .rangeArgument => "argument must be a range"
  | .fault code message => code.text ++ ": " ++ message
  | .plain text => text

/-- The code of a cause that is itself a fault. -/
def code? : Cause → Option Code
  | .fault code _ => some code
  | _ => none

end Cause

/-- A refusal. The position is the index of a token, negative where no token is to blame. -/
structure Fault where
  code : Code
  reason : Reason
  position : Int
  token : String
  cause : Option Cause
deriving DecidableEq, Repr

namespace Fault

/-- A bad expression at a token. -/
def bad (reason : Reason) (position : Int) (token : String) : Fault :=
  ⟨.badExpression, reason, position, token, none⟩

/-- The full text of a fault, with texts put in quotes by `quote`. -/
def messageBy (quote : String → String) (f : Fault) : String :=
  let place := if 0 ≤ f.position then " at token " ++ toString f.position else ""
  f.code.text ++ place ++ ": " ++ f.reason.messageBy quote

/-- The full text of a fault. -/
def message (f : Fault) : String :=
  f.messageBy Text.quoted

def isBadExpression (f : Fault) : Bool :=
  f.code == .badExpression

/-- The fault comes from a wrong number of arguments. -/
def isArgumentCount (f : Fault) : Bool :=
  f.cause == some .argumentCount

end Fault

end SheetFormula
