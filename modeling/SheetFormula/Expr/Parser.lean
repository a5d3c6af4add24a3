import SheetFormula.Expr.Terminal
import SheetFormula.Fault
import SheetFormula.Token.Range

/-!
Reading a formula. The parser goes through the terminals once, from left to right, and keeps the
constructs that are still open on a stack. A finished operand closes every operation on the stack that
binds at least as tightly as what follows. The number of open constructs is the depth of nesting, which
can be limited.
-/

set_option autoImplicit false

namespace SheetFormula

namespace Parser

/-- A construct that waits for an operand. -/
inductive Frame where
  | marker (index : Nat)
  | sign (op : String) (index : Nat)
  | operation (op : String) (left : Expr)
  | group
  | call (name : String) (index : Nat) (arguments : List Expr)
  | array (index : Nat) (rows : List (List Expr)) (row : List Expr)
deriving Repr, Inhabited

/-- What the parser waits for, and the open constructs, the innermost first. -/
inductive Stage where
  | operand (frames : List Frame)
  | argument (name : String) (index : Nat) (arguments : List Expr) (frames : List Frame)
  | operator (left : Expr) (frames : List Frame)
deriving Repr, Inhabited

/-- An operator leaves this construct's operand alone only if it binds more tightly. -/
def Frame.priority : Frame → Nat
  | .marker _ => Operator.atomPriority
  | .sign _ _ => Operator.signPriority
  | .operation op _ => Operator.priority op
  | _ => 0

/-- Closes each operation that binds at least as tightly as `next`. -/
def close (next : Nat) (operand : Expr) : List Frame → Expr × List Frame
  | [] => (operand, [])
  | frame :: frames =>
    if frame.priority < next then (operand, frame :: frames)
    else match frame with
      | .marker index => close next (operand.marked index) frames
      | .sign op index =>
        close next (.unary ⟨op, false, ⟨index, operand.span.stop⟩⟩ false operand) frames
      | .operation op left =>
        close next (.binary ⟨op, false, ⟨left.span.start, operand.span.stop⟩⟩ left operand) frames
      | _ => (operand, frame :: frames)

/-- The nesting of an operand with these constructs open is beyond the limit, if there is one. -/
def tooDeep (limit : Option Nat) (frames : List Frame) : Bool :=
  limit.any fun most => decide (most < frames.length + 1)

/-- A finished call. -/
def finishCall (name : String) (index : Nat) (arguments : List Expr) (stop : Nat) : Expr :=
  .call ⟨name, false, ⟨index, stop⟩⟩ arguments

/-- An argument that was left out before the token at `index`. -/
def omitted (index : Nat) : Expr :=
  Terminal.leaf "" .empty index index

/-- Where an operand starts. -/
def startOperand (limit : Option Nat) (frames : List Frame) (t : Terminal) : Except Reason Stage :=
  if tooDeep limit frames then .error .tooDeep
  else match t.role with
    | .operand leaf => .ok (.operator leaf frames)
    | .unreadable => .error (.unreadableNumber t.text)
    | .callStart => .ok (.argument t.text t.index [] frames)
    | .marker => .ok (.operand (.marker t.index :: frames))
    | .leftParen => .ok (.operand (.group :: frames))
    | .leftBrace => .ok (.operand (.array t.index [] [] :: frames))
    | .operator =>
      if Operator.isSign t.text then .ok (.operand (.sign t.text t.index :: frames))
      else .error (.unexpectedToken t.text)
    | _ => .error (.unexpectedToken t.text)

/-- Where an argument starts or is left out. -/
def startArgument (limit : Option Nat) (name : String) (index : Nat) (arguments : List Expr)
    (frames : List Frame) (t : Terminal) : Except Reason Stage :=
  match t.role with
  | .argSeparator => .ok (.argument name index (arguments ++ [omitted t.index]) frames)
  | .rightParen =>
    let arguments := if arguments.isEmpty then [] else arguments ++ [omitted t.index]
    .ok (.operator (finishCall name index arguments t.index) frames)
  | _ => startOperand limit (.call name index arguments :: frames) t

/-- What the innermost bracket does with a finished operand and the terminal after it. -/
def continueBracket (operand : Expr) (frames : List Frame) (t : Terminal) : Except Reason Stage :=
  match frames with
  | .group :: frames =>
    match t.role with
    | .rightParen => .ok (.operator operand frames)
    | _ => .error .unclosedGroup
  | .call name index arguments :: frames =>
    match t.role with
    | .argSeparator => .ok (.argument name index (arguments ++ [operand]) frames)
    | .rightParen => .ok (.operator (finishCall name index (arguments ++ [operand]) t.index) frames)
    | _ => .error .unclosedCall
  | .array index rows row :: frames =>
    match t.role with
    | .argSeparator => .ok (.operand (.array index rows (row ++ [operand]) :: frames))
    | .rowSeparator => .ok (.operand (.array index (rows ++ [row ++ [operand]]) [] :: frames))
    | .rightBrace =>
      .ok (.operator (.array ⟨"", false, ⟨index, t.index⟩⟩ (rows ++ [row ++ [operand]])) frames)
    | _ => .error .unclosedArray
  | _ => .error (.unexpectedToken t.text)

/-- How tightly a terminal binds as an operator, zero if it is none. -/
def bindingOf (t : Terminal) : Nat :=
  match t.role with
  | .operator => Operator.priority t.text
  | _ => 0

/-- What follows a finished operand. -/
def continueOperand (left : Expr) (frames : List Frame) (t : Terminal) : Except Reason Stage :=
  let next := bindingOf t
  let (operand, frames) := close next left frames
  if next = 0 then continueBracket operand frames t
  else if Operator.isSuffix t.text then
    .ok (.operator (.unary ⟨t.text, false, ⟨operand.span.start, t.index⟩⟩ true operand) frames)
  else .ok (.operand (.operation t.text operand :: frames))

/-- Takes one terminal. -/
def step (limit : Option Nat) (t : Terminal) : Stage → Except Reason Stage
  | .operand frames => startOperand limit frames t
  | .argument name index arguments frames => startArgument limit name index arguments frames t
  | .operator left frames => continueOperand left frames t

/-- Takes the end of the formula. -/
def finish (limit : Option Nat) : Stage → Except Reason Expr
  | .operand frames => .error (if tooDeep limit frames then .tooDeep else .unexpectedEnd)
  | .argument name index arguments frames =>
    .error (if tooDeep limit (.call name index arguments :: frames) then .tooDeep else .unexpectedEnd)
  | .operator left frames =>
    match close 0 left frames with
    | (root, []) => .ok root
    | (_, .call .. :: _) => .error .unclosedCall
    | (_, .array .. :: _) => .error .unclosedArray
    | (_, _ :: _) => .error .unclosedGroup

/-- Takes all terminals. A fault names the terminal at which it shows, the end of the formula having the
index `stop` and no text. -/
def run (limit : Option Nat) (stop : Nat) : Stage → List Terminal → Except Fault Expr
  | stage, [] =>
    match finish limit stage with
    | .ok root => .ok root
    | .error reason => .error (.bad reason stop "")
  | stage, t :: rest =>
    match step limit t stage with
    | .ok stage => run limit stop stage rest
    | .error reason => .error (.bad reason t.index t.text)

/-- An equals sign may stand in front of a formula. -/
def dropEquals : List Terminal → List Terminal
  | t :: rest =>
    match t.role with
    | .operator => if t.text = "=" then rest else t :: rest
    | _ => t :: rest
  | [] => []

end Parser

/-- How formulas are read. -/
structure Reading where
  locale : Locale := .canonical
  /-- The greatest depth of nesting, if there is one. -/
  limit : Option Nat := some 256
deriving DecidableEq, Repr

namespace Expr

/-- Reads a list of tokens. -/
def ofTokens (reading : Reading) (tokens : List Token) : Except Fault Expr :=
  match Parser.dropEquals (Terminal.ofTokens reading.locale tokens) with
  | [] => .error (.bad .emptyExpression tokens.length "")
  | terminals => Parser.run reading.limit tokens.length (.operand []) terminals

/-- Reads the text of a formula. -/
def parse (reading : Reading) (formula : String) : Except Fault Expr :=
  ofTokens reading (Token.rangeTokenize reading.locale formula)

end Expr

end SheetFormula
