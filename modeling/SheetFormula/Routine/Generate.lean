import SheetFormula.Expr.Basic
import SheetFormula.Routine.Basic
import SheetFormula.Signature.Registry

/-!
From an expression to the code of its routine. Code for the operands stands before the code that uses
them, and literals are numbered in the order of the formula. Calls are checked against the registry on
the way, and the first fault ends the work.
-/

set_option autoImplicit false

namespace SheetFormula

namespace Generate

/-- How many slots are filled, and how many literals of each kind are used up. -/
structure Counters where
  slots : Nat := 0
  numbers : Nat := 0
  strings : Nat := 0
  dependencies : Nat := 0
  symbols : Nat := 0
deriving DecidableEq, Repr, Inhabited

/-- What the declaration of an argument asks of a reference in its place. -/
structure Context where
  bare : Bool := false
  asRange : Bool := false
deriving DecidableEq, Repr, Inhabited

/-- Code with the operand for its value and the counters after it. -/
structure Piece where
  code : List Instruction
  result : Operand
  counters : Counters
deriving DecidableEq, Repr

/-- Code for several values. -/
structure Pieces where
  code : List Instruction
  results : List Operand
  counters : Counters
deriving DecidableEq, Repr

/-- The function that stands for a binary operator. -/
def binaryName? (op : String) : Option String :=
  match op with
  | "+" => some "ADD"
  | "-" => some "MINUS"
  | "*" => some "MULTIPLY"
  | "/" => some "DIVIDE"
  | "^" => some "POWER"
  | "&" => some "CONCATENATE"
  | "=" => some "EQ"
  | "<>" => some "NE"
  | ">" => some "GT"
  | ">=" => some "GTE"
  | "<" => some "LT"
  | "<=" => some "LTE"
  | _ => none

/-- The function that stands for a unary operator. -/
def unaryName (op : String) : String :=
  match op with
  | "-" => "UMINUS"
  | "+" => "UPLUS"
  | "%" => "UNARY.PERCENT"
  | _ => ""

/-- Adds an instruction that fills the next slot. -/
def emit (code : List Instruction) (c : Counters) (instruction : Nat → Instruction) : Piece :=
  let slot := c.slots + 1
  ⟨code ++ [instruction slot], .slot slot, { c with slots := slot }⟩

/-- The code of a leaf. -/
def leaf (l : Label) (atom : Atom) (context : Context) (c : Counters) : Except Fault Piece :=
  match atom with
  | .boolean value => .ok ⟨[], .boolean value, c⟩
  | .number _ => .ok ⟨[], .number c.numbers, { c with numbers := c.numbers + 1 }⟩
  | .string => .ok ⟨[], .string c.strings, { c with strings := c.strings + 1 }⟩
  | .empty => .ok ⟨[], .empty, c⟩
  | .reference =>
    let index := c.dependencies
    let c := { c with dependencies := index + 1 }
    if context.asRange || Expr.namesRange l.text then
      .ok (emit [] c (.range · index context.bare))
    else .ok (emit [] c (.cell · index context.bare))
  | .symbol =>
    let index := c.symbols
    .ok (emit [] { c with symbols := index + 1 } (.symbol · index))
  | .other kind => .error (.bad (.unexpectedNode kind) l.span.start "")

/-- The word for a literal in complaints about it. -/
def literalName? : Expr → Option String
  | .leaf _ (.number _) => some "number"
  | .leaf _ .string => some "string"
  | .leaf _ (.boolean _) => some "boolean"
  | _ => none

/-- Checks an argument against its declaration. -/
def checkArgument (name : String) (position : Nat) (a : Argument) (e : Expr) : Except Fault Unit :=
  if a.isReference && e.kind != .reference then
    .error ⟨.badExpression, .notReference (position + 1) name, e.span.start, "", some .metaArgument⟩
  else match a.rangeOnly, literalName? e with
    | true, some given =>
      .error ⟨.badExpression, .notRange name (position + 1) given, e.span.start, "",
        some .rangeArgument⟩
    | _, _ => .ok ()

/-- What the declaration for a position of a call asks, after its check. A position without a declaration
is not checked. -/
def contextFor (name : String) (s : Signature) (target : Nat → Except String Target) (position : Nat)
    (e : Expr) : Except Fault Context :=
  match target position with
  | .error text => .error (.bad (.aborted text) (-1) "")
  | .ok t =>
    if t.known ∧ t.index < s.arguments.length then
      match s.arguments[t.index.toNat]?, decide (0 ≤ t.index) with
      | some a, true => do
        checkArgument name position a e
        return ⟨a.isReference, a.acceptsRange⟩
      | _, _ =>
        let text := "runtime error: index out of range [" ++ toString t.index ++ "]"
        .error (.bad (.aborted text) (-1) "")
    else .ok {}

/-- The signature that a call asks for, and the rule that finds its declarations. -/
def resolve (registry : Registry) (targeting : Targeting) (l : Label) (count : Nat) :
    Except Fault (Signature × (Nat → Except String Target)) :=
  let name := Text.upper l.text
  match registry.get? name with
  | none => .error ⟨.unknownFunction, .unknownFunction name, l.span.start, l.text, none⟩
  | some s =>
    match s.checkCount count with
    | .error fault => .error { fault with position := l.span.start, token := l.text }
    | .ok () =>
      match targeting s count with
      | .error text => .error (.bad (.aborted text) (-1) "")
      | .ok target => .ok (s, target)

/-- Puts the debugger's instruction before the code of a marked node. -/
def announce (l : Label) (p : Piece) : Piece :=
  if l.debug then { p with code := .debug :: p.code } else p

mutual

/-- The code of an expression; a marked one is announced first. -/
def expr (registry : Registry) (targeting : Targeting) (context : Context)
    (c : Counters) : Expr → Except Fault Piece
  | .leaf l a => do
    let p ← leaf l a context c
    return announce l p
  | .unary l _ e => do
    let p ← expr registry targeting {} c e
    return announce l (emit p.code p.counters (.call · (unaryName l.text) [p.result]))
  | .binary l a b =>
    match binaryName? l.text with
    | none => .error (.bad (.unexpectedOperator l.text) l.span.start "")
    | some name => do
      let p ← expr registry targeting {} c a
      let q ← expr registry targeting {} p.counters b
      return announce l (emit (p.code ++ q.code) q.counters (.call · name [p.result, q.result]))
  | .call l as => do
    let (s, target) ← resolve registry targeting l as.length
    let ps ← arguments registry targeting (Text.upper l.text) s target 0 c as
    return announce l (emit ps.code ps.counters (.call · (Text.upper l.text) ps.results))
  | .array l rs => do
    let columns := (rs.headD []).length
    let ps ← rows registry targeting l columns c rs
    return announce l (emit ps.code ps.counters (.array · columns ps.results))

/-- The code of the arguments of a call of a function by name, from a position on. -/
def arguments (registry : Registry) (targeting : Targeting) (name : String) (s : Signature)
    (target : Nat → Except String Target) (position : Nat) (c : Counters) :
    List Expr → Except Fault Pieces
  | [] => .ok ⟨[], [], c⟩
  | e :: es => do
    let context ← contextFor name s target position e
    let p ← expr registry targeting context c e
    let ps ← arguments registry targeting name s target (position + 1) p.counters es
    return ⟨p.code ++ ps.code, p.result :: ps.results, ps.counters⟩

/-- The code of the cells of a row. -/
def cells (registry : Registry) (targeting : Targeting) (c : Counters) :
    List Expr → Except Fault Pieces
  | [] => .ok ⟨[], [], c⟩
  | e :: es => do
    let p ← expr registry targeting {} c e
    let ps ← cells registry targeting p.counters es
    return ⟨p.code ++ ps.code, p.result :: ps.results, ps.counters⟩

/-- The code of rows that must all have the same length. -/
def rows (registry : Registry) (targeting : Targeting) (l : Label) (columns : Nat)
    (c : Counters) : List (List Expr) → Except Fault Pieces
  | [] => .ok ⟨[], [], c⟩
  | r :: rs =>
    if r.length ≠ columns then .error (.bad .raggedArray l.span.start "")
    else do
      let ps ← cells registry targeting c r
      let qs ← rows registry targeting l columns ps.counters rs
      return ⟨ps.code ++ qs.code, ps.results ++ qs.results, qs.counters⟩

end

end Generate

/-- The routine of an expression under a key. -/
def Routine.ofExpr (registry : Registry) (targeting : Targeting) (key : String) (e : Expr) :
    Except Fault Routine := do
  let p ← Generate.expr registry targeting {} {} e
  return ⟨key, p.code, p.result, p.counters.slots⟩

end SheetFormula
