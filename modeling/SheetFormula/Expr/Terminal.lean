import SheetFormula.Expr.Basic
import SheetFormula.Expr.Literal
import SheetFormula.Text.Casing
import SheetFormula.Token.Basic

/-!
Terminals: the tokens of a formula as its grammar sees them. Spaces are gone, a literal or a name is a
finished leaf, two references with a colon between them are one leaf, and a function name has taken its
opening parenthesis along.
-/

set_option autoImplicit false

namespace SheetFormula

/-- The part that a terminal plays in the grammar. -/
inductive Terminal.Role where
  | operand (leaf : Expr)
  | unreadable
  | callStart
  | marker
  | operator
  | leftParen
  | rightParen
  | leftBrace
  | rightBrace
  | argSeparator
  | rowSeparator
  | stray
deriving Repr, Inhabited

/-- A terminal with the index and the text of its first token. -/
structure Terminal where
  role : Terminal.Role
  text : String
  index : Nat
deriving Repr, Inhabited

namespace Terminal

/-- A token with its index among all the tokens of a formula. -/
abbrev Indexed := Token × Nat

/-- The tokens that are no spaces, each with its index. -/
def significant (tokens : List Token) : List Indexed :=
  tokens.zipIdx.filter fun t => !t.1.isSpace

/-- A leaf that covers the tokens from `start` to `stop`. -/
def leaf (text : String) (atom : Atom) (start stop : Nat) : Expr :=
  .leaf ⟨text, false, ⟨start, stop⟩⟩ atom

/-- The leaf of a name that is not called: the two truth values, in any case, or a named value. -/
def nameLeaf (text : String) (index : Nat) : Expr :=
  if Text.upper text = "TRUE" then leaf "" (.boolean true) index index
  else if Text.upper text = "FALSE" then leaf "" (.boolean false) index index
  else leaf text .symbol index index

/-- The role of a token by itself. -/
def roleOf (locale : Locale) (t : Token) (index : Nat) : Role :=
  match t.kind with
  | .number =>
    match Literal.number? locale t.text with
    | some value => .operand (leaf "" (.number value) index index)
    | none => .unreadable
  | .string => .operand (leaf (Literal.unquote t.text) .string index index)
  | .symbol => .operand (nameLeaf t.text index)
  | .reference => .operand (leaf t.text .reference index index)
  | .invalidReference => .operand (leaf "#REF" .reference index index)
  | .operator => .operator
  | .leftParen => .leftParen
  | .rightParen => .rightParen
  | .leftBrace => .leftBrace
  | .rightBrace => .rightBrace
  | .argSeparator => .argSeparator
  | .rowSeparator => .rowSeparator
  | .debugger => .marker
  | .space => .stray
  | .unknown => .stray

/-- A function name with the parenthesis that opens its arguments. -/
def startsCall (name paren : Token) : Bool :=
  name.kind == .symbol && paren.kind == .leftParen && Literal.isFunctionName name.text

/-- Two references with a colon between them. -/
def joins (left colon right : Token) : Bool :=
  left.kind == .reference && colon.isOperator ":" && right.kind == .reference

/-- The reference that two joined ones make. -/
def joined (left : Indexed) (right : Indexed) : Terminal where
  role := .operand (leaf (left.1.text ++ ":" ++ right.1.text) .reference left.2 right.2)
  text := left.1.text
  index := left.2

/-- The terminals of a list of tokens without spaces. -/
def ofIndexed (locale : Locale) : List Indexed → List Terminal
  | [] => []
  | [t] => [⟨roleOf locale t.1 t.2, t.1.text, t.2⟩]
  | [t, u] =>
    if startsCall t.1 u.1 then [⟨.callStart, t.1.text, t.2⟩]
    else [⟨roleOf locale t.1 t.2, t.1.text, t.2⟩, ⟨roleOf locale u.1 u.2, u.1.text, u.2⟩]
  | t :: u :: v :: rest =>
    if startsCall t.1 u.1 then ⟨.callStart, t.1.text, t.2⟩ :: ofIndexed locale (v :: rest)
    else if joins t.1 u.1 v.1 then joined t v :: ofIndexed locale rest
    else ⟨roleOf locale t.1 t.2, t.1.text, t.2⟩ :: ofIndexed locale (u :: v :: rest)

/-- The terminals of a formula's tokens. -/
def ofTokens (locale : Locale) (tokens : List Token) : List Terminal :=
  ofIndexed locale (significant tokens)

end Terminal

end SheetFormula
