/-!
Tokens: the pieces into which the text of a formula is cut, each with its kind.
-/

set_option autoImplicit false

namespace SheetFormula

/-- What a piece of text is. A character that starts nothing is of kind `unknown`, and so is a quoted
name that never closes. -/
inductive Token.Kind where
  | unknown
  | number
  | string
  | symbol
  | reference
  | invalidReference
  | operator
  | leftParen
  | rightParen
  | leftBrace
  | rightBrace
  | argSeparator
  | rowSeparator
  | space
  | debugger
deriving DecidableEq, Repr, Inhabited

/-- A piece of the text of a formula. -/
structure Token where
  kind : Token.Kind
  text : String
deriving DecidableEq, Repr, Inhabited

namespace Token

/-- The kinds in the order in which they are numbered. -/
def Kind.all : List Kind :=
  [.unknown, .number, .string, .symbol, .reference, .invalidReference, .operator, .leftParen,
    .rightParen, .leftBrace, .rightBrace, .argSeparator, .rowSeparator, .space, .debugger]

/-- The name of a kind in listings. -/
def Kind.name : Kind → String
  | .unknown => "UNKNOWN"
  | .number => "NUMBER"
  | .string => "STRING"
  | .symbol => "SYMBOL"
  | .reference => "REFERENCE"
  | .invalidReference => "INVALID_REFERENCE"
  | .operator => "OPERATOR"
  | .leftParen => "LEFT_PAREN"
  | .rightParen => "RIGHT_PAREN"
  | .leftBrace => "LEFT_BRACE"
  | .rightBrace => "RIGHT_BRACE"
  | .argSeparator => "ARG_SEPARATOR"
  | .rowSeparator => "ARRAY_ROW_SEPARATOR"
  | .space => "SPACE"
  | .debugger => "DEBUGGER"

/-- The kind of a name, `unknown` for a text that names none. -/
def Kind.ofName (name : String) : Kind :=
  (Kind.all.find? (·.name == name)).getD .unknown

/-- The token is the operator `op`. -/
def isOperator (t : Token) (op : String) : Bool :=
  t.kind == .operator && t.text == op

def isSpace (t : Token) : Bool :=
  t.kind == .space

/-- The token after a colon at the head of the tokens, with the rest; spaces may stand around the
colon. -/
def afterColon? (tokens : List Token) : Option (Token × List Token) :=
  match tokens.dropWhile isSpace with
  | [] => none
  | colon :: more =>
    match more.dropWhile isSpace with
    | [] => none
    | next :: rest => if colon.isOperator ":" then some (next, rest) else none

theorem length_lt_of_afterColon? {next : Token} {tokens rest : List Token}
    (h : afterColon? tokens = some (next, rest)) : rest.length < tokens.length := by
  unfold afterColon? at h
  split at h
  · simp at h
  · rename_i colon more hcolon
    split at h
    · simp at h
    · rename_i found after hnext
      have houter := (List.dropWhile_suffix isSpace (l := tokens)).length_le
      have hinner := (List.dropWhile_suffix isSpace (l := more)).length_le
      rw [hcolon] at houter
      rw [hnext] at hinner
      simp only [List.length_cons] at houter hinner
      split at h
      · obtain ⟨-, rfl⟩ := Prod.mk.inj (Option.some.inj h)
        omega
      · simp at h

/-- The text that the tokens spell together. -/
def spell (tokens : List Token) : String :=
  String.join (tokens.map (·.text))

end Token

end SheetFormula
