import SheetFormula.Expr.Basic
import SheetFormula.Expr.Literal
import SheetFormula.Text.Casing
import SheetFormula.Token.Basic

/-!
The literals of a formula and the key that is left without them. One pass over the tokens collects
references, numbers, strings and named values in order and puts a mark for each kind into the key. Two
formulas with one key have one structure.
-/

set_option autoImplicit false

namespace SheetFormula

/-- What a formula is made of besides its structure. -/
structure Literals where
  key : String
  dependencies : List String
  numbers : List Number
  strings : List String
  symbols : List String
  /-- The first number that cannot be read. -/
  unreadable : Option String
deriving DecidableEq, Repr

namespace Literals

def empty : Literals := ⟨"", [], [], [], [], none⟩

def addKey (l : Literals) (text : String) : Literals :=
  { l with key := text ++ l.key }

def addString (l : Literals) (text : String) : Literals :=
  { l.addKey "|S|" with strings := Literal.unquote text :: l.strings }

/-- A number that cannot be read counts as zero; the first one of them is remembered. -/
def addNumber (l : Literals) (locale : Locale) (text : String) : Literals :=
  match Literal.number? locale text with
  | some value => { l.addKey "|N|" with numbers := value :: l.numbers }
  | none => { l.addKey "|N|" with numbers := .zero :: l.numbers, unreadable := some text }

def addReference (l : Literals) (text : String) : Literals :=
  { l.addKey (if Expr.namesRange text then "|R|" else "|C|") with
    dependencies := text :: l.dependencies }

def addInvalidReference (l : Literals) (text : String) : Literals :=
  { l.addKey "|C|" with dependencies := text :: l.dependencies }

/-- A name belongs to the key; unless it is called or a truth value, it is a named value too. -/
def addSymbol (l : Literals) (text : String) (called : Bool) : Literals :=
  let l := l.addKey text
  if called || Text.upper text == "TRUE" || Text.upper text == "FALSE" then l
  else { l with symbols := Literal.unquote text :: l.symbols }

/-- The reference that a colon joins to the one before, with the tokens after it. -/
def joinedTo? (tokens : List Token) : Option (Token × List Token) :=
  (Token.afterColon? tokens).filter fun next => next.1.kind == .reference

theorem length_lt_of_joinedTo? {right : Token} {tokens rest : List Token}
    (h : joinedTo? tokens = some (right, rest)) : rest.length < tokens.length :=
  Token.length_lt_of_afterColon? (Option.filter_eq_some_iff.mp h).1

/-- The next token that is no space opens a parenthesis. -/
def opensCall (tokens : List Token) : Bool :=
  (tokens.dropWhile Token.isSpace).head?.any (·.kind == .leftParen)

/-- The literals of a list of tokens. -/
def ofTokens (locale : Locale) : List Token → Literals
  | [] => empty
  | t :: ts =>
    match t.kind with
    | .space => ofTokens locale ts
    | .string => (ofTokens locale ts).addString t.text
    | .number => (ofTokens locale ts).addNumber locale t.text
    | .invalidReference => (ofTokens locale ts).addInvalidReference t.text
    | .reference =>
      match h : joinedTo? ts with
      | some (right, rest) =>
        have := length_lt_of_joinedTo? h
        (ofTokens locale rest).addReference (t.text ++ ":" ++ right.text)
      | none => (ofTokens locale ts).addReference t.text
    | .symbol =>
      (ofTokens locale ts).addSymbol t.text (opensCall ts && Literal.isFunctionName t.text)
    | _ => (ofTokens locale ts).addKey t.text
termination_by tokens => tokens.length

end Literals

end SheetFormula
