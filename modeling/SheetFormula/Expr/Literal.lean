import SheetFormula.Locale
import SheetFormula.Number.Format
import SheetFormula.Number.Numeral
import SheetFormula.Text.Replace

/-!
Literals: how strings, names and numbers are written in a formula and read from it.
-/

set_option autoImplicit false

namespace SheetFormula.Literal

/-- A string without its quotes; a quote after a backslash stands for itself. The closing quote may be
missing. -/
def unquoteString (rest : List Char) : List Char :=
  let body := if rest.getLast? = some '"' then rest.dropLast else rest
  Text.replacePair '\\' '"' '"' body

/-- What a quoted string or name stands for; any other text stands for itself. -/
def unquoteChars (cs : List Char) : List Char :=
  match cs with
  | '"' :: rest => unquoteString rest
  | '\'' :: rest =>
    if rest.getLast? = some '\'' then Text.replacePair '\'' '\'' '\'' rest.dropLast else cs
  | _ => cs

/-- What a quoted string or name stands for; any other text stands for itself. -/
def unquote (s : String) : String :=
  String.ofList (unquoteChars s.toList)

/-- A string between quotes, with a backslash before each quote in it. -/
def quoteChars (cs : List Char) : List Char :=
  '"' :: (Text.expandChar '"' '\\' '"' cs ++ ['"'])

/-- A string between quotes, with a backslash before each quote in it. -/
def quote (s : String) : String :=
  String.ofList (quoteChars s.toList)

/-- Reads a number written with the decimal separator of a locale. -/
def number? (locale : Locale) (s : String) : Option Number :=
  if locale.decimal = "" ∨ locale.decimal = "." then Number.ofNumeral? s.toList
  else Number.ofNumeral? (Text.replaceFirst locale.decimal.toList ['.'] s.toList)

/-- A number as formulas write it. -/
def numberText (n : Number) : String :=
  n.text .formula

def booleanText (b : Bool) : String :=
  if b then "TRUE" else "FALSE"

/-- A name that can be called: ASCII letters, digits, underscores and points. -/
def isFunctionName (s : String) : Bool :=
  s != "" && s.toList.all fun c => c.isAlphanum || c == '_' || c == '.'

end SheetFormula.Literal
