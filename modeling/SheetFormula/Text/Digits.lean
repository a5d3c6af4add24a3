/-!
What integers and numerals share as text: the sign in front, the values of digits, and the underscores
that group them.
-/

set_option autoImplicit false

namespace SheetFormula.Text

/-- A sign, if there is one, and what follows it; true for a minus. -/
def splitSign : List Char → Bool × List Char
  | '+' :: rest => (false, rest)
  | '-' :: rest => (true, rest)
  | rest => (false, rest)

/-- The value of a digit in bases up to 36. -/
def digitValue? (c : Char) : Option Nat :=
  if c.isDigit then some (c.toNat - '0'.toNat)
  else if c.isAlpha then some (c.toLower.toNat - 'a'.toNat + 10)
  else none

def isHexDigit (c : Char) : Bool :=
  c.isDigit || ('a' ≤ c.toLower && c.toLower ≤ 'f')

/-- The value of hexadecimal digits. -/
def ofHexDigits (ds : List Char) : Nat :=
  ds.foldl (fun n d => n * 16 + (digitValue? d).getD 0) 0

/-- Every underscore stands between two digits; `digitBefore` tells what precedes the text. -/
def underscoresSeparate (isDigit : Char → Bool) (digitBefore : Bool) : List Char → Bool
  | [] => true
  | '_' :: c :: rest => digitBefore && isDigit c && underscoresSeparate isDigit true rest
  | ['_'] => false
  | c :: rest => underscoresSeparate isDigit (isDigit c) rest

/-- The underscores of a number without sign are well placed; the mark of a base counts as a digit. -/
def groupedWell (cs : List Char) : Bool :=
  match cs with
  | '0' :: c :: rest =>
    if c.toLower == 'x' then
      underscoresSeparate isHexDigit true rest
    else if c.toLower == 'b' || c.toLower == 'o' then underscoresSeparate Char.isDigit true rest
    else underscoresSeparate Char.isDigit false cs
  | cs => underscoresSeparate Char.isDigit false cs

end SheetFormula.Text
