/-!
Addresses: how a cell, a column or a row is spelt, by itself or on a named sheet. A sheet name stands
before an exclamation mark; in single quotes it may hold any character, a quote being written twice.
-/

set_option autoImplicit false

namespace SheetFormula.Address

/-- Drops the mark of an absolute coordinate. -/
def dropMark : List Char → List Char
  | '$' :: rest => rest
  | rest => rest

/-- One to three letters. -/
def isColumnName (cs : List Char) : Bool :=
  cs.all Char.isAlpha && 1 ≤ cs.length && cs.length ≤ 3

/-- One to seven digits. -/
def isRowName (cs : List Char) : Bool :=
  cs.all Char.isDigit && 1 ≤ cs.length && cs.length ≤ 7

/-- A column without a sheet: `A`, `$AB`. -/
def isColumn (cs : List Char) : Bool :=
  isColumnName (dropMark cs)

/-- A row without a sheet: `1`, `$12`. -/
def isRow (cs : List Char) : Bool :=
  isRowName (dropMark cs)

/-- A cell without a sheet: `A1`, `$B$2`. -/
def isCell (cs : List Char) : Bool :=
  let rest := dropMark cs
  isColumnName (rest.takeWhile Char.isAlpha) && isRow (rest.dropWhile Char.isAlpha)

/-- The text after an opening quote closes with its last character; quotes inside are doubled. -/
def closesAtEnd : List Char → Bool
  | [] => false
  | ['\''] => true
  | '\'' :: '\'' :: rest => closesAtEnd rest
  | '\'' :: _ => false
  | _ :: rest => closesAtEnd rest

/-- A sheet name, quoted or plain. -/
def isSheetName : List Char → Bool
  | [] => false
  | '\'' :: rest => rest != ['\''] && closesAtEnd rest
  | cs => cs.all fun c => c != '\'' && c != '!'

/-- What stands after the last exclamation mark, where the text before it is a sheet name; the whole
text where there is no such mark. -/
def localPart? (cs : List Char) : Option (List Char) :=
  let part := (cs.reverse.takeWhile (· != '!')).reverse
  if part.length = cs.length then some cs
  else if isSheetName (cs.take (cs.length - part.length - 1)) then some part
  else none

/-- The text, with or without a sheet, is an address of the given shape. -/
def onSheet (shape : List Char → Bool) (cs : List Char) : Bool :=
  (localPart? cs).any shape

end SheetFormula.Address
