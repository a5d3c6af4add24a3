/-!
White space, in the two senses that formulas need: the blanks of running text, and the line breaks
that are told apart from them. Also the narrower set of blanks that argument declarations allow.
-/

set_option autoImplicit false

namespace SheetFormula.Text

/-- A character that ends a line. -/
def isLineBreak (c : Char) : Bool :=
  c == '\n' || c == '\r'

/-- White space of any script. -/
def isBlank (c : Char) : Bool :=
  let n := c.toNat
  (9 ≤ n && n ≤ 13) || n == 0x20 || n == 0x85 || n == 0xa0 || n == 0x1680 ||
    (0x2000 ≤ n && n ≤ 0x200a) || n == 0x2028 || n == 0x2029 || n == 0x202f || n == 0x205f ||
    n == 0x3000

/-- The space and the tab. -/
def isSimpleBlank (c : Char) : Bool :=
  c == ' ' || c == '\t'

/-- White space inside a line that is neither space nor tab. -/
def isSpecialBlank (c : Char) : Bool :=
  isBlank c && !isSimpleBlank c && !isLineBreak c

/-- White space inside a line. -/
def isInlineBlank (c : Char) : Bool :=
  isBlank c && !isLineBreak c

/-- The blanks of a declaration: tab, line feed, form feed, carriage return and space. -/
def isAsciiBlank (c : Char) : Bool :=
  c == '\t' || c == '\n' || c == '\x0c' || c == '\r' || c == ' '

/-- A text without the white space at its two ends. -/
def trim (cs : List Char) : List Char :=
  ((cs.dropWhile isBlank).reverse.dropWhile isBlank).reverse

end SheetFormula.Text
