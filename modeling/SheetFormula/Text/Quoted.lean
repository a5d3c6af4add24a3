import SheetFormula.Text.Printable

/-!
Quoted text for messages and listings: between double quotes, with the quote and the backslash
escaped, the common control characters by their letter and every other character that cannot be
shown by its code.
-/

set_option autoImplicit false

namespace SheetFormula.Text

/-- A number in hexadecimal, padded with zeros to at least `width` places. -/
def hex (width n : Nat) : String :=
  String.ofList (Nat.toDigits 16 n |>.leftpad width '0')

/-- The code of a character that cannot be shown: two places below 128, four in the basic plane, else
eight. -/
def escapeCode (c : Char) : String :=
  let n := c.toNat
  if n < 0x80 then "\\x" ++ hex 2 n
  else if n < 0x10000 then "\\u" ++ hex 4 n
  else "\\U" ++ hex 8 n

/-- A character as quoted text shows it. -/
def escapeChar (c : Char) : String :=
  match c with
  | '"' => "\\\""
  | '\\' => "\\\\"
  | '\x07' => "\\a"
  | '\x08' => "\\b"
  | '\x0c' => "\\f"
  | '\n' => "\\n"
  | '\r' => "\\r"
  | '\t' => "\\t"
  | '\x0b' => "\\v"
  | c => if isPrintable c then c.toString else escapeCode c

/-- A text between double quotes, each character as `escape` shows it. -/
def quotedBy (escape : Char → String) (s : String) : String :=
  "\"" ++ String.join (s.toList.map escape) ++ "\""

/-- A text between double quotes with all that cannot be shown escaped. -/
def quoted (s : String) : String :=
  quotedBy escapeChar s

end SheetFormula.Text
