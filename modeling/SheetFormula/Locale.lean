/-!
Locales: the separators with which numbers, arguments and array rows are written.
-/

set_option autoImplicit false

namespace SheetFormula

/-- The decimal separator of numbers and the separator of arguments. -/
structure Locale where
  decimal : String
  argument : String
deriving DecidableEq, Repr

namespace Locale

/-- The locale in which formulas are stored. -/
def canonical : Locale := ⟨".", ","⟩

/-- A locale with the given separators, the canonical one for each that is empty. -/
def ofSeparators (decimal argument : String) : Locale where
  decimal := if decimal = "" then canonical.decimal else decimal
  argument := if argument = "" then canonical.argument else argument

/-- Rows are separated by a semicolon, or by a backslash where arguments already take it. -/
def row (l : Locale) : String :=
  if l.argument = ";" then "\\" else ";"

end Locale

end SheetFormula
