import SheetFormula.Locale
import SheetFormula.Text.Blank
import SheetFormula.Text.Letter
import SheetFormula.Text.Numeral
import SheetFormula.Token.Address
import SheetFormula.Token.Basic

/-!
Cutting a text into tokens. `Lexer.first` finds the kind and the length of the token at the head of a
text, the first rule that applies deciding (`Lexer.Rule`); `Token.tokenize` repeats it. What a rule finds
is never empty (`Lexer.one_le_first`), so the text comes to its end. Every character goes into exactly
one token, so no text is refused.
-/

set_option autoImplicit false

namespace SheetFormula

/-- What a lexer knows of its locale and of the text: the separators and the blanks. -/
structure Lexer where
  argument : List Char
  row : List Char
  decimal : List Char
  isBlank : Char → Bool

namespace Lexer

/-- The lexer for a text. Blanks other than space and tab count only where one of them occurs. -/
def ofText (locale : Locale) (text : List Char) : Lexer where
  argument := locale.argument.toList
  row := locale.row.toList
  decimal := locale.decimal.toList
  isBlank := if text.any Text.isSpecialBlank then Text.isInlineBlank else Text.isSimpleBlank

/-- The text begins with a separator; an empty separator separates nothing. -/
def startsWith (separator text : List Char) : Bool :=
  separator != [] && separator.isPrefixOf text

/-- How many characters at the head of the text belong to a class. -/
def run (p : Char → Bool) (text : List Char) : Nat :=
  (text.takeWhile p).length

/-- Two characters before one, so that the longer operator is found. -/
def operators : List (List Char) :=
  [['<', '>'], ['>', '='], ['<', '='], ['+'], ['-'], ['*'], ['/'], [':'], ['='], ['>'], ['<'], ['^'],
    ['&'], ['%']]

def bracket? : Char → Option Token.Kind
  | '(' => some .leftParen
  | ')' => some .rightParen
  | '\x7b' => some .leftBrace
  | '\x7d' => some .rightBrace
  | _ => none

/-- A character that may stand in a name. -/
def isSymbolChar (c : Char) : Bool :=
  c == '_' || c == '.' || c == '!' || c == '$' || Text.isLetter c || Text.isNumeral c

/-- The length of a string after its opening quote, with the closing one. A backslash takes the next
character along; an open string reaches to the end of the text. -/
def stringTail : List Char → Nat
  | [] => 0
  | '"' :: _ => 1
  | ['\\'] => 1
  | '\\' :: _ :: rest => stringTail rest + 2
  | _ :: rest => stringTail rest + 1

/-- The length of a quoted name after its opening quote, with the closing one, if it closes. A doubled
quote does not close it. -/
def quotedTail? : List Char → Option Nat
  | [] => none
  | '\'' :: '\'' :: rest => (quotedTail? rest).map (· + 2)
  | '\'' :: _ => some 1
  | _ :: rest => (quotedTail? rest).map (· + 1)

/-- The length of an exponent part, zero where no digit follows its letter. -/
def exponentLength : List Char → Nat
  | [] => 0
  | c :: rest =>
    if c == 'e' || c == 'E' then
      let sign := match rest with
        | '+' :: _ => 1
        | '-' :: _ => 1
        | _ => 0
      let digits := run Char.isDigit (rest.drop sign)
      if digits = 0 then 0 else 1 + sign + digits
    else 0

/-- The length of the number at the head of the text: digits, at most one decimal separator, at least
one digit beside it, and an exponent. -/
def number? (x : Lexer) (text : List Char) : Option Nat :=
  let whole := run Char.isDigit text
  let rest := text.drop whole
  if startsWith x.decimal rest then
    let fraction := run Char.isDigit (rest.drop x.decimal.length)
    if whole = 0 ∧ fraction = 0 then none
    else
      let length := whole + x.decimal.length + fraction
      some (length + exponentLength (text.drop length))
  else if whole = 0 then none
  else some (whole + exponentLength rest)

/-- A name of the given length is a reference where it spells a cell and no parenthesis follows. -/
def nameKind (text : List Char) (length : Nat) : Token.Kind :=
  if Address.onSheet Address.isCell (text.take length) && (text.drop length).head? != some '(' then
    .reference
  else .symbol

/-- The name at the head of the text: plain, or a quoted sheet name and what is joined to it. -/
def name (c : Char) (cs : List Char) : Token.Kind × Nat :=
  if c = '\'' then
    match quotedTail? cs with
    | none => (.unknown, cs.length + 1)
    | some n =>
      let length := 1 + n + run isSymbolChar (cs.drop n)
      (nameKind (c :: cs) length, length)
  else
    let length := run isSymbolChar (c :: cs)
    if length = 0 then (.unknown, 1) else (nameKind (c :: cs) length, length)

/-- The kind and the length of the token at the head of a text. -/
def first (x : Lexer) (c : Char) (cs : List Char) : Token.Kind × Nat :=
  let text := c :: cs
  if Text.isLineBreak c then (.space, run Text.isLineBreak text)
  else if x.isBlank c then (.space, run x.isBlank text)
  else if startsWith x.row text then (.rowSeparator, x.row.length)
  else if startsWith x.argument text then (.argSeparator, x.argument.length)
  else match bracket? c with
    | some kind => (kind, 1)
    | none =>
      match operators.find? (·.isPrefixOf text) with
      | some op => (.operator, op.length)
      | none =>
        if c = '"' then (.string, 1 + stringTail cs)
        else if c = '?' then (.debugger, 1)
        else if ['#', 'R', 'E', 'F'].isPrefixOf text then (.invalidReference, 4)
        else match x.number? text with
          | some n => (.number, n)
          | none => name c cs

/-- What each rule finds at the head of a text, and when it applies. -/
inductive Rule (x : Lexer) (c : Char) (cs : List Char) : Token.Kind × Nat → Prop
  | lineBreak (h : Text.isLineBreak c = true) : Rule x c cs (.space, run Text.isLineBreak (c :: cs))
  | blank (h : x.isBlank c = true) : Rule x c cs (.space, run x.isBlank (c :: cs))
  | row (h : startsWith x.row (c :: cs) = true) : Rule x c cs (.rowSeparator, x.row.length)
  | argument (h : startsWith x.argument (c :: cs) = true) :
    Rule x c cs (.argSeparator, x.argument.length)
  | bracket {kind : Token.Kind} (h : bracket? c = some kind) : Rule x c cs (kind, 1)
  | operator {op : List Char} (h : operators.find? (·.isPrefixOf (c :: cs)) = some op) :
    Rule x c cs (.operator, op.length)
  | string (h : c = '"') : Rule x c cs (.string, 1 + stringTail cs)
  | debugger (h : c = '?') : Rule x c cs (.debugger, 1)
  | invalidReference (h : ['#', 'R', 'E', 'F'].isPrefixOf (c :: cs) = true) :
    Rule x c cs (.invalidReference, 4)
  | number {n : Nat} (h : x.number? (c :: cs) = some n) : Rule x c cs (.number, n)
  | name (h : x.number? (c :: cs) = none) : Rule x c cs (name c cs)

theorem rule_first (x : Lexer) (c : Char) (cs : List Char) : x.Rule c cs (x.first c cs) := by
  unfold first
  simp only
  split
  · exact .lineBreak ‹_›
  split
  · exact .blank ‹_›
  split
  · exact .row ‹_›
  split
  · exact .argument ‹_›
  split
  · exact .bracket ‹_›
  split
  · exact .operator ‹_›
  split
  · exact .string ‹_›
  split
  · exact .debugger ‹_›
  split
  · exact .invalidReference ‹_›
  split
  · exact .number ‹_›
  · exact .name ‹_›

theorem one_le_run {p : Char → Bool} {c : Char} (h : p c = true) (cs : List Char) :
    1 ≤ run p (c :: cs) := by
  rw [run, List.takeWhile_cons_of_pos h, List.length_cons]
  omega

theorem one_le_of_startsWith {separator text : List Char} (h : startsWith separator text = true) :
    1 ≤ separator.length := by
  simp only [startsWith, Bool.and_eq_true, bne_iff_ne] at h
  exact List.length_pos_iff.mpr h.1

theorem one_le_of_number? {x : Lexer} {text : List Char} {n : Nat} (h : x.number? text = some n) :
    1 ≤ n := by
  simp only [number?] at h
  split at h
  · rename_i hdecimal
    have hseparator := one_le_of_startsWith hdecimal
    split at h
    · cases h
    · cases h
      omega
  · split at h
    · cases h
    · cases h
      omega

theorem one_le_name (c : Char) (cs : List Char) : 1 ≤ (name c cs).2 := by
  unfold name
  split
  · split
    · simp
    · simp only
      omega
  · simp only
    split
    · simp
    · simp only
      omega

/-- A token has at least one character. -/
theorem one_le_first (x : Lexer) (c : Char) (cs : List Char) : 1 ≤ (x.first c cs).2 := by
  have hrule := rule_first x c cs
  generalize x.first c cs = found at hrule
  cases hrule with
  | lineBreak h => exact one_le_run h cs
  | blank h => exact one_le_run h cs
  | row h => exact one_le_of_startsWith h
  | argument h => exact one_le_of_startsWith h
  | @operator op h =>
    have hop : ∀ op ∈ operators, 1 ≤ op.length := by decide
    exact hop op (List.mem_of_find?_eq_some h)
  | string =>
    simp only
    omega
  | number h => exact one_le_of_number? h
  | name => exact one_le_name c cs
  | _ => simp

/-- The tokens of a text, in order: the first is cut off, then those of what is left. -/
def tokens (x : Lexer) : List Char → List Token
  | [] => []
  | c :: cs =>
    let found := x.first c cs
    ⟨found.1, String.ofList ((c :: cs).take found.2)⟩ :: x.tokens ((c :: cs).drop found.2)
termination_by text => text.length
decreasing_by
  have hpos := x.one_le_first c cs
  simp only [List.length_drop, List.length_cons]
  omega

end Lexer

/-- The tokens of a formula. -/
def Token.tokenize (locale : Locale) (formula : String) : List Token :=
  (Lexer.ofText locale formula.toList).tokens formula.toList

end SheetFormula
