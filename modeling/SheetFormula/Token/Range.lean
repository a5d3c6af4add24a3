import SheetFormula.Token.Lexer

/-!
Ranges among tokens. Two ends with a colon between them, spaces allowed around it, become one reference
where they fit together: cell to cell, column to column, row to row, and mixtures with a cell.
-/

set_option autoImplicit false

namespace SheetFormula.Token

/-- What a token may begin as the left end of a range. -/
inductive Edge where
  | cell
  | column
  | row
deriving DecidableEq, Repr

/-- The left end that a token makes, if any. Its sheet may be named. -/
def leftEdge? (t : Token) : Option Edge :=
  match t.kind with
  | .reference => some .cell
  | .number => if Address.isRow t.text.toList then some .row else none
  | .symbol =>
    if Address.onSheet Address.isColumn t.text.toList then some .column
    else if Address.onSheet Address.isRow t.text.toList then some .row
    else none
  | _ => none

/-- The token fits as the right end of a range with the given left end. No sheet is named there. -/
def closes (edge : Edge) (t : Token) : Bool :=
  match t.kind, edge with
  | .reference, _ => Address.isCell t.text.toList
  | .symbol, .row => Address.isRow t.text.toList
  | .symbol, _ => Address.isColumn t.text.toList
  | .number, .row => Address.isRow t.text.toList
  | _, _ => false

/-- The right end of the range that the left end begins, with the tokens after it. -/
def rangeEnd? (left : Token) (tokens : List Token) : Option (Token × List Token) :=
  match leftEdge? left with
  | some edge => (afterColon? tokens).filter fun next => closes edge next.1
  | none => none

theorem length_lt_of_rangeEnd? {left right : Token} {tokens rest : List Token}
    (h : rangeEnd? left tokens = some (right, rest)) : rest.length < tokens.length := by
  unfold rangeEnd? at h
  split at h
  · exact length_lt_of_afterColon? (Option.filter_eq_some_iff.mp h).1
  · simp at h

/-- The reference that spells a range. -/
def range (left right : Token) : Token :=
  ⟨.reference, left.text ++ ":" ++ right.text⟩

/-- Puts one reference for each range, from left to right; what follows a range starts afresh. -/
def fuseRanges : List Token → List Token
  | [] => []
  | t :: ts =>
    match h : rangeEnd? t ts with
    | some (right, rest) =>
      have := length_lt_of_rangeEnd? h
      range t right :: fuseRanges rest
    | none => t :: fuseRanges ts
termination_by tokens => tokens.length
decreasing_by all_goals simp only [List.length_cons]; omega

/-- The tokens of a formula with its ranges put together. -/
def rangeTokenize (locale : Locale) (formula : String) : List Token :=
  fuseRanges (tokenize locale formula)

end SheetFormula.Token
