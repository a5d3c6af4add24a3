import SheetFormula.Proofs.Recoding
import SheetFormula.Proofs.Roundtrip

/-!
Formulas of a locale with a decimal comma, kept as canonical text. The tree of such a formula is written
with points, commas and semicolons, and its names are written as they were. So they have to be names of
the canonical locale too: all are, but for those that begin with a point and a digit, which are numbers
there. With that the text is read as in the canonical locale (`Expr.parse_stored`).
-/

set_option autoImplicit false

namespace SheetFormula

namespace Lexer

theorem isComma_ofText (text : List Char) : (ofText (.ofSeparators "," ";") text).IsComma where
  argument := rfl
  row := rfl
  decimal := rfl

theorem isBlank_paren (locale : Locale) (text : List Char) :
    (ofText locale text).isBlank '(' = false := by
  simp only [ofText]
  split <;> rfl

/-- A number that begins with a digit or a comma has no sign once its comma is a point. -/
theorem isUnsigned_of_comma {c : Char} (hc : c.isDigit = true ∨ c = ',') {more : List Char}
    {value : Number}
    (h : Literal.number? (.ofSeparators "," ";") (String.ofList (c :: more)) = some value) :
    Number.IsUnsigned value := by
  rw [Literal.number?, if_neg (by decide), String.toList_ofList] at h
  change Number.ofNumeral? (Text.replaceFirst [','] ['.'] (c :: more)) = some value at h
  by_cases hcomma : c = ','
  · subst hcomma
    exact Number.isUnsigned_of_ofNumeral? (Number.mem_heads (.inr rfl)) h
  · rw [Text.replaceFirst_cons hcomma] at h
    exact Number.isUnsigned_of_ofNumeral? (Number.mem_heads (.inl (hc.resolve_right hcomma))) h

theorem suits_decimal_comma (text : List Char) :
    (ofText (.ofSeparators "," ";") text).Suits (.ofSeparators "," ";") where
  paren := by
    intro rest
    have hy := isComma_ofText text
    refine ⟨'(', [], rfl, ?_⟩
    simp [first, isBlank_paren, hy.row, hy.argument, startsWith_singleton, Text.isLineBreak, bracket?]
  number := by
    intro c cs n h
    have hc := digit_or_decimal (isComma_ofText text).decimal h
    refine ⟨?_, fun more value => isUnsigned_of_comma hc⟩
    rintro rfl
    exact absurd hc (by decide)

end Lexer

namespace Expr

/-- The tree of a formula with decimal commas is written as a canonical text that is read as the regrouped
tree, with the same left-associated form; it equals the tree exactly where no right operand goes on with
the chain of its operator. -/
theorem parse_stored {limit : Option Nat} {formula : String} {root : Expr}
    (h : parse ⟨.ofSeparators "," ";", limit⟩ formula = .ok root)
    (hclosed : ∀ t ∈ Token.tokenize (.ofSeparators "," ";") formula, t.kind = .string →
      Lexer.isClosedString t.text.toList = true)
    (hname : ∀ t ∈ Token.tokenize (.ofSeparators "," ";") formula,
      t.kind = .symbol ∨ t.kind = .reference → Lexer.startsNumber t.text.toList = false) :
    ∃ again, parse ⟨.canonical, none⟩ root.toFormula = .ok again ∧
      again.unplaced = root.reassociate.unplaced ∧
      again.leftAssociate.unplaced = root.leftAssociate.unplaced ∧
      (again.same root = true ↔ ∀ n ∈ root.nodes, n.isChained = false) := by
  have hoperand := isOperand_of_suits (Lexer.suits_decimal_comma _) h hname hclosed
  obtain ⟨again, hparse, htree⟩ := exists_parse_toFormula hoperand
  exact ⟨again, hparse, htree, leftAssociate_of_reassociate htree,
    same_iff_of_reassociate htree hoperand⟩

/-- Of a call with an array, a range of another sheet and a chain. -/
theorem parse_stored_of_call :
    let formula := "=SUM(,5*\x7b1,5;x\\2e3\x7d;;'my sheet'!A$1:B2)&(\"a;b\"&(.name&?-y%))"
    (∀ t ∈ Token.tokenize (.ofSeparators "," ";") formula, t.kind = .string →
      Lexer.isClosedString t.text.toList = true) ∧
      (∀ t ∈ Token.tokenize (.ofSeparators "," ";") formula,
        t.kind = .symbol ∨ t.kind = .reference → Lexer.startsNumber t.text.toList = false) ∧
      ∃ root again, parse ⟨.ofSeparators "," ";", some 9⟩ formula = .ok root ∧
        parse ⟨.canonical, none⟩ root.toFormula = .ok again ∧
        again.unplaced = root.reassociate.unplaced ∧
        again.leftAssociate.unplaced = root.leftAssociate.unplaced ∧
        (again.same root = true ↔ ∀ n ∈ root.nodes, n.isChained = false) := by
  intro formula
  have hclosed : ∀ t ∈ Token.tokenize (.ofSeparators "," ";") formula, t.kind = .string →
      Lexer.isClosedString t.text.toList = true := by decide +kernel
  have hname : ∀ t ∈ Token.tokenize (.ofSeparators "," ";") formula,
      t.kind = .symbol ∨ t.kind = .reference → Lexer.startsNumber t.text.toList = false := by
    decide +kernel
  have hread : (parse ⟨.ofSeparators "," ";", some 9⟩ formula).isOk = true := by decide +kernel
  obtain ⟨root, hroot⟩ := exists_ok_of_isOk hread
  obtain ⟨again, hagain⟩ := parse_stored hroot hclosed hname
  exact ⟨hclosed, hname, root, again, hroot, hagain⟩

/-- The name `.5` is a number in the canonical locale, and parentheses that close a chain stay in the
text: in neither case is the left-associated tree read. -/
theorem stored_not_leftAssociated :
    ((∀ t ∈ Token.tokenize (.ofSeparators "," ";") "=.5", t.kind = .string →
      Lexer.isClosedString t.text.toList = true) ∧
      ∃ root again, parse ⟨.ofSeparators "," ";", none⟩ "=.5" = .ok root ∧
        parse ⟨.canonical, none⟩ root.toFormula = .ok again ∧
        again.unplaced ≠ root.leftAssociate.unplaced) ∧
      (∀ t ∈ Token.tokenize (.ofSeparators "," ";") "=a*((x*-y)*c)", t.kind = .string →
        Lexer.isClosedString t.text.toList = true) ∧
      ∃ root again, parse ⟨.ofSeparators "," ";", none⟩ "=a*((x*-y)*c)" = .ok root ∧
        parse ⟨.canonical, none⟩ root.toFormula = .ok again ∧
        again.unplaced ≠ root.leftAssociate.unplaced :=
  ⟨⟨by decide +kernel, exists_not_leftAssociated (by decide +kernel)⟩,
    by decide +kernel, exists_not_leftAssociated (by decide +kernel)⟩

end Expr

end SheetFormula
