import SheetFormula.Proofs.Reading
import SheetFormula.Proofs.Spelling

/-!
Terminals as words of a text. Terminals that can follow each other are told apart without spaces: what
comes after an operand continues no name, and what comes after an operator does not lengthen it.
-/

set_option autoImplicit false

namespace SheetFormula.Terminal

/-- What follows the terminal does not continue it. -/
structure Fits (t : Terminal) (rest : List Char) : Prop where
  operand : t.Ends → Lexer.EndsName rest ∧ rest.head? ≠ some '('
  operator : t.role = .operator → t.text.toList ∈ [['<'], ['>']] →
    Lexer.Stops (fun c => c == '=' || c == '>') rest

/-- The terminal is written as a text that is cut into the tokens wherever it fits. -/
structure IsWord (t : Terminal) (tokens : List Token) (text : List Char) : Prop where
  cuts : ∀ {x : Lexer} {more : List Token} {rest : List Char}, x.IsCanonical → t.Fits rest →
    x.Cuts more rest → x.Cuts (tokens ++ more) (text ++ rest)
  continues : t.Continues →
    ∃ c cs, text = c :: cs ∧ c ∈ Lexer.delimiters ∧ c ≠ '\'' ∧ c ≠ '('
  begins : t.Begins → ∃ c cs, text = c :: cs ∧ c ≠ '=' ∧ c ≠ '>'

theorem fits_nil (t : Terminal) : t.Fits [] where
  operand _ := ⟨⟨Lexer.stops_nil _, Lexer.stops_nil _⟩, nofun⟩
  operator _ _ := Lexer.stops_nil _

/-- A terminal fits before one that can follow it. -/
theorem Adjacent.fits {t u : Terminal} {tokens : List Token} {text : List Char}
    (h : Adjacent t u) (hu : u.IsWord tokens text) (rest : List Char) : t.Fits (text ++ rest) := by
  obtain ⟨hcontinues, hbegins⟩ := h
  constructor
  · intro hends
    obtain ⟨c, cs, rfl, hc, hquote, hparen⟩ := hu.continues (hcontinues hends)
    exact ⟨Lexer.endsName_cons hc hquote _, by simpa using hparen⟩
  · intro hrole hop
    have hends : ¬ t.Ends := by
      simp only [Ends, hrole, Operator.isSuffix, beq_iff_eq]
      intro hsuffix
      rw [hsuffix] at hop
      exact absurd hop (by decide)
    obtain ⟨c, cs, rfl, hequals, hgreater⟩ := hu.begins (hbegins hends)
    rw [List.cons_append, Lexer.stops_cons]
    simp [hequals, hgreater]

/-- Words that can follow each other are cut apart. -/
theorem cuts_words {x : Lexer} (hx : x.IsCanonical) {text : Terminal → List Char}
    {terminals : List Terminal} {words : List (List Token)}
    (hwords : List.Forall₂ (fun t tokens => t.IsWord tokens (text t)) terminals words)
    (hchain : terminals.IsChain Adjacent) :
    x.Cuts words.flatten (terminals.flatMap text) := by
  induction hwords with
  | nil => exact .nil
  | @cons t tokens terminals words ht hrest ih =>
    rw [List.flatten_cons, List.flatMap_cons]
    refine ht.cuts hx ?_ (ih hchain.tail)
    cases hrest with
    | nil => exact fits_nil t
    | cons hu _ =>
      rw [List.flatMap_cons]
      exact (List.isChain_cons_cons.mp hchain).1.fits hu _

end SheetFormula.Terminal
