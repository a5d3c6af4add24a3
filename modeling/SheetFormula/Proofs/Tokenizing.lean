import SheetFormula.Proofs.Lexeme

/-!
No text is refused and nothing of it is lost when it is cut into tokens, whatever the separators of the
locale. Every rule takes at least one character and no more than there are.
The only tokens that fit no rule are single characters and, at the end of the text, a quoted name that
does not close.
-/

set_option autoImplicit false

namespace SheetFormula

namespace Lexer

variable {x : Lexer} {c : Char} {s cs rest : List Char}

/-- Within the text every quote stands beside another one, so none of them closes a quoted name. -/
inductive Unclosed : List Char → Prop
  | nil : Unclosed []
  | pair {cs : List Char} (more : Unclosed cs) : Unclosed ('\'' :: '\'' :: cs)
  | cons {c : Char} {cs : List Char} (ne : c ≠ '\'') (more : Unclosed cs) : Unclosed (c :: cs)

theorem unclosed_of_quotedTail? (h : quotedTail? cs = none) : Unclosed cs := by
  fun_induction quotedTail? cs with
  | case1 => exact .nil
  | case2 rest ih => exact .pair (ih (Option.map_eq_none_iff.mp h))
  | case3 => cases h
  | case4 c rest _ hquote ih => exact .cons hquote (ih (Option.map_eq_none_iff.mp h))

theorem nameKind_ne_unknown (text : List Char) (length : Nat) : nameKind text length ≠ .unknown := by
  intro heq
  have hkind := nameKind_kind text length
  rw [heq] at hkind
  exact absurd hkind (by decide)

/-- Only what would have to be a name fits no rule. -/
theorem first_eq_name (x : Lexer) (c : Char) (cs : List Char) :
    x.first c cs = name c cs ∨ (x.first c cs).1 ≠ .unknown := by
  have hrule := rule_first x c cs
  generalize x.first c cs = found at hrule
  cases hrule with
  | bracket h =>
    refine .inr ?_
    rintro rfl
    exact absurd (bracket?_kind h) (by decide)
  | name => exact .inl rfl
  | _ => exact .inr (by simp)

/-- A name that fits no rule is one character, or a quoted name that takes the whole text and does not
close. -/
theorem name_unknown {n : Nat} (h : name c cs = (.unknown, n)) :
    n = 1 ∨ n = cs.length + 1 ∧ c = '\'' ∧ Unclosed cs := by
  unfold name at h
  by_cases hquote : c = '\''
  · rw [if_pos hquote] at h
    split at h
    · rename_i hopen
      obtain ⟨-, rfl⟩ := Prod.mk.inj h
      exact .inr ⟨rfl, hquote, unclosed_of_quotedTail? hopen⟩
    · exact absurd (Prod.mk.inj h).1 (nameKind_ne_unknown _ _)
  · rw [if_neg hquote] at h
    simp only at h
    split at h
    · exact .inl (Prod.mk.inj h).2.symm
    · exact absurd (Prod.mk.inj h).1 (nameKind_ne_unknown _ _)

theorem Lexeme.unknown (h : x.Lexeme .unknown s rest) :
    s.length = 1 ∨ rest = [] ∧ ∃ body, s = '\'' :: body ∧ Unclosed body := by
  obtain ⟨c, cs, rfl, hfirst⟩ := h
  have hname := (first_eq_name x c (cs ++ rest)).resolve_right fun h => h (by rw [hfirst])
  rw [hfirst] at hname
  rcases name_unknown hname.symm with hone | ⟨hall, rfl, hopen⟩
  · exact .inl hone
  · obtain rfl : rest = [] := by simpa using hall
    rw [List.append_nil] at hopen
    exact .inr ⟨rfl, cs, rfl, hopen⟩

/-- A token of a text that is cut, with what is left of the text after it. -/
theorem Cuts.lexeme_of_append {before after : List Token} {t : Token} {text : List Char}
    (h : Cuts x (before ++ t :: after) text) :
    ∃ rest, x.Lexeme t.kind t.text.toList rest ∧ Cuts x after rest := by
  induction before generalizing text with
  | nil =>
    cases h with
    | cons lexeme cuts => exact ⟨_, by simpa using lexeme, cuts⟩
  | cons u before ih =>
    cases h with
    | cons lexeme cuts => exact ih cuts

theorem Cuts.eq_nil {tokens : List Token} (h : Cuts x tokens []) : tokens = [] := by
  rw [← h.tokens_eq, Lexer.tokens]

end Lexer

/-- Every text is cut into tokens without loss. Each token is what the rules find at the head of the
rest and is not empty; together they spell the text. A token that fits no rule is one character, or it
starts with a quote that is never closed and takes all that is left. -/
theorem Token.tokenize_lossless (locale : Locale) (formula : String) :
    (Lexer.ofText locale formula.toList).Cuts (tokenize locale formula) formula.toList ∧
      (∀ t ∈ tokenize locale formula, t.text ≠ "") ∧
      spell (tokenize locale formula) = formula ∧
      ∀ before t after, tokenize locale formula = before ++ t :: after → t.kind = .unknown →
        t.text.length = 1 ∨
          after = [] ∧ ∃ body, t.text.toList = '\'' :: body ∧ Lexer.Unclosed body := by
  have hcuts : (Lexer.ofText locale formula.toList).Cuts (tokenize locale formula) formula.toList :=
    Lexer.cuts_tokens _ _
  refine ⟨hcuts, ?_, String.toList_inj.mp hcuts.toList_spell, ?_⟩
  · rintro t ht hempty
    obtain ⟨rest, hlexeme⟩ := hcuts.lexeme_of_mem ht
    have hpos := hlexeme.length_pos
    rw [hempty] at hpos
    cases hpos
  · intro before t after hsplit hunknown
    rw [hsplit] at hcuts
    obtain ⟨rest, hlexeme, hafter⟩ := hcuts.lexeme_of_append
    rw [hunknown] at hlexeme
    rcases hlexeme.unknown with hone | ⟨rfl, hopen⟩
    · exact .inl hone
    · exact .inr ⟨hafter.eq_nil, hopen⟩

/-- A separator of two characters, no decimal separator, and a quote that stays open. -/
theorem Token.tokenize_open_quote :
    let formula := "::a|'b''c"
    let tokens := tokenize ⟨"", "::"⟩ formula
    tokens = [⟨.argSeparator, "::"⟩, ⟨.symbol, "a"⟩, ⟨.unknown, "|"⟩] ++ [⟨.unknown, "'b''c"⟩] ∧
      spell tokens = formula ∧ ∃ body, "'b''c".toList = '\'' :: body ∧ Lexer.Unclosed body := by
  intro formula tokens
  have htokens : tokens =
      [⟨.argSeparator, "::"⟩, ⟨.symbol, "a"⟩, ⟨.unknown, "|"⟩] ++ [⟨.unknown, "'b''c"⟩] := by
    decide +kernel
  obtain ⟨-, -, hspell, hunknown⟩ := tokenize_lossless ⟨"", "::"⟩ formula
  have hopen := (hunknown _ _ _ htokens rfl).resolve_left (by decide)
  exact ⟨htokens, hspell, hopen.2⟩

end SheetFormula
