import SheetFormula.Proofs.Spacing

/-!
Writing a formula and reading it again. The text of a tree that was read is accepted, and its tree is
the regrouped one: a right operand without parentheses goes on with the chain of its operator, and
parentheses that close a chain stay. Both trees have the same left-associated form.
-/

set_option autoImplicit false

namespace SheetFormula

namespace Phrase

variable {op : String} {d r : Phrase}

/-- All terminals of the phrase can be written. -/
def HasWords (d : Phrase) : Prop :=
  ∀ t ∈ d.yield, t.HasWord

theorem hasWord_opening : Terminal.opening.HasWord :=
  Terminal.hasWord_punctuation (c := '(') (by decide) rfl (.opening "(") nofun

theorem hasWord_closing : Terminal.closing.HasWord :=
  Terminal.hasWord_punctuation (c := ')') (by decide) rfl (.closing ")") fun _ => by decide

theorem HasWords.groupIf (h : d.HasWords) (needed : Bool) : (groupIf needed d).HasWords := by
  cases needed
  · exact h
  · refine List.forall_mem_cons.mpr ⟨hasWord_opening, ?_⟩
    exact Parser.forall_mem_append_singleton h hasWord_closing

theorem HasWords.mark (h : d.HasWords) (debug operation : Bool) :
    (mark debug operation d).HasWords := by
  cases debug
  · exact h
  · refine List.forall_mem_cons.mpr ⟨?_, h.groupIf operation⟩
    exact Terminal.hasWord_punctuation (c := '?') (by decide) rfl (.question "?") nofun

theorem HasWords.attach (hd : d.HasWords) (hr : r.HasWords) (hop : 0 < Operator.priority op) :
    (attach op d r).HasWords := by
  unfold HasWords
  rw [yield_attach]
  exact List.forall_mem_append.mpr
    ⟨hd, List.forall_mem_cons.mpr ⟨Terminal.hasWord_operator hop, hr⟩⟩

theorem hasWord_comma : Terminal.comma.HasWord :=
  Terminal.hasWord_punctuation (c := ',') (by decide) rfl (.comma ",") fun _ => by decide

theorem hasWords_call {function : String} {as : List Phrase}
    (hfunction : Terminal.HasWord ⟨.callStart, function, 0⟩) (has : ∀ a ∈ as, a.HasWords) :
    (Phrase.call function as).HasWords := by
  unfold HasWords
  rw [yield, yields_eq_map]
  refine List.forall_mem_cons.mpr ⟨hfunction, Parser.forall_mem_append_singleton ?_ hasWord_closing⟩
  exact forall_mem_intercalate hasWord_comma _ (List.forall_mem_map.mpr has)

theorem hasWords_array {rs : List (List Phrase)} (hrs : ∀ r ∈ rs, ∀ c ∈ r, c.HasWords) :
    (Phrase.array rs).HasWords := by
  unfold HasWords
  rw [yield, yieldRows_eq_map]
  refine List.forall_mem_cons.mpr ⟨?_, Parser.forall_mem_append_singleton ?_ ?_⟩
  · exact Terminal.hasWord_punctuation (c := '\x7b') (by decide) rfl (.openingBrace _)
      fun h => h.elim
  · refine forall_mem_intercalate ?_ _ (List.forall_mem_map.mpr fun r hr => ?_)
    · exact Terminal.hasWord_punctuation (c := ';') (by decide) rfl (.semicolon ";") fun _ => by decide
    · exact forall_mem_intercalate hasWord_comma _ (List.forall_mem_map.mpr (hrs r hr))
  · exact Terminal.hasWord_punctuation (c := '\x7d') (by decide) rfl (.closingBrace _) fun _ => by
      decide

end Phrase

namespace Expr

/-- The words of a tree of the grammar can be written. -/
theorem hasWords_phrase {e : Expr} (h : e.WellFormed .written) : (phrase e).HasWords := by
  induction e with
  | leaf l a =>
    by_cases ha : a = .empty
    · subst ha
      exact List.forall_mem_nil _
    · rw [phrase_leaf ha]
      have hleaf : Vocabulary.written.leaf l.text a := by
        cases a with
        | empty => exact absurd rfl ha
        | _ => exact (wellFormed_leaf l _).mp h
      have hword : (Phrase.leaf l.text a).HasWords := List.forall_mem_singleton.mpr hleaf.1
      exact hword.mark _ _
  | unary l suffix e ih =>
    obtain ⟨⟨hop, -⟩, he⟩ := (wellFormed_unary l suffix e).mp h
    rw [phrase]
    refine Phrase.HasWords.mark ?_ _ _
    cases suffix with
    | true =>
      have hbinds := Operator.priority_pos_of_isSuffix hop
      exact Parser.forall_mem_append_singleton ((ih he).groupIf _) (Terminal.hasWord_operator hbinds)
    | false =>
      have hbinds := Operator.priority_pos_of_isSign hop
      exact List.forall_mem_cons.mpr ⟨Terminal.hasWord_operator hbinds, (ih he).groupIf _⟩
  | binary l a b iha ihb =>
    obtain ⟨⟨hbinds, -⟩, ha, hb⟩ := (wellFormed_binary l a b).mp h
    rw [phrase]
    exact (((iha ha).groupIf _).attach ((ihb hb).groupIf _) hbinds).mark _ _
  | call l as ih =>
    obtain ⟨⟨hfunction, -⟩, has⟩ := (wellFormed_call l as).mp h
    rw [phrase, phrases_eq_map]
    refine Phrase.HasWords.mark (Phrase.hasWords_call hfunction ?_) _ _
    exact List.forall_mem_map.mpr fun e he => ih e he (has e he)
  | array l rs ih =>
    obtain ⟨-, hrs⟩ := (wellFormed_array l rs).mp h
    rw [phrase, phraseRows_eq_map]
    refine Phrase.HasWords.mark (Phrase.hasWords_array ?_) _ _
    exact List.forall_mem_map.mpr fun r hr =>
      List.forall_mem_map.mpr fun e he => ih r hr e he (hrs r hr e he)

/-- A formula that is read, if its strings are closed and its names are none that the canonical locale
takes for numbers, is a tree that can be written. -/
theorem isOperand_of_suits {locale : Locale} {limit : Option Nat} {formula : String} {root : Expr}
    (hsuits : (Lexer.ofText locale formula.toList).Suits locale)
    (h : parse ⟨locale, limit⟩ formula = .ok root)
    (hname : ∀ t ∈ Token.tokenize locale formula, t.kind = .symbol ∨ t.kind = .reference →
      Lexer.startsNumber t.text.toList = false)
    (hclosed : ∀ t ∈ Token.tokenize locale formula, t.kind = .string →
      Lexer.isClosedString t.text.toList = true) : root.IsOperand .written := by
  have hcuts := Lexer.cuts_tokens (Lexer.ofText locale formula.toList) formula.toList
  have hlegible := Token.allLegible_of_cuts hsuits hcuts hname hclosed
  refine Parser.isOperand_of_ofTokens h ?_
  refine Terminal.sound_ofIndexed_written _ hlegible ?_ ?_ (Parser.isChain_of_ofTokens h).1
  · exact fun u hu => by simpa [Token.isSpace] using (List.mem_filter.mp hu).2
  · rw [Literals.map_fst_significant, Token.rangeTokenize, Token.fuseRanges_unspaced]
    rfl

/-- In the canonical locale no name begins as a number does. -/
theorem isOperand_of_parse {limit : Option Nat} {formula : String} {root : Expr}
    (h : parse ⟨.canonical, limit⟩ formula = .ok root)
    (hclosed : ∀ t ∈ Token.tokenize .canonical formula, t.kind = .string →
      Lexer.isClosedString t.text.toList = true) : root.IsOperand .written := by
  have hx := Lexer.isCanonical_ofText formula.toList
  refine isOperand_of_suits hx.suits h (fun t ht hkind => ?_) hclosed
  obtain ⟨rest, hlexeme⟩ := (Lexer.cuts_tokens _ formula.toList).lexeme_of_mem ht
  have hspelt := Lexer.spelt_of_lexeme hx hlexeme
  have hname : Lexer.NameText t.text.toList := by
    rcases hkind with hkind | hkind <;> rw [hkind] at hspelt
    · cases hspelt with
      | symbol name called => exact name
    · cases hspelt with
      | reference name cell uncalled => exact name
  have hstarts := Lexer.startsNumber_append hname ⟨Lexer.stops_nil _, Lexer.stops_nil _⟩
  rwa [List.append_nil] at hstarts

theorem blend_toFormula {V : Vocabulary} {e : Expr} (h : e.WellFormed V) :
    Blend (phrase e).yield e.toFormula.toList := by
  rw [← letters_phrase h]
  exact Blend.flatMap_written _

/-- The tokens of the text of a tree are those of its phrase. -/
theorem derives_toFormula {root : Expr} (h : root.IsOperand .written) :
    (phrase root).Derives .canonical (Token.rangeTokenize .canonical root.toFormula) :=
  (proper_phrase h.1 h.2).derives (hasWords_phrase h.1) (blend_toFormula h.1)

/-- The text of a tree that was read is read as the regrouped tree. -/
theorem exists_parse_toFormula {root : Expr} (h : root.IsOperand .written) :
    ∃ again, parse ⟨.canonical, none⟩ root.toFormula = .ok again ∧
      again.unplaced = root.reassociate.unplaced := by
  obtain ⟨again, hparse, htree⟩ := (derives_toFormula h).exists_ofTokens
  exact ⟨again, hparse, htree.trans (tree_phrase_and_attach h.1).1⟩

section

variable {again root : Expr} (hagain : again.unplaced = root.reassociate.unplaced)

include hagain

theorem leftAssociate_of_reassociate :
    again.leftAssociate.unplaced = root.leftAssociate.unplaced := by
  rw [unplaced_leftAssociate, hagain, ← unplaced_leftAssociate,
    (leftAssociate_reassociate_and_regroup root).1]

theorem same_iff_of_reassociate (hroot : root.IsOperand .written) :
    again.same root = true ↔ ∀ n ∈ root.nodes, n.isChained = false := by
  rw [← same_unplaced, hagain, same_unplaced]
  refine ⟨isChained_of_same_reassociate, fun hchained => ?_⟩
  rw [reassociate_eq_self hchained]
  exact same_self (V := .written) (fun text atom hleaf => hleaf.2) hroot.1

end

/-- What is read from the text of a formula's tree is the regrouped tree, with the same left-associated
form; it equals the tree exactly where no right operand goes on with the chain of its operator. -/
theorem parse_toFormula {limit : Option Nat} {formula : String} {root : Expr}
    (h : parse ⟨.canonical, limit⟩ formula = .ok root)
    (hclosed : ∀ t ∈ Token.tokenize .canonical formula, t.kind = .string →
      Lexer.isClosedString t.text.toList = true) :
    ∃ again, parse ⟨.canonical, none⟩ root.toFormula = .ok again ∧
      again.unplaced = root.reassociate.unplaced ∧
      again.leftAssociate.unplaced = root.leftAssociate.unplaced ∧
      (again.same root = true ↔ ∀ n ∈ root.nodes, n.isChained = false) := by
  have hoperand := isOperand_of_parse h hclosed
  obtain ⟨again, hparse, htree⟩ := exists_parse_toFormula hoperand
  exact ⟨again, hparse, htree, leftAssociate_of_reassociate htree,
    same_iff_of_reassociate htree hoperand⟩

/-- Of a call with a marked chain, an argument left out and a string. -/
theorem parse_toFormula_of_call :
    let formula := "=SUM(?(a+(b-c+d)),,-x%&(\" of \"&y^2))"
    (∀ t ∈ Token.tokenize .canonical formula, t.kind = .string →
      Lexer.isClosedString t.text.toList = true) ∧
      ∃ root again, parse ⟨.canonical, some 9⟩ formula = .ok root ∧
        parse ⟨.canonical, none⟩ root.toFormula = .ok again ∧
        again.unplaced = root.reassociate.unplaced ∧
        again.leftAssociate.unplaced = root.leftAssociate.unplaced ∧
        (again.same root = true ↔ ∀ n ∈ root.nodes, n.isChained = false) := by
  intro formula
  have hclosed : ∀ t ∈ Token.tokenize .canonical formula, t.kind = .string →
      Lexer.isClosedString t.text.toList = true := by decide +kernel
  have hread : (parse ⟨.canonical, some 9⟩ formula).isOk = true := by decide +kernel
  obtain ⟨root, hroot⟩ := exists_ok_of_isOk hread
  obtain ⟨again, hagain⟩ := parse_toFormula hroot hclosed
  exact ⟨hclosed, root, again, hroot, hagain⟩

/-- A check that what is read from the text of a tree is not left-associated. -/
theorem exists_not_leftAssociated {locale : Locale} {formula : String}
    (hdiffer : (parse ⟨locale, none⟩ formula).toOption.any (fun root =>
      root.leftAssociate.same root.leftAssociate &&
        (parse ⟨.canonical, none⟩ root.toFormula).toOption.any fun again =>
          !again.same root.leftAssociate) = true) :
    ∃ root again, parse ⟨locale, none⟩ formula = .ok root ∧
      parse ⟨.canonical, none⟩ root.toFormula = .ok again ∧
      again.unplaced ≠ root.leftAssociate.unplaced := by
  obtain ⟨root, hroot, hchecked⟩ := exists_ok_of_any hdiffer
  obtain ⟨hself, hagain⟩ := Bool.and_eq_true_iff.mp hchecked
  obtain ⟨again, hagain, hother⟩ := exists_ok_of_any hagain
  refine ⟨root, again, hroot, hagain, fun heq => ?_⟩
  rw [← same_unplaced, ← heq, same_unplaced] at hself
  simp [hself] at hother

/-- Parentheses that close a chain stay in the text, so that what is read is not left-associated: in
`a*(x*-y)*c` the product in parentheses stays an operand. -/
theorem closed_chain_not_leftAssociated :
    (∀ t ∈ Token.tokenize .canonical "=a*((x*-y)*c)", t.kind = .string →
      Lexer.isClosedString t.text.toList = true) ∧
      ∃ root again, parse ⟨.canonical, none⟩ "=a*((x*-y)*c)" = .ok root ∧
        parse ⟨.canonical, none⟩ root.toFormula = .ok again ∧
        again.unplaced ≠ root.leftAssociate.unplaced := by
  exact ⟨by decide +kernel, exists_not_leftAssociated (by decide +kernel)⟩

end Expr

end SheetFormula
