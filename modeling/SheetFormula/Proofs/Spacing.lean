import SheetFormula.Proofs.Wording

/-!
Words with blanks between them. A text that is made of the words of terminals, with spaces and line
breaks in any places between them, is cut into the tokens of the words and spaces, so that it is read as
the phrase whose terminals they are.
-/

set_option autoImplicit false

namespace SheetFormula

/-! ### Blanks -/

namespace Lexer

variable {x : Lexer}

theorem run_cons_of_pos {p : Char → Bool} {c : Char} (h : p c = true) (cs : List Char) :
    run p (c :: cs) = run p cs + 1 := by
  rw [run, List.takeWhile_cons_of_pos h, List.length_cons, run]

theorem run_cons_of_neg {p : Char → Bool} {c : Char} (h : p c = false) (cs : List Char) :
    run p (c :: cs) = 0 := by
  rw [run, List.takeWhile_cons_of_neg (by simp [h]), List.length_nil]

/-- A class of blanks, each run of which is one space. -/
def IsSpacing (x : Lexer) (p : Char → Bool) : Prop :=
  ∀ c cs, p c = true → x.first c cs = (.space, run p (c :: cs))

theorem isSpacing_isLineBreak (x : Lexer) : x.IsSpacing Text.isLineBreak := by
  intro c cs hc
  rw [first]
  simp only [hc, if_true]

theorem isSpacing_isBlank (hx : x.IsCanonical) : x.IsSpacing x.isBlank := by
  intro c cs hc
  have hbreak : Text.isLineBreak c = false := by
    rcases hx.blank with hblank | hblank <;> rw [hblank] at hc
    · simp only [Text.isSimpleBlank, Bool.or_eq_true, beq_iff_eq] at hc
      rcases hc with rfl | rfl <;> decide
    · simp only [Text.isInlineBlank, Bool.and_eq_true, Bool.not_eq_true'] at hc
      exact hc.2
  rw [first]
  simp only [hbreak, hc, if_true, Bool.false_eq_true, if_false]

theorem unspaced_tokens_of_spacing {p : Char → Bool} (hp : x.IsSpacing p) {c : Char}
    (hc : p c = true) (cs : List Char) :
    Token.unspaced (x.tokens (c :: cs)) = Token.unspaced (x.tokens (cs.drop (run p cs))) := by
  rw [tokens, hp c cs hc, run_cons_of_pos hc]
  exact Token.unspaced_cons_of_space rfl _

/-- One more blank in front adds no token but a space. -/
theorem unspaced_tokens_blank {p : Char → Bool} (hp : x.IsSpacing p) {c : Char} (hc : p c = true)
    (cs : List Char) : Token.unspaced (x.tokens (c :: cs)) = Token.unspaced (x.tokens cs) := by
  rw [unspaced_tokens_of_spacing hp hc]
  cases cs with
  | nil => rfl
  | cons d ds =>
    by_cases hd : p d = true
    · rw [unspaced_tokens_of_spacing hp hd, run_cons_of_pos hd, List.drop_succ_cons]
    · rw [run_cons_of_neg (by simpa using hd), List.drop_zero]

end Lexer

/-! ### Words and blanks -/

/-- A text of the words of terminals, in order, with blanks between them. -/
inductive Blend : List Terminal → List Char → Prop
  | nil : Blend [] []
  | blank {c : Char} {terminals : List Terminal} {text : List Char} (mem : c ∈ [' ', '\n'])
    (rest : Blend terminals text) : Blend terminals (c :: text)
  | word (t : Terminal) {terminals : List Terminal} {text : List Char}
    (rest : Blend terminals text) : Blend (t :: terminals) (t.written ++ text)

namespace Blend

variable {t : Terminal} {terminals terminals' : List Terminal} {text text' : List Char}

theorem append (h : Blend terminals text) (h' : Blend terminals' text') :
    Blend (terminals ++ terminals') (text ++ text') := by
  induction h with
  | nil => exact h'
  | blank mem rest ih => exact .blank mem ih
  | word t rest ih =>
    rw [List.append_assoc]
    exact .word t ih

theorem flatMap_written (terminals : List Terminal) :
    Blend terminals (terminals.flatMap Terminal.written) := by
  induction terminals with
  | nil => exact .nil
  | cons t terminals ih => exact .word t ih

theorem fits (h : Blend terminals text) {words : List (List Token)}
    (hwords : List.Forall₂ Terminal.Word terminals words)
    (hchain : (t :: terminals).IsChain Terminal.Adjacent) : t.Fits text := by
  cases h with
  | nil => exact Terminal.fits_nil t
  | @blank c terminals text mem rest =>
    have hblank : ∀ c ∈ [' ', '\n'], c ∈ Lexer.delimiters ∧ c ≠ '\'' ∧ c ≠ '(' ∧ c ≠ '=' ∧ c ≠ '>' :=
      List.all_iff_forall_prop.mp (by decide)
    obtain ⟨hdelimiter, hquote, hparen, hequals, hgreater⟩ := hblank c mem
    refine ⟨fun _ => ⟨Lexer.endsName_cons hdelimiter hquote text, by simpa using hparen⟩,
      fun _ _ => ?_⟩
    rw [Lexer.stops_cons]
    simp [hequals, hgreater]
  | word u rest =>
    cases hwords with
    | cons hu _ => exact (List.isChain_cons_cons.mp hchain).1.fits hu.isWord _

/-- The tokens of the text, but for the spaces, are those of the words. -/
theorem unspaced_tokens {x : Lexer} (hx : x.IsCanonical) (h : Blend terminals text)
    {words : List (List Token)} (hwords : List.Forall₂ Terminal.Word terminals words)
    (hchain : terminals.IsChain Terminal.Adjacent) :
    Token.unspaced (x.tokens text) = words.flatten := by
  induction h generalizing words with
  | nil =>
    cases hwords
    rw [Lexer.tokens]
    rfl
  | @blank c terminals text mem rest ih =>
    rw [← ih hwords hchain]
    simp only [List.mem_cons, List.not_mem_nil, or_false] at mem
    rcases mem with rfl | rfl
    · refine Lexer.unspaced_tokens_blank (Lexer.isSpacing_isBlank hx) ?_ text
      rcases hx.blank with hblank | hblank <;> rw [hblank] <;> decide
    · exact Lexer.unspaced_tokens_blank (Lexer.isSpacing_isLineBreak x) (by decide) text
  | @word t terminals text rest ih =>
    cases hwords with
    | @cons _ word _ words ht hwords =>
      have hcuts := ht.isWord.cuts hx (rest.fits hwords hchain) (Lexer.cuts_tokens x text)
      rw [hcuts.tokens_eq, List.flatten_cons, ← ih hwords hchain.tail, Token.unspaced,
        List.filter_append, Token.unspaced]
      refine congrArg (· ++ _) (List.filter_eq_self.mpr fun u hu => ?_)
      simpa [Token.isSpace] using ht.unspaced u hu

end Blend

/-! ### Reading -/

namespace Terminal

variable {terminals : List Terminal} {words : List (List Token)}

theorem exists_words (h : ∀ t ∈ terminals, t.HasWord) : ∃ words, List.Forall₂ Word terminals words := by
  induction terminals with
  | nil => exact ⟨[], .nil⟩
  | cons t terminals ih =>
    obtain ⟨⟨word, hword⟩, hrest⟩ := List.forall_mem_cons.mp h
    obtain ⟨words, hwords⟩ := ih hrest
    exact ⟨word :: words, .cons hword hwords⟩

theorem unspaced_words (h : List.Forall₂ Word terminals words) :
    ∀ u ∈ words.flatten, u.kind ≠ .space := by
  induction h with
  | nil => exact List.forall_mem_nil _
  | cons ht _ ih => exact List.forall_mem_append.mpr ⟨ht.unspaced, ih⟩

theorem head_words (h : List.Forall₂ Word terminals words) :
    ∀ u ∈ words.flatten.head?, u.isOperator ":" = false := by
  induction h with
  | nil => nofun
  | @cons t word terminals words ht _ ih =>
    cases word with
    | nil => exact ih
    | cons u word => exact ht.head

/-- The words of terminals spell them. -/
theorem spell_words (h : List.Forall₂ Word terminals words) :
    Spell .canonical terminals (Token.fuseRanges words.flatten) := by
  induction h with
  | nil =>
    rw [List.flatten_nil, Token.fuseRanges]
    exact .nil
  | cons ht hrest ih =>
    rw [List.flatten_cons, Token.fuseRanges_append (unspaced_words (.cons ht hrest)) ht.last
      (head_words hrest)]
    exact .cons ht.made ih

/-- The sign in front of a formula. -/
def equals : Terminal := ⟨.operator, "=", 0⟩

theorem MadeOf.head_of_begins {locale : Locale} {t : Terminal} {piece : List Token}
    (h : MadeOf locale t piece) (hbegins : t.Begins) :
    ∃ u us, piece = u :: us ∧ u.isOperator "=" = false := by
  cases h with
  | operator op =>
    refine ⟨_, _, rfl, ?_⟩
    simp only [Begins, Operator.isSign, Bool.or_eq_true, beq_iff_eq] at hbegins
    rcases hbegins with rfl | rfl <;> rfl
  | _ => exact ⟨_, _, rfl, rfl⟩

theorem Spell.body_of_begins {locale : Locale} {tokens : List Token}
    (h : Spell locale terminals (Token.unspaced tokens))
    (hbegins : ∀ t ∈ terminals.head?, t.Begins) : Spell locale terminals (Token.body tokens) := by
  unfold Token.body
  generalize Token.unspaced tokens = rest at h
  cases h with
  | nil => exact .nil
  | cons made rest =>
    obtain ⟨u, us, rfl, hu⟩ := made.head_of_begins (hbegins _ rfl)
    simp only [List.cons_append, hu, Bool.false_eq_true, if_false]
    exact .cons made rest

theorem Spell.body_of_equals {locale : Locale} {tokens : List Token}
    (h : Spell locale (.equals :: terminals) (Token.unspaced tokens)) :
    Spell locale terminals (Token.body tokens) := by
  unfold Token.body
  generalize Token.unspaced tokens = rest at h
  cases h with
  | cons made rest =>
    cases made
    exact rest

end Terminal

/-- Texts of the same words have the same tokens, whatever blanks stand between them. -/
theorem Blend.unspaced_tokenize_eq {terminals : List Terminal} {text text' : String}
    (h : Blend terminals text.toList) (h' : Blend terminals text'.toList)
    (hwords : ∀ t ∈ terminals, t.HasWord) (hchain : terminals.IsChain Terminal.Adjacent) :
    Token.unspaced (Token.tokenize .canonical text) =
      Token.unspaced (Token.tokenize .canonical text') := by
  obtain ⟨words, hwords⟩ := Terminal.exists_words hwords
  exact (h.unspaced_tokens (Lexer.isCanonical_ofText _) hwords hchain).trans
    (h'.unspaced_tokens (Lexer.isCanonical_ofText _) hwords hchain).symm

/-- A text of the words of terminals, with blanks between them, spells the terminals. -/
theorem Blend.spell {terminals : List Terminal} {text : String} (h : Blend terminals text.toList)
    (hwords : ∀ t ∈ terminals, t.HasWord) (hchain : terminals.IsChain Terminal.Adjacent) :
    Terminal.Spell .canonical terminals (Token.unspaced (Token.rangeTokenize .canonical text)) := by
  obtain ⟨words, hwords⟩ := Terminal.exists_words hwords
  have htokens : Token.unspaced (Token.tokenize .canonical text) = words.flatten :=
    h.unspaced_tokens (Lexer.isCanonical_ofText _) hwords hchain
  rw [Token.rangeTokenize, ← Token.fuseRanges_unspaced, htokens]
  exact Terminal.spell_words hwords

namespace Phrase

variable {d : Phrase} {text : String}

theorem Proper.isChain_equals (h : d.Proper) :
    (Terminal.equals :: d.yield).IsChain Terminal.Adjacent := by
  obtain ⟨hchain, hbegins⟩ := h.isChain_yield
  refine hchain.cons fun t ht => ⟨fun hends => ?_, fun _ => hbegins t ht⟩
  cases hends

/-- The words of a phrase, with blanks between them, are read as the phrase. -/
theorem Proper.derives (h : d.Proper) (hwords : ∀ t ∈ d.yield, t.HasWord)
    (hblend : Blend d.yield text.toList) :
    d.Derives .canonical (Token.rangeTokenize .canonical text) := by
  obtain ⟨hchain, hbegins⟩ := h.isChain_yield
  exact ⟨h.grammatical, (hblend.spell hwords hchain).body_of_begins hbegins⟩

theorem Proper.derives_equals (h : d.Proper) (hwords : ∀ t ∈ d.yield, t.HasWord)
    (hblend : Blend (.equals :: d.yield) text.toList) :
    d.Derives .canonical (Token.rangeTokenize .canonical text) := by
  have hall : ∀ t ∈ Terminal.equals :: d.yield, t.HasWord :=
    List.forall_mem_cons.mpr ⟨Terminal.hasWord_operator (by decide), hwords⟩
  exact ⟨h.grammatical, (hblend.spell hall h.isChain_equals).body_of_equals⟩

end Phrase

end SheetFormula
