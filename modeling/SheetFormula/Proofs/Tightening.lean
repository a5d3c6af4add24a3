import SheetFormula.Proofs.Fusion
import SheetFormula.Proofs.Lookahead

/-!
Spaces inside of ranges. A range that is put together has no spaces around its colon, so that a text whose
ranges are put together is shorter than what it came from. It still has the same tokens, less these
spaces (`Lexer.Cuts.tighten`): the left end of a range was followed by a blank or a colon and is
followed by a colon now, and what comes after the range is looked at in the same way. Ranges are found
in them at the same places, so that putting ranges together is done once and for all.
-/

set_option autoImplicit false

namespace SheetFormula

namespace Token

/-- The tokens without the spaces inside of ranges. -/
def tighten : List Token → List Token
  | [] => []
  | t :: ts =>
    match h : rangeEnd? t ts with
    | some (right, rest) =>
      have := length_lt_of_rangeEnd? h
      t :: colon :: right :: tighten rest
    | none => t :: tighten ts
termination_by tokens => tokens.length
decreasing_by all_goals simp only [List.length_cons]; omega

variable {t right : Token} {tokens rest : List Token}

theorem tighten_range (h : rangeEnd? t tokens = some (right, rest)) :
    tighten (t :: tokens) = t :: colon :: right :: tighten rest := by
  rw [tighten]
  split
  · rename_i found after hfound
    rw [h] at hfound
    cases hfound
    rfl
  · rename_i hnone
    rw [h] at hnone
    cases hnone

theorem tighten_cons (h : rangeEnd? t tokens = none) :
    tighten (t :: tokens) = t :: tighten tokens := by
  rw [tighten]
  split
  · rename_i found after hfound
    rw [h] at hfound
    cases hfound
  · rfl

theorem rangeEnd?_of_leftEdge? (h : leftEdge? t = none) (tokens : List Token) :
    rangeEnd? t tokens = none := by
  rw [rangeEnd?, h]

/-- Tightened tokens spell what the fused ones spell. -/
theorem spell_tighten (tokens : List Token) : spell (tighten tokens) = spell (fuseRanges tokens) := by
  apply String.toList_injective
  simp only [toList_spell]
  fun_induction fuseRanges tokens with
  | case1 => rw [tighten]
  | case2 left tokens right rest hend _ ih =>
    rw [tighten_range hend]
    simp [range, colon, ih]
  | case3 t tokens hend ih =>
    rw [tighten_cons hend]
    simp [ih]

/-- What begins no range begins the tightened tokens exactly where it begins the tokens. -/
theorem exists_of_tighten_append {before : List Token} (hbefore : ∀ t ∈ before, leftEdge? t = none)
    (h : tighten tokens = before ++ rest) : ∃ more, tokens = before ++ more ∧ tighten more = rest := by
  induction before generalizing tokens with
  | nil => exact ⟨tokens, rfl, h⟩
  | cons t before ih =>
    obtain ⟨ht, htail⟩ := List.forall_mem_cons.mp hbefore
    cases tokens with
    | nil =>
      rw [tighten] at h
      cases h
    | cons u tokens =>
      have hu : u = t := by
        cases hend : rangeEnd? u tokens with
        | none =>
          rw [tighten_cons hend] at h
          exact (List.cons.inj h).1
        | some next =>
          obtain ⟨right, last⟩ := next
          rw [tighten_range hend] at h
          exact (List.cons.inj h).1
      subst hu
      rw [tighten_cons (rangeEnd?_of_leftEdge? ht tokens), List.cons_append] at h
      obtain ⟨more, rfl, hmore⟩ := ih htail (List.cons.inj h).2
      exact ⟨more, rfl, hmore⟩

theorem head?_tighten (tokens : List Token) : (tighten tokens).head? = tokens.head? := by
  fun_cases tighten tokens <;> rfl

/-- No range begins where none began. -/
theorem rangeEnd?_tighten (h : rangeEnd? t tokens = none) : rangeEnd? t (tighten tokens) = none := by
  rw [Option.eq_none_iff_forall_not_mem]
  rintro ⟨right, rest⟩ hsome
  obtain ⟨hfit, hcolon⟩ := rangeEnd?_eq_some hsome
  obtain ⟨hright, before, after, hbefore, hafter, htight⟩ := afterColon?_eq_some_iff.mp hcolon
  have hspace {spaces : List Token} (h : ∀ u ∈ spaces, u.isSpace = true) :
      ∀ u ∈ spaces, leftEdge? u = none := by
    intro u hu
    have hkind : u.kind = .space := by simpa [isSpace] using h u hu
    rw [leftEdge?, hkind]
  have hnone : ∀ u ∈ before ++ colon :: after, leftEdge? u = none := by
    rw [List.forall_mem_append, List.forall_mem_cons]
    exact ⟨hspace hbefore, rfl, hspace hafter⟩
  rw [← List.cons_append, ← List.append_assoc] at htight
  obtain ⟨more, rfl, hmore⟩ := exists_of_tighten_append hnone htight
  have hhead := head?_tighten more
  rw [hmore] at hhead
  obtain ⟨last, rfl⟩ := List.head?_eq_some_iff.mp hhead.symm
  have hrun : afterColon? (before ++ colon :: after ++ right :: last) = some (right, last) :=
    afterColon?_eq_some_iff.mpr ⟨hright, before, after, hbefore, hafter, by simp⟩
  rw [hfit.rangeEnd? hrun] at h
  cases h

/-- Ranges are found at the same places without the spaces inside of them. -/
theorem fuseRanges_tighten (tokens : List Token) :
    fuseRanges (tighten tokens) = fuseRanges tokens := by
  fun_induction fuseRanges tokens with
  | case1 => rw [tighten, fuseRanges]
  | case2 left tokens right rest hend _ ih =>
    obtain ⟨hfit, hcolon⟩ := rangeEnd?_eq_some hend
    have hrun : afterColon? (colon :: right :: tighten rest) = some (right, tighten rest) :=
      afterColon?_eq_some_iff.mpr
        ⟨(afterColon?_eq_some_iff.mp hcolon).1, [], [], by simp, by simp, rfl⟩
    rw [tighten_range hend, fuseRanges_range (hfit.rangeEnd? hrun), ih]
  | case3 t tokens hend ih =>
    rw [tighten_cons hend, fuseRanges_cons (rangeEnd?_tighten hend), ih]

end Token

/-! ### The text without these spaces -/

namespace Lexer

variable {x : Lexer} {tokens : List Token} {text : List Char}

theorem Cuts.of_append {before after : List Token} (h : x.Cuts (before ++ after) text) :
    ∃ rest, x.Cuts after rest ∧ ∀ c ∈ rest, c ∈ text := by
  induction before generalizing text with
  | nil => exact ⟨text, h, fun _ hc => hc⟩
  | cons t before ih =>
    cases h with
    | cons lexeme cuts =>
      obtain ⟨rest, hrest, hmem⟩ := ih cuts
      exact ⟨rest, hrest, fun c hc => List.mem_append_right _ (hmem c hc)⟩

/-- What comes before a colon and spaces is followed by a blank or a colon. -/
theorem Cuts.exists_not_solid (hx : x.IsSolid) {before after : List Token}
    (hbefore : ∀ t ∈ before, t.isSpace = true) (h : x.Cuts (before ++ Token.colon :: after) text) :
    ∃ d ds, text = d :: ds ∧ isSolid d = false := by
  cases before with
  | nil =>
    have hspell := h.toList_spell
    rw [List.nil_append, Token.toList_spell, List.flatMap_cons] at hspell
    exact ⟨':', _, hspell.symm, rfl⟩
  | cons t before =>
    have ht := hbefore t List.mem_cons_self
    cases h with
    | @cons kind s rest _ lexeme cuts =>
      obtain rfl : kind = .space := by simpa [Token.isSpace] using ht
      obtain ⟨d, ds, rfl, hd⟩ := lexeme.exists_blank hx
      exact ⟨d, ds ++ rest, rfl, hd⟩

/-- The tightened tokens are those of the text without the spaces that are left out. -/
theorem Cuts.tighten (hx : x.IsSolid) (h : x.Cuts tokens text) :
    ∃ text', x.Cuts (Token.tighten tokens) text' ∧ SameStart text text' ∧
      text'.head? = text.head? ∧ ∀ c ∈ text', c ≠ ':' → c ∈ text := by
  fun_induction Token.tighten tokens generalizing text with
  | case1 => exact ⟨text, h, .refl text, rfl, fun _ hc _ => hc⟩
  | case2 t tokens right rest hend _ ih =>
    obtain ⟨hfit, hcolon⟩ := Token.rangeEnd?_eq_some hend
    obtain ⟨hright, before, after, hbefore, -, rfl⟩ := Token.afterColon?_eq_some_iff.mp hcolon
    cases h with
    | @cons kind s tail _ lexeme cuts =>
      obtain ⟨d, ds, rfl, hd⟩ := cuts.exists_not_solid hx hbefore
      rw [← List.cons_append, ← List.append_assoc] at cuts
      obtain ⟨last, hlast, hlastMem⟩ := cuts.of_append
      cases hlast with
      | @cons kind' s' rest' _ lexeme' cuts' =>
        obtain ⟨rest'', hcuts, hstart, -, hmem⟩ := ih cuts'
        have hspace : kind' ≠ .space := by simpa [Token.isSpace] using hright
        have hcuts' : x.Cuts (⟨kind', String.ofList s'⟩ :: Token.tighten rest) (s' ++ rest'') :=
          .cons (lexeme'.of_sameStart hx hspace hstart) hcuts
        have hcuts'' : x.Cuts (Token.colon :: ⟨kind', String.ofList s'⟩ :: Token.tighten rest)
            (':' :: (s' ++ rest'')) := .cons (lexeme_colon hx _) hcuts'
        have hlexeme : x.Lexeme kind s (':' :: (s' ++ rest'')) :=
          lexeme.of_sameStart hx hfit.ne_space.1 (.apart [] hd rfl)
        refine ⟨s ++ ':' :: (s' ++ rest''), .cons hlexeme hcuts'', .apart s hd rfl, ?_, ?_⟩
        · obtain ⟨c, cs, rfl, -⟩ := lexeme
          rfl
        · intro c hc hne
          simp only [List.mem_append, List.mem_cons, hne, false_or] at hc
          rw [List.mem_append]
          rcases hc with hc | hc | hc
          · exact .inl hc
          · exact .inr (hlastMem c (List.mem_append_left _ hc))
          · exact .inr (hlastMem c (List.mem_append_right _ (hmem c hc hne)))
  | case3 t tokens hend ih =>
    cases h with
    | @cons kind s rest _ lexeme cuts =>
      obtain ⟨rest', hcuts, hstart, hhead, hmem⟩ := ih cuts
      have hlexeme : x.Lexeme kind s rest' := by
        by_cases hkind : kind = .space
        · subst hkind
          exact lexeme.of_head? hhead
        · exact lexeme.of_sameStart hx hkind hstart
      refine ⟨s ++ rest', .cons hlexeme hcuts, hstart.append s, ?_, ?_⟩
      · obtain ⟨c, cs, rfl, -⟩ := lexeme
        rfl
      · intro c hc hne
        rw [List.mem_append] at hc ⊢
        exact hc.imp_right fun hc => hmem c hc hne

theorem isInlineBlank_eq {c : Char} (h : Text.isSpecialBlank c = false) :
    Text.isInlineBlank c = Text.isSimpleBlank c := by
  by_cases hsimple : Text.isSimpleBlank c = true
  · rw [hsimple]
    simp only [Text.isSimpleBlank, Bool.or_eq_true, beq_iff_eq] at hsimple
    rcases hsimple with rfl | rfl <;> rfl
  · simp only [Text.isSpecialBlank, hsimple, Bool.not_false, Bool.and_true] at h
    rw [Text.isInlineBlank, h]
    simp [hsimple]

/-- The blanks of a text stay blanks when characters are left out: the special ones count as long as
there are any. -/
theorem isBlank_ofText (locale : Locale) {text' : List Char}
    (h : ∀ c ∈ text', c ≠ ':' → c ∈ text) :
    ∀ c ∈ text', (ofText locale text').isBlank c = (ofText locale text).isBlank c := by
  intro c hc
  by_cases hspecial : text'.any Text.isSpecialBlank = true
  · have hany : text.any Text.isSpecialBlank = true := by
      obtain ⟨d, hd, hdspecial⟩ := List.any_eq_true.mp hspecial
      have hne : d ≠ ':' := by
        rintro rfl
        cases hdspecial
      exact List.any_eq_true.mpr ⟨d, h d hd hne, hdspecial⟩
    simp only [ofText, hspecial, hany]
  · have hplain : Text.isSpecialBlank c = false := by
      by_contra hblank
      exact hspecial (List.any_eq_true.mpr ⟨c, hc, by simpa using hblank⟩)
    simp only [ofText, hspecial, Bool.false_eq_true, if_false]
    split
    · exact (isInlineBlank_eq hplain).symm
    · rfl

end Lexer

/-- In a locale with solid separators, a text whose ranges are put together has them for its tokens. -/
theorem Token.rangeTokenize_of_solid {locale : Locale}
    (hsolid : ∀ text, (Lexer.ofText locale text).IsSolid) (formula : String) :
    rangeTokenize locale (spell (rangeTokenize locale formula)) = rangeTokenize locale formula := by
  have hcuts := Lexer.cuts_tokens (Lexer.ofText locale formula.toList) formula.toList
  obtain ⟨text, htight, -, -, hmem⟩ := hcuts.tighten (hsolid _)
  have htext : (spell (rangeTokenize locale formula)).toList = text := by
    rw [rangeTokenize, ← spell_tighten]
    exact htight.toList_spell
  have hcuts' : (Lexer.ofText locale text).Cuts (tighten (tokenize locale formula)) text :=
    htight.congr_isBlank rfl rfl rfl (Lexer.isBlank_ofText locale hmem)
  rw [rangeTokenize, tokenize, htext, hcuts'.tokens_eq, fuseRanges_tighten]
  rfl

/-- Ranges are put together once and for all, in the canonical locale and in the one with a decimal
comma: the text that the tokens spell has just these tokens. -/
theorem Token.rangeTokenize_spell (formula : String) :
    rangeTokenize .canonical (spell (rangeTokenize .canonical formula)) =
      rangeTokenize .canonical formula ∧
    rangeTokenize (.ofSeparators "," ";") (spell (rangeTokenize (.ofSeparators "," ";") formula)) =
      rangeTokenize (.ofSeparators "," ";") formula := by
  constructor
  · apply rangeTokenize_of_solid
    exact Lexer.isSolid_ofText (List.all_iff_forall_prop.mp (by decide))
      (List.all_iff_forall_prop.mp (by decide)) (List.all_iff_forall_prop.mp (by decide))
  · apply rangeTokenize_of_solid
    exact Lexer.isSolid_ofText (List.all_iff_forall_prop.mp (by decide))
      (List.all_iff_forall_prop.mp (by decide)) (List.all_iff_forall_prop.mp (by decide))

end SheetFormula
