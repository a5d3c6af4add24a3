import Mathlib.Data.List.TakeWhile
import SheetFormula.Proofs.Spelling
import SheetFormula.Token.Range

/-!
Ranges among the tokens of a text. A token of the fused list is a token of the text or a range between
two of them, so what the spelling of tokens says carries over.
-/

set_option autoImplicit false

namespace SheetFormula.Token

variable {t left right : Token} {tokens rest : List Token}

def colon : Token := ⟨.operator, ":"⟩

theorem eq_colon (h : t.isOperator ":" = true) : t = colon := by
  obtain ⟨kind, text⟩ := t
  simp only [isOperator, Bool.and_eq_true, beq_iff_eq] at h
  obtain ⟨rfl, rfl⟩ := h
  rfl

theorem dropWhile_isSpace_eq_cons_iff :
    tokens.dropWhile isSpace = t :: rest ↔ t.isSpace = false ∧
      ∃ spaces, (∀ u ∈ spaces, u.isSpace = true) ∧ tokens = spaces ++ t :: rest := by
  constructor
  · intro h
    have hhead := List.head?_dropWhile_not isSpace tokens
    rw [h] at hhead
    refine ⟨by simpa using hhead, tokens.takeWhile isSpace, ?_, ?_⟩
    · exact fun u hu => List.mem_takeWhile_imp hu
    · rw [← h, List.takeWhile_append_dropWhile]
  · rintro ⟨ht, spaces, hspaces, rfl⟩
    rw [List.dropWhile_append_of_pos hspaces, List.dropWhile_cons_of_neg (by simp [ht])]

/-- What comes after a colon: only spaces stand before the colon and between the two. -/
theorem afterColon?_eq_some_iff : afterColon? tokens = some (right, rest) ↔ right.isSpace = false ∧
    ∃ before after, (∀ u ∈ before, u.isSpace = true) ∧ (∀ u ∈ after, u.isSpace = true) ∧
      tokens = before ++ colon :: (after ++ right :: rest) := by
  constructor
  · intro h
    unfold afterColon? at h
    split at h
    · cases h
    · rename_i u more houter
      split at h
      · cases h
      · rename_i next last hinner
        split at h
        · rename_i hcolon
          cases h
          obtain ⟨-, before, hbefore, rfl⟩ := dropWhile_isSpace_eq_cons_iff.mp houter
          obtain ⟨hright, after, hafter, rfl⟩ := dropWhile_isSpace_eq_cons_iff.mp hinner
          exact ⟨hright, before, after, hbefore, hafter, by rw [eq_colon hcolon]⟩
        · cases h
  · rintro ⟨hright, before, after, hbefore, hafter, rfl⟩
    have houter : (before ++ colon :: (after ++ right :: rest)).dropWhile isSpace =
        colon :: (after ++ right :: rest) :=
      dropWhile_isSpace_eq_cons_iff.mpr ⟨rfl, before, hbefore, rfl⟩
    have hinner : (after ++ right :: rest).dropWhile isSpace = right :: rest :=
      dropWhile_isSpace_eq_cons_iff.mpr ⟨hright, after, hafter, rfl⟩
    simp only [afterColon?, houter, hinner]
    rfl

theorem mem_of_afterColon? (h : afterColon? tokens = some (right, rest)) :
    right ∈ tokens ∧ ∀ u ∈ rest, u ∈ tokens := by
  obtain ⟨-, before, after, -, -, rfl⟩ := afterColon?_eq_some_iff.mp h
  constructor
  · simp
  · intro u hu
    simp [hu]

/-- Two tokens with a colon between them make a range. -/
def Fit (left right : Token) : Prop :=
  ∃ edge, leftEdge? left = some edge ∧ closes edge right = true

theorem rangeEnd?_eq_some (h : rangeEnd? left tokens = some (right, rest)) :
    Fit left right ∧ afterColon? tokens = some (right, rest) := by
  unfold rangeEnd? at h
  split at h
  · rename_i edge hedge
    obtain ⟨hcolon, hcloses⟩ := Option.filter_eq_some_iff.mp h
    exact ⟨⟨edge, hedge, hcloses⟩, hcolon⟩
  · cases h

theorem Fit.rangeEnd? (h : Fit left right) (hcolon : afterColon? tokens = some (right, rest)) :
    rangeEnd? left tokens = some (right, rest) := by
  obtain ⟨edge, hedge, hcloses⟩ := h
  rw [Token.rangeEnd?, hedge, hcolon]
  exact Option.filter_eq_some_iff.mpr ⟨rfl, hcloses⟩

theorem Fit.ne_space (h : Fit left right) : left.kind ≠ .space ∧ right.kind ≠ .space := by
  obtain ⟨edge, hedge, hcloses⟩ := h
  constructor
  · intro hkind
    rw [leftEdge?, hkind] at hedge
    cases hedge
  · intro hkind
    simp [closes, hkind] at hcloses

theorem fuseRanges_range (h : rangeEnd? left tokens = some (right, rest)) :
    fuseRanges (left :: tokens) = range left right :: fuseRanges rest := by
  rw [fuseRanges]
  split
  · rename_i found after hfound
    rw [h] at hfound
    cases hfound
    rfl
  · rename_i hnone
    rw [h] at hnone
    cases hnone

theorem fuseRanges_cons (h : rangeEnd? t tokens = none) :
    fuseRanges (t :: tokens) = t :: fuseRanges tokens := by
  rw [fuseRanges]
  split
  · rename_i found after hfound
    rw [h] at hfound
    cases hfound
  · rfl

/-- A token of the fused list was there before or is a range. -/
theorem mem_fuseRanges (h : t ∈ fuseRanges tokens) :
    t ∈ tokens ∨ ∃ left ∈ tokens, ∃ right ∈ tokens, Fit left right ∧ t = range left right := by
  fun_induction fuseRanges tokens with
  | case1 => cases h
  | case2 left tokens right rest hend _ ih =>
    obtain ⟨hfit, hcolon⟩ := rangeEnd?_eq_some hend
    obtain ⟨hright, hrest⟩ := mem_of_afterColon? hcolon
    rcases List.mem_cons.mp h with rfl | h
    · exact .inr ⟨left, List.mem_cons_self, right, List.mem_cons_of_mem _ hright, hfit, rfl⟩
    · rcases ih h with hmem | ⟨l, hl, r, hr, hfit, rfl⟩
      · exact .inl (List.mem_cons_of_mem _ (hrest t hmem))
      · exact .inr ⟨l, List.mem_cons_of_mem _ (hrest l hl), r, List.mem_cons_of_mem _ (hrest r hr),
          hfit, rfl⟩
  | case3 u tokens hend ih =>
    rcases List.mem_cons.mp h with rfl | h
    · exact .inl List.mem_cons_self
    · rcases ih h with hmem | ⟨l, hl, r, hr, hfit, rfl⟩
      · exact .inl (List.mem_cons_of_mem _ hmem)
      · exact .inr ⟨l, List.mem_cons_of_mem _ hl, r, List.mem_cons_of_mem _ hr, hfit, rfl⟩

/-- Every token of a text is spelt as its kind asks. -/
theorem spelt_of_mem_tokenize {formula : String} (h : t ∈ tokenize .canonical formula) :
    ∃ rest, Lexer.Spelt t.kind t.text.toList rest := by
  obtain ⟨rest, hlexeme⟩ := (Lexer.cuts_tokens _ formula.toList).lexeme_of_mem h
  exact ⟨rest, Lexer.spelt_of_lexeme (Lexer.isCanonical_ofText _) hlexeme⟩

/-- A token of a formula that is no range is spelt as its kind asks. -/
theorem spelt_of_mem_rangeTokenize {formula : String} (h : t ∈ rangeTokenize .canonical formula)
    (hkind : t.kind ≠ .reference) : ∃ rest, Lexer.Spelt t.kind t.text.toList rest := by
  rcases mem_fuseRanges h with hmem | ⟨left, -, right, -, -, rfl⟩
  · exact spelt_of_mem_tokenize hmem
  · exact absurd rfl hkind

theorem text_of_invalidReference {formula : String} (h : t ∈ rangeTokenize .canonical formula)
    (hkind : t.kind = .invalidReference) : t.text = "#REF" := by
  obtain ⟨rest, hspelt⟩ := spelt_of_mem_rangeTokenize h (by simp [hkind])
  rw [hkind] at hspelt
  generalize hs : t.text.toList = s at hspelt
  cases hspelt
  exact String.toList_injective hs

theorem text_of_leftParen {formula : String} (h : t ∈ rangeTokenize .canonical formula)
    (hkind : t.kind = .leftParen) : t.text = "(" := by
  obtain ⟨rest, hspelt⟩ := spelt_of_mem_rangeTokenize h (by simp [hkind])
  rw [hkind] at hspelt
  generalize hs : t.text.toList = s at hspelt
  cases hspelt
  exact String.toList_injective hs

end SheetFormula.Token
