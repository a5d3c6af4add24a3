import SheetFormula.Proofs.Association
import SheetFormula.Proofs.NumberText
import SheetFormula.Proofs.Ranges
import SheetFormula.Proofs.Recoding

/-!
Locales differ only by their separators. A formula that is read in the canonical locale is read in the
locale with a decimal comma once its tokens are spelt for it, and the tree is the same one, places
included.
-/

set_option autoImplicit false

namespace SheetFormula

open Lexer (pointToComma)

/-! ### Formulas without strays -/

namespace Token

variable {t left right : Token} {tokens rest : List Token}

theorem mem_of_afterColon?_of_unknown (h : afterColon? tokens = some (right, rest))
    (hright : right.kind ≠ .unknown) (ht : t ∈ tokens) (hkind : t.kind = .unknown) : t ∈ rest := by
  obtain ⟨-, before, after, hbefore, hafter, rfl⟩ := afterColon?_eq_some_iff.mp h
  have hspace {spaces : List Token} (h : ∀ u ∈ spaces, u.isSpace = true) : t ∉ spaces := by
    intro hmem
    simpa [isSpace, hkind] using h t hmem
  simp only [List.mem_append, List.mem_cons] at ht
  rcases ht with hmem | rfl | hmem | rfl | hmem
  · exact absurd hmem (hspace hbefore)
  · cases hkind
  · exact absurd hmem (hspace hafter)
  · exact absurd hkind hright
  · exact hmem

theorem Fit.known (h : Fit left right) : left.kind ≠ .unknown ∧ right.kind ≠ .unknown := by
  obtain ⟨edge, hleft, hright⟩ := h
  constructor
  · intro hkind
    simp [leftEdge?, hkind] at hleft
  · intro hkind
    simp [closes, hkind] at hright

/-- No range takes in a character that begins nothing. -/
theorem mem_fuseRanges_of_unknown (h : t ∈ tokens) (hkind : t.kind = .unknown) :
    t ∈ fuseRanges tokens := by
  fun_induction fuseRanges tokens with
  | case1 => cases h
  | case2 left tokens right rest hend _ ih =>
    obtain ⟨hfit, hcolon⟩ := rangeEnd?_eq_some hend
    have htail : t ∈ tokens := by
      refine (List.mem_cons.mp h).resolve_left ?_
      rintro rfl
      exact hfit.known.1 hkind
    exact List.mem_cons_of_mem _ (ih (mem_of_afterColon?_of_unknown hcolon hfit.known.2 htail hkind))
  | case3 u tokens hend ih =>
    rcases List.mem_cons.mp h with rfl | h
    · exact List.mem_cons_self
    · exact List.mem_cons_of_mem _ (ih h)

end Token

theorem Terminal.exists_stray {locale : Locale} {t : Indexed} (tokens : List Indexed)
    (h : t ∈ tokens) (hkind : t.1.kind = .unknown) :
    ∃ u ∈ ofIndexed locale tokens, u.role = .stray := by
  induction tokens using terminalInduction with
  | nil => cases h
  | call v u tokens hcall ih =>
    rw [ofIndexed_call hcall]
    simp only [startsCall, Bool.and_eq_true, beq_iff_eq] at hcall
    have hmem : t ∈ tokens := by
      simp only [List.mem_cons] at h
      rcases h with rfl | rfl | h
      · simp [hkind] at hcall
      · simp [hkind] at hcall
      · exact h
    obtain ⟨u, hu, hrole⟩ := ih hmem
    exact ⟨u, List.mem_cons_of_mem _ hu, hrole⟩
  | join v u w tokens hjoins ih =>
    rw [ofIndexed_join hjoins]
    simp only [joins, Token.isOperator, Bool.and_eq_true, beq_iff_eq] at hjoins
    have hmem : t ∈ tokens := by
      simp only [List.mem_cons] at h
      rcases h with rfl | rfl | rfl | h
      · simp [hkind] at hjoins
      · simp [hkind] at hjoins
      · simp [hkind] at hjoins
      · exact h
    obtain ⟨u, hu, hrole⟩ := ih hmem
    exact ⟨u, List.mem_cons_of_mem _ hu, hrole⟩
  | alone v tokens halone ih =>
    rw [ofIndexed_alone halone]
    rcases List.mem_cons.mp h with rfl | h
    · exact ⟨_, List.mem_cons_self, by simp [ofToken, roleOf, hkind]⟩
    · obtain ⟨u, hu, hrole⟩ := ih h
      exact ⟨u, List.mem_cons_of_mem _ hu, hrole⟩

/-- Every character of a formula that is read fits a rule. -/
theorem Expr.known_of_parse {reading : Reading} {formula : String} {root : Expr}
    (h : parse reading formula = .ok root) :
    ∀ t ∈ Token.tokenize reading.locale formula, t.kind ≠ .unknown := by
  intro t ht hkind
  have hfused : t ∈ Token.rangeTokenize reading.locale formula :=
    Token.mem_fuseRanges_of_unknown ht hkind
  have hunspaced : t ∈ Token.unspaced (Token.rangeTokenize reading.locale formula) :=
    List.mem_filter.mpr ⟨hfused, by simp [Token.isSpace, hkind]⟩
  rw [← Literals.map_fst_significant] at hunspaced
  obtain ⟨indexed, hindexed, rfl⟩ := List.mem_map.mp hunspaced
  obtain ⟨u, hu, hrole⟩ := Terminal.exists_stray _ hindexed hkind
  have hplace := (Parser.isChain_of_ofTokens h).2 u hu
  simp [Terminal.Begins, Terminal.Continues, hrole] at hplace

/-! ### Ranges -/

namespace Token

variable {t left right : Token} {tokens rest : List Token}

/-- Most tokens stay as they are. -/
theorem respelled_eq_self (h : t.kind ∉ [Kind.number, .argSeparator, .rowSeparator]) :
    t.respelled = t := by
  obtain ⟨kind, text⟩ := t
  cases kind with
  | number => simp at h
  | argSeparator => simp at h
  | rowSeparator => simp at h
  | _ => exact congrArg (Token.mk _) String.ofList_toList

theorem sameShape_respelled (t : Token) : t.SameShape t.respelled where
  kind := rfl
  text h := by
    rw [respelled_eq_self]
    rcases h with h | h <;> simp [h]

theorem dropMark_map_pointToComma (s : List Char) :
    Address.dropMark (s.map pointToComma) = (Address.dropMark s).map pointToComma := by
  cases s with
  | nil => rfl
  | cons c cs =>
    by_cases hmark : c = '$'
    · subst c
      rfl
    · have hmark' : pointToComma c ≠ '$' := by
        unfold pointToComma
        split
        · decide
        · exact hmark
      simp [Address.dropMark, hmark, hmark']

theorem isRow_map_pointToComma (s : List Char) :
    Address.isRow (s.map pointToComma) = Address.isRow s := by
  have hdigit : Char.isDigit ∘ pointToComma = Char.isDigit := funext fun c =>
    (Lexer.Apart.recoded ⟨rfl, rfl, rfl, rfl⟩ (Lexer.recoded_pointToComma c)).symm
  rw [Address.isRow, Address.isRow, dropMark_map_pointToComma, Address.isRowName,
    Address.isRowName, List.all_map, hdigit, List.length_map]

/-- The end of a range has no point. -/
theorem map_pointToComma_of_isRow {s : List Char} (h : Address.isRow s = true) :
    s.map pointToComma = s := by
  rw [Address.isRow, Address.isRowName, Bool.and_eq_true, Bool.and_eq_true] at h
  exact Lexer.map_pointToComma (Address.ne_of_dropMark (by decide) (by decide) h.1.1)

theorem leftEdge?_respelled (t : Token) : leftEdge? t.respelled = leftEdge? t := by
  obtain ⟨kind, text⟩ := t
  cases kind with
  | number => simp [leftEdge?, respelled, Lexer.respell, isRow_map_pointToComma]
  | symbol => rw [respelled_eq_self (by simp)]
  | _ => rfl

theorem closes_respelled (edge : Edge) (t : Token) : closes edge t.respelled = closes edge t := by
  obtain ⟨kind, text⟩ := t
  cases kind with
  | number => cases edge <;> simp [closes, respelled, Lexer.respell, isRow_map_pointToComma]
  | symbol => rw [respelled_eq_self (by simp)]
  | reference => rw [respelled_eq_self (by simp)]
  | _ => rfl

theorem isOperator_respelled (t : Token) (op : String) :
    t.respelled.isOperator op = t.isOperator op :=
  (Terminal.isOperator_eq t.sameShape_respelled op).symm

theorem afterColon?_respelled (tokens : List Token) :
    afterColon? (tokens.map respelled) =
      (afterColon? tokens).map fun next => (next.1.respelled, next.2.map respelled) := by
  have hspace : isSpace ∘ respelled = isSpace := rfl
  unfold afterColon?
  rw [List.dropWhile_map, hspace]
  cases tokens.dropWhile isSpace with
  | nil => rfl
  | cons colon more =>
    simp only [List.map_cons, List.dropWhile_map, hspace, isOperator_respelled]
    cases more.dropWhile isSpace with
    | nil => rfl
    | cons next rest =>
      simp only [List.map_cons]
      split <;> rfl

theorem rangeEnd?_respelled (t : Token) (tokens : List Token) :
    rangeEnd? t.respelled (tokens.map respelled) =
      (rangeEnd? t tokens).map fun next => (next.1.respelled, next.2.map respelled) := by
  unfold rangeEnd?
  rw [leftEdge?_respelled]
  split
  · rw [afterColon?_respelled, Option.filter_map]
    simp only [Function.comp_def, closes_respelled]
  · rfl

theorem Fit.respelled_eq (h : Fit left right) : left.respelled = left ∧ right.respelled = right := by
  obtain ⟨edge, hleft, hright⟩ := h
  obtain ⟨kind, text⟩ := left
  obtain ⟨kind', text'⟩ := right
  constructor
  · cases kind with
    | number =>
      have hrow : Address.isRow text.toList = true := by
        by_contra hrow
        simp [leftEdge?, hrow] at hleft
      simp [respelled, Lexer.respell, map_pointToComma_of_isRow hrow]
    | reference => exact respelled_eq_self (by simp)
    | symbol => exact respelled_eq_self (by simp)
    | _ => simp [leftEdge?] at hleft
  · cases kind' with
    | number =>
      have hrow : Address.isRow text'.toList = true := by
        cases edge <;> simp_all [closes]
      simp [respelled, Lexer.respell, map_pointToComma_of_isRow hrow]
    | reference => exact respelled_eq_self (by simp)
    | symbol => exact respelled_eq_self (by simp)
    | _ => simp [closes] at hright

theorem Fit.range_respelled (h : Fit left right) :
    range left.respelled right.respelled = (range left right).respelled := by
  rw [h.respelled_eq.1, h.respelled_eq.2, respelled_eq_self (t := range left right) (by simp [range])]

/-- The same ranges are put together. -/
theorem fuseRanges_respelled (tokens : List Token) :
    fuseRanges (tokens.map respelled) = (fuseRanges tokens).map respelled := by
  fun_induction fuseRanges tokens with
  | case1 => rw [List.map_nil, fuseRanges]
  | case2 left tokens right rest hend _ ih =>
    have hend' := rangeEnd?_respelled left tokens
    rw [hend] at hend'
    rw [List.map_cons, fuseRanges_range hend', ih, List.map_cons,
      (rangeEnd?_eq_some hend).1.range_respelled]
  | case3 t tokens hend ih =>
    have hend' := rangeEnd?_respelled t tokens
    rw [hend] at hend'
    rw [List.map_cons, fuseRanges_cons hend', ih, List.map_cons]

end Token

/-! ### Numbers -/

/-- The comma of a number is taken for its point again. -/
theorem replaceFirst_respell {x : Lexer} (hx : x.IsCanonical) {s rest : List Char}
    (h : x.number? (s ++ rest) = some s.length) :
    Text.replaceFirst [','] ['.'] (s.map pointToComma) = s := by
  obtain ⟨n, hspelt⟩ := Lexer.exists_speltWith_of_number? h
  rw [List.take_left, hx.decimal] at hspelt
  have hplain {cs : List Char} (hcs : ∀ c ∈ cs, Lexer.isNumberChar c = true) :
      cs.map pointToComma = cs ∧ ',' ∉ cs := by
    refine ⟨Lexer.map_pointToComma ?_, fun hcomma => absurd (hcs _ hcomma) (by decide)⟩
    rintro c hc rfl
    exact absurd (hcs _ hc) (by decide)
  have hdigits {ds : List Char} (hds : ∀ c ∈ ds, c.isDigit = true) :
      ∀ c ∈ ds, Lexer.isNumberChar c = true := fun c hc => Lexer.isNumberChar_of_isDigit (hds c hc)
  cases hspelt with
  | plain nonempty digits power =>
    obtain ⟨hmap, hcomma⟩ := hplain (List.forall_mem_append.mpr ⟨hdigits digits, power.isNumberChar⟩)
    rw [hmap, Text.replaceFirst_eq_self hcomma]
  | pointed separator nonempty digits places power =>
    obtain ⟨hwhole, hcomma⟩ := hplain (hdigits digits)
    obtain ⟨hmore, -⟩ := hplain (List.forall_mem_append.mpr ⟨hdigits places, power.isNumberChar⟩)
    rw [List.map_append, List.map_append, hwhole, hmore]
    exact Text.replaceFirst_append hcomma _

/-- A number of a formula that is no part of a range. -/
theorem Token.number?_of_mem {formula : String} {t : Token} (h : t ∈ rangeTokenize .canonical formula)
    (hkind : t.kind = .number) :
    ∃ c cs rest, t.text.toList = c :: cs ∧ (Lexer.ofText .canonical formula.toList).number?
      (c :: cs ++ rest) = some (c :: cs).length := by
  rcases mem_fuseRanges h with hmem | ⟨left, -, right, -, -, rfl⟩
  · obtain ⟨rest, c, cs, hs, hfirst⟩ := (Lexer.cuts_tokens _ formula.toList).lexeme_of_mem hmem
    rw [hkind, hs] at hfirst
    exact ⟨c, cs, rest, hs, Lexer.number?_of_first hfirst⟩
  · cases hkind

theorem Literal.number?_respelled {formula : String} {t : Token}
    (h : t ∈ Token.rangeTokenize .canonical formula) (hkind : t.kind = .number) :
    number? (.ofSeparators "," ";") t.respelled.text = number? .canonical t.text := by
  obtain ⟨c, cs, rest, hs, hnumber⟩ := Token.number?_of_mem h hkind
  rw [number?, if_neg (by decide), number?, if_pos (by decide), Token.respelled,
    String.toList_ofList, hkind, hs]
  exact congrArg Number.ofNumeral? (replaceFirst_respell (Lexer.isCanonical_ofText _) hnumber)

theorem Literal.isRegular_of_number? {formula : String} {t : Token}
    (h : t ∈ Token.rangeTokenize .canonical formula) (hkind : t.kind = .number) {value : Number}
    (hvalue : number? .canonical t.text = some value) : (Atom.number value).IsRegular := by
  obtain ⟨c, cs, rest, hs, hnumber⟩ := Token.number?_of_mem h hkind
  have hhead := Number.mem_heads (Lexer.digit_or_decimal (d := '.') rfl hnumber)
  rw [number?, if_pos (by decide), hs] at hvalue
  rintro rfl
  cases Number.isUnsigned_of_ofNumeral? hhead hvalue

/-! ### Trees -/

theorem Vocabulary.ample_regular : Vocabulary.regular.Ample where
  leaf _ atom hatom := by
    simp only [List.mem_cons, List.not_mem_nil, or_false] at hatom
    rcases hatom with rfl | rfl | rfl | rfl | rfl <;> trivial
  function _ _ := trivial

namespace Expr

variable {limit : Option Nat} {formula : String} {root : Expr}

theorem same_self_of_parse (h : parse ⟨.canonical, limit⟩ formula = .ok root) :
    root.same root = true := by
  have hoperand : root.IsOperand .regular := by
    refine Parser.isOperand_of_ofTokens h (Terminal.sound_ofIndexed Vocabulary.ample_regular _ ?_)
    intro t ht hkind value hvalue
    exact Literal.isRegular_of_number? (Literals.mem_of_mem_significant ht).1 hkind hvalue
  exact same_self (V := .regular) (fun _ _ hatom => hatom) hoperand.1

end Expr

/-- Equal terminals make equal trees. -/
theorem Parser.congruence_eq : Congruence Eq Eq where
  omitted := by
    rintro i _ rfl
    rfl
  marked := by
    rintro e _ i _ rfl rfl
    rfl
  sign := by
    rintro e _ i _ op rfl rfl
    rfl
  suffix := by
    rintro e _ i _ op rfl rfl
    rfl
  operation := by
    rintro a _ b _ op rfl rfl
    rfl
  call := by
    rintro as as' i _ j _ name has rfl rfl
    rw [List.forall₂_eq_eq_eq] at has
    rw [has]
  array := by
    rintro rs rs' i _ j _ hrs rfl rfl
    rw [List.forall₂_eq_eq_eq, List.forall₂_eq_eq_eq] at hrs
    rw [hrs]

namespace Terminal

theorem Role.like_refl (role : Role) : role.Like Eq role := by
  cases role with
  | operand e => exact .operand rfl
  | _ => exact .same (by simp)

theorem roleOf_respelled {t : Token} (index : Nat)
    (hnumber : t.kind = .number →
      Literal.number? (.ofSeparators "," ";") t.respelled.text = Literal.number? .canonical t.text) :
    roleOf (.ofSeparators "," ";") t.respelled index = roleOf .canonical t index := by
  have hkind : t.respelled.kind = t.kind := rfl
  by_cases hsame : t.kind ∈ [Token.Kind.number, .argSeparator, .rowSeparator]
  · simp only [List.mem_cons, List.not_mem_nil, or_false] at hsame
    rcases hsame with h | h | h
    · simp only [roleOf, hkind, h, hnumber h]
    · simp only [roleOf, hkind, h]
    · simp only [roleOf, hkind, h]
  · rw [Token.respelled_eq_self hsame]
    cases h : t.kind with
    | number => simp [h] at hsame
    | _ => simp only [roleOf, h]

end Terminal

namespace Token

/-- Formulas without strays are cut at the same places in both locales. -/
theorem tokenize_respelled {formula : String}
    (hknown : ∀ t ∈ tokenize .canonical formula, t.kind ≠ .unknown) :
    tokenize (.ofSeparators "," ";") (spell ((tokenize .canonical formula).map respelled)) =
      (tokenize .canonical formula).map respelled := by
  have hcuts := Lexer.cuts_tokens (Lexer.ofText .canonical formula.toList) formula.toList
  let y : Lexer := ⟨[';'], ['\\'], [','], (Lexer.ofText .canonical formula.toList).isBlank⟩
  obtain ⟨text, htext, hrecoded, -⟩ :=
    hcuts.respelled (y := y) (Lexer.isCanonical_ofText _) ⟨rfl, rfl, rfl⟩ rfl hknown
  -- no separator is a blank, so the lexer of either text takes the same blanks
  have hspecial := Lexer.any_recoded (p := Text.isSpecialBlank) ⟨by decide, by decide, by decide,
    by decide⟩ hrecoded
  have hy : Lexer.ofText (.ofSeparators "," ";") text = y := by
    simp only [Lexer.ofText, ← hspecial]
    rfl
  have hspell := htext.toList_spell
  rw [← hy] at htext
  rw [← hspell] at htext
  exact htext.tokens_eq

end Token

theorem Terminal.like_respelled (formula : String) :
    List.Forall₂ (Terminal.Like Eq Eq) (ofTokens .canonical (Token.rangeTokenize .canonical formula))
      (ofTokens (.ofSeparators "," ";")
        ((Token.rangeTokenize .canonical formula).map Token.respelled)) := by
  -- that a token is one of the formula is kept, since only then its number is read alike
  have hpairs : List.Forall₂
      (fun t t' => t' = t.respelled ∧ t ∈ Token.rangeTokenize .canonical formula)
      (Token.rangeTokenize .canonical formula)
      ((Token.rangeTokenize .canonical formula).map Token.respelled) :=
    List.forall₂_map_right_iff.mpr (List.forall₂_same.mpr fun t ht => ⟨rfl, ht⟩)
  refine like_ofTokens ?_ ?_ ?_ hpairs
  · rintro t _ ⟨rfl, -⟩
    exact t.sameShape_respelled
  · rintro t _ index ⟨rfl, ht⟩
    rw [roleOf_respelled index (Literal.number?_respelled ht)]
    exact Role.like_refl _
  · rintro t _ v _ i j ⟨rfl, -⟩ ⟨rfl, -⟩ ht hv
    rw [Token.respelled_eq_self (t := t) (by simp [ht]), Token.respelled_eq_self (t := v) (by simp [hv])]

namespace Expr

variable {limit : Option Nat} {formula : String} {root : Expr}

/-- A formula that is read in the canonical locale is read with a decimal comma, once its tokens are
spelt for that locale. The tree is the same one, with the same places, and it is equal to itself: no
number in it is undefined. -/
theorem parse_respelled (h : parse ⟨.canonical, limit⟩ formula = .ok root) :
    parse ⟨.ofSeparators "," ";", limit⟩
        (Token.spell ((Token.tokenize .canonical formula).map Token.respelled)) = .ok root ∧
      root.same root = true := by
  refine ⟨?_, same_self_of_parse h⟩
  have htokens := Token.tokenize_respelled (known_of_parse h)
  have hfused : Token.rangeTokenize (.ofSeparators "," ";")
      (Token.spell ((Token.tokenize .canonical formula).map Token.respelled)) =
      (Token.rangeTokenize .canonical formula).map Token.respelled := by
    rw [Token.rangeTokenize, htokens, Token.fuseRanges_respelled, Token.rangeTokenize]
  have hlike : Agree (fun _ _ => True) Eq
      (ofTokens ⟨.canonical, limit⟩ (Token.rangeTokenize .canonical formula))
      (ofTokens ⟨.ofSeparators "," ";", limit⟩
        ((Token.rangeTokenize .canonical formula).map Token.respelled)) :=
    ofTokens_like Parser.congruence_eq (fun _ _ _ _ _ _ _ => trivial) (List.length_map _).symm rfl
      (Terminal.like_respelled formula)
  rw [parse] at h
  rw [parse, hfused]
  rw [h] at hlike
  generalize ofTokens ⟨.ofSeparators "," ";", limit⟩
    ((Token.rangeTokenize .canonical formula).map Token.respelled) = answer at hlike
  cases hlike with
  | ok hroot => rw [hroot]

/-- Of points at either end of a number, in names, quotes and strings, and of rows of both kinds. -/
theorem parse_decimal_comma :
    let formula := "=SUM(1.5,.5e1,2.,x.y,'a.b'!C1,2:5)&\"1.5;2\"+f(\x7b1.,2;.5,3\x7d)"
    let respelt := "=SUM(1,5;,5e1;2,;x.y;'a.b'!C1;2:5)&\"1.5;2\"+f(\x7b1,;2\\,5;3\x7d)"
    ∃ root, parse ⟨.canonical, some 9⟩ formula = .ok root ∧
      parse ⟨.ofSeparators "," ";", some 9⟩ respelt = .ok root ∧ root.same root = true := by
  intro formula respelt
  have hspell : Token.spell ((Token.tokenize .canonical formula).map Token.respelled) = respelt := by
    decide +kernel
  have hread : (parse ⟨.canonical, some 9⟩ formula).isOk = true := by decide +kernel
  obtain ⟨root, hroot⟩ := exists_ok_of_isOk hread
  have hagain := parse_respelled hroot
  rw [hspell] at hagain
  exact ⟨root, hroot, hagain⟩

end Expr

end SheetFormula
