import SheetFormula.Proofs.Grammar
import SheetFormula.Proofs.NumberText
import SheetFormula.Proofs.Quoting
import SheetFormula.Proofs.Ranges
import SheetFormula.Proofs.Words
import SheetFormula.Proofs.Writing

/-!
Terminals as they are written. A terminal that was read from a formula is written as a word: a text that
is cut into tokens which make the terminal again. References are the case with parts: the ends of a range
and the colons between them are tokens of their own until they are put together.
-/

set_option autoImplicit false

namespace SheetFormula

/-! ### Tokens that stand by themselves -/

namespace Token

open Lexer (NameText EndsName IsCell)

/-- The token is cut from a text wherever nothing continues it. -/
structure IsStable (t : Token) : Prop where
  lexeme : ∀ {x : Lexer} {rest : List Char}, x.IsCanonical → EndsName rest →
    rest.head? ≠ some '(' → x.Lexeme t.kind t.text.toList rest
  head : ∃ c cs, t.text.toList = c :: cs ∧ c ≠ '=' ∧ c ≠ '>'
  kind : t.kind ≠ .operator ∧ t.kind ≠ .space

theorem head_of_nameText {s : List Char} (h : NameText s) :
    ∃ c cs, s = c :: cs ∧ c ≠ '=' ∧ c ≠ '>' := by
  obtain ⟨c, cs, rfl, hc⟩ := h.exists_cons
  refine ⟨c, cs, rfl, ?_⟩
  rcases hc with hc | rfl
  · have hdelimiter := Lexer.not_mem_delimiters hc
    constructor <;> rintro rfl <;> exact hdelimiter (by decide)
  · decide

section

variable {t : Token}

theorem isStable_cell (hkind : t.kind = .reference) (hname : NameText t.text.toList)
    (hcell : IsCell t.text.toList) : IsStable t where
  lexeme hx hends hparen := hkind ▸ Lexer.lexeme_reference hx hname hends hcell hparen
  head := head_of_nameText hname
  kind := by simp [hkind]

theorem isStable_name (hkind : t.kind = .symbol) (hname : NameText t.text.toList)
    (hcell : ¬ IsCell t.text.toList) : IsStable t where
  lexeme hx hends _ := hkind ▸ Lexer.lexeme_symbol hx hname hends fun h => absurd h hcell
  head := head_of_nameText hname
  kind := by simp [hkind]

theorem isStable_number {n : Number.Numeral} (hkind : t.kind = .number)
    (h : n.IsText t.text.toList) : IsStable t where
  lexeme hx hends _ := hkind ▸ h.lexeme hx hends.symbol
  head := by
    obtain ⟨c, cs, htext, hc⟩ := h.exists_cons
    refine ⟨c, cs, htext, ?_, ?_⟩ <;> rintro rfl <;> cases hc
  kind := by simp [hkind]

theorem isStable_string (hkind : t.kind = .string)
    (h : Lexer.isClosedString t.text.toList = true) : IsStable t := by
  obtain ⟨body, htext, hbody⟩ : ∃ body, t.text.toList = '"' :: body ∧
      Lexer.closesString body = true := by
    unfold Lexer.isClosedString at h
    split at h
    · exact ⟨_, ‹_›, h⟩
    · cases h
  refine ⟨fun {x rest} hx _ _ => ?_, ⟨'"', body, htext, by decide⟩, by simp [hkind]⟩
  rw [htext, hkind]
  exact Lexer.lexeme_of_string hx hbody rest

end

theorem isStable_invalidReference : IsStable ⟨.invalidReference, "#REF"⟩ where
  lexeme hx _ _ := Lexer.lexeme_invalidReference hx _
  head := ⟨'#', _, rfl, by decide⟩
  kind := ⟨nofun, nofun⟩

/-! ### Tokens with colons between them -/

/-- Tokens that stand by themselves, each joined to the next by a colon. -/
inductive Linked : List Token → Prop
  | single {t : Token} (stable : t.IsStable) : Linked [t]
  | cons {t : Token} {ts : List Token} (stable : t.IsStable) (rest : Linked ts) :
    Linked (t :: colon :: ts)

variable {t : Token} {xs ys : List Token}

theorem Linked.append (hxs : Linked xs) (hys : Linked ys) : Linked (xs ++ colon :: ys) := by
  induction hxs with
  | single stable => exact .cons stable hys
  | cons stable rest ih => exact .cons stable ih

theorem Linked.exists_cons (h : Linked xs) : ∃ t ts, xs = t :: ts ∧ t.IsStable := by
  cases h with
  | single stable => exact ⟨_, _, rfl, stable⟩
  | cons stable rest => exact ⟨_, _, rfl, stable⟩

theorem Linked.unspaced (h : Linked xs) : ∀ t ∈ xs, t.kind ≠ .space := by
  induction h with
  | single stable => exact List.forall_mem_singleton.mpr stable.kind.2
  | cons stable rest ih =>
    exact List.forall_mem_cons.mpr ⟨stable.kind.2, List.forall_mem_cons.mpr ⟨nofun, ih⟩⟩

theorem IsStable.not_colon (h : t.IsStable) : t.isOperator ":" = false := by
  simp [isOperator, h.kind.1]

theorem Linked.head_not_colon (h : Linked xs) : ∀ t ∈ xs.head?, t.isOperator ":" = false := by
  obtain ⟨t, ts, rfl, ht⟩ := h.exists_cons
  rintro u ⟨⟩
  exact ht.not_colon

theorem Linked.last_not_colon (h : Linked xs) : ∀ t ∈ xs.getLast?, t.isOperator ":" = false := by
  induction h with
  | single stable =>
    rintro u ⟨⟩
    exact stable.not_colon
  | @cons t ts stable rest ih =>
    obtain ⟨u, us, rfl, -⟩ := rest.exists_cons
    exact ih

theorem Linked.cuts {x : Lexer} (hx : x.IsCanonical) (h : Linked xs) {more : List Token}
    {rest : List Char} (hends : EndsName rest) (hparen : rest.head? ≠ some '(')
    (hcuts : x.Cuts more rest) : x.Cuts (xs ++ more) ((spell xs).toList ++ rest) := by
  rw [toList_spell]
  induction h with
  | @single t stable =>
    have hcons := Lexer.Cuts.cons (stable.lexeme hx hends hparen) hcuts
    simpa using hcons
  | @cons t ts stable linked ih =>
    have hmem : [':'] ∈ Lexer.operators := by decide
    have hcolon := Lexer.Cuts.cons (Lexer.lexeme_of_operator hx hmem nofun) ih
    have hcons := Lexer.Cuts.cons (stable.lexeme hx
      (Lexer.endsName_cons (c := ':') (by decide) (by decide) _) (by simp)) hcolon
    simpa [colon] using hcons

end Token

/-! ### Words -/

namespace Terminal

open Lexer (NameText IsCell)

/-- The terminal is written as tokens that make it again. -/
structure Word (t : Terminal) (tokens : List Token) : Prop where
  isWord : t.IsWord tokens t.written
  unspaced : ∀ u ∈ tokens, u.kind ≠ .space
  made : MadeOf .canonical t (Token.fuseRanges tokens)
  head : ∀ u ∈ tokens.head?, u.isOperator ":" = false
  last : ∀ u ∈ tokens.getLast?, u.isOperator ":" = false

/-- The terminal can be written. -/
def HasWord (t : Terminal) : Prop :=
  ∃ tokens, t.Word tokens

theorem word_atom {text : String} {a : Atom} {tokens : List Token} (hlinked : Token.Linked tokens)
    (htext : Token.spell tokens = Expr.atomText text a)
    (hmade : MadeOf .canonical (.atom text a) (Token.fuseRanges tokens)) :
    Word (.atom text a) tokens where
  isWord := by
    have hwritten : (atom text a).written = (Token.spell tokens).toList := by rw [htext]; rfl
    rw [hwritten]
    refine ⟨fun hx hfits hcuts => ?_, nofun, fun _ => ?_⟩
    · obtain ⟨hends, hparen⟩ := hfits.operand trivial
      exact hlinked.cuts hx hends hparen hcuts
    · obtain ⟨t, ts, rfl, ht⟩ := hlinked.exists_cons
      obtain ⟨c, cs, hc, hne⟩ := ht.head
      rw [Token.toList_spell, List.flatMap_cons, hc]
      exact ⟨c, _, rfl, hne⟩
  unspaced := hlinked.unspaced
  made := hmade
  head := hlinked.head_not_colon
  last := hlinked.last_not_colon

/-- An atom that is one token. -/
theorem hasWord_atom {text : String} {a : Atom} {t : Token} (hstable : t.IsStable)
    (htext : t.text = Expr.atomText text a) (hmade : MadeOf .canonical (.atom text a) [t]) :
    HasWord (.atom text a) := by
  refine ⟨[t], word_atom (.single hstable) ?_ ?_⟩
  · rw [← htext]
    simp [Token.spell]
  · rwa [Token.fuseRanges_singleton]

/-- The operators of expressions. -/
def operators : List String :=
  ["%", "^", "*", "/", "+", "-", "&", ">", "<>", ">=", "<", "<=", "="]

theorem mem_operators {op : String} (h : 0 < Operator.priority op) : op ∈ operators := by
  unfold Operator.priority at h
  split at h <;> first | decide | cases h

theorem hasWord_operator {op : String} (h : 0 < Operator.priority op) :
    HasWord ⟨.operator, op, 0⟩ := by
  have hmem := mem_operators h
  have hlexer : ∀ op ∈ operators, op.toList ∈ Lexer.operators := by decide
  have hcolon : ∀ op ∈ operators, (op == ":") = false := by decide
  have hnot : (⟨.operator, op⟩ : Token).isOperator ":" = false := by
    simp only [Token.isOperator, hcolon op hmem, Bool.and_false]
  refine ⟨[⟨.operator, op⟩], ⟨fun hx hfits hcuts => ?_, fun _ => ?_, fun hsign => ?_⟩, ?_, ?_, ?_, ?_⟩
  · have hcons := Lexer.Cuts.cons
      (Lexer.lexeme_of_operator hx (hlexer op hmem) (hfits.operator rfl)) hcuts
    simpa [written] using hcons
  · obtain ⟨c, cs, htext, hc, hbracket, -, -, hquote⟩ :=
      Lexer.exists_cons_of_mem_operators (hlexer op hmem)
    refine ⟨c, cs, htext, List.mem_of_mem_drop hc, hquote, ?_⟩
    rintro rfl
    exact hbracket (by decide)
  · have hsigns : op = "+" ∨ op = "-" := by simpa [Terminal.Begins, Operator.isSign] using hsign
    rcases hsigns with rfl | rfl <;> exact ⟨_, [], rfl, by decide, by decide⟩
  · exact List.forall_mem_singleton.mpr (by rintro ⟨⟩)
  · rw [Token.fuseRanges_singleton]
    exact .operator op
  · rintro u ⟨⟩
    exact hnot
  · rintro u ⟨⟩
    exact hnot

theorem hasWord_callStart {name : String} (hname : NameText name.toList)
    (hfunction : Literal.isFunctionName name = true) : HasWord ⟨.callStart, name, 0⟩ := by
  refine ⟨[⟨.symbol, name⟩, ⟨.leftParen, "("⟩],
    ⟨fun {x more rest} hx _ hcuts => ?_, fun h => h.elim, fun _ => ?_⟩, ?_, ?_, ?_, ?_⟩
  · have hparen := hcuts.punctuation hx '(' .leftParen (by decide)
    have hcons := Lexer.Cuts.cons (Lexer.lexeme_symbol hx hname
      (Lexer.endsName_cons (c := '(') (by decide) (by decide) rest) fun _ => rfl) hparen
    simpa [written] using hcons
  · obtain ⟨c, cs, hc, hne⟩ := Token.head_of_nameText hname
    exact ⟨c, cs ++ ['('], by simp [written, hc], hne⟩
  · exact List.forall_mem_cons.mpr ⟨by rintro ⟨⟩, List.forall_mem_singleton.mpr (by rintro ⟨⟩)⟩
  · have hend : Token.rangeEnd? ⟨.symbol, name⟩ [⟨.leftParen, "("⟩] = none := by
      unfold Token.rangeEnd?
      split <;> rfl
    rw [Token.fuseRanges_cons hend, Token.fuseRanges_singleton]
    exact .call hfunction "("
  · rintro u ⟨⟩
    rfl
  · rintro u ⟨⟩
    rfl

/-- A bracket or a separator. -/
theorem hasWord_punctuation {t : Terminal} {c : Char} {kind : Token.Kind}
    (hmem : (c, kind) ∈ Lexer.punctuation) (hwritten : t.written = [c])
    (hmade : MadeOf .canonical t [⟨kind, String.ofList [c]⟩])
    (hcontinues : t.Continues → c ≠ '(') : HasWord t := by
  have hfacts : ∀ p ∈ Lexer.punctuation, p.1 ∈ Lexer.delimiters ∧ p.1 ≠ '\'' ∧ p.1 ≠ '=' ∧
      p.1 ≠ '>' ∧ p.2 ≠ .operator ∧ p.2 ≠ .space := by decide
  obtain ⟨hdelimiter, hquote, hequals, hgreater, hoperator, hspace⟩ := hfacts _ hmem
  have hnot : (⟨kind, String.ofList [c]⟩ : Token).isOperator ":" = false := by
    simp [Token.isOperator, hoperator]
  refine ⟨[⟨kind, String.ofList [c]⟩], ⟨fun hx _ hcuts => ?_, fun h => ?_, fun _ => ?_⟩, ?_, ?_, ?_, ?_⟩
  · rw [hwritten]
    exact hcuts.punctuation hx c kind hmem
  · exact ⟨c, [], hwritten, hdelimiter, hquote, hcontinues h⟩
  · exact ⟨c, [], hwritten, hequals, hgreater⟩
  · exact List.forall_mem_singleton.mpr hspace
  · rwa [Token.fuseRanges_singleton]
  · rintro u ⟨⟩
    exact hnot
  · rintro u ⟨⟩
    exact hnot

end Terminal

/-! ### Tokens of a text -/

namespace Lexer

/-- The lexer finds the parentheses of calls, and its numbers have no sign or mark when the locale reads
them. -/
structure Suits (x : Lexer) (locale : Locale) : Prop where
  paren : ∀ rest, x.Lexeme .leftParen ['('] rest
  number : ∀ {c : Char} {cs : List Char} {n : Nat}, x.number? (c :: cs) = some n → c ≠ '$' ∧
    ∀ more value, Literal.number? locale (String.ofList (c :: more)) = some value →
      Number.IsUnsigned value

theorem IsCanonical.suits {x : Lexer} (hx : x.IsCanonical) : x.Suits .canonical where
  paren rest := lexeme_of_punctuation hx (c := '(') (by decide) rest
  number := by
    intro c cs n h
    have hhead := Number.mem_heads (digit_or_decimal hx.decimal h)
    refine ⟨?_, fun more value hvalue => ?_⟩
    · rintro rfl
      exact absurd hhead (by decide)
    · rw [Literal.number?, if_pos (.inr rfl), String.toList_ofList] at hvalue
      exact Number.isUnsigned_of_ofNumeral? hhead hvalue

end Lexer

namespace Token

open Lexer (NameText IsCell)

/-- What the text tells of a token that was cut from it before the tokens `more`. -/
structure Legible (locale : Locale) (t : Token) (more : List Token) : Prop where
  symbol : t.kind = .symbol → NameText t.text.toList ∧
    (IsCell t.text.toList → ∃ u ∈ more.head?, u.kind = .leftParen)
  cell : t.kind = .reference → NameText t.text.toList ∧ IsCell t.text.toList
  number : t.kind = .number → (∃ c cs, t.text.toList = c :: cs ∧ c ≠ '$') ∧
    ∀ value, Literal.number? locale t.text = some value → Number.IsUnsigned value
  string : t.kind = .string → Lexer.isClosedString t.text.toList = true

/-- Each token is legible before the tokens that follow it. -/
def AllLegible (locale : Locale) : List Token → Prop
  | [] => True
  | t :: more => Legible locale t more ∧ AllLegible locale more

variable {locale : Locale}

theorem kind_of_cuts_paren {x : Lexer} (hx : x.Suits locale) {tokens : List Token}
    {rest : List Char} (h : x.Cuts tokens rest) (hparen : rest.head? = some '(') :
    ∃ u ∈ tokens.head?, u.kind = .leftParen := by
  obtain ⟨cs, rfl⟩ : ∃ cs, rest = '(' :: cs := ⟨rest.tail, (List.cons_head?_tail hparen).symm⟩
  rw [← h.tokens_eq, ← List.singleton_append, Lexer.tokens_lexeme (hx.paren cs)]
  exact ⟨_, rfl, rfl⟩

theorem legible_of_lexeme {x : Lexer} (hx : x.Suits locale) {kind : Kind} {s rest : List Char}
    {tokens : List Token} (h : x.Lexeme kind s rest) (hcuts : x.Cuts tokens rest)
    (hname : kind = .symbol ∨ kind = .reference → Lexer.startsNumber s = false)
    (hclosed : kind = .string → Lexer.isClosedString s = true) :
    Legible locale ⟨kind, String.ofList s⟩ tokens := by
  obtain ⟨c, cs, rfl, hfirst⟩ := h
  constructor <;> intro hkind <;> simp only [String.toList_ofList] <;> cases hkind
  · cases Lexer.spelt_of_name (Lexer.name_of_first hfirst (by decide)) (hname (.inl rfl)) with
    | symbol name called => exact ⟨name, fun hcell => kind_of_cuts_paren hx hcuts (called hcell)⟩
  · cases Lexer.spelt_of_name (Lexer.name_of_first hfirst (by decide)) (hname (.inr rfl)) with
    | reference name cell uncalled => exact ⟨name, cell⟩
  · obtain ⟨hmark, hunsigned⟩ := hx.number (Lexer.number?_of_first hfirst)
    exact ⟨⟨c, cs, rfl, hmark⟩, hunsigned cs⟩
  · exact hclosed rfl

theorem Legible.unspaced {t : Token} {more : List Token} (h : Legible locale t more) :
    Legible locale t (unspaced more) := by
  refine ⟨fun hkind => ?_, h.cell, h.number, h.string⟩
  obtain ⟨hname, hcalled⟩ := h.symbol hkind
  refine ⟨hname, fun hcell => ?_⟩
  obtain ⟨u, hu, hparen⟩ := hcalled hcell
  cases more with
  | nil => cases hu
  | cons v more =>
    cases hu
    rw [unspaced_cons (by simp [hparen])]
    exact ⟨u, rfl, hparen⟩

/-- The tokens of a text with closed strings are legible, with or without the spaces. -/
theorem allLegible_of_cuts {x : Lexer} (hx : x.Suits locale) {tokens : List Token} {text : List Char}
    (h : x.Cuts tokens text)
    (hname : ∀ t ∈ tokens, t.kind = .symbol ∨ t.kind = .reference →
      Lexer.startsNumber t.text.toList = false)
    (hclosed : ∀ t ∈ tokens, t.kind = .string → Lexer.isClosedString t.text.toList = true) :
    AllLegible locale (unspaced tokens) := by
  induction h with
  | nil => trivial
  | @cons kind s rest tokens lexeme cuts ih =>
    obtain ⟨hplain, hname⟩ := List.forall_mem_cons.mp hname
    obtain ⟨hstring, hclosed⟩ := List.forall_mem_cons.mp hclosed
    rw [String.toList_ofList] at hplain hstring
    by_cases hspace : kind = .space
    · rw [unspaced_cons_of_space hspace]
      exact ih hname hclosed
    · rw [unspaced_cons hspace]
      exact ⟨(legible_of_lexeme hx lexeme cuts hplain hstring).unspaced, ih hname hclosed⟩

theorem Legible.isStable_number {t : Token} {more : List Token} (h : Legible locale t more)
    (hkind : t.kind = .number) (hrow : Address.isRow t.text.toList = true) : t.IsStable := by
  obtain ⟨⟨c, cs, htext, hc⟩, -⟩ := h.number hkind
  have hmark : Address.dropMark t.text.toList = t.text.toList := by
    rw [htext]
    unfold Address.dropMark
    split
    · rename_i heq
      exact absurd (List.cons.inj heq).1 hc
    · rfl
  rw [Address.isRow, hmark, Address.isRowName, Bool.and_eq_true, Bool.and_eq_true] at hrow
  refine Token.isStable_number (n := ⟨t.text.toList, [], 0⟩) hkind ⟨?_, List.all_eq_true.mp hrow.1.1,
    by simp, [], .absent, by simp [Number.pointed]⟩
  rw [htext]
  exact List.cons_ne_nil c cs

theorem Legible.isStable_left {t : Token} {more : List Token} {edge : Edge}
    (h : Legible locale t more) (hedge : leftEdge? t = some edge) : t.IsStable := by
  unfold leftEdge? at hedge
  split at hedge
  · rename_i hkind
    exact isStable_cell hkind (h.cell hkind).1 (h.cell hkind).2
  · rename_i hkind
    split at hedge
    · exact h.isStable_number hkind ‹_›
    · cases hedge
  · rename_i hkind
    exact isStable_name hkind (h.symbol hkind).1
      (not_isCell_of_leftEdge? hkind (by rw [leftEdge?, hkind]; exact hedge))
  · cases hedge

theorem Legible.isStable_right {t : Token} {more : List Token} {edge : Edge}
    (h : Legible locale t more) (hcloses : closes edge t = true) : t.IsStable := by
  have hcloses' := hcloses
  unfold closes at hcloses
  split at hcloses
  · rename_i hkind
    exact isStable_cell hkind (h.cell hkind).1 (h.cell hkind).2
  · rename_i hkind
    exact isStable_name hkind (h.symbol hkind).1 (not_isCell_of_closes hkind hcloses')
  · rename_i hkind _
    exact isStable_name hkind (h.symbol hkind).1 (not_isCell_of_closes hkind hcloses')
  · rename_i hkind
    exact h.isStable_number hkind hcloses
  · cases hcloses

end Token

/-! ### Literals -/

namespace Terminal

open Lexer (NameText IsCell)

theorem hasWord_string {text : String} (h : Lexer.isClosedString text.toList = true) :
    HasWord (.atom (Literal.unquote text) .string) :=
  hasWord_atom (t := ⟨.string, text⟩) (Token.isStable_string rfl h) (Literal.quote_unquote h).symm
    (.string text)

theorem hasWord_number {value : Number} (h : Number.IsUnsigned value) :
    HasWord (.atom "" (.number value)) := by
  obtain ⟨n, htext, hvalue⟩ := Number.exists_isText h
  have hread : Literal.number? .canonical (Literal.numberText value) = some value := by
    rw [Literal.number?, if_pos (.inr rfl)]
    exact htext.speltWith.ofNumeral?.trans (congrArg some hvalue)
  exact hasWord_atom (t := ⟨.number, Literal.numberText value⟩)
    (Token.isStable_number rfl htext) rfl (.number hread)

theorem hasWord_boolean (value : Bool) : HasWord (.atom "" (.boolean value)) := by
  have hname : NameText (Literal.booleanText value).toList := by
    cases value <;>
      exact .plain (by decide) (List.all_eq_true.mp (by decide +kernel)) (by decide)
  have hcell : ¬ IsCell (Literal.booleanText value).toList := by
    cases value <;> (rw [IsCell]; decide)
  refine hasWord_atom (t := ⟨.symbol, Literal.booleanText value⟩) (Token.isStable_name rfl hname hcell)
    rfl ?_
  cases value
  · exact .falsity (by decide +kernel)
  · exact .truth (by decide +kernel)

end Terminal

/-! ### References -/

namespace Token

variable {locale : Locale} {t l r : Token} {tokens rest parts xs ys : List Token}

/-- The parts of a reference: a token by itself, or the two ends of a range. -/
inductive Parts : List Token → Token → Prop
  | whole {t : Token} (stable : t.IsStable) : Parts [t] t
  | range {l r : Token} (left : l.IsStable) (right : r.IsStable) (fit : Fit l r) :
    Parts [l, colon, r] (range l r)

theorem Parts.linked (h : Parts parts t) : Linked parts := by
  cases h with
  | whole stable => exact .single stable
  | range left right fit => exact .cons left (.single right)

theorem Parts.spell (h : Parts parts t) : spell parts = t.text := by
  cases h with
  | whole stable => simp [Token.spell]
  | range left right fit => simp [Token.spell, Token.range, colon, String.append_assoc]

theorem fuseRanges_colon (tokens : List Token) :
    fuseRanges (colon :: tokens) = colon :: fuseRanges tokens :=
  fuseRanges_cons (rangeEnd?_operator rfl tokens)

theorem Parts.fuseRanges_append (h : Parts xs l) (hunspaced : ∀ u ∈ xs ++ ys, u.kind ≠ .space)
    (hwhole : xs = [l] → rangeEnd? l ys = none) :
    fuseRanges (xs ++ ys) = l :: fuseRanges ys := by
  cases h with
  | whole stable => exact fuseRanges_cons (hwhole rfl)
  | @range l r left right fit =>
    refine fuseRanges_range ((rangeEnd?_eq_some_iff ?_).mpr ⟨fit, colon, rfl, rfl⟩)
    exact (List.forall_mem_cons.mp hunspaced).2

theorem Parts.fuseRanges (h : Parts parts t) : fuseRanges parts = [t] := by
  have hend : rangeEnd? t [] = none := by
    unfold rangeEnd?
    split <;> rfl
  have happend : Token.fuseRanges (parts ++ []) = t :: Token.fuseRanges [] :=
    h.fuseRanges_append (by simpa using h.linked.unspaced) fun _ => hend
  rwa [List.append_nil, Token.fuseRanges] at happend

/-- A token that is no reference was there before. -/
theorem peel_other (hlegible : AllLegible locale tokens) (hspaces : ∀ u ∈ tokens, u.kind ≠ .space)
    (hfuse : fuseRanges tokens = t :: rest) (hkind : t.kind ≠ .reference) :
    ∃ more, tokens = t :: more ∧ Legible locale t more ∧ AllLegible locale more ∧
      (∀ u ∈ more, u.kind ≠ .space) ∧ fuseRanges more = rest := by
  rcases fuseRanges_eq_cons hspaces hfuse with
    ⟨more, rfl, -, hmore⟩ | ⟨l, c, r, more, rfl, -, -, rfl, -⟩
  · exact ⟨more, rfl, hlegible.1, hlegible.2, (List.forall_mem_cons.mp hspaces).2, hmore⟩
  · exact absurd rfl hkind

/-- A reference falls into its parts. -/
theorem peel_reference (hlegible : AllLegible locale tokens)
    (hspaces : ∀ u ∈ tokens, u.kind ≠ .space)
    (hfuse : fuseRanges tokens = t :: rest) (hkind : t.kind = .reference) :
    ∃ parts more, tokens = parts ++ more ∧ Parts parts t ∧ (parts = [t] → rangeEnd? t more = none) ∧
      AllLegible locale more ∧ (∀ u ∈ more, u.kind ≠ .space) ∧ fuseRanges more = rest := by
  rcases fuseRanges_eq_cons hspaces hfuse with
    ⟨more, rfl, hend, hmore⟩ | ⟨l, c, r, more, rfl, hcolon, hfit, rfl, hmore⟩
  · obtain ⟨ht, hlegible⟩ := hlegible
    exact ⟨[t], more, rfl, .whole (isStable_cell hkind (ht.cell hkind).1 (ht.cell hkind).2),
      fun _ => hend, hlegible, (List.forall_mem_cons.mp hspaces).2, hmore⟩
  · obtain ⟨hl, -, hr, hlegible⟩ := hlegible
    obtain rfl := eq_colon hcolon
    have ⟨edge, hedge, hcloses⟩ := hfit
    refine ⟨[l, colon, r], more, rfl, .range (hl.isStable_left hedge) (hr.isStable_right hcloses) hfit,
      fun h => ?_, hlegible, fun u hu => hspaces u (by simp [hu]), hmore⟩
    cases (List.cons.inj h).2

end Token

namespace Terminal

open Token (Parts)

theorem hasWord_reference {parts : List Token} {t : Token} (h : Parts parts t)
    (hkind : t.kind = .reference) : HasWord (.atom t.text .reference) := by
  refine ⟨parts, word_atom h.linked h.spell ?_⟩
  rw [h.fuseRanges]
  obtain ⟨kind, text⟩ := t
  cases hkind
  exact .reference text

/-- Two references that a colon joins without making a range of them. -/
theorem hasWord_join {xs ys : List Token} {l r : Token} (hl : Parts xs l) (hr : Parts ys r)
    (hkindl : l.kind = .reference) (hkindr : r.kind = .reference)
    (hwhole : xs = [l] → Token.rangeEnd? l (Token.colon :: ys) = none) :
    HasWord (.atom (l.text ++ ":" ++ r.text) .reference) := by
  have hlinked := hl.linked.append hr.linked
  have hfuse := hl.fuseRanges_append hlinked.unspaced hwhole
  rw [Token.fuseRanges_colon, hr.fuseRanges] at hfuse
  refine ⟨xs ++ Token.colon :: ys, word_atom hlinked ?_ ?_⟩
  · refine String.toList_injective ?_
    have hls := congrArg String.toList hl.spell
    have hrs := congrArg String.toList hr.spell
    rw [Token.toList_spell] at hls hrs
    rw [Token.toList_spell, List.flatMap_append, List.flatMap_cons, hls, hrs]
    simp [Expr.atomText, Token.colon]
  · rw [hfuse]
    obtain ⟨kind, left⟩ := l
    obtain ⟨kind', right⟩ := r
    cases hkindl
    cases hkindr
    exact .range left right

end Terminal

/-! ### The words of a formula -/

/-- The leaves and the names of functions that can be written. -/
def Vocabulary.written : Vocabulary where
  leaf text a := (Terminal.atom text a).HasWord ∧ a.IsRegular
  function name := Terminal.HasWord ⟨.callStart, name, 0⟩

namespace Terminal

open Lexer (NameText IsCell)
open Token (Legible AllLegible)

variable {locale : Locale}

theorem sound_operand {text shown : String} {a : Atom} (h : HasWord (.atom text a))
    (hregular : a.IsRegular) (ha : a ≠ .empty) (start stop index : Nat) :
    Sound .written ⟨.operand (leaf text a start stop), shown, index⟩ :=
  isOperand_leaf (V := .written) ⟨h, hregular⟩ ha start stop

theorem sound_name {text : String} (hname : NameText text.toList) (hcell : ¬ IsCell text.toList)
    (index : Nat) : Sound .written ⟨.operand (nameLeaf text index), text, index⟩ := by
  unfold nameLeaf
  split
  · exact sound_operand (hasWord_boolean true) trivial nofun _ _ _
  · split
    · exact sound_operand (hasWord_boolean false) trivial nofun _ _ _
    · rename_i htrue hfalse
      exact sound_operand (hasWord_atom (t := ⟨.symbol, text⟩)
        (Token.isStable_name rfl hname hcell) rfl (.symbol htrue hfalse)) trivial nofun _ _ _

/-- A token that is no reference can be written again; a name that spells a cell stands before a
parenthesis only. -/
theorem sound_ofToken_written {t : Indexed} {more : List Token} (h : Legible locale t.1 more)
    (hkind : t.1.kind ≠ .reference)
    (hname : t.1.kind = .symbol → ¬ IsCell t.1.text.toList) :
    (ofToken locale t).Sound .written := by
  obtain ⟨⟨kind, text⟩, index⟩ := t
  cases kind with
  | reference => exact absurd rfl hkind
  | number =>
    unfold ofToken roleOf
    cases hvalue : Literal.number? locale text with
    | none => trivial
    | some value =>
      have hunsigned := (h.number rfl).2 value hvalue
      refine sound_operand (hasWord_number hunsigned) ?_ nofun _ _ _
      cases hunsigned <;> nofun
  | string => exact sound_operand (hasWord_string (h.string rfl)) trivial nofun _ _ _
  | symbol => exact sound_name (h.symbol rfl).1 (hname rfl) index
  | invalidReference =>
    exact sound_operand (hasWord_atom (t := ⟨.invalidReference, "#REF"⟩)
      Token.isStable_invalidReference rfl (.broken "#REF")) trivial nofun _ _ _
  | _ => trivial

/-- What stands before an opening parenthesis is no operand. -/
theorem not_ends_of_leftParen {t : Terminal} {indexed : List Indexed} {tokens : List Token}
    (hchain : (t :: ofIndexed locale indexed).IsChain Adjacent)
    (hfuse : Token.fuseRanges tokens = indexed.map Prod.fst)
    (hparen : ∃ u ∈ tokens.head?, u.kind = .leftParen) : ¬ t.Ends := by
  obtain ⟨u, hu, hkind⟩ := hparen
  cases tokens with
  | nil => cases hu
  | cons v more =>
    cases hu
    have hend : Token.rangeEnd? u more = none := by
      rw [Token.rangeEnd?, Token.leftEdge?, hkind]
    rw [Token.fuseRanges_cons hend] at hfuse
    obtain ⟨⟨w, index⟩, indexed, rfl, rfl, -⟩ := List.map_eq_cons_iff.mp hfuse.symm
    change w.kind = .leftParen at hkind
    have halone : Alone w (indexed.map Prod.fst) := by
      constructor
      · intro a rest _
        simp [startsCall, hkind]
      · intro a b rest _
        simp [joins, hkind]
    rw [ofIndexed_alone halone] at hchain
    intro hends
    have hcontinues := (List.isChain_cons_cons.mp hchain).1.1 hends
    simp [Continues, ofToken, roleOf, hkind] at hcontinues

/-- Terminals that were read from a legible text, one after the other, can be written again. -/
theorem sound_ofIndexed_written {tokens : List Token} (indexed : List Indexed)
    (hlegible : AllLegible locale tokens) (hspaces : ∀ u ∈ tokens, u.kind ≠ .space)
    (hfuse : Token.fuseRanges tokens = indexed.map Prod.fst)
    (hchain : (ofIndexed locale indexed).IsChain Adjacent) :
    ∀ t ∈ ofIndexed locale indexed, t.Sound .written := by
  induction indexed using terminalInduction generalizing tokens with
  | nil => exact List.forall_mem_nil _
  | call t u indexed hcall ih =>
    rw [ofIndexed_call hcall] at hchain ⊢
    simp only [startsCall, Bool.and_eq_true, beq_iff_eq] at hcall
    obtain ⟨⟨hname, hparen⟩, hfunction⟩ := hcall
    obtain ⟨_, -, ht, hlegible, hspaces, hfuse⟩ :=
      Token.peel_other hlegible hspaces hfuse (by simp [hname])
    obtain ⟨_, -, -, hlegible, hspaces, hfuse⟩ :=
      Token.peel_other hlegible hspaces hfuse (by simp [hparen])
    refine List.forall_mem_cons.mpr ⟨?_, ih hlegible hspaces hfuse hchain.tail⟩
    exact hasWord_callStart (ht.symbol hname).1 hfunction
  | join t u v indexed hjoin ih =>
    rw [ofIndexed_join hjoin] at hchain ⊢
    simp only [joins, Bool.and_eq_true, beq_iff_eq] at hjoin
    obtain ⟨⟨ht, hu⟩, hv⟩ := hjoin
    obtain ⟨xs, _, rfl, hxs, hwhole, hlegible, hspaces, hfuse⟩ :=
      Token.peel_reference hlegible hspaces hfuse ht
    have hcolon := Token.eq_colon hu
    obtain ⟨_, rfl, -, hlegible, hspaces', hfuse⟩ :=
      Token.peel_other hlegible hspaces hfuse (by simp [hcolon, Token.colon])
    obtain ⟨ys, more, rfl, hys, -, hlegible, hspaces'', hfuse⟩ :=
      Token.peel_reference hlegible hspaces' hfuse hv
    refine List.forall_mem_cons.mpr ⟨?_, ih hlegible hspaces'' hfuse hchain.tail⟩
    refine sound_operand (hasWord_join hxs hys ht hv fun hx => ?_) trivial (by rintro ⟨⟩) _ _ _
    rw [hcolon] at hspaces hwhole
    exact Token.rangeEnd?_of_append hspaces (hwhole hx)
  | alone t indexed halone ih =>
    rw [ofIndexed_alone halone] at hchain ⊢
    by_cases hkind : t.1.kind = .reference
    · obtain ⟨xs, more, rfl, hxs, -, hlegible, hspaces, hfuse⟩ :=
        Token.peel_reference hlegible hspaces hfuse hkind
      refine List.forall_mem_cons.mpr ⟨?_, ih hlegible hspaces hfuse hchain.tail⟩
      obtain ⟨⟨kind, text⟩, index⟩ := t
      cases hkind
      exact sound_operand (hasWord_reference hxs rfl) trivial (by rintro ⟨⟩) _ _ _
    · obtain ⟨more, rfl, ht, hlegible, hspaces, hfuse⟩ :=
        Token.peel_other hlegible hspaces hfuse hkind
      refine List.forall_mem_cons.mpr ⟨?_, ih hlegible hspaces hfuse hchain.tail⟩
      refine sound_ofToken_written ht hkind fun hsymbol hcell => ?_
      refine not_ends_of_leftParen hchain hfuse ((ht.symbol hsymbol).2 hcell) ?_
      simp [Ends, ofToken, roleOf, hsymbol]

end Terminal

end SheetFormula
