import SheetFormula.Expr.Literal
import SheetFormula.Proofs.Spelling

/-!
Quotes and what stands between them. A string is written between double quotes with a backslash before
each quote in it, a name between single quotes with each quote in it doubled. Reading undoes writing. For
what a formula holds between quotes writing undoes reading too: in a string that closes each quote has
been taken along by a backslash, in a name each quote has been doubled.
-/

set_option autoImplicit false

namespace SheetFormula

/-! ### Backslashes at the end -/

namespace Text

variable {c : Char} {s : List Char}

/-- How many backslashes the text ends in. -/
def backslashesAtEnd (s : List Char) : Nat :=
  (s.reverse.takeWhile (· == '\\')).length

/-- The text ends in an odd number of backslashes: a quote after it is taken along. -/
def endsLoose (s : List Char) : Bool :=
  backslashesAtEnd s % 2 == 1

theorem backslashesAtEnd_le (s : List Char) : backslashesAtEnd s ≤ s.length := by
  rw [← List.length_reverse]
  exact (List.takeWhile_sublist _).length_le

/-- A character in front counts only before backslashes alone. -/
theorem backslashesAtEnd_cons (c : Char) (s : List Char) :
    backslashesAtEnd (c :: s) =
      if c = '\\' ∧ backslashesAtEnd s = s.length then backslashesAtEnd s + 1
      else backslashesAtEnd s := by
  simp only [backslashesAtEnd, List.reverse_cons, List.takeWhile_append, List.length_reverse]
  by_cases hall : (s.reverse.takeWhile (· == '\\')).length = s.length
  · by_cases hc : c = '\\' <;> simp [hall, hc]
  · simp [hall]

@[simp] theorem endsLoose_nil : endsLoose [] = false := rfl

@[simp] theorem endsLoose_backslash : endsLoose ['\\'] = true := rfl

theorem endsLoose_cons (h : c ≠ '\\') (s : List Char) : endsLoose (c :: s) = endsLoose s := by
  rw [endsLoose, backslashesAtEnd_cons, if_neg fun hc => h hc.1, endsLoose]

/-- A backslash takes the next character along, be it a backslash or not. -/
@[simp] theorem endsLoose_pair (c : Char) (s : List Char) :
    endsLoose ('\\' :: c :: s) = endsLoose s := by
  have hle := backslashesAtEnd_le s
  have heven : backslashesAtEnd ('\\' :: c :: s) % 2 = backslashesAtEnd s % 2 := by
    simp only [backslashesAtEnd_cons, List.length_cons, true_and]
    by_cases hall : c = '\\' ∧ backslashesAtEnd s = s.length
    · rw [if_pos hall, if_pos (by omega)]
      omega
    · rw [if_neg hall, if_neg (by omega)]
  rw [endsLoose, heven, endsLoose]

end Text

/-! ### Text inside a string -/

namespace Lexer

open Text (endsLoose)

variable {b body rest : List Char}

/-- No quote of the text ends the string in which it stands. -/
inductive Inner : List Char → Prop
  | nil : Inner []
  | lone : Inner ['\\']
  | pair (c : Char) {b : List Char} (inner : Inner b) : Inner ('\\' :: c :: b)
  | plain {c : Char} {b : List Char} (quote : c ≠ '"') (backslash : c ≠ '\\') (inner : Inner b) :
    Inner (c :: b)

theorem Inner.head? (h : Inner b) : b.head? ≠ some '"' := by
  cases h with
  | plain quote => simpa using quote
  | _ => simp

theorem closesString_cons {c : Char} (hquote : c ≠ '"') (hbackslash : c ≠ '\\') (cs : List Char) :
    closesString (c :: cs) = closesString cs := by
  rw [closesString] <;> simp [hquote, hbackslash]

/-- A quote after such a text ends the string, unless it is taken along. -/
theorem Inner.closesString_quote (h : Inner b) :
    closesString (b ++ ['"']) = !endsLoose b := by
  induction h with
  | nil => rfl
  | lone => rfl
  | pair c inner ih => rw [Text.endsLoose_pair, ← ih]; rfl
  | plain quote backslash inner ih =>
    rw [Text.endsLoose_cons backslash, ← ih, List.cons_append, closesString_cons quote backslash]

/-- A quote that is taken along does not end the string. -/
theorem Inner.stringTail_loose (h : Inner b) (hloose : endsLoose b = true) (c : Char) (rest : List Char) :
    stringTail (b ++ c :: rest) = b.length + 1 + stringTail rest := by
  induction h with
  | nil => cases hloose
  | lone =>
    simp only [List.cons_append, List.nil_append, stringTail, List.length_singleton]
    omega
  | pair d inner ih =>
    rw [Text.endsLoose_pair] at hloose
    simp only [List.cons_append, stringTail, ih hloose, List.length_cons]
    omega
  | plain quote backslash inner ih =>
    rw [Text.endsLoose_cons backslash] at hloose
    rw [List.cons_append, stringTail_cons quote backslash, ih hloose, List.length_cons]
    omega

/-- A quote at the end of such a text has been taken along. -/
theorem Inner.of_append_quote (h : Inner (b ++ ['"'])) : Inner b ∧ endsLoose b = true := by
  generalize hs : b ++ ['"'] = s at h
  induction h generalizing b with
  | nil => simp at hs
  | lone => cases b <;> simp at hs
  | pair c inner ih =>
    rcases b with _ | ⟨d, _ | ⟨d', b⟩⟩
    · simp at hs
    · obtain rfl := (List.cons.inj hs).1
      exact ⟨.lone, rfl⟩
    · simp only [List.cons_append, List.cons.injEq] at hs
      obtain ⟨rfl, rfl, hs⟩ := hs
      obtain ⟨hb, hloose⟩ := ih hs
      exact ⟨.pair d' hb, by rw [Text.endsLoose_pair, hloose]⟩
  | plain quote backslash inner ih =>
    cases b with
    | nil => exact absurd (List.cons.inj hs).1.symm quote
    | cons d b =>
      simp only [List.cons_append, List.cons.injEq] at hs
      obtain ⟨rfl, hs⟩ := hs
      obtain ⟨hb, hloose⟩ := ih hs
      exact ⟨.plain quote backslash hb, by rw [Text.endsLoose_cons backslash, hloose]⟩

/-- A string that is left open has no quote that ends it. -/
theorem inner_of_open (htail : stringTail body = body.length) (hopen : closesString body = false) :
    Inner body := by
  fun_induction closesString body with
  | case1 => exact .nil
  | case2 => cases hopen
  | case3 more hmore =>
    have hlength : more.length = 0 := by simpa [stringTail] using htail.symm
    exact (hmore (by simpa using hlength)).elim
  | case4 => exact .lone
  | case5 c more ih => exact .pair c (ih (by simpa [stringTail] using htail) hopen)
  | case6 c more hend hquote hlast hescape ih =>
    have hbackslash := ne_backslash hlast hescape
    rw [stringTail_cons hquote hbackslash] at htail
    exact .plain hquote hbackslash (ih (by simpa using htail) hopen)

/-- A string that closes ends in its only such quote. -/
theorem exists_inner_of_closesString (h : closesString body = true) :
    ∃ b, body = b ++ ['"'] ∧ Inner b ∧ endsLoose b = false := by
  fun_induction closesString body with
  | case1 => cases h
  | case2 => exact ⟨[], rfl, .nil, rfl⟩
  | case3 => cases h
  | case4 => cases h
  | case5 c more ih =>
    obtain ⟨b, rfl, hb, hloose⟩ := ih h
    exact ⟨'\\' :: c :: b, rfl, .pair c hb, by rw [Text.endsLoose_pair, hloose]⟩
  | case6 c more hend hquote hlast hescape ih =>
    obtain ⟨b, rfl, hb, hloose⟩ := ih h
    have hbackslash : c ≠ '\\' := by
      rintro rfl
      cases b with
      | nil => exact hescape _ _ rfl rfl
      | cons d ds => exact hescape d (ds ++ ['"']) rfl rfl
    exact ⟨c :: b, rfl, .plain hquote hbackslash hb, by rw [Text.endsLoose_cons hbackslash, hloose]⟩

/-- Before a quote that stands at the end of a string no quote ends it. -/
theorem inner_of_append_quote (h : stringTail (b ++ ['"'] ++ rest) = (b ++ ['"']).length) : Inner b := by
  cases hclosed : closesString (b ++ ['"']) with
  | true =>
    obtain ⟨b', heq, hinner, -⟩ := exists_inner_of_closesString hclosed
    rwa [List.append_cancel_right heq]
  | false =>
    obtain rfl : rest = [] := (closesString_or_eq_nil h).resolve_left (by simp [hclosed])
    rw [List.append_nil] at h
    exact (inner_of_open h hclosed).of_append_quote.1

/-! ### Text inside a quoted name -/

/-- The quotes inside a name come in pairs, so that they are the same again after halving and doubling. -/
theorem expandChar_replacePair_of_quotedTail? (h : quotedTail? body = some body.length) :
    ∃ b, body = b ++ ['\''] ∧
      Text.expandChar '\'' '\'' '\'' (Text.replacePair '\'' '\'' '\'' b) = b := by
  fun_induction quotedTail? body with
  | case1 => cases h
  | case2 more ih =>
    obtain ⟨b, rfl, hb⟩ := ih (by simpa using h)
    refine ⟨'\'' :: '\'' :: b, rfl, ?_⟩
    rw [Text.replacePair, if_pos ⟨rfl, rfl⟩, Text.expandChar, if_pos rfl, hb]
  | case3 more hmore =>
    obtain rfl : more = [] := by simpa using h
    exact ⟨[], rfl, rfl⟩
  | case4 c more hpair hquote ih =>
    obtain ⟨b, rfl, hb⟩ := ih (by simpa using h)
    refine ⟨c :: b, rfl, ?_⟩
    rw [Text.replacePair_cons fun hc => absurd hc hquote, Text.expandChar, if_neg hquote, hb]

end Lexer

/-! ### Tokens between quotes -/

namespace Token

variable {locale : Locale} {formula : String} {t : Token}

/-- A string of a formula is a quote and what the scan after it takes. -/
theorem exists_stringTail (h : t ∈ tokenize locale formula) (hkind : t.kind = .string) :
    ∃ body rest, t.text.toList = '"' :: body ∧ Lexer.stringTail (body ++ rest) = body.length := by
  obtain ⟨rest, c, cs, hs, hfirst⟩ := (Lexer.cuts_tokens _ formula.toList).lexeme_of_mem h
  rw [hkind] at hfirst
  obtain ⟨rfl, hlength⟩ := Lexer.string_of_first hfirst
  rw [hs, List.length_cons] at hlength
  exact ⟨cs, rest, hs, by omega⟩

/-- A symbol that begins with a quote and ends with one. Only the quoted part of a name has quotes, so
this one closes it. -/
def isQuotedName (t : Token) : Bool :=
  t.kind == .symbol && t.text.toList.head? == some '\'' && t.text.toList.getLast? == some '\''

/-- A quoted name of a formula that ends with its closing quote. -/
theorem exists_quotedTail? (h : t ∈ tokenize locale formula) (hname : t.isQuotedName = true) :
    ∃ body, t.text.toList = '\'' :: body ∧ Lexer.quotedTail? body = some body.length := by
  simp only [isQuotedName, Bool.and_eq_true, beq_iff_eq] at hname
  obtain ⟨⟨hkind, hhead⟩, hlast⟩ := hname
  obtain ⟨rest, c, cs, hs, hfirst⟩ := (Lexer.cuts_tokens _ formula.toList).lexeme_of_mem h
  rw [hs] at hhead hlast hfirst
  obtain rfl : c = '\'' := by simpa using hhead
  have hfound := Lexer.name_of_first hfirst (by simp [hkind])
  obtain ⟨htext, -⟩ := Lexer.nameText_of_name hfound (by simp [hkind]) rfl
  generalize hcs : '\'' :: cs = s at htext
  cases htext with
  | plain nonempty symbol number =>
    subst hcs
    exact absurd rfl (Lexer.ne_quote_of_isSymbolChar (symbol _ List.mem_cons_self))
  | @quoted body tail closed symbol =>
    obtain rfl : cs = body ++ tail := (List.cons.inj hcs).2
    obtain rfl : tail = [] := by
      by_contra htail
      rw [← List.cons_append, List.getLast?_append, List.getLast?_eq_some_getLast htail,
        Option.some_or, Option.some.injEq] at hlast
      exact Lexer.ne_quote_of_isSymbolChar (symbol _ (List.getLast_mem htail)) hlast
    rw [List.append_nil] at hs
    exact ⟨body, hs, closed⟩

end Token

/-! ### Reading and writing -/

namespace Literal

open Text (endsLoose)

variable {b body : List Char}

/-- A text inside a string is what its value is written as. -/
theorem expandChar_replacePair_inner (h : Lexer.Inner b) :
    Text.expandChar '"' '\\' '"' (Text.replacePair '\\' '"' '"' b) = b ∧
      endsLoose (Text.replacePair '\\' '"' '"' b) = endsLoose b := by
  induction h with
  | nil => exact ⟨rfl, rfl⟩
  | lone => exact ⟨rfl, rfl⟩
  | @pair c b inner ih =>
    by_cases hc : c = '"'
    · subst hc
      rw [Text.replacePair, if_pos ⟨rfl, rfl⟩, Text.expandChar, if_pos rfl, ih.1,
        Text.endsLoose_cons (by decide), Text.endsLoose_pair, ih.2]
      exact ⟨rfl, rfl⟩
    · rw [Text.replacePair_cons fun _ => by simpa using hc, Text.replacePair_cons fun _ => inner.head?,
        Text.expandChar, if_neg (by decide), Text.expandChar, if_neg hc, ih.1, Text.endsLoose_pair,
        Text.endsLoose_pair, ih.2]
      exact ⟨rfl, rfl⟩
  | plain quote backslash inner ih =>
    rw [Text.replacePair_cons fun hc => absurd hc backslash, Text.expandChar, if_neg quote, ih.1,
      Text.endsLoose_cons backslash, Text.endsLoose_cons backslash, ih.2]
    exact ⟨rfl, rfl⟩

/-- What stands inside a string as it is written, closed or open, and whether that ends loosely. -/
theorem exists_inner_of_stringTail {rest : List Char}
    (h : Lexer.stringTail (body ++ rest) = body.length) :
    ∃ b, Lexer.Inner b ∧ unquoteString body = Text.replacePair '\\' '"' '"' b ∧
      (endsLoose b = true ↔ Lexer.closesString body = false ∧
        (endsLoose body = true ∨ body.getLast? = some '"')) := by
  cases hclosed : Lexer.closesString body with
  | true =>
    obtain ⟨b, rfl, hb, hloose⟩ := Lexer.exists_inner_of_closesString hclosed
    exact ⟨b, hb, by simp [unquoteString], by simp [hloose]⟩
  | false =>
    obtain rfl : rest = [] := (Lexer.closesString_or_eq_nil h).resolve_left (by simp [hclosed])
    rw [List.append_nil] at h
    have hinner := Lexer.inner_of_open h hclosed
    by_cases hlast : body.getLast? = some '"'
    · obtain ⟨b, rfl⟩ := List.getLast?_eq_some_iff.mp hlast
      obtain ⟨hb, hloose⟩ := hinner.of_append_quote
      exact ⟨b, hb, by simp [unquoteString], by simp [hloose]⟩
    · exact ⟨body, hinner, by simp [unquoteString, hlast], by simp [hlast]⟩

theorem unquote_quote (v : String) : unquote (quote v) = v := by
  refine String.toList_injective ?_
  simp [quote, unquote, unquoteChars, unquoteString, quoteChars, Text.replacePair_expandChar]

theorem quote_unquote_of_inner {text : String} (htext : text.toList = '"' :: (b ++ ['"']))
    (hb : Lexer.Inner b) : quote (unquote text) = text := by
  refine String.toList_injective ?_
  simp [quote, unquote, htext, unquoteChars, unquoteString, quoteChars,
    (expandChar_replacePair_inner hb).1]

/-- A string that closes is written again as it was. -/
theorem quote_unquote {text : String} (h : Lexer.isClosedString text.toList = true) :
    quote (unquote text) = text := by
  unfold Lexer.isClosedString at h
  split at h
  · rename_i body htext
    obtain ⟨b, rfl, hb, -⟩ := Lexer.exists_inner_of_closesString h
    exact quote_unquote_of_inner htext hb
  · cases h

/-- Of the strings of a formula those are written again as they were that end in a quote after their
opening one. It need not be the closing one: a quote that was taken along may end an open string. -/
theorem quote_unquote_iff {locale : Locale} {formula : String} {t : Token}
    (h : t ∈ Token.tokenize locale formula) (hkind : t.kind = .string) :
    quote (unquote t.text) = t.text ↔ t.text.toList.tail.getLast? = some '"' := by
  obtain ⟨body, rest, hs, htail⟩ := Token.exists_stringTail h hkind
  rw [hs, List.tail_cons]
  constructor
  · intro heq
    have hquote := congrArg (fun s : String => s.toList.tail.getLast?) heq
    simpa [hs, quote, quoteChars] using hquote.symm
  · intro hlast
    obtain ⟨b, rfl⟩ := List.getLast?_eq_some_iff.mp hlast
    exact quote_unquote_of_inner hs (Lexer.inner_of_append_quote htail)

/-- A name between quotes, with each quote in it doubled. -/
def quoteName (s : String) : String :=
  String.ofList ('\'' :: (Text.expandChar '\'' '\'' '\'' s.toList ++ ['\'']))

theorem unquote_quoteName (v : String) : unquote (quoteName v) = v := by
  refine String.toList_injective ?_
  simp [quoteName, unquote, unquoteChars, Text.replacePair_expandChar]

/-- A quoted name is written again as it was. -/
theorem quoteName_unquote {locale : Locale} {formula : String} {t : Token}
    (h : t ∈ Token.tokenize locale formula) (hname : t.isQuotedName = true) :
    quoteName (unquote t.text) = t.text := by
  obtain ⟨body, hs, hclosed⟩ := Token.exists_quotedTail? h hname
  obtain ⟨b, rfl, hb⟩ := Lexer.expandChar_replacePair_of_quotedTail? hclosed
  refine String.toList_injective ?_
  simp [quoteName, unquote, hs, unquoteChars, hb]

/-- Quoting is inverse to unquoting. What is written between quotes, as a string or as a name, is read
back. A string of a formula is written again as it was if it closes, and in general exactly if it ends in a
quote after its opening one. A quoted name of a formula is written again as it was, so that no two quoted
names, of whatever formulas and locales, stand for the same text. -/
theorem quoting_inverts_unquoting :
    (∀ v, unquote (quote v) = v ∧ unquote (quoteName v) = v) ∧
      (∀ (locale : Locale) (formula : String), ∀ t ∈ Token.tokenize locale formula, t.kind = .string →
        (Lexer.isClosedString t.text.toList = true → quote (unquote t.text) = t.text) ∧
        (quote (unquote t.text) = t.text ↔ t.text.toList.tail.getLast? = some '"')) ∧
      ∀ (locale : Locale) (formula : String), ∀ t ∈ Token.tokenize locale formula,
        t.isQuotedName = true →
          quoteName (unquote t.text) = t.text ∧
          ∀ (locale' : Locale) (formula' : String), ∀ t' ∈ Token.tokenize locale' formula',
            t'.isQuotedName = true → unquote t'.text = unquote t.text → t' = t := by
  refine ⟨fun v => ⟨unquote_quote v, unquote_quoteName v⟩, fun locale formula t ht hkind => ?_,
    fun locale formula t ht hname => ?_⟩
  · exact ⟨quote_unquote, quote_unquote_iff ht hkind⟩
  · refine ⟨quoteName_unquote ht hname, fun locale' formula' t' ht' hname' heq => ?_⟩
    have htext : t'.text = t.text := by
      rw [← quoteName_unquote ht' hname', heq, quoteName_unquote ht hname]
    simp only [Token.isQuotedName, Bool.and_eq_true, beq_iff_eq] at hname hname'
    obtain ⟨kind, text⟩ := t
    obtain ⟨kind', text'⟩ := t'
    obtain rfl : text' = text := htext
    obtain rfl : kind = .symbol := hname.1.1
    obtain rfl : kind' = .symbol := hname'.1.1
    rfl

/-- Of a string with marks before quotes and before its end, and of a name with two quotes in it. -/
theorem quoting_inverts_in_formula :
    let formula := "='it''''s'&\"a\\\\\\\"b\\\\\""
    let string : Token := ⟨.string, "\"a\\\\\\\"b\\\\\""⟩
    let name : Token := ⟨.symbol, "'it''''s'"⟩
    string ∈ Token.tokenize .canonical formula ∧ Lexer.isClosedString string.text.toList = true ∧
      unquote string.text = "a\\\\\"b\\\\" ∧ quote (unquote string.text) = string.text ∧
      name ∈ Token.tokenize .canonical formula ∧ name.isQuotedName = true ∧
      unquote name.text = "it''s" ∧ quoteName (unquote name.text) = name.text := by
  intro formula string name
  have hstring : string ∈ Token.tokenize .canonical formula := by decide +kernel
  have hclosed : Lexer.isClosedString string.text.toList = true := by decide +kernel
  have hname : name ∈ Token.tokenize .canonical formula := by decide +kernel
  have hquoted : name.isQuotedName = true := by decide +kernel
  obtain ⟨-, hstrings, hnames⟩ := quoting_inverts_unquoting
  exact ⟨hstring, hclosed, by decide +kernel, (hstrings _ _ _ hstring rfl).1 hclosed, hname, hquoted,
    by decide +kernel, (hnames _ _ _ hname hquoted).1⟩

end Literal

end SheetFormula
