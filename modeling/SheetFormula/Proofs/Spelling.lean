import SheetFormula.Proofs.Lexeme

/-!
The lexemes of the canonical locale. Each kind has its spelling: a fixed text, an operator, a string, a
number, or a name, which is plain or has a quoted part in front. A text of the right spelling is a
lexeme wherever what follows does not continue it.
-/

set_option autoImplicit false

namespace SheetFormula.Lexer

variable {x : Lexer} {c : Char} {s cs rest : List Char}

/-- The lexer has the separators of the canonical locale. -/
structure IsCanonical (x : Lexer) : Prop where
  argument : x.argument = [',']
  row : x.row = [';']
  decimal : x.decimal = ['.']
  blank : x.isBlank = Text.isSimpleBlank ∨ x.isBlank = Text.isInlineBlank

theorem isCanonical_ofText (text : List Char) : (ofText .canonical text).IsCanonical where
  argument := rfl
  row := rfl
  decimal := rfl
  blank := by
    simp only [ofText]
    split
    · exact .inr rfl
    · exact .inl rfl

/-! ### Characters -/

/-- The characters that begin and end tokens of a fixed spelling, and the quotes. -/
def delimiters : List Char :=
  ['\n', '\r', ' ', '\t', ';', ',', '(', ')', '\x7b', '\x7d', '<', '>', '=', '+', '-', '*', '/', ':',
    '^', '&', '%', '"', '?', '#', '\'', '|']

theorem isSymbolChar_delimiter : ∀ c ∈ delimiters, isSymbolChar c = false :=
  List.all_iff_forall_prop.mp (by decide)

theorem not_mem_delimiters (h : isSymbolChar c = true) : c ∉ delimiters := by
  intro hmem
  rw [isSymbolChar_delimiter c hmem] at h
  cases h

/-- The code points of white space. -/
def blankCodes : List Nat :=
  [9, 10, 11, 12, 13, 0x20, 0x85, 0xa0, 0x1680, 0x2000, 0x2001, 0x2002, 0x2003, 0x2004, 0x2005,
    0x2006, 0x2007, 0x2008, 0x2009, 0x200a, 0x2028, 0x2029, 0x202f, 0x205f, 0x3000]

theorem toNat_mem_blankCodes (h : Text.isBlank c = true) : c.toNat ∈ blankCodes := by
  simp only [Text.isBlank, Bool.or_eq_true, Bool.and_eq_true, decide_eq_true_eq, beq_iff_eq,
    or_assoc] at h
  simp only [blankCodes, List.mem_cons]
  rcases h with h | h | h | h | h | h | h | h | h | h | h <;> omega

theorem isSymbolChar_blank (h : Text.isBlank c = true) : isSymbolChar c = false := by
  have hcodes : ∀ n ∈ blankCodes, isSymbolChar (Char.ofNat n) = false := by
    decide +kernel
  have hc := hcodes c.toNat (toNat_mem_blankCodes h)
  rwa [Char.ofNat_toNat] at hc

theorem isSymbolChar_of_isDigit (h : c.isDigit = true) : isSymbolChar c = true := by
  simp only [Char.isDigit, Bool.and_eq_true, decide_eq_true_eq] at h
  have hlow : 48 ≤ c.toNat := h.1
  have hhigh : c.toNat ≤ 57 := h.2
  have hnumeral : Text.isNumeral c = true := by
    rw [Text.isNumeral, Text.numerals, Text.Intervals.contains, if_neg (by omega),
      if_pos (by omega)]
  simp [isSymbolChar, hnumeral]

/-! ### Names and numbers come last -/

theorem startsWith_singleton (separator c : Char) (cs : List Char) :
    startsWith [separator] (c :: cs) = (separator == c) := by
  simp [startsWith, List.isPrefixOf]

theorem bracket?_eq_none (hc : c ∉ ['(', ')', '\x7b', '\x7d']) : bracket? c = none := by
  unfold bracket?
  split <;> simp_all

/-- An operator begins with a mark of its own. -/
theorem exists_cons_of_mem_operators {op : List Char} (h : op ∈ operators) :
    ∃ c cs, op = c :: cs ∧ c ∈ delimiters.drop 4 ∧ c ∉ ['(', ')', '\x7b', '\x7d'] ∧ c ≠ ';' ∧ c ≠ ',' ∧
      c ≠ '\'' := by
  simp only [operators, List.mem_cons, List.not_mem_nil, or_false] at h
  rcases h with rfl | rfl | rfl | rfl | rfl | rfl | rfl | rfl | rfl | rfl | rfl | rfl | rfl | rfl
  all_goals exact ⟨_, _, rfl, by decide, by decide, by decide, by decide, by decide⟩

theorem find?_operators_eq_none (hc : ∀ op ∈ operators, op.head? ≠ some c) (cs : List Char) :
    operators.find? (·.isPrefixOf (c :: cs)) = none := by
  rw [List.find?_eq_none]
  intro op hop hprefix
  obtain ⟨tail, htail⟩ := List.isPrefixOf_iff_prefix.mp hprefix
  obtain ⟨d, ds, rfl, -⟩ := exists_cons_of_mem_operators hop
  exact hc _ hop (congrArg some (List.cons.inj htail).1)

/-- A character that neither is a blank nor begins a separator or a token of a fixed spelling begins a
number or a name. -/
theorem first_of_unmarked (hbreak : Text.isLineBreak c = false) (hblank : x.isBlank c = false)
    (hrow : startsWith x.row (c :: cs) = false) (hargument : startsWith x.argument (c :: cs) = false)
    (hchar : ∀ d ∈ delimiters.drop 6, d ≠ '\'' → c ≠ d) :
    x.first c cs =
      match x.number? (c :: cs) with
      | some n => (.number, n)
      | none => name c cs := by
  have hoperator : operators.find? (·.isPrefixOf (c :: cs)) = none := by
    refine find?_operators_eq_none (fun op hop hhead => ?_) cs
    obtain ⟨d, ds, rfl, hd, -, hsemicolon, hcomma, hquote⟩ := exists_cons_of_mem_operators hop
    obtain rfl : d = c := by simpa using hhead
    have hmem : d ∈ delimiters.drop 6 :=
      ((List.mem_cons.mp hd).resolve_left hsemicolon |> List.mem_cons.mp).resolve_left hcomma
    exact hchar d hmem hquote rfl
  have hbracket : bracket? c = none := by
    refine bracket?_eq_none fun hmem => ?_
    have hdelimiter : ∀ d ∈ ['(', ')', '\x7b', '\x7d'], d ∈ delimiters.drop 6 ∧ d ≠ '\'' :=
      List.all_iff_forall_prop.mp (by decide)
    exact hchar c (hdelimiter c hmem).1 (hdelimiter c hmem).2 rfl
  have hinvalid : ['#', 'R', 'E', 'F'].isPrefixOf (c :: cs) = false := by
    simp [List.isPrefixOf, (hchar '#' (by decide) (by decide)).symm]
  cases hnumber : x.number? (c :: cs) <;>
    simp only [first, hbreak, hblank, hrow, hargument, hbracket, hoperator, hinvalid, hnumber,
      hchar '"' (by decide) (by decide), hchar '?' (by decide) (by decide), Bool.false_eq_true,
      if_false]

theorem isLineBreak_of_isSymbolChar (hc : isSymbolChar c = true) : Text.isLineBreak c = false := by
  have hchar : ∀ d ∈ delimiters, c ≠ d := by
    rintro d hd rfl
    exact not_mem_delimiters hc hd
  simp [Text.isLineBreak, hchar '\n' (by decide), hchar '\r' (by decide)]

theorem IsCanonical.isBlank_of_isSymbolChar (hx : x.IsCanonical) (hc : isSymbolChar c = true) :
    x.isBlank c = false := by
  rcases hx.blank with h | h <;> rw [h]
  · have hchar : ∀ d ∈ delimiters, c ≠ d := by
      rintro d hd rfl
      exact not_mem_delimiters hc hd
    simp [Text.isSimpleBlank, hchar ' ' (by decide), hchar '\t' (by decide)]
  · have hnot : Text.isBlank c = false := by
      by_contra hblank
      rw [isSymbolChar_blank (by simpa using hblank)] at hc
      cases hc
    simp [Text.isInlineBlank, hnot]

/-- A character of a name begins no token but a number or a name. -/
theorem first_of_isSymbolChar (hx : x.IsCanonical) (hc : isSymbolChar c = true ∨ c = '\'')
    (cs : List Char) :
    x.first c cs =
      match x.number? (c :: cs) with
      | some n => (.number, n)
      | none => name c cs := by
  have hchar : ∀ d ∈ delimiters, d ≠ '\'' → c ≠ d := by
    rintro d hd hquote rfl
    rcases hc with hc | hc
    · exact not_mem_delimiters hc hd
    · exact hquote hc
  have hblank : Text.isLineBreak c = false ∧ x.isBlank c = false := by
    rcases hc with hc | rfl
    · exact ⟨isLineBreak_of_isSymbolChar hc, hx.isBlank_of_isSymbolChar hc⟩
    · rcases hx.blank with h | h <;> rw [h] <;> exact ⟨rfl, rfl⟩
  refine first_of_unmarked hblank.1 hblank.2 ?_ ?_ fun d hd => hchar d (List.mem_of_mem_drop hd)
  · simp [hx.row, startsWith_singleton, (hchar ';' (by decide) (by decide)).symm]
  · simp [hx.argument, startsWith_singleton, (hchar ',' (by decide) (by decide)).symm]

/-- The text begins with a digit, or with a point and a digit. -/
def startsNumber : List Char → Bool
  | '.' :: d :: _ => d.isDigit
  | d :: _ => d.isDigit
  | [] => false

theorem startsNumber_singleton (c : Char) : startsNumber [c] = c.isDigit := by
  unfold startsNumber
  split <;> simp_all

theorem startsNumber_cons_cons (c d : Char) (ds : List Char) :
    startsNumber (c :: d :: ds) = if c = '.' then d.isDigit else c.isDigit := by
  by_cases hc : c = '.'
  · rw [if_pos hc, hc]
    rfl
  · rw [if_neg hc]
    simp [startsNumber, hc]

theorem run_cons_eq_zero {p : Char → Bool} : run p (c :: cs) = 0 ↔ p c = false := by
  rw [run]
  by_cases hc : p c = true
  · simp [List.takeWhile_cons_of_pos hc, hc]
  · simp [List.takeWhile_cons_of_neg hc, hc]

theorem digit_or_decimal {d : Char} (hx : x.decimal = [d]) {n : Nat}
    (h : x.number? (c :: cs) = some n) : c.isDigit = true ∨ c = d := by
  by_contra hneither
  rw [not_or, Bool.not_eq_true] at hneither
  simp [number?, run_cons_eq_zero.mpr hneither.1, hx, startsWith_singleton, Ne.symm hneither.2] at h

theorem isSome_number? (hx : x.IsCanonical) (text : List Char) :
    (x.number? text).isSome = startsNumber text := by
  cases text with
  | nil => simp [number?, run, startsWith, hx.decimal, startsNumber]
  | cons c cs =>
    by_cases hdigit : c.isDigit = true
    · have hpoint : c ≠ '.' := by
        rintro rfl
        cases hdigit
      have hrun : run Char.isDigit (c :: cs) ≠ 0 := by
        rw [Ne, run_cons_eq_zero]
        simp [hdigit]
      have hstarts : startsNumber (c :: cs) = true := by
        unfold startsNumber
        split <;> simp_all
      rw [hstarts]
      simp only [number?]
      split <;> simp [hrun]
    · have hrun : run Char.isDigit (c :: cs) = 0 := run_cons_eq_zero.mpr (by simpa using hdigit)
      by_cases hpoint : c = '.'
      · subst hpoint
        cases cs with
        | nil => simp [number?, hx.decimal, startsWith, run, startsNumber]
        | cons d ds =>
          by_cases hd : d.isDigit = true
          · have hfraction : run Char.isDigit (d :: ds) ≠ 0 := by
              rw [Ne, run_cons_eq_zero]
              simp [hd]
            simp [number?, hrun, hx.decimal, startsWith_singleton, hfraction, startsNumber, hd]
          · have hfraction : run Char.isDigit (d :: ds) = 0 :=
              run_cons_eq_zero.mpr (by simpa using hd)
            simp [number?, hrun, hx.decimal, startsWith_singleton, hfraction, startsNumber, hd]
      · have hstarts : startsNumber (c :: cs) = false := by
          unfold startsNumber
          split <;> simp_all
        rw [hstarts]
        simp [number?, hrun, hx.decimal, startsWith_singleton, Ne.symm hpoint]

/-! ### Names -/

/-- What follows a name and does not continue it. -/
structure EndsName (rest : List Char) : Prop where
  symbol : Stops isSymbolChar rest
  quote : Stops (· == '\'') rest

/-- A plain name, or a quoted part, from its opening to its closing quote, and what is joined to it. -/
inductive NameText : List Char → Prop
  | plain {s : List Char} (nonempty : s ≠ []) (symbol : ∀ c ∈ s, isSymbolChar c = true)
    (number : startsNumber s = false) : NameText s
  | quoted {body tail : List Char} (closed : quotedTail? body = some body.length)
    (symbol : ∀ c ∈ tail, isSymbolChar c = true) : NameText ('\'' :: (body ++ tail))

theorem quotedTail?_quote_cons (hrest : Stops (· == '\'') rest) :
    quotedTail? ('\'' :: rest) = some 1 := by
  cases rest with
  | nil => rfl
  | cons c cs =>
    have hc : c ≠ '\'' := by simpa using stops_cons.mp hrest
    rw [quotedTail?]
    simp [hc]

theorem quotedTail?_cons (hc : c ≠ '\'') (cs : List Char) :
    quotedTail? (c :: cs) = (quotedTail? cs).map (· + 1) := by
  rw [quotedTail?] <;> simp [hc]

theorem quotedTail?_append {body : List Char} (hbody : quotedTail? body = some body.length)
    (hrest : Stops (· == '\'') rest) : quotedTail? (body ++ rest) = some body.length := by
  fun_induction quotedTail? body with
  | case1 => cases hbody
  | case2 more ih =>
    have hmore : quotedTail? more = some more.length := by simpa using hbody
    simp [quotedTail?, ih hmore]
  | case3 more hmore =>
    obtain rfl : more = [] := by simpa using hbody
    exact quotedTail?_quote_cons hrest
  | case4 c more hpair hquote ih =>
    have hmore : quotedTail? more = some more.length := by simpa using hbody
    rw [List.cons_append, quotedTail?_cons hquote, ih hmore]
    rfl

theorem quotedTail?_take {n : Nat} (h : quotedTail? cs = some n) :
    quotedTail? (cs.take n) = some n ∧ Stops (· == '\'') (cs.drop n) := by
  fun_induction quotedTail? cs generalizing n with
  | case1 => cases h
  | case2 more ih =>
    obtain ⟨k, hk, rfl⟩ := Option.map_eq_some_iff.mp h
    simpa [quotedTail?] using ih hk
  | case3 more hmore =>
    obtain rfl : n = 1 := by simpa using h.symm
    refine ⟨rfl, ?_⟩
    cases more with
    | nil => exact stops_nil _
    | cons c cs =>
      rw [List.drop_one, List.tail_cons, stops_cons]
      by_contra hc
      exact hmore cs (by simpa using hc)
  | case4 c more hpair hquote ih =>
    obtain ⟨k, hk, rfl⟩ := Option.map_eq_some_iff.mp h
    rw [List.take_succ_cons, List.drop_succ_cons, quotedTail?_cons hquote, (ih hk).1]
    exact ⟨rfl, (ih hk).2⟩

/-- The text is the name of a cell, on a sheet or not. -/
def IsCell (s : List Char) : Prop :=
  Address.onSheet Address.isCell s = true

theorem nameKind_append (s rest : List Char) :
    nameKind (s ++ rest) s.length =
      if Address.onSheet Address.isCell s && rest.head? != some '(' then .reference else .symbol := by
  rw [nameKind, List.take_left, List.drop_left]

theorem ne_quote_of_isSymbolChar (h : isSymbolChar c = true) : c ≠ '\'' := by
  rintro rfl
  cases h

theorem name_append (hname : NameText (c :: cs)) (hrest : EndsName rest) :
    name c (cs ++ rest) = (nameKind (c :: cs ++ rest) (cs.length + 1), cs.length + 1) := by
  generalize hs : c :: cs = s at hname
  cases hname with
  | plain nonempty symbol number =>
    subst hs
    have hc := ne_quote_of_isSymbolChar (symbol c List.mem_cons_self)
    have hrun := run_append symbol hrest.symbol
    rw [List.cons_append, List.length_cons] at hrun
    simp [name, hc, hrun]
  | @quoted body tail closed symbol =>
    obtain ⟨rfl, rfl⟩ := List.cons.inj hs
    have htail : Stops (· == '\'') (tail ++ rest) := by
      cases tail with
      | nil => exact hrest.quote
      | cons d ds =>
        rw [List.cons_append, stops_cons]
        simpa using ne_quote_of_isSymbolChar (symbol d List.mem_cons_self)
    have hquoted := quotedTail?_append closed htail
    have hrun := run_append symbol hrest.symbol
    rw [name, if_pos rfl, List.append_assoc, hquoted]
    simp only [List.drop_left, hrun, List.length_append, List.append_assoc, List.cons_append]
    rw [show 1 + body.length + tail.length = body.length + tail.length + 1 by omega]

theorem NameText.exists_cons (hname : NameText s) :
    ∃ c cs, s = c :: cs ∧ (isSymbolChar c = true ∨ c = '\'') := by
  cases hname with
  | plain nonempty symbol number =>
    obtain ⟨c, cs, rfl⟩ := List.exists_cons_of_ne_nil nonempty
    exact ⟨c, cs, rfl, .inl (symbol c List.mem_cons_self)⟩
  | quoted closed symbol => exact ⟨_, _, rfl, .inr rfl⟩

theorem startsNumber_append (hname : NameText s) (hrest : EndsName rest) :
    startsNumber (s ++ rest) = false := by
  cases hname with
  | @plain s nonempty symbol number =>
    match s, nonempty with
    | [c], _ =>
      rw [startsNumber_singleton] at number
      cases rest with
      | nil => rw [List.append_nil, startsNumber_singleton, number]
      | cons d ds =>
        have hd : d.isDigit = false := by
          by_contra hdigit
          have hstop := stops_cons.mp hrest.symbol
          rw [isSymbolChar_of_isDigit (by simpa using hdigit)] at hstop
          cases hstop
        rw [List.cons_append, List.nil_append, startsNumber_cons_cons, hd, number, ite_self]
    | c :: d :: ds, _ =>
      rw [startsNumber_cons_cons] at number
      rw [List.cons_append, List.cons_append, startsNumber_cons_cons, number]
  | quoted closed symbol => rfl

/-- A name is a lexeme wherever nothing continues it, and a reference if it spells a cell and no
parenthesis follows. -/
theorem lexeme_of_nameText (hx : x.IsCanonical) (hname : NameText s) (hrest : EndsName rest) :
    x.Lexeme
      (if Address.onSheet Address.isCell s && rest.head? != some '(' then .reference else .symbol)
      s rest := by
  have hnumber := isSome_number? hx (s ++ rest)
  rw [startsNumber_append hname hrest] at hnumber
  obtain ⟨c, cs, rfl, hc⟩ := hname.exists_cons
  refine ⟨c, cs, rfl, ?_⟩
  rw [first_of_isSymbolChar hx hc]
  rw [Option.isSome_eq_false_iff, Option.isNone_iff_eq_none, List.cons_append] at hnumber
  rw [hnumber, name_append hname hrest, ← List.length_cons (a := c), nameKind_append]

theorem lexeme_symbol (hx : x.IsCanonical) (hname : NameText s) (hrest : EndsName rest)
    (hcalled : IsCell s → rest.head? = some '(') : x.Lexeme .symbol s rest := by
  have hlexeme := lexeme_of_nameText hx hname hrest
  rwa [if_neg] at hlexeme
  intro h
  simp only [Bool.and_eq_true, bne_iff_ne] at h
  exact h.2 (hcalled h.1)

theorem lexeme_reference (hx : x.IsCanonical) (hname : NameText s) (hrest : EndsName rest)
    (hcell : IsCell s) (huncalled : rest.head? ≠ some '(') : x.Lexeme .reference s rest := by
  have hlexeme := lexeme_of_nameText hx hname hrest
  rwa [if_pos] at hlexeme
  simpa [huncalled, IsCell] using hcell

theorem startsNumber_of_append (hs : s ≠ []) (h : startsNumber (s ++ rest) = false) :
    startsNumber s = false := by
  match s, hs with
  | [c], _ =>
    cases rest with
    | nil => exact h
    | cons d ds =>
      rw [List.cons_append, List.nil_append, startsNumber_cons_cons] at h
      rw [startsNumber_singleton]
      split at h
      · subst c
        rfl
      · exact h
  | c :: d :: ds, _ =>
    rw [List.cons_append, List.cons_append, startsNumber_cons_cons] at h
    rw [startsNumber_cons_cons, h]

theorem nameText_of_name {kind : Token.Kind} (hname : name c (cs ++ rest) = (kind, cs.length + 1))
    (hkind : kind ≠ .unknown) (hnumber : startsNumber (c :: cs) = false) :
    NameText (c :: cs) ∧ kind = nameKind (c :: cs ++ rest) (c :: cs).length := by
  unfold name at hname
  split at hname
  · subst c
    split at hname
    · exact absurd (congrArg Prod.fst hname).symm hkind
    · rename_i n hquoted
      obtain ⟨rfl, hlength⟩ := Prod.mk.inj hname
      -- the quoted part lies within the name, and the run of characters after it ends the name
      have hn : n ≤ cs.length := by omega
      obtain ⟨hclosed, -⟩ := quotedTail?_take hquoted
      rw [List.take_append_of_le_length hn] at hclosed
      have hdrop : (cs ++ rest).drop n = cs.drop n ++ rest := List.drop_append_of_le_length hn
      have hrun : run isSymbolChar (cs.drop n ++ rest) = (cs.drop n).length := by
        rw [← hdrop, List.length_drop]
        omega
      obtain ⟨htail, -⟩ := run_eq_length hrun
      have hbody : (cs.take n).length = n := List.length_take_of_le hn
      have hquotedName := NameText.quoted (by rw [hclosed, hbody]) htail
      rw [List.take_append_drop] at hquotedName
      exact ⟨hquotedName, by rw [hlength]; rfl⟩
  · simp only at hname
    split at hname
    · exact absurd (congrArg Prod.fst hname).symm hkind
    · obtain ⟨rfl, hlength⟩ := Prod.mk.inj hname
      have hrun : run isSymbolChar (c :: cs ++ rest) = (c :: cs).length := hlength
      obtain ⟨hsymbol, -⟩ := run_eq_length hrun
      exact ⟨.plain (List.cons_ne_nil c cs) hsymbol hnumber, by rw [hlength]; rfl⟩

/-! ### Strings -/

/-- The text after an opening quote closes with its last character; a backslash takes the next
character along. -/
def closesString : List Char → Bool
  | [] => false
  | ['"'] => true
  | '"' :: _ => false
  | ['\\'] => false
  | '\\' :: _ :: rest => closesString rest
  | _ :: rest => closesString rest

/-- A string with its two quotes. -/
def isClosedString : List Char → Bool
  | '"' :: body => closesString body
  | _ => false

/-- A character that is no backslash, neither as the last one nor before another. -/
theorem ne_backslash {more : List Char} (hlast : c = '\\' → more = [] → False)
    (hescape : ∀ d ds, c = '\\' → more = d :: ds → False) : c ≠ '\\' := by
  intro hc
  cases more with
  | nil => exact hlast hc rfl
  | cons d ds => exact hescape d ds hc rfl

theorem stringTail_cons (hquote : c ≠ '"') (hbackslash : c ≠ '\\') (cs : List Char) :
    stringTail (c :: cs) = stringTail cs + 1 := by
  rw [stringTail] <;> simp [hquote, hbackslash]

theorem stringTail_append {body : List Char} (h : closesString body = true) (rest : List Char) :
    stringTail (body ++ rest) = body.length := by
  fun_induction closesString body with
  | case1 => cases h
  | case2 => rfl
  | case3 => cases h
  | case4 => cases h
  | case5 c more ih => simp [stringTail, ih h]
  | case6 c more hend hquote hlast hescape ih =>
    have hbackslash := ne_backslash hlast hescape
    rw [List.cons_append, stringTail_cons hquote hbackslash, ih h, List.length_cons]

theorem stringTail_pos (c : Char) (cs : List Char) : 0 < stringTail (c :: cs) := by
  unfold stringTail
  split <;> simp_all

/-- A string closes, or it reaches to the end of the text. -/
theorem closesString_or_eq_nil {body : List Char} (h : stringTail (body ++ rest) = body.length) :
    closesString body = true ∨ rest = [] := by
  fun_induction closesString body with
  | case1 =>
    cases rest with
    | nil => exact .inr rfl
    | cons c cs =>
      have hpos := stringTail_pos c cs
      rw [List.nil_append, List.length_nil] at h
      omega
  | case2 => exact .inl rfl
  | case3 more hmore => exact (hmore (by simpa [stringTail] using h.symm)).elim
  | case4 =>
    cases rest with
    | nil => exact .inr rfl
    | cons c cs => simp [stringTail] at h
  | case5 c more ih => exact ih (by simpa [stringTail] using h)
  | case6 c more hend hquote hlast hescape ih =>
    have hbackslash := ne_backslash hlast hescape
    rw [List.cons_append, stringTail_cons hquote hbackslash] at h
    exact ih (by simpa using h)

/-! ### All kinds -/

/-- What the lexemes of each kind look like in the canonical locale. -/
inductive Spelt : Token.Kind → List Char → List Char → Prop
  | space (s rest : List Char) : Spelt .space s rest
  | rowSeparator (rest : List Char) : Spelt .rowSeparator [';'] rest
  | argSeparator (rest : List Char) : Spelt .argSeparator [','] rest
  | leftParen (rest : List Char) : Spelt .leftParen ['('] rest
  | rightParen (rest : List Char) : Spelt .rightParen [')'] rest
  | leftBrace (rest : List Char) : Spelt .leftBrace ['\x7b'] rest
  | rightBrace (rest : List Char) : Spelt .rightBrace ['\x7d'] rest
  | operator {op : List Char} (mem : op ∈ operators) (rest : List Char) : Spelt .operator op rest
  | string {body : List Char} (rest : List Char) (tail : stringTail (body ++ rest) = body.length) :
    Spelt .string ('"' :: body) rest
  | debugger (rest : List Char) : Spelt .debugger ['?'] rest
  | invalidReference (rest : List Char) : Spelt .invalidReference ['#', 'R', 'E', 'F'] rest
  | number {s rest : List Char} (starts : startsNumber (s ++ rest) = true) : Spelt .number s rest
  | symbol {s rest : List Char} (name : NameText s) (called : IsCell s → rest.head? = some '(') :
    Spelt .symbol s rest
  | reference {s rest : List Char} (name : NameText s) (cell : IsCell s)
    (uncalled : rest.head? ≠ some '(') : Spelt .reference s rest
  | unknown (s rest : List Char) : Spelt .unknown s rest

theorem spelt_of_bracket? {kind : Token.Kind} (h : bracket? c = some kind) (rest : List Char) :
    Spelt kind [c] rest := by
  unfold bracket? at h
  split at h
  · cases h
    exact .leftParen rest
  · cases h
    exact .rightParen rest
  · cases h
    exact .leftBrace rest
  · cases h
    exact .rightBrace rest
  · cases h

theorem eq_of_prefix_append {op : List Char} (h : op <+: s ++ rest) (hlength : op.length = s.length) :
    op = s := by
  rw [List.prefix_iff_eq_take.mp h, hlength, List.take_left]

theorem spelt_of_name {kind : Token.Kind} (hname : name c (cs ++ rest) = (kind, (c :: cs).length))
    (hnumber : startsNumber (c :: cs) = false) : Spelt kind (c :: cs) rest := by
  by_cases hkind : kind = .unknown
  · subst kind
    exact .unknown _ _
  · obtain ⟨htext, hkind⟩ := nameText_of_name hname hkind hnumber
    rw [nameKind_append] at hkind
    split at hkind
    · rename_i hcell
      simp only [Bool.and_eq_true, bne_iff_ne] at hcell
      subst kind
      exact .reference htext hcell.1 hcell.2
    · rename_i hcell
      subst kind
      exact .symbol htext (by simpa [IsCell] using hcell)

theorem spelt_of_lexeme {kind : Token.Kind} (hx : x.IsCanonical) (h : x.Lexeme kind s rest) :
    Spelt kind s rest := by
  obtain ⟨c, cs, rfl, hfirst⟩ := h
  have hrule := rule_first x c (cs ++ rest)
  generalize x.first c (cs ++ rest) = found at hfirst hrule
  have hstarts := isSome_number? hx (c :: (cs ++ rest))
  cases hrule with
  | lineBreak | blank =>
    obtain ⟨rfl, -⟩ := Prod.mk.inj hfirst
    exact .space _ _
  | row hrow =>
    rw [hx.row] at hrow hfirst
    obtain ⟨rfl, hlength⟩ := Prod.mk.inj hfirst
    obtain rfl : cs = [] := by simpa using hlength
    obtain rfl : ';' = c := by simpa [startsWith_singleton] using hrow
    exact .rowSeparator _
  | argument hargument =>
    rw [hx.argument] at hargument hfirst
    obtain ⟨rfl, hlength⟩ := Prod.mk.inj hfirst
    obtain rfl : cs = [] := by simpa using hlength
    obtain rfl : ',' = c := by simpa [startsWith_singleton] using hargument
    exact .argSeparator _
  | bracket hbracket =>
    obtain ⟨rfl, hlength⟩ := Prod.mk.inj hfirst
    obtain rfl : cs = [] := by simpa using hlength
    exact spelt_of_bracket? hbracket rest
  | operator hfind =>
    obtain ⟨rfl, hlength⟩ := Prod.mk.inj hfirst
    have hprefix := List.find?_some (p := (List.isPrefixOf · (c :: (cs ++ rest)))) hfind
    rw [← eq_of_prefix_append (s := c :: cs) (List.isPrefixOf_iff_prefix.mp hprefix) hlength]
    exact .operator (List.mem_of_find?_eq_some hfind) _
  | string hquote =>
    subst hquote
    obtain ⟨rfl, hlength⟩ := Prod.mk.inj hfirst
    rw [List.length_cons] at hlength
    exact .string rest (by omega)
  | debugger hquestion =>
    subst hquestion
    obtain ⟨rfl, hlength⟩ := Prod.mk.inj hfirst
    obtain rfl : cs = [] := by simpa using hlength
    exact .debugger _
  | invalidReference hprefix =>
    obtain ⟨rfl, hlength⟩ := Prod.mk.inj hfirst
    rw [← eq_of_prefix_append (s := c :: cs) (List.isPrefixOf_iff_prefix.mp hprefix) hlength]
    exact .invalidReference _
  | number hnumber =>
    rw [hnumber] at hstarts
    obtain ⟨rfl, -⟩ := Prod.mk.inj hfirst
    exact .number hstarts.symm
  | name hnumber =>
    rw [hnumber] at hstarts
    exact spelt_of_name hfirst (startsNumber_of_append (List.cons_ne_nil c cs) hstarts.symm)

/-! ### Fixed spellings -/

/-- The characters that are tokens by themselves. The last one begins nothing. -/
def punctuation : List (Char × Token.Kind) :=
  [(';', .rowSeparator), (',', .argSeparator), ('(', .leftParen), (')', .rightParen),
    ('\x7b', .leftBrace), ('\x7d', .rightBrace), ('?', .debugger), ('|', .unknown)]

theorem isBlank_delimiter (hx : x.IsCanonical) :
    ∀ c ∈ delimiters.drop 4, Text.isLineBreak c = false ∧ x.isBlank c = false := by
  rcases hx.blank with h | h <;> rw [h] <;> exact List.all_iff_forall_prop.mp (by decide)

theorem lexeme_of_punctuation (hx : x.IsCanonical) {kind : Token.Kind}
    (h : (c, kind) ∈ punctuation) (rest : List Char) : x.Lexeme kind [c] rest := by
  have hblank := isBlank_delimiter hx
  refine ⟨c, [], rfl, ?_⟩
  simp only [punctuation, List.mem_cons, Prod.mk.injEq, List.not_mem_nil, or_false] at h
  rcases h with ⟨rfl, rfl⟩ | ⟨rfl, rfl⟩ | ⟨rfl, rfl⟩ | ⟨rfl, rfl⟩ | ⟨rfl, rfl⟩ | ⟨rfl, rfl⟩ |
    ⟨rfl, rfl⟩ | ⟨rfl, rfl⟩
  · simp [first, hblank ';' (by decide), hx.row, startsWith_singleton]
  · simp [first, hblank ',' (by decide), hx.row, hx.argument, startsWith_singleton]
  · simp [first, hblank '(' (by decide), hx.row, hx.argument, startsWith_singleton, bracket?]
  · simp [first, hblank ')' (by decide), hx.row, hx.argument, startsWith_singleton, bracket?]
  · simp [first, hblank '\x7b' (by decide), hx.row, hx.argument, startsWith_singleton, bracket?]
  · simp [first, hblank '\x7d' (by decide), hx.row, hx.argument, startsWith_singleton, bracket?]
  · simp [first, hblank '?' (by decide), hx.row, hx.argument, startsWith_singleton, bracket?,
      find?_operators_eq_none (c := '?') (by decide)]
  · have hnumber : x.number? ('|' :: rest) = none := by
      rw [← Option.isNone_iff_eq_none, ← Option.isSome_eq_false_iff, isSome_number? hx]
      rfl
    have hname : name '|' rest = (.unknown, 1) := by
      rw [name, if_neg (by decide), run_cons_eq_zero.mpr (by decide)]
      rfl
    simp [first, hblank '|' (by decide), hx.row, hx.argument, startsWith_singleton, bracket?,
      find?_operators_eq_none (c := '|') (by decide), hnumber, hname]

/-- A string that closes is a lexeme before any text. -/
theorem lexeme_of_string (hx : x.IsCanonical) {body : List Char} (h : closesString body = true)
    (rest : List Char) : x.Lexeme .string ('"' :: body) rest := by
  refine ⟨'"', body, rfl, ?_⟩
  have htail := stringTail_append h rest
  simp [first, isBlank_delimiter hx '"' (by decide), hx.row, hx.argument, startsWith_singleton,
    bracket?, find?_operators_eq_none (c := '"') (by decide), htail, Nat.add_comm]

theorem lexeme_invalidReference (hx : x.IsCanonical) (rest : List Char) :
    x.Lexeme .invalidReference ['#', 'R', 'E', 'F'] rest := by
  refine ⟨'#', ['R', 'E', 'F'], rfl, ?_⟩
  simp [first, isBlank_delimiter hx '#' (by decide), hx.row, hx.argument, startsWith_singleton,
    bracket?, find?_operators_eq_none (c := '#') (by decide)]

theorem Cuts.punctuation (hx : x.IsCanonical) {tokens : List Token} (h : x.Cuts tokens rest)
    (c : Char) (kind : Token.Kind) (hc : (c, kind) ∈ punctuation) :
    x.Cuts (⟨kind, String.ofList [c]⟩ :: tokens) (c :: rest) :=
  .cons (lexeme_of_punctuation hx hc rest) h

theorem endsName_cons (h : c ∈ delimiters) (hquote : c ≠ '\'') (cs : List Char) :
    EndsName (c :: cs) where
  symbol := stops_cons.mpr (isSymbolChar_delimiter c h)
  quote := stops_cons.mpr (by simpa using hquote)

/-- No longer operator than this one begins the text. -/
theorem find?_operators {op : List Char} (hop : op ∈ operators)
    (hrest : op ∈ [['<'], ['>']] → Stops (fun c => c == '=' || c == '>') rest) :
    operators.find? (·.isPrefixOf (op ++ rest)) = some op := by
  simp only [operators, List.mem_cons, List.not_mem_nil, or_false] at hop
  rcases hop with rfl | rfl | rfl | rfl | rfl | rfl | rfl | rfl | rfl | rfl | rfl | rfl | rfl | rfl
  case inr.inr.inr.inr.inr.inr.inr.inr.inr.inl =>
    cases rest with
    | nil => rfl
    | cons d ds =>
      have hd : ('=' == d) = false := by
        rw [BEq.comm]
        exact (Bool.or_eq_false_iff.mp (stops_cons.mp (hrest (by decide)))).1
      simp [operators, List.find?, List.isPrefixOf, hd]
  case inr.inr.inr.inr.inr.inr.inr.inr.inr.inr.inl =>
    cases rest with
    | nil => rfl
    | cons d ds =>
      have hd : ('=' == d) = false ∧ ('>' == d) = false := by
        rw [BEq.comm, BEq.comm (a := '>')]
        exact Bool.or_eq_false_iff.mp (stops_cons.mp (hrest (by decide)))
      simp [operators, List.find?, List.isPrefixOf, hd]
  all_goals rfl

/-- An operator is a lexeme wherever no longer one begins. -/
theorem lexeme_of_operator (hx : x.IsCanonical) {op : List Char} (hop : op ∈ operators)
    (hrest : op ∈ [['<'], ['>']] → Stops (fun c => c == '=' || c == '>') rest) :
    x.Lexeme .operator op rest := by
  have hfind := find?_operators hop hrest
  obtain ⟨c, cs, rfl, hc, hbracket, hrow, hargument, -⟩ := exists_cons_of_mem_operators hop
  obtain ⟨hbreak, hblank⟩ := isBlank_delimiter hx c hc
  refine ⟨c, cs, rfl, ?_⟩
  rw [List.cons_append] at hfind
  simp only [first, hbreak, hblank, hx.row, hx.argument, startsWith_singleton,
    beq_eq_false_iff_ne.mpr hrow.symm, beq_eq_false_iff_ne.mpr hargument.symm,
    bracket?_eq_none hbracket, hfind, Bool.false_eq_true, if_false]

end SheetFormula.Lexer
