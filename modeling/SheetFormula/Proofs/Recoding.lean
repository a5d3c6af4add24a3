import Mathlib.Data.List.Find
import Mathlib.Data.List.Forall2
import SheetFormula.Proofs.Spelling

/-!
The tokens of a formula in a locale with a decimal comma. There a semicolon separates arguments and a
backslash separates rows. Written with these, a text of the canonical locale keeps its length, and each
character stays or becomes one that takes its part (`Lexer.Recoded`). If every character of the text
fits a rule, the tokens are cut at the same places (`Lexer.Cuts.respelled`).
-/

set_option autoImplicit false

namespace SheetFormula

namespace Lexer

/-- A separator of the canonical locale becomes the one of its kind; any other character stays. A point
and a comma can also stay, where they separate nothing. -/
inductive Recoded : Char → Char → Prop
  | same (c : Char) : Recoded c c
  | decimal : Recoded '.' ','
  | argument : Recoded ',' ';'
  | row : Recoded ';' '\\'

/-- The lexer has the separators of the locale with a decimal comma. -/
structure IsComma (y : Lexer) : Prop where
  argument : y.argument = [';']
  row : y.row = ['\\']
  decimal : y.decimal = [',']

/-- A class of characters without any separator. -/
structure Apart (p : Char → Bool) : Prop where
  point : p '.' = false
  comma : p ',' = false
  semicolon : p ';' = false
  backslash : p '\\' = false

variable {x y : Lexer} {c c' : Char} {s cs rest rest' text text' : List Char} {p : Char → Bool}

/-! ### Texts character by character -/

theorem Apart.recoded (hp : Apart p) (h : Recoded c c') : p c = p c' := by
  cases h with
  | same => rfl
  | decimal => rw [hp.point, hp.comma]
  | argument => rw [hp.comma, hp.semicolon]
  | row => rw [hp.semicolon, hp.backslash]

theorem apart_beq (hc : c ∉ ['.', ',', ';', '\\']) : Apart (c == ·) := by
  simp only [List.mem_cons, not_or, List.not_mem_nil, not_false_eq_true, and_true] at hc
  exact ⟨beq_eq_false_iff_ne.mpr hc.1, beq_eq_false_iff_ne.mpr hc.2.1,
    beq_eq_false_iff_ne.mpr hc.2.2.1, beq_eq_false_iff_ne.mpr hc.2.2.2⟩

theorem Recoded.eq_iff {d : Char} (h : Recoded c c') (hd : d ∉ ['.', ',', ';', '\\']) :
    d = c ↔ d = c' := by
  rw [← beq_iff_eq, (apart_beq hd).recoded h, beq_iff_eq]

theorem forall₂_recoded_refl (text : List Char) : List.Forall₂ Recoded text text :=
  List.forall₂_same.mpr fun c _ => .same c

theorem run_recoded (hp : Apart p) (h : List.Forall₂ Recoded text text') :
    run p text = run p text' := by
  unfold run
  induction h with
  | nil => rfl
  | @cons c c' text text' hc _ ih =>
    rw [List.takeWhile_cons, List.takeWhile_cons, hp.recoded hc]
    split
    · rw [List.length_cons, List.length_cons, ih]
    · rfl

theorem any_recoded (hp : Apart p) (h : List.Forall₂ Recoded text text') :
    text.any p = text'.any p := by
  induction h with
  | nil => rfl
  | cons hc _ ih => rw [List.any_cons, List.any_cons, hp.recoded hc, ih]

theorem head?_recoded (h : List.Forall₂ Recoded rest rest') (hc : c ∉ ['.', ',', ';', '\\']) :
    rest.head? = some c ↔ rest'.head? = some c := by
  cases h with
  | nil => exact Iff.rfl
  | cons hd _ =>
    rw [List.head?_cons, List.head?_cons, Option.some_inj, Option.some_inj, eq_comm, hd.eq_iff hc,
      eq_comm]

/-- What ends a name still ends it. -/
theorem Stops.recoded (h : Stops isSymbolChar rest) (hrest : List.Forall₂ Recoded rest rest') :
    Stops isSymbolChar rest' := by
  cases hrest with
  | nil => exact h
  | cons hc _ =>
    rw [stops_cons] at h ⊢
    cases hc with
    | same => exact h
    | decimal => decide
    | argument => decide
    | row => decide

theorem isPrefixOf_recoded {op : List Char} (hop : ∀ c ∈ op, c ∉ ['.', ',', ';', '\\'])
    (h : List.Forall₂ Recoded text text') : op.isPrefixOf text = op.isPrefixOf text' := by
  induction op generalizing text text' with
  | nil => rfl
  | cons c op ih =>
    obtain ⟨hc, hop⟩ := List.forall_mem_cons.mp hop
    cases h with
    | nil => rfl
    | cons hd htext =>
      rw [List.isPrefixOf, List.isPrefixOf, (apart_beq hc).recoded hd, ih hop htext]

theorem find?_operators_recoded (h : List.Forall₂ Recoded text text') :
    operators.find? (·.isPrefixOf text) = operators.find? (·.isPrefixOf text') := by
  have hop : ∀ op ∈ operators, ∀ c ∈ op, c ∉ ['.', ',', ';', '\\'] := by
    simp [operators]
  exact List.find?_congr fun op hmem => isPrefixOf_recoded (hop op hmem) h

theorem signLength_cons (c : Char) (cs : List Char) :
    signLength (c :: cs) = if c = '+' ∨ c = '-' then 1 else 0 := by
  unfold signLength
  split <;> simp_all

theorem signLength_recoded (h : List.Forall₂ Recoded text text') :
    signLength text = signLength text' := by
  cases h with
  | nil => rfl
  | cons hc _ =>
    rw [signLength_cons, signLength_cons]
    cases hc <;> rfl

theorem exponentLength_recoded (h : List.Forall₂ Recoded text text') :
    exponentLength text = exponentLength text' := by
  cases h with
  | nil => rfl
  | @cons c c' text text' hc htext =>
    have hletter : (c == 'e' || c == 'E') = (c' == 'e' || c' == 'E') := by cases hc <;> rfl
    rw [exponentLength_cons, exponentLength_cons, hletter, signLength_recoded htext,
      run_recoded ⟨rfl, rfl, rfl, rfl⟩ (List.forall₂_drop _ htext)]

theorem quotedTail?_recoded (h : List.Forall₂ Recoded text text') :
    quotedTail? text = quotedTail? text' := by
  have hquote : '\'' ∉ ['.', ',', ';', '\\'] := by decide
  fun_induction quotedTail? text generalizing text' with
  | case1 =>
    cases h
    rfl
  | case2 rest ih =>
    obtain _ | ⟨hc, _ | ⟨hd, hrest⟩⟩ := h
    obtain rfl := (hc.eq_iff hquote).mp rfl
    obtain rfl := (hd.eq_iff hquote).mp rfl
    rw [quotedTail?, ih hrest]
  | case3 rest hone =>
    obtain _ | ⟨hc, hrest⟩ := h
    obtain rfl := (hc.eq_iff hquote).mp rfl
    refine (quotedTail?_quote_cons ?_).symm
    cases hrest with
    | nil => exact stops_nil _
    | cons hd _ =>
      rw [stops_cons, beq_eq_false_iff_ne]
      intro heq
      exact hone _ (by rw [(hd.eq_iff hquote).mpr heq.symm])
  | case4 c rest hpair hne ih =>
    obtain _ | ⟨hc, hrest⟩ := h
    have hne' : _ ≠ '\'' := fun heq => hne ((hc.eq_iff hquote).mpr heq.symm).symm
    rw [quotedTail?_cons hne', ih hrest]

/-! ### Tokens that stay -/

/-- A name ends at the same place before a text that ends names alike. -/
theorem name_congr {kind : Token.Kind} (hname : name c (cs ++ rest) = (kind, (c :: cs).length))
    (hkind : kind ≠ .unknown) (hquoted : ∀ n ≤ cs.length, quotedTail? (cs ++ rest) = some n →
      quotedTail? (cs ++ rest') = some n)
    (hstops : Stops isSymbolChar rest → Stops isSymbolChar rest')
    (hparen : (rest.head? != some '(') = (rest'.head? != some '(')) :
    name c (cs ++ rest') = (kind, (c :: cs).length) := by
  have hrun {s : List Char} (h : run isSymbolChar (s ++ rest) = s.length) :
      run isSymbolChar (s ++ rest') = s.length := by
    obtain ⟨hsymbol, hrest⟩ := run_eq_length h
    exact run_append hsymbol (hstops hrest)
  have hnameKind : nameKind (c :: cs ++ rest) (c :: cs).length =
      nameKind (c :: cs ++ rest') (c :: cs).length := by
    rw [nameKind_append, nameKind_append, hparen]
  unfold name at hname ⊢
  by_cases hquote : c = '\''
  · rw [if_pos hquote] at hname ⊢
    cases htail : quotedTail? (cs ++ rest) with
    | none =>
      rw [htail] at hname
      exact absurd (congrArg Prod.fst hname).symm hkind
    | some n =>
      rw [htail] at hname
      obtain ⟨hfound, hlength⟩ := Prod.mk.inj hname
      rw [hlength, ← List.cons_append, hnameKind] at hfound
      have hn : n ≤ cs.length := by
        rw [List.length_cons] at hlength
        omega
      rw [List.drop_append_of_le_length hn, List.length_cons] at hlength
      have htail' : run isSymbolChar (cs.drop n ++ rest') = (cs.drop n).length := by
        refine hrun ?_
        rw [List.length_drop]
        omega
      have hlength' : 1 + n + (cs.drop n).length = (c :: cs).length := by
        rw [List.length_drop, List.length_cons]
        omega
      simp only [hquoted n hn htail, List.drop_append_of_le_length hn, htail', hlength', ← hfound,
        List.cons_append]
  · rw [if_neg hquote] at hname ⊢
    simp only at hname ⊢
    split at hname
    · exact absurd (congrArg Prod.fst hname).symm hkind
    · obtain ⟨hfound, hlength⟩ := Prod.mk.inj hname
      rw [hlength, ← List.cons_append, hnameKind] at hfound
      have hwhole : run isSymbolChar (c :: (cs ++ rest')) = (c :: cs).length :=
        hrun (s := c :: cs) hlength
      rw [hwhole, if_neg (by simp), ← hfound, List.cons_append]

theorem name_recoded {kind : Token.Kind} (hname : name c (cs ++ rest) = (kind, (c :: cs).length))
    (hkind : kind ≠ .unknown) (hrest : List.Forall₂ Recoded rest rest') :
    name c (cs ++ rest') = (kind, (c :: cs).length) := by
  refine name_congr hname hkind ?_ (fun hstops => hstops.recoded hrest) ?_
  · intro n _ hquoted
    rwa [← quotedTail?_recoded (List.rel_append (forall₂_recoded_refl cs) hrest)]
  · rw [Bool.eq_iff_iff, bne_iff_ne, bne_iff_ne, not_iff_not]
    exact head?_recoded hrest (by decide)

theorem IsCanonical.apart_isBlank (hx : x.IsCanonical) : Apart x.isBlank := by
  rcases hx.blank with h | h <;> rw [h] <;> exact ⟨by decide, by decide, by decide, by decide⟩

theorem first_of_punctuation (hx : x.IsCanonical) {kind : Token.Kind}
    (h : (c, kind) ∈ punctuation) (cs : List Char) : x.first c cs = (kind, 1) := by
  obtain ⟨_, _, heq, hfirst⟩ := lexeme_of_punctuation hx h cs
  cases heq
  exact hfirst

theorem first_backslash (hx : x.IsCanonical) (cs : List Char) :
    x.first '\\' cs = (.unknown, 1) := by
  have hnumber : x.number? ('\\' :: cs) = none := by
    rw [← Option.isNone_iff_eq_none, ← Option.isSome_eq_false_iff, isSome_number? hx]
    rfl
  have hname : name '\\' cs = (.unknown, 1) := by
    rw [name, if_neg (by decide), run_cons_eq_zero.mpr (by decide)]
    rfl
  simp [first, hx.apart_isBlank.backslash, Text.isLineBreak, hx.row, hx.argument,
    startsWith_singleton, bracket?, find?_operators_eq_none (c := '\\') (by decide), hnumber, hname]

/-- A number cannot begin where none began before. -/
theorem number?_eq_none (hx : x.IsCanonical) (hy : y.IsComma) (hc : c ≠ ',')
    (h : x.number? (c :: cs) = none) (cs' : List Char) : y.number? (c :: cs') = none := by
  have hstarts := isSome_number? hx (c :: cs)
  rw [h] at hstarts
  have hdigit : c.isDigit = false := by
    unfold startsNumber at hstarts
    split at hstarts <;> simp_all
  simp [number?, run_cons_eq_zero.mpr hdigit, hy.decimal, startsWith_singleton, hc.symm]

/-- A string ends at the same place. -/
theorem stringTail_recoded {body : List Char} (h : stringTail (body ++ rest) = body.length)
    (hrest : List.Forall₂ Recoded rest rest') : stringTail (body ++ rest') = body.length := by
  rcases closesString_or_eq_nil h with hclosed | rfl
  · exact stringTail_append hclosed rest'
  · cases hrest
    exact h

/-- Characters at which tokens of different kinds begin are different. -/
theorem ne_of_first {d : Char} {kind other : Token.Kind} {n m : Nat}
    (hother : x.first d cs = (other, m)) (h : x.first c cs = (kind, n)) (hkind : kind ≠ other) :
    c ≠ d := by
  rintro rfl
  rw [h] at hother
  exact hkind (Prod.mk.inj hother).1

/-- A token that is no number and no separator stays one. -/
theorem first_recoded (hx : x.IsCanonical) (hy : y.IsComma) (hblank : y.isBlank = x.isBlank)
    {kind : Token.Kind} (hfirst : x.first c (cs ++ rest) = (kind, (c :: cs).length))
    (hkind : kind ∉ [.unknown, .number, .argSeparator, .rowSeparator])
    (hrest : List.Forall₂ Recoded rest rest') :
    y.first c (cs ++ rest') = (kind, (c :: cs).length) := by
  simp only [List.mem_cons, List.not_mem_nil, or_false, not_or] at hkind
  obtain ⟨hknown, hvalue, hargument, hrow⟩ := hkind
  have hall : List.Forall₂ Recoded (c :: (cs ++ rest)) (c :: (cs ++ rest')) :=
    .cons (.same c) (List.rel_append (forall₂_recoded_refl cs) hrest)
  have hcomma : c ≠ ',' := ne_of_first (first_of_punctuation hx (by decide) _) hfirst hargument
  have hsemicolon : c ≠ ';' := ne_of_first (first_of_punctuation hx (by decide) _) hfirst hrow
  have hbackslash : c ≠ '\\' := ne_of_first (first_backslash hx _) hfirst hknown
  -- each rule that comes before the one that fits looks only at what keeps its part
  unfold first at hfirst ⊢
  simp only [hx.row, hx.argument, hy.row, hy.argument, startsWith_singleton, hblank,
    beq_eq_false_iff_ne.mpr hcomma.symm, beq_eq_false_iff_ne.mpr hsemicolon.symm,
    beq_eq_false_iff_ne.mpr hbackslash.symm, Bool.false_eq_true, if_false] at hfirst ⊢
  rw [← run_recoded ⟨by decide, by decide, by decide, by decide⟩ hall,
    ← run_recoded hx.apart_isBlank hall, ← find?_operators_recoded hall,
    ← isPrefixOf_recoded (by simp) hall]
  by_cases hbreak : Text.isLineBreak c = true
  · rwa [if_pos hbreak] at hfirst ⊢
  rw [if_neg hbreak] at hfirst ⊢
  by_cases hspace : x.isBlank c = true
  · rwa [if_pos hspace] at hfirst ⊢
  rw [if_neg hspace] at hfirst ⊢
  cases hbracket : bracket? c with
  | some found =>
    rw [hbracket] at hfirst
    exact hfirst
  | none =>
    simp only [hbracket] at hfirst ⊢
    cases hop : operators.find? (·.isPrefixOf (c :: (cs ++ rest))) with
    | some op =>
      rw [hop] at hfirst
      exact hfirst
    | none =>
      simp only [hop] at hfirst ⊢
      by_cases hstring : c = '"'
      · rw [if_pos hstring] at hfirst ⊢
        obtain ⟨hkind, hlength⟩ := Prod.mk.inj hfirst
        have htail : stringTail (cs ++ rest) = cs.length := by
          rw [List.length_cons] at hlength
          omega
        rw [stringTail_recoded htail hrest, hkind, List.length_cons, Nat.add_comm]
      rw [if_neg hstring] at hfirst ⊢
      by_cases hmark : c = '?'
      · rwa [if_pos hmark] at hfirst ⊢
      rw [if_neg hmark] at hfirst ⊢
      split at hfirst
      · rwa [if_pos ‹_›]
      rw [if_neg ‹_›]
      cases hnumber : x.number? (c :: (cs ++ rest)) with
      | some n =>
        rw [hnumber] at hfirst
        exact absurd (Prod.mk.inj hfirst).1.symm hvalue
      | none =>
        rw [hnumber] at hfirst
        rw [number?_eq_none hx hy hcomma hnumber]
        exact name_recoded hfirst hknown hrest

/-! ### Numbers -/

/-- How a number is written with a decimal comma. -/
def pointToComma (c : Char) : Char :=
  if c = '.' then ',' else c

theorem map_pointToComma (h : ∀ c ∈ s, c ≠ '.') : s.map pointToComma = s :=
  (List.map_congr_left fun c hc => if_neg (h c hc)).trans (List.map_id' s)

theorem recoded_pointToComma (c : Char) : Recoded c (pointToComma c) := by
  unfold pointToComma
  split
  · subst c
    exact .decimal
  · exact .same c

theorem forall₂_pointToComma (s : List Char) : List.Forall₂ Recoded s (s.map pointToComma) :=
  List.forall₂_map_right_iff.mpr (List.forall₂_same.mpr fun c _ => recoded_pointToComma c)

theorem startsWith_singleton_eq (separator : Char) (text : List Char) :
    startsWith [separator] text = (text.head? == some separator) := by
  cases text with
  | nil => rfl
  | cons c cs =>
    rw [startsWith_singleton, BEq.comm]
    rfl

/-- The decimal separator of a number stands at the same place. -/
theorem decimal_recoded (hx : x.IsCanonical) (h : x.number? (s ++ rest) = some s.length)
    (hrest : List.Forall₂ Recoded rest rest')
    (hhead : rest'.head? = some ',' → rest.head? = some '.') :
    ((s ++ rest).drop (run Char.isDigit (s ++ rest))).head? = some '.' ↔
      ((s.map pointToComma ++ rest').drop (run Char.isDigit (s ++ rest))).head? = some ',' := by
  have hall := List.rel_append (forall₂_pointToComma s) hrest
  simp only [number?, hx.decimal, startsWith_singleton_eq] at h
  generalize run Char.isDigit (s ++ rest) = whole at h ⊢
  constructor
  · intro hpoint
    rw [hpoint, if_pos (by simp)] at h
    split at h
    · cases h
    · have hlt : whole < s.length := by
        have hlength := Option.some.inj h
        rw [List.length_singleton] at hlength
        omega
      obtain ⟨c, cs, hs⟩ := List.exists_cons_of_ne_nil (l := s.drop whole) (by simpa using hlt)
      rw [List.drop_append_of_le_length hlt.le, hs] at hpoint
      rw [List.drop_append_of_le_length (by simpa using hlt.le), ← List.map_drop, hs]
      obtain rfl : c = '.' := by simpa using hpoint
      rfl
  · intro hcomma
    by_contra hpoint
    rw [if_neg (by simpa using hpoint)] at h
    split at h
    · cases h
    · have hdrop := List.forall₂_drop whole hall
      generalize hafter : (s ++ rest).drop whole = after,
        hafter' : (s.map pointToComma ++ rest').drop whole = after' at h hpoint hcomma hdrop
      cases hdrop with
      | nil => cases hcomma
      | cons hc _ =>
        cases hcomma
        cases hc with
        | decimal => exact hpoint rfl
        | same =>
          -- no exponent begins with a comma, so the number ends here and the next token begins
          obtain rfl : whole = s.length := by simpa [exponentLength_cons] using h
          rw [List.drop_left] at hafter
          rw [← List.length_map pointToComma, List.drop_left] at hafter'
          have hpoint := hhead (by rw [hafter']; rfl)
          rw [hafter] at hpoint
          cases hpoint

/-- A number is one again, with a comma for its point. -/
theorem number?_recoded (hx : x.IsCanonical) (hy : y.IsComma)
    (h : x.number? (s ++ rest) = some s.length) (hrest : List.Forall₂ Recoded rest rest')
    (hhead : rest'.head? = some ',' → rest.head? = some '.') :
    y.number? (s.map pointToComma ++ rest') = some s.length := by
  have hall := List.rel_append (forall₂_pointToComma s) hrest
  have hdigit : Apart Char.isDigit := ⟨rfl, rfl, rfl, rfl⟩
  have hpoint := decimal_recoded hx h hrest hhead
  rw [← h]
  simp only [number?, hx.decimal, hy.decimal, startsWith_singleton_eq, beq_iff_eq,
    ← run_recoded hdigit hall, hpoint, List.length_singleton]
  rw [run_recoded hdigit (List.forall₂_drop 1 (List.forall₂_drop _ hall)),
    exponentLength_recoded (List.forall₂_drop _ hall),
    exponentLength_recoded (List.forall₂_drop _ hall)]

/-- A digit or a decimal comma begins a number if there is one. -/
theorem first_of_number (hx : x.IsCanonical) (hy : y.IsComma) (hblank : y.isBlank = x.isBlank)
    (hc : c.isDigit = true ∨ c = ',') {n : Nat} (h : y.number? (c :: cs) = some n) :
    y.first c cs = (.number, n) := by
  have hspace : Text.isLineBreak c = false ∧ x.isBlank c = false := by
    rcases hc with hc | rfl
    · have hsymbol := isSymbolChar_of_isDigit hc
      exact ⟨isLineBreak_of_isSymbolChar hsymbol, hx.isBlank_of_isSymbolChar hsymbol⟩
    · exact ⟨by decide, hx.apart_isBlank.comma⟩
  have hchar : ∀ d ∈ ';' :: '\\' :: delimiters.drop 6, c ≠ d := by
    have hother : ∀ d ∈ ';' :: '\\' :: delimiters.drop 6, d.isDigit = false ∧ d ≠ ',' :=
      List.all_iff_forall_prop.mp (by decide)
    rintro d hd rfl
    rcases hc with hc | hc
    · rw [(hother c hd).1] at hc
      cases hc
    · exact (hother c hd).2 hc
  rw [first_of_unmarked hspace.1 (hblank ▸ hspace.2), h]
  · simp [hy.row, startsWith_singleton, (hchar '\\' (by decide)).symm]
  · simp [hy.argument, startsWith_singleton, (hchar ';' (by decide)).symm]
  · exact fun d hd _ => hchar d (List.mem_cons_of_mem _ (List.mem_cons_of_mem _ hd))

/-! ### All tokens -/

/-- The text of a token in the locale with a decimal comma. -/
def respell : Token.Kind → List Char → List Char
  | .number, s => s.map pointToComma
  | .argSeparator, _ => [';']
  | .rowSeparator, _ => ['\\']
  | _, s => s

/-- What a number or a name begins with is no separator of arguments. -/
theorem Lexeme.ne_comma (hx : x.IsCanonical) {kind : Token.Kind} (h : x.Lexeme kind (c :: cs) rest)
    (hkind : kind ≠ .argSeparator) : c ≠ ',' := by
  obtain ⟨_, _, heq, hfirst⟩ := h
  cases heq
  exact ne_of_first (first_of_punctuation hx (by decide) _) hfirst hkind

theorem Lexeme.forall₂_respell (hx : x.IsCanonical) {kind : Token.Kind}
    (h : x.Lexeme kind s rest) : List.Forall₂ Recoded s (respell kind s) := by
  have hspelt := spelt_of_lexeme hx h
  cases hspelt with
  | number => exact forall₂_pointToComma s
  | argSeparator => exact .cons .argument .nil
  | rowSeparator => exact .cons .row .nil
  | _ => exact forall₂_recoded_refl _

/-- A comma is put only where a point was. -/
theorem Lexeme.head_respell (hx : x.IsCanonical) {kind : Token.Kind} (h : x.Lexeme kind s rest)
    (hcomma : (respell kind s ++ rest').head? = some ',') : (s ++ rest).head? = some '.' := by
  obtain ⟨c, cs, rfl, -⟩ := id h
  cases kind with
  | number =>
    have hc := h.ne_comma hx (by simp)
    have hpoint : pointToComma c = ',' := by simpa [Lexer.respell] using hcomma
    unfold pointToComma at hpoint
    split at hpoint
    · subst c
      rfl
    · exact absurd hpoint hc
  | argSeparator => simp [Lexer.respell] at hcomma
  | rowSeparator => simp [Lexer.respell] at hcomma
  | _ => exact absurd (by simpa [Lexer.respell] using hcomma) (h.ne_comma hx (by simp))

theorem Lexeme.respell (hx : x.IsCanonical) (hy : y.IsComma) (hblank : y.isBlank = x.isBlank)
    {kind : Token.Kind} (h : x.Lexeme kind s rest) (hkind : kind ≠ .unknown)
    (hrest : List.Forall₂ Recoded rest rest')
    (hhead : rest'.head? = some ',' → rest.head? = some '.') :
    y.Lexeme kind (Lexer.respell kind s) rest' := by
  have hspace := hx.apart_isBlank
  cases kind with
  | number =>
    obtain ⟨c, cs, rfl, hfirst⟩ := h
    have hnumber := number?_of_first hfirst
    have hc := digit_or_decimal hx.decimal hnumber
    refine ⟨pointToComma c, cs.map pointToComma, rfl, ?_⟩
    rw [← List.cons_append] at hnumber
    have hrecoded := number?_recoded hx hy hnumber hrest hhead
    rw [List.map_cons, List.cons_append] at hrecoded
    rw [Lexer.respell, List.length_map]
    refine first_of_number hx hy hblank ?_ hrecoded
    unfold pointToComma
    split
    · exact .inr rfl
    · exact .inl (hc.resolve_right ‹_›)
  | argSeparator =>
    refine ⟨';', [], rfl, ?_⟩
    simp [first, Lexer.respell, Text.isLineBreak, hblank, hspace.semicolon, hy.row, hy.argument,
      startsWith_singleton]
  | rowSeparator =>
    refine ⟨'\\', [], rfl, ?_⟩
    simp [first, Lexer.respell, Text.isLineBreak, hblank, hspace.backslash, hy.row,
      startsWith_singleton]
  | unknown => exact absurd rfl hkind
  | _ =>
    obtain ⟨c, cs, rfl, hfirst⟩ := h
    exact ⟨c, cs, rfl, first_recoded hx hy hblank hfirst (by decide) hrest⟩

end Lexer

/-- The token in the locale with a decimal comma: a number has a comma for its point, and separators
are those of the locale. -/
def Token.respelled (t : Token) : Token :=
  ⟨t.kind, String.ofList (Lexer.respell t.kind t.text.toList)⟩

/-- A text without strays is cut at the same places after its tokens are spelt for the locale with a
decimal comma. -/
theorem Lexer.Cuts.respelled {x y : Lexer} (hx : x.IsCanonical) (hy : y.IsComma)
    (hblank : y.isBlank = x.isBlank) {tokens : List Token} {text : List Char}
    (h : x.Cuts tokens text) (hknown : ∀ t ∈ tokens, t.kind ≠ .unknown) :
    ∃ text', y.Cuts (tokens.map Token.respelled) text' ∧ List.Forall₂ Recoded text text' ∧
      (text'.head? = some ',' → text.head? = some '.') := by
  induction h with
  | nil => exact ⟨[], .nil, .nil, by rintro ⟨⟩⟩
  | @cons kind s rest tokens lexeme cuts ih =>
    obtain ⟨hkind, hknown⟩ := List.forall_mem_cons.mp hknown
    obtain ⟨rest', hcuts, hrest, hhead⟩ := ih hknown
    refine ⟨Lexer.respell kind s ++ rest', ?_, ?_, lexeme.head_respell hx⟩
    · have hcons := Cuts.cons (lexeme.respell hx hy hblank hkind hrest hhead) hcuts
      simpa [Token.respelled] using hcons
    · exact List.rel_append (lexeme.forall₂_respell hx) hrest

end SheetFormula
