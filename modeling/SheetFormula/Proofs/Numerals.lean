import SheetFormula.Expr.Literal
import SheetFormula.Proofs.Spelling

/-!
Numbers in a text. What is cut from a text as a number is digits, perhaps a decimal separator and more
digits, and perhaps an exponent; at least one digit stands before the exponent. It reads as the numeral
that it spells (`Literal.number?_of_speltWith`), provided that the separator is found again where it was
cut: none of its characters can stand elsewhere in a number.

A hexadecimal numeral is never cut from a text. It reads as the numeral that it spells too
(`Numeral.SpeltIn.ofNumeral?_hexadecimal`), with underscores in it or without.
-/

set_option autoImplicit false

namespace SheetFormula

/-- A character that can stand in a number beside the separator. -/
def Lexer.isNumberChar (c : Char) : Bool :=
  c.isDigit || c == 'e' || c == 'E' || c == '+' || c == '-'

theorem Lexer.isNumberChar_of_isDigit {c : Char} (h : c.isDigit = true) : isNumberChar c = true := by
  simp [isNumberChar, h]

/-- No character of the decimal separator can stand elsewhere in a number. An empty separator has none. -/
def Locale.isUnambiguous (l : Locale) : Bool :=
  l.decimal.toList.all fun c => !Lexer.isNumberChar c

namespace Number

/-! ### Exponents -/

theorem splitSign_cons {c : Char} (h : c ≠ '+' ∧ c ≠ '-') (cs : List Char) :
    Text.splitSign (c :: cs) = (false, c :: cs) := by
  rw [Text.splitSign] <;> simp [h.1, h.2]

theorem splitSign_append {sign ds : List Char} (hsign : sign ∈ [[], ['+'], ['-']])
    (hds : ∀ c ∈ ds.head?, c ≠ '+' ∧ c ≠ '-') : Text.splitSign (sign ++ ds) = (sign == ['-'], ds) := by
  simp only [List.mem_cons, List.not_mem_nil, or_false] at hsign
  rcases hsign with rfl | rfl | rfl
  · cases ds with
    | nil => rfl
    | cons d ds => exact splitSign_cons (hds d rfl) ds
  · rfl
  · rfl

theorem ne_sign_of_isDigit {c : Char} (h : c.isDigit = true) : c ≠ '+' ∧ c ≠ '-' := by
  constructor <;> rintro rfl <;> cases h

/-- An exponent part and its value: a letter, perhaps a sign, and digits. The part may be missing from a
decimal numeral. -/
inductive ExponentText (radix : Radix) : List Char → Int → Prop
  | absent (decimal : radix = .decimal) : ExponentText radix [] 0
  | present {letter : Char} {sign ds : List Char} (head : letter ∈ radix.letters)
    (mem : sign ∈ [[], ['+'], ['-']]) (nonempty : ds ≠ []) (digits : ∀ c ∈ ds, c.isDigit = true) :
    ExponentText radix (letter :: (sign ++ ds))
      (if sign = ['-'] then -(exponentOfDigits ds : Int) else exponentOfDigits ds)

namespace ExponentText

variable {radix : Radix} {cs : List Char} {e : Int}

theorem readExponent? (h : ExponentText radix cs e) : readExponent? radix cs = some e := by
  cases h with
  | absent decimal => exact if_pos decimal
  | present head mem nonempty digits =>
    have hdigits := fun c hc => ne_sign_of_isDigit (digits c (List.mem_of_mem_head? hc))
    rw [Number.readExponent?, if_pos head, splitSign_append mem hdigits]
    simp only
    rw [if_pos ⟨nonempty, List.all_eq_true.mpr digits⟩]
    simp only [beq_iff_eq]

theorem isNumberChar (h : ExponentText .decimal cs e) : ∀ c ∈ cs, Lexer.isNumberChar c = true := by
  cases h with
  | absent => exact List.forall_mem_nil _
  | present head mem nonempty digits =>
    simp only [Radix.letters, List.mem_cons, List.not_mem_nil, or_false] at head mem
    refine List.forall_mem_cons.mpr ⟨?_, List.forall_mem_append.mpr ⟨?_, ?_⟩⟩
    · rcases head with rfl | rfl <;> rfl
    · rcases mem with rfl | rfl | rfl <;> simp [Lexer.isNumberChar]
    · exact fun c hc => Lexer.isNumberChar_of_isDigit (digits c hc)

/-- An exponent part begins with its letter. -/
theorem stops (h : ExponentText radix cs e) {p : Char → Bool}
    (hletters : ∀ c ∈ radix.letters, p c = false) : Lexer.Stops p cs := by
  cases h with
  | absent => exact Lexer.stops_nil p
  | present head mem nonempty digits => exact Lexer.stops_cons.mpr (hletters _ head)

end ExponentText

/-- Neither the letter of an exponent nor the point is a digit. -/
theorem Radix.isDigit_eq_false (radix : Radix) :
    (∀ c ∈ radix.letters, radix.isDigit c = false) ∧ radix.isDigit '.' = false := by
  cases radix <;> exact ⟨List.all_iff_forall_prop.mp (by decide), rfl⟩

/-! ### Numerals -/

/-- The text of a numeral of a radix, with a separator before the fraction. Digits may be missing on one
side of the separator. -/
inductive Numeral.SpeltIn (radix : Radix) (separator : List Char) : Numeral → List Char → Prop
  | plain {whole exponent : List Char} {e : Int} (nonempty : whole ≠ [])
    (digits : ∀ c ∈ whole, radix.isDigit c = true) (power : ExponentText radix exponent e) :
    SpeltIn radix separator ⟨whole, [], e⟩ (whole ++ exponent)
  | pointed {whole fraction exponent : List Char} {e : Int} (separated : separator ≠ [])
    (nonempty : ¬ (whole = [] ∧ fraction = [])) (digits : ∀ c ∈ whole, radix.isDigit c = true)
    (places : ∀ c ∈ fraction, radix.isDigit c = true) (power : ExponentText radix exponent e) :
    SpeltIn radix separator ⟨whole, fraction, e⟩ (whole ++ (separator ++ (fraction ++ exponent)))

/-- The text of a decimal numeral with a decimal separator. -/
abbrev Numeral.SpeltWith (decimal : List Char) : Numeral → List Char → Prop :=
  Numeral.SpeltIn .decimal decimal

/-- The characters that a number begins with. -/
def heads : List Char :=
  ['0', '1', '2', '3', '4', '5', '6', '7', '8', '9', '.']

theorem mem_heads {c : Char} (h : c.isDigit = true ∨ c = '.') : c ∈ heads := by
  rcases h with h | rfl
  · simp only [Char.isDigit, Bool.and_eq_true, decide_eq_true_eq] at h
    have hlow : 48 ≤ c.toNat := h.1
    have hhigh : c.toNat ≤ 57 := h.2
    have hmem : ∀ n ≤ 9, Char.ofNat (48 + n) ∈ heads := by decide
    rw [← Char.ofNat_toNat c, ← Nat.add_sub_cancel' hlow]
    exact hmem _ (by omega)
  · decide

/-- What begins like a number has no sign. -/
theorem splitSign_of_heads {c : Char} (h : c ∈ heads) (cs : List Char) :
    Text.splitSign (c :: cs) = (false, c :: cs) := by
  have hheads : ∀ c ∈ heads, c ≠ '+' ∧ c ≠ '-' := List.all_iff_forall_prop.mp (by decide)
  exact splitSign_cons (hheads c h) cs

/-- What begins like a number is none of the words for infinity and for no number, with a sign or
without. -/
theorem readPlain?_append {sign : List Char} (hsign : sign ∈ [[], ['+'], ['-']]) {c : Char}
    (h : c ∈ heads) (cs : List Char) : readPlain? (sign ++ c :: cs) =
      (Numeral.read? (radixPart (c :: cs)).1 (radixPart (c :: cs)).2).map
        (Numeral.roundIn (radixPart (c :: cs)).1 (sign == ['-'])) := by
  have hheads : ∀ c ∈ heads, (c ≠ '+' ∧ c ≠ '-') ∧ c.toLower ≠ 'i' ∧ c.toLower ≠ 'n' :=
    List.all_iff_forall_prop.mp (by decide)
  obtain ⟨hplain, hi, hn⟩ := hheads c h
  have hsplit : Text.splitSign (sign ++ c :: cs) = (sign == ['-'], c :: cs) :=
    splitSign_append hsign (by simpa using hplain)
  have hinfinite : ¬ ((c :: cs).map Char.toLower = "inf".toList ∨
      (c :: cs).map Char.toLower = "infinity".toList) := by
    rintro (hword | hword) <;> exact hi (List.cons.inj hword).1
  have hnan : ¬ (sign ++ c :: cs).map Char.toLower = "nan".toList := by
    simp only [List.mem_cons, List.not_mem_nil, or_false] at hsign
    rcases hsign with rfl | rfl | rfl <;> intro hword
    · exact hn (List.cons.inj hword).1
    · cases (List.cons.inj hword).1
    · cases (List.cons.inj hword).1
  simp only [readPlain?, hsplit, if_neg hinfinite, if_neg hnan]

theorem readPlain?_cons {c : Char} (h : c ∈ heads) (cs : List Char) : readPlain? (c :: cs) =
    (Numeral.read? (radixPart (c :: cs)).1 (radixPart (c :: cs)).2).map
      (Numeral.roundIn (radixPart (c :: cs)).1 false) :=
  readPlain?_append List.mem_cons_self h cs

/-- A numeral without the letter of hexadecimal ones is decimal. -/
theorem radixPart_of_forall {cs : List Char} (h : ∀ c ∈ cs, ¬ (c = 'x' ∨ c = 'X')) :
    radixPart cs = (.decimal, cs) := by
  unfold radixPart
  split
  · rename_i c rest
    rw [if_neg (h c (by simp))]
  · rfl

theorem underscoresSeparate_of_forall {isDigit : Char → Bool} {cs : List Char}
    (h : ∀ c ∈ cs, c ≠ '_') (before : Bool) : Text.underscoresSeparate isDigit before cs = true := by
  induction cs generalizing before with
  | nil => rfl
  | cons c cs ih =>
    obtain ⟨hc, hcs⟩ := List.forall_mem_cons.mp h
    rw [Text.underscoresSeparate]
    · exact ih hcs _
    · exact fun d ds hunderscore => absurd hunderscore hc
    · exact fun hunderscore => absurd hunderscore hc

theorem groupedWell_of_forall {cs : List Char} (h : ∀ c ∈ cs, c ≠ '_') :
    Text.groupedWell cs = true := by
  unfold Text.groupedWell
  split
  · rename_i c rest
    have hrest := fun d hd => h d (List.mem_cons_of_mem _ (List.mem_cons_of_mem _ hd))
    split_ifs
    · exact underscoresSeparate_of_forall hrest true
    · exact underscoresSeparate_of_forall hrest true
    · exact underscoresSeparate_of_forall h false
  · exact underscoresSeparate_of_forall h false

namespace Numeral

variable {radix : Radix} {n : Numeral} {decimal cs rest : List Char}

theorem takeWhile_append_of_stops {p : Char → Bool} {s : List Char} (hs : ∀ c ∈ s, p c = true)
    (hrest : Lexer.Stops p rest) : (s ++ rest).takeWhile p = s ∧ (s ++ rest).dropWhile p = rest := by
  have hhead : rest.takeWhile p = [] ∧ rest.dropWhile p = rest := by
    cases rest with
    | nil => exact ⟨rfl, rfl⟩
    | cons c cs =>
      have hc : ¬ p c = true := by simp [Lexer.stops_cons.mp hrest]
      exact ⟨List.takeWhile_cons_of_neg hc, List.dropWhile_cons_of_neg hc⟩
  rw [List.takeWhile_append_of_pos hs, List.dropWhile_append_of_pos hs, hhead.1, hhead.2,
    List.append_nil]
  exact ⟨rfl, rfl⟩

/-- A numeral is read from its text with a point. -/
theorem SpeltIn.read? (h : n.SpeltIn radix ['.'] cs) : read? radix cs = some n := by
  obtain ⟨hletters, hpoint⟩ := radix.isDigit_eq_false
  cases h with
  | plain nonempty digits power =>
    obtain ⟨htake, hdrop⟩ := takeWhile_append_of_stops digits (power.stops hletters)
    simp only [Numeral.read?, htake, hdrop]
    split
    · have hnone : ∀ c ∈ radix.letters, (c == '.') = false := by
        cases radix <;> exact List.all_iff_forall_prop.mp (by decide)
      cases Lexer.stops_cons.mp (power.stops hnone)
    · rw [if_neg (by simp [nonempty]), power.readExponent?, Option.map_some]
  | @pointed whole fraction exponent e separated nonempty digits places power =>
    have hstop : Lexer.Stops radix.isDigit ('.' :: (fraction ++ exponent)) :=
      Lexer.stops_cons.mpr hpoint
    obtain ⟨htake, hdrop⟩ := takeWhile_append_of_stops digits hstop
    obtain ⟨htake', hdrop'⟩ := takeWhile_append_of_stops places (power.stops hletters)
    simp only [Numeral.read?, List.cons_append, List.nil_append, htake, hdrop, htake', hdrop']
    rw [if_neg nonempty, power.readExponent?, Option.map_some]

theorem SpeltWith.isNumberChar_or_mem (h : n.SpeltWith decimal cs) :
    ∀ c ∈ cs, Lexer.isNumberChar c = true ∨ c ∈ decimal := by
  have hdigits {ds : List Char} (hds : ∀ c ∈ ds, c.isDigit = true) :
      ∀ c ∈ ds, Lexer.isNumberChar c = true ∨ c ∈ decimal :=
    fun c hc => .inl (Lexer.isNumberChar_of_isDigit (hds c hc))
  cases h with
  | plain nonempty digits power =>
    exact List.forall_mem_append.mpr ⟨hdigits digits, fun c hc => .inl (power.isNumberChar c hc)⟩
  | pointed separated nonempty digits places power =>
    exact List.forall_mem_append.mpr ⟨hdigits digits, List.forall_mem_append.mpr
      ⟨fun c hc => .inr hc, List.forall_mem_append.mpr
        ⟨hdigits places, fun c hc => .inl (power.isNumberChar c hc)⟩⟩⟩

theorem SpeltWith.exists_cons (h : n.SpeltWith ['.'] cs) : ∃ c ds, cs = c :: ds ∧ c ∈ heads := by
  cases h with
  | @plain whole exponent e nonempty digits power =>
    obtain ⟨c, ds, rfl⟩ := List.exists_cons_of_ne_nil nonempty
    exact ⟨c, _, rfl, mem_heads (.inl (digits c List.mem_cons_self))⟩
  | @pointed whole fraction exponent e separated nonempty digits places power =>
    cases whole with
    | nil => exact ⟨'.', _, rfl, mem_heads (.inr rfl)⟩
    | cons c ds => exact ⟨c, _, rfl, mem_heads (.inl (digits c List.mem_cons_self))⟩

/-- The text of a decimal numeral with a point reads as the numeral's number. -/
theorem SpeltWith.ofNumeral? (h : n.SpeltWith ['.'] cs) : ofNumeral? cs = some (n.round false) := by
  have hplain : ∀ c ∈ cs, c ≠ '_' := by
    rintro c hc rfl
    exact absurd (h.isNumberChar_or_mem _ hc) (by decide)
  have hdecimal : ∀ c ∈ cs, ¬ (c = 'x' ∨ c = 'X') := by
    rintro c hc (rfl | rfl) <;> exact absurd (h.isNumberChar_or_mem _ hc) (by decide)
  have hread := h.read?
  obtain ⟨c, ds, rfl, hc⟩ := h.exists_cons
  rw [Number.ofNumeral?, splitSign_of_heads hc, if_pos (groupedWell_of_forall hplain),
    List.filter_eq_self.mpr (by simpa using hplain), readPlain?_cons hc,
    radixPart_of_forall hdecimal, hread]
  rfl

/-- The text of a hexadecimal numeral with a point reads as the nearest number: after the sign and the
mark of the radix, and with underscores that stand between its digits or after the mark. -/
theorem SpeltIn.ofNumeral?_hexadecimal {sign : List Char} {mark : Char}
    (h : n.SpeltIn .hexadecimal ['.'] (cs.filter (· != '_')))
    (hgroups : Text.underscoresSeparate Text.isHexDigit true cs = true)
    (hsign : sign ∈ [[], ['+'], ['-']]) (hmark : mark ∈ ['x', 'X']) :
    Number.ofNumeral? (sign ++ '0' :: mark :: cs) =
      some (n.roundHexadecimal (sign == ['-'])) := by
  have hsplit : Text.splitSign (sign ++ '0' :: mark :: cs) = (sign == ['-'], '0' :: mark :: cs) :=
    splitSign_append hsign (by simp)
  have hgrouped : Text.groupedWell ('0' :: mark :: cs) = true := by
    simp only [List.mem_cons, List.not_mem_nil, or_false] at hmark
    rcases hmark with rfl | rfl <;> exact hgroups
  have hfilter : (sign ++ '0' :: mark :: cs).filter (· != '_') =
      sign ++ '0' :: mark :: cs.filter (· != '_') := by
    simp only [List.mem_cons, List.not_mem_nil, or_false] at hsign hmark
    rcases hsign with rfl | rfl | rfl <;> rcases hmark with rfl | rfl <;> rfl
  have hradix : radixPart ('0' :: mark :: cs.filter (· != '_')) =
      (.hexadecimal, cs.filter (· != '_')) :=
    if_pos (by simpa using hmark)
  rw [Number.ofNumeral?, hsplit, if_pos hgrouped, hfilter, readPlain?_append hsign (by decide),
    hradix, h.read?]
  rfl

example : Number.ofNumeral? "0X1.8P-1".toList = Number.ofNumeral? "0.75".toList := by decide +kernel

example : Number.ofNumeral? "-0x_1p4".toList = Number.ofNumeral? "-16".toList := by decide +kernel

/-- A point takes the place of the separator: there is one occurrence of it at most, and it is the one
that was cut. -/
theorem SpeltWith.replaceFirst (h : n.SpeltWith decimal cs) (hseparator : decimal ≠ [])
    (hdecimal : ∀ c ∈ decimal, Lexer.isNumberChar c = false) :
    n.SpeltWith ['.'] (Text.replaceFirst decimal ['.'] cs) := by
  obtain ⟨d, ds, rfl⟩ := List.exists_cons_of_ne_nil hseparator
  have hd := hdecimal d List.mem_cons_self
  have hnot {s : List Char} (hs : ∀ c ∈ s, Lexer.isNumberChar c = true) : d ∉ s := by
    intro hmem
    rw [hs d hmem] at hd
    cases hd
  cases h with
  | plain nonempty digits power =>
    rw [Text.replaceFirst_eq_self (hnot (List.forall_mem_append.mpr
      ⟨fun c hc => Lexer.isNumberChar_of_isDigit (digits c hc), power.isNumberChar⟩))]
    exact .plain nonempty digits power
  | pointed separated nonempty digits places power =>
    rw [Text.replaceFirst_append (hnot fun c hc => Lexer.isNumberChar_of_isDigit (digits c hc))]
    exact .pointed (by simp) nonempty digits places power

end Numeral

end Number

/-! ### Numbers of a text -/

namespace Lexer

open Number (ExponentText Numeral)

variable {x : Lexer} {text : List Char}

theorem take_signLength (text : List Char) :
    text.take (signLength text) ∈ [[], ['+'], ['-']] := by
  unfold signLength
  split <;> simp

/-- What is taken for an exponent is one. -/
theorem exists_exponentText (text : List Char) :
    ∃ e, ExponentText .decimal (text.take (exponentLength text)) e := by
  cases text with
  | nil => exact ⟨0, .absent rfl⟩
  | cons c cs =>
    rw [exponentLength_cons]
    split
    · rename_i hletter
      split
      · exact ⟨0, .absent rfl⟩
      · rename_i hdigits
        rw [Nat.add_assoc, Nat.add_comm 1, List.take_succ_cons, List.take_add]
        exact ⟨_, .present (by simpa [Number.Radix.letters] using hletter) (take_signLength cs)
          (mt (take_run_eq_nil_iff _ _).mp hdigits) (forall_mem_take_run _ _)⟩
    · exact ⟨0, .absent rfl⟩

/-- What is taken for a number spells a numeral with the lexer's separator. -/
theorem exists_speltWith_of_number? {n : Nat} (h : x.number? text = some n) :
    ∃ numeral : Numeral, numeral.SpeltWith x.decimal (text.take n) := by
  have hwhole := forall_mem_take_run Char.isDigit text
  have hempty := take_run_eq_nil_iff Char.isDigit text
  simp only [number?] at h
  generalize run Char.isDigit text = w at h hwhole hempty
  split at h
  · rename_i hdecimal
    obtain ⟨hseparator, tail, htail⟩ := exists_append_of_startsWith hdecimal
    have hdrop (k : Nat) : text.drop (w + x.decimal.length + k) = tail.drop k := by
      rw [Nat.add_assoc, ← List.drop_drop, htail, ← List.drop_drop, List.drop_left]
    simp only [hdrop, htail, List.drop_left] at h
    split at h
    · cases h
    · rename_i hdigits
      cases h
      obtain ⟨e, hpower⟩ := exists_exponentText (tail.drop (run Char.isDigit tail))
      rw [← hempty, ← take_run_eq_nil_iff] at hdigits
      rw [Nat.add_assoc, Nat.add_assoc, List.take_add, htail, List.take_length_add_append, List.take_add]
      exact ⟨_, .pointed hseparator hdigits hwhole (forall_mem_take_run _ tail) hpower⟩
  · split at h
    · cases h
    · rename_i hdigits
      cases h
      obtain ⟨e, hpower⟩ := exists_exponentText (text.drop w)
      rw [List.take_add]
      exact ⟨_, .plain (mt hempty.mp hdigits) hwhole hpower⟩

end Lexer

/-- A number cut from a formula spells a numeral with the separator of the locale. -/
theorem Token.exists_speltWith {locale : Locale} {formula : String} {t : Token}
    (h : t ∈ tokenize locale formula) (hkind : t.kind = .number) :
    ∃ numeral : Number.Numeral, numeral.SpeltWith locale.decimal.toList t.text.toList := by
  obtain ⟨rest, c, cs, hs, hfirst⟩ := (Lexer.cuts_tokens _ formula.toList).lexeme_of_mem h
  rw [hkind] at hfirst
  have hspelt := Lexer.exists_speltWith_of_number? (Lexer.number?_of_first hfirst)
  rwa [hs, ← List.cons_append, ← hs, List.take_left] at hspelt

/-- A numeral that is spelt with the separator of an unambiguous locale is read in it. -/
theorem Literal.number?_of_speltWith {locale : Locale} (hlocale : locale.isUnambiguous = true)
    {numeral : Number.Numeral} {text : String}
    (h : numeral.SpeltWith locale.decimal.toList text.toList) :
    number? locale text = some (numeral.round false) := by
  unfold number?
  split
  · rename_i hdecimal
    refine Number.Numeral.SpeltWith.ofNumeral? ?_
    rcases hdecimal with hnone | hpoint
    · rw [hnone] at h
      generalize text.toList = cs at h
      cases h with
      | plain nonempty digits power => exact .plain nonempty digits power
      | pointed separated => exact absurd rfl separated
    · rwa [hpoint] at h
  · rename_i hdecimal
    rw [not_or] at hdecimal
    have hseparator : locale.decimal.toList ≠ [] := by simpa using hdecimal.1
    have hapart : ∀ c ∈ locale.decimal.toList, Lexer.isNumberChar c = false := by
      simpa [Locale.isUnambiguous] using hlocale
    exact (h.replaceFirst hseparator hapart).ofNumeral?

end SheetFormula
