import SheetFormula.Proofs.Recoding
import SheetFormula.Proofs.Tokenizing

/-!
How far a token looks ahead. Strings and quoted names run to their closing quotes. Every other token, and
whether a name is a cell or is called, is decided before the next blank or colon, since no rule goes on
across one. So a token that is no space stays what it is when the text after it changes from such a
character on (`Lexer.Lexeme.of_sameStart`), as long as the separators of the locale hold neither blanks
nor colons.
-/

set_option autoImplicit false

namespace SheetFormula.Lexer

/-- Neither a blank nor a colon: a character by which a token can go on. -/
def isSolid (c : Char) : Bool :=
  !Text.isBlank c && c != ':'

/-- The separators are made of solid characters, and the blanks are none. -/
structure IsSolid (x : Lexer) : Prop where
  argument : ∀ c ∈ x.argument, isSolid c = true
  row : ∀ c ∈ x.row, isSolid c = true
  decimal : ∀ c ∈ x.decimal, isSolid c = true
  blank : ∀ c, x.isBlank c = true → Text.isBlank c = true

theorem isSolid_ofText {locale : Locale} (hargument : ∀ c ∈ locale.argument.toList, isSolid c = true)
    (hrow : ∀ c ∈ locale.row.toList, isSolid c = true)
    (hdecimal : ∀ c ∈ locale.decimal.toList, isSolid c = true) (text : List Char) :
    (ofText locale text).IsSolid where
  argument := hargument
  row := hrow
  decimal := hdecimal
  blank := by
    intro c hc
    simp only [ofText] at hc
    split at hc
    · simp only [Text.isInlineBlank, Bool.and_eq_true] at hc
      exact hc.1
    · simp only [Text.isSimpleBlank, Bool.or_eq_true, beq_iff_eq] at hc
      rcases hc with rfl | rfl <;> rfl

variable {x : Lexer} {c : Char} {m a b cs : List Char}

/-! ### What stops -/

theorem isSolid_of_isSymbolChar (h : isSymbolChar c = true) : isSolid c = true := by
  rw [isSolid, Bool.and_eq_true, Bool.not_eq_true', bne_iff_ne]
  constructor
  · by_contra hblank
    rw [isSymbolChar_blank (by simpa using hblank)] at h
    cases h
  · rintro rfl
    cases h

theorem isSolid_of_isDigit (h : c.isDigit = true) : isSolid c = true :=
  isSolid_of_isSymbolChar (isSymbolChar_of_isDigit h)

/-- What begins with a blank or a colon is like the end of the text for a run of solid characters. -/
theorem run_of_stops {p : Char → Bool} (hp : ∀ c, p c = true → isSolid c = true)
    (ha : Stops isSolid a) (m : List Char) : run p (m ++ a) = run p m := by
  have htake : a.takeWhile p = [] := by
    cases a with
    | nil => rfl
    | cons d a => exact List.takeWhile_cons_of_neg (by simp [stops_cons.mp (ha.mono hp)])
  rw [run, List.takeWhile_append, htake]
  split
  · rename_i hall
    rw [List.append_nil, run, hall]
  · rfl

theorem isPrefixOf_of_stops {s : List Char} (hs : ∀ c ∈ s, isSolid c = true) (ha : Stops isSolid a)
    (m : List Char) : s.isPrefixOf (m ++ a) = s.isPrefixOf m := by
  induction s generalizing m with
  | nil => rfl
  | cons c s ih =>
    obtain ⟨hc, hs⟩ := List.forall_mem_cons.mp hs
    cases m with
    | nil =>
      cases a with
      | nil => rfl
      | cons d a =>
        have hne : c ≠ d := by
          rintro rfl
          rw [stops_cons.mp ha] at hc
          cases hc
        simp [List.isPrefixOf, hne]
    | cons d m => rw [List.cons_append, List.isPrefixOf, List.isPrefixOf, ih hs m]

theorem startsWith_of_stops {separator : List Char} (hs : ∀ c ∈ separator, isSolid c = true)
    (ha : Stops isSolid a) (m : List Char) :
    startsWith separator (m ++ a) = startsWith separator m := by
  rw [startsWith, startsWith, isPrefixOf_of_stops hs ha]

/-- An operator goes on by solid characters. -/
theorem find?_operators_of_stops (ha : Stops isSolid a) (c : Char) (m : List Char) :
    operators.find? (·.isPrefixOf (c :: m ++ a)) = operators.find? (·.isPrefixOf (c :: m)) := by
  have htail : ∀ op ∈ operators, ∀ c ∈ op.tail, isSolid c = true := by
    simp [operators]
    decide
  refine List.find?_congr fun op hop => ?_
  cases op with
  | nil => rfl
  | cons o op =>
    rw [List.cons_append, List.isPrefixOf, List.isPrefixOf,
      isPrefixOf_of_stops (s := op) (htail (o :: op) hop) ha m]

theorem signLength_of_stops (ha : Stops isSolid a) (m : List Char) :
    signLength (m ++ a) = signLength m := by
  cases m with
  | nil =>
    cases a with
    | nil => rfl
    | cons d a =>
      have hd := stops_cons.mp ha
      rw [List.nil_append, signLength_cons, if_neg]
      · rfl
      · rintro (rfl | rfl) <;> cases hd
  | cons d m => rw [List.cons_append, signLength_cons, signLength_cons]

theorem exponentLength_of_stops (ha : Stops isSolid a) (m : List Char) :
    exponentLength (m ++ a) = exponentLength m := by
  cases m with
  | nil =>
    cases a with
    | nil => rfl
    | cons d a =>
      have hd := stops_cons.mp ha
      rw [List.nil_append, exponentLength_cons, if_neg]
      · rfl
      · simp only [Bool.or_eq_true, beq_iff_eq]
        rintro (rfl | rfl) <;> cases hd
  | cons d m =>
    rw [List.cons_append, exponentLength_cons, exponentLength_cons, signLength_of_stops ha,
      List.drop_append_of_le_length (signLength_le_length m),
      run_of_stops (fun _ => isSolid_of_isDigit) ha]

/-- A number ends before the next blank or colon. -/
theorem number?_of_stops (hx : x.IsSolid) (ha : Stops isSolid a) (m : List Char) :
    x.number? (m ++ a) = x.number? m := by
  have hdigits := run_of_stops (p := Char.isDigit) (fun _ => isSolid_of_isDigit) ha
  have hwhole := run_le_length Char.isDigit m
  simp only [number?, hdigits m, List.drop_append_of_le_length hwhole,
    startsWith_of_stops hx.decimal ha, exponentLength_of_stops ha]
  split
  · rename_i hdecimal
    have hseparator := length_le_of_startsWith hdecimal
    have hfraction := run_le_length Char.isDigit
      ((m.drop (run Char.isDigit m)).drop x.decimal.length)
    rw [List.drop_append_of_le_length hseparator, hdigits]
    rw [List.length_drop] at hseparator
    rw [List.length_drop, List.length_drop] at hfraction
    rw [List.drop_append_of_le_length (by omega), exponentLength_of_stops ha]
  · rfl

/-! ### Tokens -/

theorem Stops.append (hm : Stops isSolid a) {p : Char → Bool} (hp : ∀ c, p c = true → isSolid c = true)
    (h : Stops p (m ++ b)) : Stops p (m ++ a) := by
  cases m with
  | nil => exact hm.mono hp
  | cons d m => exact h

/-- A quoted name closes at the same place. -/
theorem quotedTail?_of_stops (ha : Stops isSolid a) {n : Nat}
    (h : quotedTail? (m ++ b) = some n) (hn : n ≤ m.length) : quotedTail? (m ++ a) = some n := by
  obtain ⟨hbody, hstops⟩ := quotedTail?_take h
  rw [List.take_append_of_le_length hn] at hbody
  rw [List.drop_append_of_le_length hn] at hstops
  have hquote : ∀ c : Char, (c == '\'') = true → isSolid c = true := by
    intro c hc
    rw [beq_iff_eq.mp hc]
    rfl
  have hlength : (m.take n).length = n := List.length_take_of_le hn
  have hclosed : quotedTail? (m.take n ++ (m.drop n ++ a)) = some (m.take n).length :=
    quotedTail?_append (hlength.symm ▸ hbody) (ha.append hquote hstops)
  rwa [← List.append_assoc, List.take_append_drop, hlength] at hclosed

/-- A character that begins no name does not begin one elsewhere; only a quote looks further. -/
theorem name_unknown_congr {n : Nat} (h : name c cs = (.unknown, n)) (hquote : c ≠ '\'')
    (cs' : List Char) : name c cs' = (.unknown, n) := by
  unfold name at h ⊢
  rw [if_neg hquote] at h ⊢
  by_cases hc : isSymbolChar c = true
  · have hrun : run isSymbolChar (c :: cs) ≠ 0 := by
      rw [Ne, run_cons_eq_zero]
      simp [hc]
    simp only [hrun, if_false] at h
    exact absurd (Prod.mk.inj h).1 (nameKind_ne_unknown _ _)
  · have hrun (cs : List Char) : run isSymbolChar (c :: cs) = 0 :=
      run_cons_eq_zero.mpr (by simpa using hc)
    simp only [hrun, if_true] at h ⊢
    exact h

/-- A name stays one where the text changes from a blank or a colon on. -/
theorem name_of_stops {kind : Token.Kind} (ha : Stops isSolid a) (hb : Stops isSolid b)
    (hne : a ≠ []) (h : name c (cs ++ (m ++ a)) = (kind, (c :: cs).length)) :
    name c (cs ++ (m ++ b)) = (kind, (c :: cs).length) := by
  by_cases hkind : kind = .unknown
  · -- an open quote would take all that follows
    subst hkind
    refine name_unknown_congr h ?_ _
    rintro rfl
    have hlength : (cs ++ (m ++ a)).length + 1 = ('\'' :: cs).length := by
      rw [name, if_pos rfl] at h
      split at h
      · exact (Prod.mk.inj h).2
      · exact absurd (Prod.mk.inj h).1 (nameKind_ne_unknown _ _)
    have hpos := List.length_pos_iff.mpr hne
    simp only [List.length_append, List.length_cons] at hlength
    omega
  · refine name_congr h hkind ?_ (hb.append fun _ => isSolid_of_isSymbolChar) ?_
    · intro n hn hquoted
      rw [← List.append_assoc] at hquoted ⊢
      refine quotedTail?_of_stops hb hquoted ?_
      rw [List.length_append]
      omega
    · have hparen {a : List Char} (ha : Stops isSolid a) : a.head? ≠ some '(' := by
        intro hhead
        cases ha '(' hhead
      cases m with
      | nil => rw [List.nil_append, List.nil_append, bne_iff_ne.mpr (hparen ha), bne_iff_ne.mpr (hparen hb)]
      | cons d m => rfl

/-- A token that is no space stays one where the text changes from a blank or a colon on. -/
theorem first_of_stops (hx : x.IsSolid) {kind : Token.Kind} (ha : Stops isSolid a)
    (hb : Stops isSolid b) (hne : a ≠ []) (hkind : kind ≠ .space)
    (h : x.first c (cs ++ (m ++ a)) = (kind, (c :: cs).length)) :
    x.first c (cs ++ (m ++ b)) = (kind, (c :: cs).length) := by
  have hsplit (a : List Char) : c :: (cs ++ (m ++ a)) = c :: (cs ++ m) ++ a := by simp
  have hstarts {s : List Char} (hs : ∀ d ∈ s, isSolid d = true) :
      startsWith s (c :: (cs ++ (m ++ b))) = startsWith s (c :: (cs ++ (m ++ a))) := by
    rw [hsplit, hsplit, startsWith_of_stops hs hb, startsWith_of_stops hs ha]
  have hinvalid : ['#', 'R', 'E', 'F'].isPrefixOf (c :: (cs ++ (m ++ b))) =
      ['#', 'R', 'E', 'F'].isPrefixOf (c :: (cs ++ (m ++ a))) := by
    have hsolid : ∀ d ∈ ['#', 'R', 'E', 'F'], isSolid d = true :=
      List.all_iff_forall_prop.mp (by decide)
    rw [hsplit, hsplit, isPrefixOf_of_stops hsolid hb, isPrefixOf_of_stops hsolid ha]
  have hoperators : operators.find? (·.isPrefixOf (c :: (cs ++ (m ++ b)))) =
      operators.find? (·.isPrefixOf (c :: (cs ++ (m ++ a)))) := by
    rw [hsplit, hsplit, find?_operators_of_stops hb, find?_operators_of_stops ha]
  have hnumber : x.number? (c :: (cs ++ (m ++ b))) = x.number? (c :: (cs ++ (m ++ a))) := by
    rw [hsplit, hsplit, number?_of_stops hx hb, number?_of_stops hx ha]
  unfold first at h ⊢
  simp only [hstarts hx.row, hstarts hx.argument, hinvalid, hoperators, hnumber] at h ⊢
  by_cases hbreak : Text.isLineBreak c = true
  · rw [if_pos hbreak] at h
    exact absurd (Prod.mk.inj h).1.symm hkind
  rw [if_neg hbreak] at h ⊢
  by_cases hspace : x.isBlank c = true
  · rw [if_pos hspace] at h
    exact absurd (Prod.mk.inj h).1.symm hkind
  rw [if_neg hspace] at h ⊢
  -- every other rule has looked no further, but for strings and names
  split at h
  · rwa [if_pos ‹_›]
  rw [if_neg ‹_›]
  split at h
  · rwa [if_pos ‹_›]
  rw [if_neg ‹_›]
  cases hbracket : bracket? c with
  | some found =>
    rw [hbracket] at h
    exact h
  | none =>
    simp only [hbracket] at h ⊢
    cases hop : operators.find? (·.isPrefixOf (c :: (cs ++ (m ++ a)))) with
    | some op =>
      rw [hop] at h
      exact h
    | none =>
      simp only [hop] at h ⊢
      by_cases hstring : c = '"'
      · rw [if_pos hstring] at h ⊢
        obtain ⟨hfound, hlength⟩ := Prod.mk.inj h
        have htail : stringTail (cs ++ (m ++ a)) = cs.length := by
          rw [List.length_cons] at hlength
          omega
        have hclosed : closesString cs = true := by
          refine (closesString_or_eq_nil htail).resolve_right fun hnil => ?_
          exact hne (List.append_eq_nil_iff.mp hnil).2
        rw [stringTail_append hclosed, hfound, List.length_cons, Nat.add_comm]
      rw [if_neg hstring] at h ⊢
      by_cases hmark : c = '?'
      · rwa [if_pos hmark] at h ⊢
      rw [if_neg hmark] at h ⊢
      split at h
      · rwa [if_pos ‹_›]
      rw [if_neg ‹_›]
      cases hfound : x.number? (c :: (cs ++ (m ++ a))) with
      | some n =>
        rw [hfound] at h
        exact h
      | none =>
        rw [hfound] at h
        exact name_of_stops ha hb hne h

/-! ### Texts with the same start -/

/-- The texts are the same, or they differ only after a blank or a colon. -/
inductive SameStart : List Char → List Char → Prop
  | refl (text : List Char) : SameStart text text
  | apart (m : List Char) {d e : Char} {a b : List Char} (left : isSolid d = false)
    (right : isSolid e = false) : SameStart (m ++ d :: a) (m ++ e :: b)

theorem SameStart.append {text text' : List Char} (h : SameStart text text') (s : List Char) :
    SameStart (s ++ text) (s ++ text') := by
  cases h with
  | refl text => exact .refl _
  | apart m left right =>
    rw [← List.append_assoc, ← List.append_assoc]
    exact .apart (s ++ m) left right

/-- A token that is no space is seen from the start of what follows. -/
theorem Lexeme.of_sameStart (hx : x.IsSolid) {kind : Token.Kind} {s rest rest' : List Char}
    (h : x.Lexeme kind s rest) (hkind : kind ≠ .space) (hrest : SameStart rest rest') :
    x.Lexeme kind s rest' := by
  cases hrest with
  | refl => exact h
  | apart m left right =>
    obtain ⟨c, cs, rfl, hfirst⟩ := h
    exact ⟨c, cs, rfl, first_of_stops hx (stops_cons.mpr left) (stops_cons.mpr right) (by simp)
      hkind hfirst⟩

/-! ### Blanks -/

/-- Only a blank begins a space. -/
theorem isBlank_of_first {n : Nat} (h : x.first c cs = (.space, n)) :
    Text.isLineBreak c = true ∨ x.isBlank c = true := by
  have hrule := rule_first x c cs
  generalize x.first c cs = found at h hrule
  cases hrule with
  | lineBreak hc => exact .inl hc
  | blank hc => exact .inr hc
  | bracket hbracket =>
    obtain ⟨rfl, -⟩ := Prod.mk.inj h
    exact absurd (bracket?_kind hbracket) (by decide)
  | name =>
    have hkind := name_kind c cs
    simp [h] at hkind
  | _ => cases (Prod.mk.inj h).1

theorem Lexeme.exists_blank (hx : x.IsSolid) {s rest : List Char} (h : x.Lexeme .space s rest) :
    ∃ d ds, s = d :: ds ∧ isSolid d = false := by
  obtain ⟨d, ds, rfl, hfirst⟩ := h
  refine ⟨d, ds, rfl, ?_⟩
  have hblank : Text.isBlank d = true := by
    rcases isBlank_of_first hfirst with hbreak | hblank
    · simp only [Text.isLineBreak, Bool.or_eq_true, beq_iff_eq] at hbreak
      rcases hbreak with rfl | rfl <;> rfl
    · exact hx.blank d hblank
  simp [isSolid, hblank]

/-- A space ends before the same character. -/
theorem Lexeme.of_head? {s rest rest' : List Char} (h : x.Lexeme .space s rest)
    (hrest : rest'.head? = rest.head?) : x.Lexeme .space s rest' := by
  obtain ⟨c, cs, rfl, hfirst⟩ := h
  have hrun {p : Char → Bool} (h : run p (c :: (cs ++ rest)) = (c :: cs).length) :
      run p (c :: (cs ++ rest')) = (c :: cs).length := by
    obtain ⟨hall, hstops⟩ := run_eq_length (s := c :: cs) h
    refine run_append (s := c :: cs) hall ?_
    rwa [Stops, hrest]
  refine ⟨c, cs, rfl, ?_⟩
  have hblank := isBlank_of_first hfirst
  unfold first at hfirst ⊢
  by_cases hbreak : Text.isLineBreak c = true
  · simp only [hbreak, if_true] at hfirst ⊢
    rw [hrun (Prod.mk.inj hfirst).2]
  · simp only [hbreak, hblank.resolve_left hbreak, if_true, Bool.false_eq_true, if_false] at hfirst ⊢
    rw [hrun (Prod.mk.inj hfirst).2]

/-- A colon is an operator, whatever follows. -/
theorem lexeme_colon (hx : x.IsSolid) (rest : List Char) : x.Lexeme .operator [':'] rest := by
  have hblank : x.isBlank ':' = false := by
    by_contra hblank
    cases hx.blank ':' (by simpa using hblank)
  have hstarts {s : List Char} (hs : ∀ c ∈ s, isSolid c = true) :
      startsWith s (':' :: rest) = false := by
    cases s with
    | nil => rfl
    | cons d s =>
      have hd : d ≠ ':' := by
        rintro rfl
        cases hs ':' List.mem_cons_self
      simp [startsWith, List.isPrefixOf, hd]
  have hoperator : operators.find? (·.isPrefixOf (':' :: rest)) = some [':'] := by
    simp [operators, List.isPrefixOf]
  refine ⟨':', [], rfl, ?_⟩
  simp [first, hblank, hstarts hx.row, hstarts hx.argument, hoperator, Text.isLineBreak, bracket?]

theorem run_congr {p q : Char → Bool} {text : List Char} (h : ∀ c ∈ text, p c = q c) :
    run p text = run q text := by
  induction text with
  | nil => rfl
  | cons c text ih =>
    obtain ⟨hc, htext⟩ := List.forall_mem_cons.mp h
    have hrun := ih htext
    unfold run at hrun ⊢
    rw [List.takeWhile_cons, List.takeWhile_cons, hc]
    split
    · rw [List.length_cons, List.length_cons, hrun]
    · rfl

/-- Only the blanks among the characters of a text count for its tokens. -/
theorem Cuts.congr_isBlank {y : Lexer} {tokens : List Token} {text : List Char}
    (h : x.Cuts tokens text) (hargument : y.argument = x.argument) (hrow : y.row = x.row)
    (hdecimal : y.decimal = x.decimal) (hblank : ∀ c ∈ text, y.isBlank c = x.isBlank c) :
    y.Cuts tokens text := by
  induction h with
  | nil => exact .nil
  | @cons kind s rest tokens lexeme cuts ih =>
    refine .cons ?_ (ih fun c hc => hblank c (List.mem_append_right _ hc))
    obtain ⟨c, cs, rfl, hfirst⟩ := lexeme
    refine ⟨c, cs, rfl, ?_⟩
    rw [← hfirst]
    have hrun := run_congr hblank
    rw [List.cons_append] at hrun hblank
    simp only [first, number?, hargument, hrow, hdecimal, hblank c List.mem_cons_self, hrun]

end SheetFormula.Lexer
