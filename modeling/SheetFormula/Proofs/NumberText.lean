import SheetFormula.Proofs.Numerals
import SheetFormula.Proofs.Rounding

/-!
Numbers as formulas write them. The text of a number is a numeral of a plain shape: digits, perhaps a
point and more digits, perhaps an exponent. Such a text is one lexeme wherever nothing continues it, and
it reads back as the number.
-/

set_option autoImplicit false

namespace SheetFormula.Number

/-! ### Exponents -/

theorem le_ofDigitChars (ds : List Char) (n : Nat) : n ≤ Nat.ofDigitChars 10 ds n := by
  rw [Nat.ofDigitChars_eq_ofDigitChars_zero]
  exact (Nat.le_mul_of_pos_left n (by positivity)).trans (Nat.le_add_right _ _)

/-- An exponent below the limit is read in full. -/
theorem exponentOfDigits_eq {ds : List Char} (h : Nat.ofDigitChars 10 ds 0 < 100000) :
    exponentOfDigits ds = Nat.ofDigitChars 10 ds 0 := by
  suffices hfold : ∀ ds : List Char, ∀ n, Nat.ofDigitChars 10 ds n < 100000 →
      ds.foldl (fun e d => if e < 10000 then e * 10 + (d.toNat - '0'.toNat) else e) n =
        Nat.ofDigitChars 10 ds n from hfold ds 0 h
  intro ds
  induction ds with
  | nil => exact fun _ _ => rfl
  | cons d ds ih =>
    intro n hn
    rw [Nat.ofDigitChars_cons] at hn ⊢
    have hle := le_ofDigitChars ds (10 * n + (d.toNat - '0'.toNat))
    rw [List.foldl_cons, if_pos (by omega), Nat.mul_comm n]
    exact ih _ hn

theorem forall_mem_replicate_isDigit (k : Nat) : ∀ c ∈ List.replicate k '0', c.isDigit = true := by
  intro c hc
  rw [List.eq_of_mem_replicate hc]
  rfl

/-- An exponent part and its value. -/
inductive IsExponent : List Char → Int → Prop
  | absent : IsExponent [] 0
  | present {sign ds : List Char} (mem : sign ∈ [[], ['+'], ['-']]) (nonempty : ds ≠ [])
    (digits : ∀ c ∈ ds, c.isDigit = true) (short : Nat.ofDigitChars 10 ds 0 < 100000) :
    IsExponent ('e' :: (sign ++ ds))
      (if sign = ['-'] then -(Nat.ofDigitChars 10 ds 0 : Int) else Nat.ofDigitChars 10 ds 0)

namespace IsExponent

variable {cs rest : List Char} {e : Int}

/-- It is an exponent part like others, with the same value. -/
theorem exponentText (h : IsExponent cs e) : ExponentText .decimal cs e := by
  cases h with
  | absent => exact .absent rfl
  | present mem nonempty digits short =>
    rw [← exponentOfDigits_eq short]
    exact .present List.mem_cons_self mem nonempty digits

theorem exponentLength (h : IsExponent cs e) (hrest : Lexer.Stops Lexer.isSymbolChar rest) :
    Lexer.exponentLength (cs ++ rest) = cs.length := by
  cases h with
  | absent =>
    cases rest with
    | nil => rfl
    | cons c cs =>
      have hletter := hrest.mono (q := fun c => c == 'e' || c == 'E') fun c hc => by
        rcases Bool.or_eq_true_iff.mp hc with hc | hc <;> rw [eq_of_beq hc] <;> decide +kernel
      rw [List.nil_append, Lexer.exponentLength_cons, Lexer.stops_cons.mp hletter]
      rfl
  | @present sign ds mem nonempty digits short =>
    have hrun := Lexer.run_append digits (hrest.mono fun c => Lexer.isSymbolChar_of_isDigit)
    have hsign : Lexer.signLength (sign ++ ds ++ rest) = sign.length := by
      simp only [List.mem_cons, List.not_mem_nil, or_false] at mem
      rcases mem with rfl | rfl | rfl
      · obtain ⟨d, ds, rfl⟩ := List.exists_cons_of_ne_nil nonempty
        have hd := digits d List.mem_cons_self
        rw [List.nil_append, List.cons_append, Lexer.signLength]
        · rfl
        · rintro rest ⟨rfl, -⟩
          cases hd
        · rintro rest ⟨rfl, -⟩
          cases hd
      · rfl
      · rfl
    rw [List.cons_append, Lexer.exponentLength_cons, if_pos (by decide), hsign, List.append_assoc,
      List.drop_left, hrun, if_neg (by simpa using nonempty), List.length_cons, List.length_append]
    omega

theorem stops (h : IsExponent cs e) {p : Char → Bool} (hp : p 'e' = false)
    (hrest : Lexer.Stops p rest) : Lexer.Stops p (cs ++ rest) := by
  cases h with
  | absent => exact hrest
  | present mem nonempty digits short => exact Lexer.stops_cons.mpr hp

/-- The exponent of scientific notation. -/
theorem scientific {e : Int} (h : e.natAbs < 100000) :
    IsExponent ('e' :: (if e < 0 then '-' else '+') :: (Nat.toDigits 10 e.natAbs).leftpad 2 '0') e := by
  have hvalue : Nat.ofDigitChars 10 ((Nat.toDigits 10 e.natAbs).leftpad 2 '0') 0 = e.natAbs := by
    rw [List.leftpad, Nat.ofDigitChars_append, Nat.ofDigitChars_replicate_zero, Nat.mul_zero,
      Nat.ofDigitChars_ten_toDigits]
  have hdigits : ∀ c ∈ (Nat.toDigits 10 e.natAbs).leftpad 2 '0', c.isDigit = true :=
    List.forall_mem_append.mpr ⟨forall_mem_replicate_isDigit _,
      fun c hc => Nat.isDigit_of_mem_toDigits (by decide) (by decide) hc⟩
  have hne : (Nat.toDigits 10 e.natAbs).leftpad 2 '0' ≠ [] :=
    List.append_ne_nil_of_right_ne_nil _ Nat.toDigits_ne_nil
  have hpresent (sign : List Char) (mem : sign ∈ [[], ['+'], ['-']]) :=
    IsExponent.present mem hne hdigits (hvalue.trans_lt h)
  rw [hvalue] at hpresent
  by_cases hsign : e < 0
  · have hnegative := hpresent ['-'] (by decide)
    rw [if_pos rfl, Int.ofNat_natAbs_of_nonpos (by omega), Int.neg_neg] at hnegative
    rwa [if_pos hsign]
  · have hpositive := hpresent ['+'] (by decide)
    rw [if_neg (by decide), Int.natAbs_of_nonneg (by omega)] at hpositive
    rwa [if_neg hsign]

end IsExponent

/-! ### Numerals -/

/-- The digits after the point, with the point if there are any. -/
def pointed (fraction : List Char) : List Char :=
  if fraction = [] then [] else '.' :: fraction

/-- The text of a numeral as numbers are written: at least one digit before the point, and a point only
where digits follow it. -/
structure Numeral.IsText (n : Numeral) (cs : List Char) : Prop where
  nonempty : n.whole ≠ []
  whole : ∀ c ∈ n.whole, c.isDigit = true
  fraction : ∀ c ∈ n.fraction, c.isDigit = true
  parts : ∃ exponent, IsExponent exponent n.exponent ∧ cs = n.whole ++ (pointed n.fraction ++ exponent)

namespace Numeral

variable {n : Numeral} {cs rest : List Char}

/-- It is a text of the numeral with a point. -/
theorem IsText.speltWith (h : n.IsText cs) : n.SpeltWith ['.'] cs := by
  obtain ⟨exponent, hexponent, rfl⟩ := h.parts
  obtain ⟨whole, fraction, e⟩ := n
  have hpower := hexponent.exponentText
  by_cases hfraction : fraction = []
  · subst hfraction
    exact .plain h.nonempty h.whole hpower
  · simp only [pointed, if_neg hfraction, List.cons_append]
    exact .pointed (by simp) (by simp [hfraction]) h.whole h.fraction hpower

/-- The text of a numeral is a number in whole wherever nothing continues it. -/
theorem IsText.number? {x : Lexer} (hx : x.IsCanonical) (h : n.IsText cs)
    (hrest : Lexer.Stops Lexer.isSymbolChar rest) : x.number? (cs ++ rest) = some cs.length := by
  obtain ⟨exponent, hexponent, rfl⟩ := h.parts
  have hstops : Lexer.Stops Char.isDigit (exponent ++ rest) :=
    hexponent.stops rfl (hrest.mono fun c => Lexer.isSymbolChar_of_isDigit)
  have hpoint : Lexer.Stops (· == '.') (exponent ++ rest) :=
    hexponent.stops rfl (hrest.mono fun c hc => by rw [eq_of_beq hc]; decide +kernel)
  by_cases hfraction : n.fraction = []
  · have hrun := Lexer.run_append h.whole hstops
    have hstarts : Lexer.startsWith ['.'] (exponent ++ rest) = false := by
      cases htail : exponent ++ rest with
      | nil => rfl
      | cons c cs =>
        rw [htail, Lexer.stops_cons] at hpoint
        rw [Lexer.startsWith_singleton, BEq.comm, hpoint]
    simp only [Lexer.number?, pointed, hfraction, if_true, List.nil_append, List.append_assoc, hrun,
      List.drop_left, hx.decimal, hstarts, Bool.false_eq_true, if_false, List.length_append,
      hexponent.exponentLength hrest]
    rw [if_neg (by simp [h.nonempty])]
  · have hseparator : Lexer.Stops Char.isDigit ('.' :: (n.fraction ++ (exponent ++ rest))) :=
      Lexer.stops_cons.mpr rfl
    have hrun := Lexer.run_append h.whole hseparator
    have hrunFraction := Lexer.run_append h.fraction hstops
    have hdrop : (n.whole ++ '.' :: (n.fraction ++ (exponent ++ rest))).drop
        (n.whole.length + 1 + n.fraction.length) = exponent ++ rest := by
      rw [Nat.add_assoc, ← List.drop_drop, List.drop_left, Nat.add_comm 1, List.drop_succ_cons,
        List.drop_left]
    simp only [Lexer.number?, pointed, hfraction, if_false, List.cons_append, List.append_assoc, hrun,
      List.drop_left, hx.decimal, Lexer.startsWith_singleton, beq_self_eq_true, if_true,
      List.length_singleton, List.drop_one, List.tail_cons, hrunFraction, hdrop,
      hexponent.exponentLength hrest]
    rw [if_neg (by simp [h.nonempty])]
    simp only [List.length_append, List.length_cons]
    congr 1
    omega

/-- The text of a numeral is one lexeme wherever nothing continues it. -/
theorem IsText.lexeme {x : Lexer} (hx : x.IsCanonical) (h : n.IsText cs)
    (hrest : Lexer.Stops Lexer.isSymbolChar rest) : x.Lexeme .number cs rest := by
  have hnumber := h.number? hx hrest
  obtain ⟨exponent, -, rfl⟩ := h.parts
  obtain ⟨c, whole, hwhole⟩ := List.exists_cons_of_ne_nil h.nonempty
  have hc := h.whole c (by simp [hwhole])
  rw [hwhole, List.cons_append] at hnumber ⊢
  refine ⟨c, _, rfl, ?_⟩
  rw [Lexer.first_of_isSymbolChar hx (.inl (Lexer.isSymbolChar_of_isDigit hc)), ← List.cons_append,
    hnumber]

theorem IsText.exists_cons (h : n.IsText cs) : ∃ c ds, cs = c :: ds ∧ c.isDigit = true := by
  obtain ⟨exponent, -, rfl⟩ := h.parts
  obtain ⟨c, whole, hwhole⟩ := List.exists_cons_of_ne_nil h.nonempty
  exact ⟨c, _, by rw [hwhole, List.cons_append], h.whole c (by simp [hwhole])⟩

end Numeral

/-! ### Digits around a point -/

/-- The value of digits with the point after the first `point` of them. -/
def pointValue (digits : List Char) (point : Int) : ℚ :=
  Nat.ofDigitChars 10 digits 0 * 10 ^ (point - digits.length)

theorem pointValue_zeros_append (k : Nat) (digits : List Char) (point : Int) :
    pointValue (List.replicate k '0' ++ digits) (point + k) = pointValue digits point := by
  rw [pointValue, pointValue, Nat.ofDigitChars_append, Nat.ofDigitChars_replicate_zero, Nat.mul_zero,
    List.length_append, List.length_replicate, Nat.cast_add, add_comm (k : Int), add_sub_add_right_eq_sub]

theorem pointValue_append_zeros (k : Nat) (digits : List Char) (point : Int) :
    pointValue (digits ++ List.replicate k '0') point = pointValue digits point := by
  rw [pointValue, pointValue, Nat.ofDigitChars_append, Nat.ofDigitChars_replicate_zero,
    List.length_append, List.length_replicate, Nat.cast_mul, Nat.cast_pow, Nat.cast_ofNat,
    mul_comm (10 ^ k : ℚ), mul_assoc, ← zpow_natCast (10 : ℚ) k, ← zpow_add₀ (by norm_num)]
  congr 2
  push_cast
  ring

theorem value_eq_pointValue (d : Decimal) :
    d.value =
      pointValue (Nat.toDigits 10 d.digits) ((Nat.toDigits 10 d.digits).length + d.exponent) := by
  rw [pointValue, Nat.ofDigitChars_ten_toDigits, add_sub_cancel_left, Decimal.value]

theorem Numeral.value_value (n : Numeral) :
    n.value.value = pointValue (n.whole ++ n.fraction) (n.whole.length + n.exponent) := by
  rw [pointValue, Decimal.value, Numeral.value, List.length_append, Nat.cast_add,
    add_sub_add_left_eq_sub]

/-- The text is that of a numeral with the given value, and not too long to be read in full. -/
def Writes (cs : List Char) (value : ℚ) : Prop :=
  ∃ n : Numeral, n.IsText cs ∧ n.value.value = value ∧ n.whole.length ≤ Numeral.room

section Digits

variable {digits : List Char} {point : Int}

/-- Digits in positional notation. -/
theorem writes_positional (hne : digits ≠ []) (hdigits : ∀ c ∈ digits, c.isDigit = true)
    (hpoint : point ≤ Numeral.room) :
    Writes (positional digits point) (pointValue digits point) := by
  rw [positional]
  split
  · have hvalue := pointValue_zeros_append ((-point).toNat + 1) digits point
    rw [show point + ((-point).toNat + 1 : Nat) = 1 by omega, List.replicate_succ] at hvalue
    refine ⟨⟨['0'], List.replicate (-point).toNat '0' ++ digits, 0⟩, ?_, ?_, ?_⟩
    · refine ⟨List.cons_ne_nil _ _, List.forall_mem_singleton.mpr rfl,
        List.forall_mem_append.mpr ⟨forall_mem_replicate_isDigit _, hdigits⟩, [], .absent, ?_⟩
      simp [pointed, hne]
    · rw [Numeral.value_value, ← hvalue]
      rfl
    · exact Nat.le_of_ble_eq_true rfl
  · split
    · refine ⟨⟨digits ++ List.replicate (point.toNat - digits.length) '0', [], 0⟩, ?_, ?_, ?_⟩
      · exact ⟨List.append_ne_nil_of_left_ne_nil hne _,
          List.forall_mem_append.mpr ⟨hdigits, forall_mem_replicate_isDigit _⟩,
          List.forall_mem_nil _, [], .absent, by simp [pointed]⟩
      · rw [Numeral.value_value, List.append_nil, pointValue_append_zeros, List.length_append,
          List.length_replicate, add_zero]
        congr 1
        omega
      · simp only [List.length_append, List.length_replicate]
        omega
    · have htake : (digits.take point.toNat).length = point.toNat :=
        List.length_take_of_le (by omega)
      refine ⟨⟨digits.take point.toNat, digits.drop point.toNat, 0⟩, ?_, ?_, ?_⟩
      · refine ⟨?_, fun c hc => hdigits c (List.mem_of_mem_take hc),
          fun c hc => hdigits c (List.mem_of_mem_drop hc), [], .absent, ?_⟩
        · rw [← List.length_pos_iff, htake]
          omega
        · rw [pointed, if_neg (by rw [List.drop_eq_nil_iff]; omega), List.append_nil]
      · rw [Numeral.value_value, List.take_append_drop, htake, add_zero]
        congr 1
        omega
      · rw [htake]
        omega

/-- Digits in scientific notation. -/
theorem writes_scientific (hne : digits ≠ []) (hdigits : ∀ c ∈ digits, c.isDigit = true)
    (hpoint : (point - 1).natAbs < 100000) :
    Writes (scientific digits (point - 1)) (pointValue digits point) := by
  obtain ⟨d, more, rfl⟩ := List.exists_cons_of_ne_nil hne
  obtain ⟨hd, hmore⟩ := List.forall_mem_cons.mp hdigits
  refine ⟨⟨[d], more, point - 1⟩, ?_, ?_, Nat.le_of_ble_eq_true rfl⟩
  · refine ⟨List.cons_ne_nil _ _, List.forall_mem_singleton.mpr hd, hmore, _, .scientific hpoint, ?_⟩
    cases more <;> rfl
  · rw [Numeral.value_value]
    congr 1
    simp

end Digits

/-! ### Numbers -/

theorem exists_dropZeros (digits : List Char) :
    ∃ k, digits = (digits.reverse.dropWhile (· == '0')).reverse ++ List.replicate k '0' := by
  have hzeros : digits.reverse.takeWhile (· == '0') =
      List.replicate (digits.reverse.takeWhile (· == '0')).length '0' := by
    rw [List.eq_replicate_iff]
    exact ⟨rfl, fun c hc => by simpa using List.all_eq_true.mp List.all_takeWhile c hc⟩
  refine ⟨(digits.reverse.takeWhile (· == '0')).length, ?_⟩
  rw [← List.reverse_replicate, ← hzeros, ← List.reverse_append, List.takeWhile_append_dropWhile,
    List.reverse_reverse]

/-- A decimal is written as a numeral of its value. -/
theorem writes_decimal {d : Decimal} (hd : d.digits ≠ 0)
    (hpoint : ((Nat.toDigits 10 d.digits).length + d.exponent - 1).natAbs < 100000) :
    Writes (Format.formula.decimal d) d.value := by
  obtain ⟨k, hk⟩ := exists_dropZeros (Nat.toDigits 10 d.digits)
  have hvalue := value_eq_pointValue d
  simp only [Format.decimal]
  generalize ((Nat.toDigits 10 d.digits).reverse.dropWhile (· == '0')).reverse = digits at hk ⊢
  generalize ((Nat.toDigits 10 d.digits).length : Int) + d.exponent = point at hpoint hvalue ⊢
  rw [hk, pointValue_append_zeros] at hvalue
  have hne : digits ≠ [] := by
    rintro rfl
    have hzero := Nat.ofDigitChars_ten_toDigits (n := d.digits)
    rw [hk, List.nil_append, Nat.ofDigitChars_replicate_zero, Nat.mul_zero] at hzero
    exact hd hzero.symm
  have hdigits : ∀ c ∈ digits, c.isDigit = true := fun c hc =>
    Nat.isDigit_of_mem_toDigits (b := 10) (n := d.digits) (by decide) (by decide)
      (by rw [hk]; exact List.mem_append_left _ hc)
  rw [hvalue]
  split
  · rename_i hbounds
    have hroom : point ≤ Numeral.room := by
      have hbound : point - 1 < 21 := hbounds.2
      simp only [Numeral.room]
      omega
    exact writes_positional hne hdigits hroom
  · exact writes_scientific hne hdigits hpoint

theorem pow_length_toDigits {n : Nat} (hn : n ≠ 0) :
    10 ^ ((Nat.toDigits 10 n).length - 1) ≤ n ∧ n < 10 ^ (Nat.toDigits 10 n).length := by
  have hlength : 0 < (Nat.toDigits 10 n).length := Nat.length_toDigits_pos
  constructor
  · by_contra hlt
    have hlong : 0 < (Nat.toDigits 10 n).length - 1 := by
      refine Nat.pos_of_ne_zero fun hzero => hlt ?_
      rw [hzero, Nat.pow_zero]
      exact Nat.pos_of_ne_zero hn
    have hle := (Nat.length_toDigits_le_iff (by decide) hlong).mpr (Nat.lt_of_not_le hlt)
    omega
  · exact (Nat.length_toDigits_le_iff (by decide) hlength).mp (le_refl _)

/-- A value lies between the powers of ten next to its first digit. -/
theorem value_bounds {d : Decimal} (hd : d.digits ≠ 0) :
    (10 : ℚ) ^ ((Nat.toDigits 10 d.digits).length + d.exponent - 1) ≤ d.value ∧
      d.value < 10 ^ ((Nat.toDigits 10 d.digits).length + d.exponent) := by
  obtain ⟨hlower, hupper⟩ := pow_length_toDigits hd
  have hlength : 0 < (Nat.toDigits 10 d.digits).length := Nat.length_toDigits_pos
  generalize (Nat.toDigits 10 d.digits).length = k at *
  have hlower' : (10 : ℚ) ^ ((k - 1 : Nat) : Int) ≤ d.digits := by exact_mod_cast hlower
  have hupper' : (d.digits : ℚ) < 10 ^ (k : Int) := by exact_mod_cast hupper
  rw [Decimal.value, show (k : Int) + d.exponent - 1 = (k - 1 : Nat) + d.exponent by omega,
    zpow_add₀ (by norm_num), zpow_add₀ (by norm_num)]
  constructor
  · gcongr
  · gcongr

/-- The point of a decimal that reads as a number other than zero is not far off. -/
theorem natAbs_point_lt {d : Decimal} {s : Bool} {m : Nat} {e : Int} (hm : m ≠ 0)
    (h : d.round s = .finite s m e) :
    d.digits ≠ 0 ∧ ((Nat.toDigits 10 d.digits).length + d.exponent - 1).natAbs < 100000 := by
  obtain ⟨hleast, hgreatest⟩ := Decimal.value_of_round hm h
  have hd : d.digits ≠ 0 := by
    intro hzero
    rw [Decimal.value, hzero, Nat.cast_zero, zero_mul] at hleast
    exact absurd hleast (not_le.mpr (by positivity))
  obtain ⟨hlower, hupper⟩ := value_bounds hd
  have hten : (10 : ℚ) ^ (-1075 : Int) ≤ 2 ^ (-1075 : Int) := by
    rw [zpow_neg, zpow_neg]
    exact inv_anti₀ (by positivity) (zpow_le_zpow_left₀ (by norm_num) (by norm_num) (by norm_num))
  have htwo : (2 : ℚ) ^ (1024 : Int) ≤ 10 ^ (1024 : Int) :=
    zpow_le_zpow_left₀ (by norm_num) (by norm_num) (by norm_num)
  have hhigh := (zpow_lt_zpow_iff_right₀ (by norm_num : (1 : ℚ) < 10)).mp
    (hlower.trans_lt (hgreatest.trans_le htwo))
  have hlow := (zpow_lt_zpow_iff_right₀ (by norm_num : (1 : ℚ) < 10)).mp
    ((hten.trans hleast).trans_lt hupper)
  exact ⟨hd, by omega⟩

/-- The numbers that a numeral without a sign reads as. -/
inductive IsUnsigned : Number → Prop
  | finite {m : Nat} {e : Int} (normal : IsNormal m e) : IsUnsigned (.finite false m e)
  | infinite : IsUnsigned (.infinite false)

theorem isUnsigned_ofRatio (num : Nat) {den : Nat} (hden : 0 < den) :
    IsUnsigned (ofRatio false num den) := by
  rcases ofRatio_cases num hden false with h | ⟨m, e, hnormal, h⟩
  · rw [h]
    exact .infinite
  · rw [h]
    exact .finite hnormal

theorem isUnsigned_round (d : Decimal) : IsUnsigned (d.round false) :=
  isUnsigned_ofRatio _ (Nat.pow_pos (by decide))

theorem Numeral.isUnsigned_round (n : Numeral) : IsUnsigned (n.round false) := by
  simp only [Numeral.round]
  split
  · exact Number.isUnsigned_round n.value
  · cases hsettled : settled? false _ _ with
    | none => exact Number.isUnsigned_round _
    | some value =>
      simp only [settled?] at hsettled
      split at hsettled
      · cases hsettled
        exact Number.isUnsigned_round _
      · cases hsettled

theorem Numeral.isUnsigned_roundIn (radix : Radix) (n : Numeral) :
    IsUnsigned (n.roundIn radix false) := by
  cases radix with
  | decimal => exact n.isUnsigned_round
  | hexadecimal => exact isUnsigned_ofRatio _ (Nat.pow_pos (by decide))

/-- A text that begins like a number reads as a number without a sign. -/
theorem isUnsigned_of_ofNumeral? {c : Char} (hc : c ∈ heads) {cs : List Char} {value : Number}
    (h : ofNumeral? (c :: cs) = some value) : IsUnsigned value := by
  have hheads : ∀ c ∈ heads, (c != '_') = true := List.all_eq_true.mp (by decide)
  rw [ofNumeral?, List.filter_cons_of_pos (p := (· != '_')) (hheads c hc), readPlain?_cons hc] at h
  split at h
  · obtain ⟨n, -, rfl⟩ := Option.map_eq_some_iff.mp h
    exact n.isUnsigned_roundIn _
  · cases h

/-- The text of a number is that of a numeral which reads as the number. -/
theorem exists_isText {value : Number} (h : IsUnsigned value) :
    ∃ n : Numeral, n.IsText (value.text .formula).toList ∧ n.round false = value := by
  cases h with
  | @finite m e normal =>
    rw [text, String.toList_ofList]
    by_cases hm : m = 0
    · subst hm
      obtain rfl : e = leastExponent := normal.leading.resolve_left (by decide)
      exact ⟨⟨['0'], [], 0⟩, ⟨List.cons_ne_nil _ _, List.forall_mem_singleton.mpr rfl,
        List.forall_mem_nil _, [], .absent, rfl⟩, rfl⟩
    · have hround := round_shortest normal hm
      obtain ⟨hd, hpoint⟩ := natAbs_point_lt hm hround
      obtain ⟨n, htext, hvalue, hlength⟩ := writes_decimal hd hpoint
      rw [if_neg hm]
      refine ⟨n, htext, ?_⟩
      rw [Numeral.round_of_length_le false n hlength, Decimal.round_eq_of_value_eq hvalue, hround]
  | infinite =>
    refine ⟨⟨['1'], [], 999⟩, ⟨List.cons_ne_nil _ _, List.forall_mem_singleton.mpr rfl,
      List.forall_mem_nil _, ['e', '9', '9', '9'], ?_, rfl⟩, by decide +kernel⟩
    exact @IsExponent.present [] ['9', '9', '9'] (by decide) (by decide)
      (List.all_eq_true.mp (by decide)) (by decide)

end SheetFormula.Number
