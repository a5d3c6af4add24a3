import Mathlib.Algebra.Order.Field.Power
import Mathlib.Data.Int.Log
import Mathlib.Data.Rat.Floor
import SheetFormula.Number.Decimal

/-!
Rounding to the nearest number. The rounding of a quotient depends on its value alone, its result has a
mantissa and an exponent within their bounds, and a number within these bounds is the rounding of its
own value. So the decimal that stands for a number rounds to it, however many digits it has.
-/

set_option autoImplicit false

namespace SheetFormula

namespace Number

variable {num den num' den' m : Nat} {e : Int} {s : Bool}

/-! ### The scale of a quotient -/

theorem zpow_eq_pow_div_pow {b : ℚ} (hb : b ≠ 0) (e : Int) :
    b ^ e = b ^ e.toNat / b ^ (-e).toNat := by
  rw [← zpow_natCast, ← zpow_natCast, ← zpow_sub₀ hb]
  congr 1
  omega

theorem pow_mul_le_iff (num : Nat) (hden : 0 < den) (q : Int) (k : Nat) :
    2 ^ k * (den * 2 ^ q.toNat) ≤ num * 2 ^ (-q).toNat ↔ (2 : ℚ) ^ (q + k) ≤ (num : ℚ) / den := by
  have hden' : (0 : ℚ) < den := by exact_mod_cast hden
  rw [zpow_add₀ two_ne_zero, zpow_natCast, zpow_eq_pow_div_pow two_ne_zero, div_mul_eq_mul_div,
    div_le_div_iff₀ (by positivity) hden', mul_comm (_ ^ _ * _), mul_comm _ (2 ^ k), mul_left_comm]
  norm_cast

theorem log_eq_of_le_of_lt {r : ℚ} (hlower : (2 : ℚ) ^ e ≤ r) (hupper : r < (2 : ℚ) ^ (e + 1)) :
    Int.log 2 r = e := by
  have hr : 0 < r := lt_of_lt_of_le (by positivity) hlower
  have hle := (Int.zpow_le_iff_le_log (b := 2) (by decide) hr).mp hlower
  have hlt := (Int.lt_zpow_iff_log_lt (b := 2) (by decide) hr).mp hupper
  omega

/-- The scale is the binary logarithm of the quotient, moved by the width of a mantissa. -/
theorem scale_eq (hnum : 0 < num) (hden : 0 < den) :
    scale num den = Int.log 2 ((num : ℚ) / den) - 52 := by
  have hden' : (0 : ℚ) < den := by exact_mod_cast hden
  have hnumLow : (2 : ℚ) ^ (num.log2 : Int) ≤ num := by
    exact_mod_cast Nat.log2_self_le hnum.ne'
  have hnumHigh : (num : ℚ) < 2 ^ ((num.log2 : Int) + 1) := by
    exact_mod_cast Nat.lt_log2_self
  have hdenLow : (2 : ℚ) ^ (den.log2 : Int) ≤ den := by
    exact_mod_cast Nat.log2_self_le hden.ne'
  have hdenHigh : (den : ℚ) < 2 ^ ((den.log2 : Int) + 1) := by
    exact_mod_cast Nat.lt_log2_self
  have hlower : (2 : ℚ) ^ ((num.log2 : Int) - den.log2 - 1) ≤ (num : ℚ) / den := by
    rw [le_div_iff₀ hden']
    calc (2 : ℚ) ^ ((num.log2 : Int) - den.log2 - 1) * den
        ≤ 2 ^ ((num.log2 : Int) - den.log2 - 1) * 2 ^ ((den.log2 : Int) + 1) := by gcongr
      _ = 2 ^ (num.log2 : Int) := by rw [← zpow_add₀ two_ne_zero]; congr 1; omega
      _ ≤ num := hnumLow
  have hupper : (num : ℚ) / den < 2 ^ ((num.log2 : Int) - den.log2 + 1) := by
    rw [div_lt_iff₀ hden']
    calc (num : ℚ) < 2 ^ ((num.log2 : Int) + 1) := hnumHigh
      _ = 2 ^ ((num.log2 : Int) - den.log2 + 1) * 2 ^ (den.log2 : Int) := by
        rw [← zpow_add₀ two_ne_zero]; congr 1; omega
      _ ≤ 2 ^ ((num.log2 : Int) - den.log2 + 1) * den := by gcongr
  have hiff := pow_mul_le_iff num hden ((num.log2 : Int) - den.log2) 0
  rw [Nat.pow_zero, Nat.one_mul, Nat.cast_zero, add_zero] at hiff
  simp only [scale, Nat.pow_eq]
  split
  · rename_i h
    rw [log_eq_of_le_of_lt (hiff.mp h) hupper]
  · rename_i h
    rw [hiff, not_le] at h
    rw [log_eq_of_le_of_lt hlower (by rwa [sub_add_cancel])]
    omega

/-- Where a power of two lies below the quotient. -/
theorem pow_mul_le_iff_le_scale (hnum : 0 < num) (hden : 0 < den) (q : Int) (k : Nat) :
    2 ^ k * (den * 2 ^ q.toNat) ≤ num * 2 ^ (-q).toNat ↔ q + k ≤ scale num den + 52 := by
  have hratio : (0 : ℚ) < (num : ℚ) / den := by positivity
  have hlog := Int.zpow_le_iff_le_log (b := 2) (x := q + k) (by decide) hratio
  rw [pow_mul_le_iff num hden, scale_eq hnum hden, sub_add_cancel]
  exact hlog

/-! ### The value decides -/

theorem roundQuotient_mul_right {k : Nat} (hk : 0 < k) (n d : Nat) :
    roundQuotient (n * k) (d * k) = roundQuotient n d := by
  simp only [roundQuotient, Nat.mul_div_mul_right n d hk, Nat.mul_mod_mul_right]
  rw [← Nat.mul_assoc]
  simp only [Nat.mul_lt_mul_right hk]

theorem roundQuotient_congr {n d n' d' : Nat} (hd : 0 < d) (hd' : 0 < d') (h : n * d' = n' * d) :
    roundQuotient n d = roundQuotient n' d' := by
  rw [← roundQuotient_mul_right hd' n d, h, Nat.mul_comm d d', roundQuotient_mul_right hd]

theorem ofRatio_of_ne {q : Int} (hnum : num ≠ 0) (hq : max (scale num den) leastExponent = q)
    (s : Bool) :
    ofRatio s num den = pack s (roundQuotient (num * 2 ^ (-q).toNat) (den * 2 ^ q.toNat)) q := by
  subst hq
  exact if_neg hnum

/-- Equal quotients have the same nearest number. -/
theorem ofRatio_congr (hden : 0 < den) (hden' : 0 < den') (h : num * den' = num' * den) (s : Bool) :
    ofRatio s num den = ofRatio s num' den' := by
  by_cases hnum : num = 0
  · have hnum' : num' = 0 := by
      rw [hnum, Nat.zero_mul] at h
      exact (Nat.mul_eq_zero.mp h.symm).resolve_right hden.ne'
    rw [ofRatio, ofRatio, if_pos hnum, if_pos hnum']
  · have hnum' : num' ≠ 0 := by
      rintro rfl
      rw [Nat.zero_mul] at h
      exact hnum ((Nat.mul_eq_zero.mp h).resolve_right hden'.ne')
    have hratio : (num : ℚ) / den = (num' : ℚ) / den' := by
      rw [div_eq_div_iff (by exact_mod_cast hden.ne') (by exact_mod_cast hden'.ne')]
      exact_mod_cast h
    have hscale : scale num den = scale num' den' := by
      rw [scale_eq (Nat.pos_of_ne_zero hnum) hden, scale_eq (Nat.pos_of_ne_zero hnum') hden', hratio]
    rw [ofRatio_of_ne hnum rfl, ofRatio_of_ne hnum' rfl, hscale]
    congr 1
    refine roundQuotient_congr (by positivity) (by positivity) ?_
    rw [Nat.mul_mul_mul_comm, h, Nat.mul_mul_mul_comm]

/-! ### Bounds -/

/-- The mantissa and the exponent of a number keep within their bounds, and the mantissa has all its
bits unless the exponent is the least one. -/
structure IsNormal (m : Nat) (e : Int) : Prop where
  mantissa : m < 2 ^ 53
  least : leastExponent ≤ e
  greatest : e ≤ greatestExponent
  leading : 2 ^ 52 ≤ m ∨ e = leastExponent

theorem le_roundQuotient {n d b : Nat} (hd : 0 < d) (h : b * d ≤ n) : b ≤ roundQuotient n d := by
  have hfloor : b ≤ n / d := (Nat.le_div_iff_mul_le hd).mpr h
  simp only [roundQuotient]
  split
  · exact hfloor
  · split <;> omega

theorem roundQuotient_le {n d b : Nat} (hd : 0 < d) (h : n < b * d) : roundQuotient n d ≤ b := by
  have hfloor : n / d < b := (Nat.div_lt_iff_lt_mul hd).mpr h
  simp only [roundQuotient]
  split
  · omega
  · split <;> omega

theorem roundQuotient_mul_self {d : Nat} (hd : 0 < d) (b : Nat) : roundQuotient (b * d) d = b := by
  simp [roundQuotient, Nat.mul_div_cancel b hd, hd]

theorem roundQuotient_eq_zero {n d : Nat} (h : 2 * n < d) : roundQuotient n d = 0 := by
  have hn : n < d := by omega
  simp [roundQuotient, Nat.div_eq_of_lt hn, Nat.mod_eq_of_lt hn, h]

theorem pack_of_ne (hm : m ≠ 2 ^ 53) (s : Bool) (e : Int) :
    pack s m e = if greatestExponent < e then .infinite s else .finite s m e := by
  simp only [pack, Nat.pow_eq, beq_eq_false_iff_ne.mpr hm, Bool.false_eq_true, if_false]

theorem pack_pow (s : Bool) (e : Int) :
    pack s (2 ^ 53) e =
      if greatestExponent < e + 1 then .infinite s else .finite s (2 ^ 52) (e + 1) := rfl

theorem pack_cases (hm : m ≤ 2 ^ 53) (hleast : leastExponent ≤ e)
    (hleading : 2 ^ 52 ≤ m ∨ e = leastExponent) (s : Bool) :
    pack s m e = .infinite s ∨ ∃ m' e', IsNormal m' e' ∧ pack s m e = .finite s m' e' := by
  by_cases hup : m = 2 ^ 53
  · rw [hup, pack_pow]
    split
    · exact .inl rfl
    · exact .inr ⟨2 ^ 52, e + 1, ⟨by decide, by omega, by omega, .inl (le_refl _)⟩, rfl⟩
  · rw [pack_of_ne hup]
    split
    · exact .inl rfl
    · exact .inr ⟨m, e, ⟨by omega, hleast, by omega, hleading⟩, rfl⟩

theorem exponent_le_of_pack {m' : Nat} {e' : Int} {s' : Bool} (h : pack s m e = .finite s' m' e') :
    e ≤ greatestExponent := by
  by_cases hup : m = 2 ^ 53
  · rw [hup, pack_pow] at h
    split at h
    · cases h
    · omega
  · rw [pack_of_ne hup] at h
    split at h
    · cases h
    · omega

/-- A quotient rounds to infinity or to a number within the bounds, with the sign that it is given. -/
theorem ofRatio_cases (num : Nat) (hden : 0 < den) (s : Bool) :
    ofRatio s num den = .infinite s ∨ ∃ m e, IsNormal m e ∧ ofRatio s num den = .finite s m e := by
  by_cases hnum : num = 0
  · right
    refine ⟨0, leastExponent, ⟨by decide, le_refl _, by decide, .inr rfl⟩, ?_⟩
    rw [ofRatio, if_pos hnum]
  · have hpos := Nat.pos_of_ne_zero hnum
    generalize hq : max (scale num den) leastExponent = q
    rw [ofRatio_of_ne hnum hq]
    have hd : 0 < den * 2 ^ q.toNat := by positivity
    refine pack_cases (roundQuotient_le hd ?_) (by omega) ?_ s
    · rw [← not_le, pow_mul_le_iff_le_scale hpos hden]
      omega
    · by_cases hscale : q = leastExponent
      · exact .inr hscale
      · left
        refine le_roundQuotient hd ?_
        rw [pow_mul_le_iff_le_scale hpos hden]
        omega

theorem roundQuotient_eq_zero_of_scale {q : Int} (hnum : 0 < num) (hden : 0 < den) (hq : q ≤ 0)
    (h : scale num den + 53 < q) :
    roundQuotient (num * 2 ^ (-q).toNat) (den * 2 ^ q.toNat) = 0 := by
  have hiff := pow_mul_le_iff_le_scale hnum hden (q - 1) 0
  rw [show (-(q - 1)).toNat = (-q).toNat + 1 by omega, show (q - 1).toNat = q.toNat by omega,
    Nat.pow_succ, Nat.pow_zero, Nat.one_mul] at hiff
  refine roundQuotient_eq_zero ?_
  rw [Nat.mul_left_comm, Nat.mul_comm 2, ← not_le, hiff]
  omega

/-- A quotient whose nearest number is finite and not zero is neither too great nor too small. -/
theorem scale_of_ofRatio (hden : 0 < den) (hm : m ≠ 0) (h : ofRatio s num den = .finite s m e) :
    leastExponent ≤ scale num den + 53 ∧ scale num den ≤ greatestExponent := by
  have hnum : num ≠ 0 := by
    intro hnum
    rw [ofRatio, if_pos hnum] at h
    cases h
    exact hm rfl
  rw [ofRatio_of_ne hnum rfl] at h
  constructor
  · by_contra hsmall
    have hq : max (scale num den) leastExponent = leastExponent := by omega
    rw [hq, roundQuotient_eq_zero_of_scale (Nat.pos_of_ne_zero hnum) hden (by decide) (by omega)]
      at h
    cases h
    exact hm rfl
  · have := exponent_le_of_pack h
    omega

/-! ### Exact values -/

/-- A number within the bounds is the one nearest to its own value. -/
theorem ofRatio_exact (h : IsNormal m e) (hm : m ≠ 0) (s : Bool) :
    ofRatio s (m * 2 ^ e.toNat) (2 ^ (-e).toNat) = .finite s m e := by
  have hpos : 0 < m * 2 ^ e.toNat := by positivity
  have hiff (k : Nat) : 2 ^ k ≤ m ↔ e + k ≤ scale (m * 2 ^ e.toNat) (2 ^ (-e).toNat) + 52 := by
    rw [← pow_mul_le_iff_le_scale hpos (by positivity), Nat.mul_comm (2 ^ (-e).toNat),
      Nat.mul_assoc, Nat.mul_le_mul_right_iff (by positivity)]
  have hupper := hiff 53
  have hlower := hiff 52
  have hq : max (scale (m * 2 ^ e.toNat) (2 ^ (-e).toNat)) leastExponent = e := by
    have := h.mantissa
    have := h.least
    have := h.leading
    omega
  rw [ofRatio_of_ne hpos.ne' hq, Nat.mul_assoc, Nat.mul_comm (2 ^ e.toNat),
    roundQuotient_mul_self (by positivity), pack_of_ne h.mantissa.ne,
    if_neg (not_lt.mpr h.greatest)]

end Number

namespace Decimal

/-- The value of a decimal. -/
def value (d : Decimal) : ℚ :=
  d.digits * 10 ^ d.exponent

theorem round_eq (d : Decimal) (s : Bool) :
    d.round s =
      Number.ofRatio s (d.digits * 10 ^ d.exponent.toNat) (10 ^ (-d.exponent).toNat) := rfl

theorem value_eq_div (d : Decimal) :
    d.value = ((d.digits * 10 ^ d.exponent.toNat : Nat) : ℚ) / (10 ^ (-d.exponent).toNat : Nat) := by
  rw [value, Number.zpow_eq_pow_div_pow (by norm_num), mul_div_assoc']
  norm_cast

/-- Decimals of the same value read as the same number. -/
theorem round_eq_of_value_eq {d d' : Decimal} (h : d.value = d'.value) (s : Bool) :
    d.round s = d'.round s := by
  rw [value_eq_div, value_eq_div, div_eq_div_iff (by positivity) (by positivity)] at h
  rw [round_eq, round_eq]
  exact Number.ofRatio_congr (by positivity) (by positivity) (by exact_mod_cast h) s

/-- The decimals of a number that is finite and not zero. -/
theorem value_of_round {d : Decimal} {s : Bool} {m : Nat} {e : Int} (hm : m ≠ 0)
    (h : d.round s = .finite s m e) :
    (2 : ℚ) ^ (-1075 : Int) ≤ d.value ∧ d.value < 2 ^ (1024 : Int) := by
  rw [round_eq] at h
  have hdigits : 0 < d.digits := by
    refine Nat.pos_of_ne_zero fun hzero => hm ?_
    rw [Number.ofRatio, if_pos (by simp [hzero])] at h
    cases h
    rfl
  have hvalue : 0 < d.value := by
    rw [value]
    positivity
  obtain ⟨hleast, hgreatest⟩ := Number.scale_of_ofRatio (by positivity) hm h
  rw [Number.scale_eq (by positivity) (by positivity), ← value_eq_div] at hleast hgreatest
  constructor
  · rw [← Nat.cast_two, Int.zpow_le_iff_le_log (by decide) hvalue]
    simp only [Number.leastExponent] at hleast
    omega
  · rw [← Nat.cast_two, Int.lt_zpow_iff_log_lt (by decide) hvalue]
    simp only [Number.greatestExponent] at hgreatest
    omega

end Decimal

namespace Number

variable {m : Nat} {e : Int}

theorem round_exact (h : IsNormal m e) (hm : m ≠ 0) :
    (exact m e).round false = .finite false m e := by
  rw [← ofRatio_exact h hm, Decimal.round_eq]
  refine ofRatio_congr (by positivity) (by positivity) ?_ false
  simp only [exact, Nat.pow_eq]
  rcases Int.le_total 0 e with he | he
  · simp [Int.min_eq_right he, show (-e).toNat = 0 by omega]
  · have hten : 10 ^ (-e).toNat = 5 ^ (-e).toNat * 2 ^ (-e).toNat := Nat.mul_pow 5 2 _
    rw [Int.min_eq_left he, show e.toNat = 0 by omega, hten]
    simp only [pow_zero, Nat.mul_one, Nat.mul_assoc]

theorem accepts_of_onGrid? {accepts : Decimal → Bool} {num den : Nat} {k : Int} {d : Decimal}
    (h : onGrid? accepts num den k = some d) : accepts d = true := by
  simp only [onGrid?] at h
  split at h
  · rename_i hbelow habove
    split at h
    · cases h
      exact hbelow
    · split at h
      · cases h
        exact habove
      · split at h <;> cases h
        · exact hbelow
        · exact habove
  · rename_i hbelow _
    cases h
    exact hbelow
  · rename_i _ habove
    cases h
    exact habove
  · cases h

/-- The shortest decimal of a number reads back. -/
theorem round_shortest (h : IsNormal m e) (hm : m ≠ 0) :
    (shortest m e).round false = .finite false m e := by
  simp only [shortest]
  cases hfound : (List.range 17).findSome? _ with
  | none => exact round_exact h hm
  | some d =>
    obtain ⟨i, -, hgrid⟩ := List.exists_of_findSome?_eq_some hfound
    exact of_decide_eq_true (accepts_of_onGrid? hgrid)

end Number

end SheetFormula
