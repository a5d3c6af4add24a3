/-!
Numbers of a sheet: binary floating point with a mantissa of 53 bits. A number is kept by its parts, so
that rounding, comparison and printing are plain integer arithmetic. `Number.ofRatio` rounds a quotient
of naturals to the nearest number and is the only way in which finite numbers arise.
-/

set_option autoImplicit false

namespace SheetFormula

/-- A finite number is `mantissa * 2 ^ exponent` with a sign. The mantissa is below `2 ^ 53`, and at
least `2 ^ 52` unless the exponent is the least one, -1074; the greatest exponent is 971. -/
inductive Number where
  | finite (negative : Bool) (mantissa : Nat) (exponent : Int)
  | infinite (negative : Bool)
  | nan
deriving DecidableEq, Repr, Inhabited

namespace Number

/-- The least exponent; numbers that would need a smaller one lose mantissa bits. -/
def leastExponent : Int := -1074

/-- The greatest exponent; beyond it lies infinity. -/
def greatestExponent : Int := 971

def zero : Number := .finite false 0 leastExponent

/-- The integer nearest to `n / d`, the even one of two. -/
def roundQuotient (n d : Nat) : Nat :=
  let floor := n / d
  let rest := n % d
  if 2 * rest < d then floor
  else if d < 2 * rest then floor + 1
  else floor + floor % 2

/-- The exponent `q` for which `num / den` lies between `2 ^ (52 + q)` and `2 ^ (53 + q)`, the upper
end excluded. -/
def scale (num den : Nat) : Int :=
  let e : Int := (num.log2 : Int) - den.log2
  if den * Nat.pow 2 e.toNat ≤ num * Nat.pow 2 (-e).toNat then e - 52 else e - 53

/-- Joins a rounded mantissa and its exponent. Rounding up can reach `2 ^ 53`, the least mantissa of
the next exponent. -/
def pack (negative : Bool) (mantissa : Nat) (exponent : Int) : Number :=
  let up := mantissa == Nat.pow 2 53
  let exponent := if up then exponent + 1 else exponent
  if greatestExponent < exponent then .infinite negative
  else .finite negative (if up then Nat.pow 2 52 else mantissa) exponent

/-- The number nearest to `num / den`, the one with the even mantissa of two. -/
def ofRatio (negative : Bool) (num den : Nat) : Number :=
  if num = 0 then .finite negative 0 leastExponent
  else
    let q := max (scale num den) leastExponent
    pack negative (roundQuotient (num * Nat.pow 2 (-q).toNat) (den * Nat.pow 2 q.toNat)) q

/-- Equality of values: the two zeros are equal and nothing equals `nan`. -/
def same : Number → Number → Bool
  | .nan, _ => false
  | _, .nan => false
  | .finite s m e, .finite s' m' e' =>
    (m == 0 && m' == 0) || (s == s' && m == m' && e == e')
  | .infinite s, .infinite s' => s == s'
  | _, _ => false

/-- The 64 bits of the interchange form: sign, eleven bits of exponent, 52 of mantissa. -/
def bits : Number → Nat
  | .finite s m e =>
    (if s then Nat.pow 2 63 else 0) +
      (if m < Nat.pow 2 52 then m else (e + 1074).toNat * Nat.pow 2 52 + m)
  | .infinite s => (if s then Nat.pow 2 63 else 0) + 0x7ff * Nat.pow 2 52
  | .nan => 0x7ff * Nat.pow 2 52 + Nat.pow 2 51 + 1

end Number

end SheetFormula
