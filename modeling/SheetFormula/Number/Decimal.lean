import SheetFormula.Number.Basic

/-!
Decimals and the numbers nearest to them. `Decimal.round` reads a decimal as a number; `Number.shortest`
finds the decimal with the fewest digits that reads back, and of those the one nearest to the number.
-/

set_option autoImplicit false

namespace SheetFormula

/-- The decimal `digits * 10 ^ exponent`. -/
structure Decimal where
  digits : Nat
  exponent : Int
deriving DecidableEq, Repr

/-- The number nearest to a decimal. -/
def Decimal.round (negative : Bool) (d : Decimal) : Number :=
  Number.ofRatio negative (d.digits * Nat.pow 10 d.exponent.toNat)
    (Nat.pow 10 (-d.exponent).toNat)

namespace Number

def digitCount (n : Nat) : Nat :=
  (Nat.toDigits 10 n).length

/-- The decimal exponent of the first digit of `num / den`. -/
def leadingExponent (num den : Nat) : Int :=
  if den ≤ num then (digitCount (num / den) : Int) - 1 else -(digitCount ((den - 1) / num) : Int)

/-- The multiple of `10 ^ k` that stands for `num / den`: of its two neighbours on that grid the one
that `accepts` admits, if both the nearer, and the even one when they are equally near. -/
def onGrid? (accepts : Decimal → Bool) (num den : Nat) (k : Int) : Option Decimal :=
  let n := num * Nat.pow 10 (-k).toNat
  let d := den * Nat.pow 10 k.toNat
  let floor := n / d
  let rest := n % d
  let below : Decimal := ⟨floor, k⟩
  let above : Decimal := ⟨floor + 1, k⟩
  match accepts below, accepts above with
  | true, true =>
    if 2 * rest < d then some below
    else if d < 2 * rest then some above
    else if floor % 2 = 0 then some below else some above
  | true, false => some below
  | false, true => some above
  | false, false => none

/-- The value `mantissa * 2 ^ exponent` with all its decimal digits. -/
def exact (mantissa : Nat) (exponent : Int) : Decimal :=
  ⟨mantissa * Nat.pow 2 exponent.toNat * Nat.pow 5 (-exponent).toNat, min exponent 0⟩

/-- The shortest decimal that reads back as the positive number `mantissa * 2 ^ exponent`, the nearest
of the shortest. Seventeen digits are enough to tell any two numbers apart. -/
def shortest (mantissa : Nat) (exponent : Int) : Decimal :=
  let num := mantissa * Nat.pow 2 exponent.toNat
  let den := Nat.pow 2 (-exponent).toNat
  let accepts d := decide (Decimal.round false d = .finite false mantissa exponent)
  let first := leadingExponent num den
  ((List.range 17).findSome? fun i : Nat => onGrid? accepts num den (first - i)).getD
    (exact mantissa exponent)

end Number

end SheetFormula
