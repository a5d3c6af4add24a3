import SheetFormula.Number.Decimal

/-!
Numbers as text. Both forms in use write the shortest digits; they differ in where positional notation
ends and in the words for infinity.
-/

set_option autoImplicit false

namespace SheetFormula.Number

/-- How a number is written: positional notation while the exponent of the first digit is at least
`least` and below `bound`, scientific notation elsewhere. -/
structure Format where
  least : Int
  bound : Int
  infinity : String
  negativeInfinity : String

/-- Numbers of a listing: `100000`, `1e+06`, `+Inf`. -/
def Format.listing : Format := ⟨-4, 6, "+Inf", "-Inf"⟩

/-- Numbers of a formula. Infinity is written as a literal that is out of range. -/
def Format.formula : Format := ⟨-7, 21, "1e999", "-1e999"⟩

/-- Digits with the decimal point after the first `point` of them, zeros filled in where the point
lies outside. -/
def positional (digits : List Char) (point : Int) : List Char :=
  if point ≤ 0 then '0' :: '.' :: (List.replicate (-point).toNat '0' ++ digits)
  else if digits.length ≤ point.toNat then
    digits ++ List.replicate (point.toNat - digits.length) '0'
  else digits.take point.toNat ++ '.' :: digits.drop point.toNat

/-- One digit, the others after a point, and the exponent with its sign and at least two digits. -/
def scientific (digits : List Char) (exponent : Int) : List Char :=
  let mantissa := match digits with
    | [] => []
    | [d] => [d]
    | d :: more => d :: '.' :: more
  let sign := if exponent < 0 then '-' else '+'
  mantissa ++ 'e' :: sign :: (Nat.toDigits 10 exponent.natAbs).leftpad 2 '0'

/-- A decimal in the given form. Final zeros are no digits of its own. -/
def Format.decimal (format : Format) (d : Decimal) : List Char :=
  let all := Nat.toDigits 10 d.digits
  let point : Int := all.length + d.exponent
  let digits := (all.reverse.dropWhile (· == '0')).reverse
  if format.least ≤ point - 1 ∧ point - 1 < format.bound then positional digits point
  else scientific digits (point - 1)

/-- A number in the given form. -/
def text (format : Format) : Number → String
  | .nan => "NaN"
  | .infinite negative => if negative then format.negativeInfinity else format.infinity
  | .finite negative mantissa exponent =>
    let body := if mantissa = 0 then ['0'] else format.decimal (shortest mantissa exponent)
    String.ofList (if negative then '-' :: body else body)

end SheetFormula.Number
