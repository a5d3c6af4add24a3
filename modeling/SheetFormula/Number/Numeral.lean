import SheetFormula.Number.Decimal
import SheetFormula.Text.Digits

/-!
Numerals: the texts that read as numbers. A decimal numeral is digits with an optional point and an
optional exponent of ten. A hexadecimal one is `0x`, hexadecimal digits with an optional point, and an
exponent of two after the letter `p`, which cannot be missing. A sign may stand in front, and single
underscores between digits and after `0x`. The words for infinity and for no number are numerals too. A
numeral beyond the range of numbers reads as infinity or as zero.

A hexadecimal numeral reads as the number nearest to it. So does a decimal one with at most
`Numeral.room` digits before the point, leading zeros not counted (`Numeral.round_of_length_le`). In a
longer one the leading digits decide where they can; where they cannot, digits are left out and their
places are lost.
-/

set_option autoImplicit false

namespace SheetFormula.Number

/-- The radixes of numerals. -/
inductive Radix where
  | decimal
  | hexadecimal
deriving DecidableEq, Repr

namespace Radix

def isDigit : Radix → Char → Bool
  | decimal => Char.isDigit
  | hexadecimal => Text.isHexDigit

/-- The letters that stand before an exponent. -/
def letters : Radix → List Char
  | decimal => ['e', 'E']
  | hexadecimal => ['p', 'P']

end Radix

/-- The value of an exponent's digits. Of a longer one only the first five significant digits count,
which is far beyond the range of numbers. -/
def exponentOfDigits (ds : List Char) : Nat :=
  ds.foldl (fun e d => if e < 10000 then e * 10 + (d.toNat - '0'.toNat) else e) 0

/-- The exponent part up to the end of the text, which may be absent from a decimal numeral. -/
def readExponent? (radix : Radix) : List Char → Option Int
  | [] => if radix = .decimal then some 0 else none
  | c :: rest =>
    if c ∈ radix.letters then
      let (negative, ds) := Text.splitSign rest
      if ds ≠ [] ∧ ds.all Char.isDigit then
        some (if negative then -(exponentOfDigits ds : Int) else exponentOfDigits ds)
      else none
    else none

/-- A numeral in parts: the digits before the point, those after it, and the exponent. -/
structure Numeral where
  whole : List Char
  fraction : List Char
  exponent : Int
deriving DecidableEq, Repr

namespace Numeral

/-- Digits with an optional point and an exponent; at least one digit before the exponent. -/
def read? (radix : Radix) (cs : List Char) : Option Numeral :=
  let whole := cs.takeWhile radix.isDigit
  let rest := cs.dropWhile radix.isDigit
  let (fraction, rest) := match rest with
    | '.' :: more => (more.takeWhile radix.isDigit, more.dropWhile radix.isDigit)
    | rest => ([], rest)
  if whole = [] ∧ fraction = [] then none
  else (readExponent? radix rest).map fun e => ⟨whole, fraction, e⟩

/-- The value of a decimal numeral. -/
def value (n : Numeral) : Decimal :=
  ⟨Nat.ofDigitChars 10 (n.whole ++ n.fraction) 0, n.exponent - n.fraction.length⟩

/-- The most digits of a numeral that are kept when all of them are needed. A number and the middle
between two numbers have fewer. -/
def room : Nat := 800

/-- The most digits that are looked at first. -/
def glance : Nat := 19

/-- The first `n` digits, and 1 if a digit other than zero follows them, else 0. -/
def leading (n : Nat) (ds : List Char) : Nat × Nat :=
  (Nat.ofDigitChars 10 (ds.take n) 0, if (ds.drop n).any (· != '0') then 1 else 0)

/-- The number of the digits `ds` with `places` of them before the point, if the first `glance` digits
settle it: whatever follows, the value lies between these digits and, when something does follow, the
next greater ones, and both ends have the same nearest number or are both beyond the range. -/
def settled? (negative : Bool) (ds : List Char) (places : Int) : Option Number :=
  let (m, more) := leading glance ds
  let below := Decimal.round negative ⟨m, places - glance⟩
  let above := Decimal.round negative ⟨m + more, places - glance⟩
  if below = above then some below else none

/-- The number of the first `room` digits of `ds`, which is longer, with the point after the last of
them and not where it stands in `ds`. A digit 1 stands for all that is left out. -/
def shortened (negative : Bool) (ds : List Char) (exponent : Int) : Number :=
  let (m, more) := leading room ds
  Decimal.round negative ⟨m * 10 + more, exponent - 1⟩

/-- The number that a decimal numeral reads as. -/
def round (negative : Bool) (n : Numeral) : Number :=
  let whole := n.whole.dropWhile (· == '0')
  if whole.length ≤ room then n.value.round negative
  else
    let ds := whole ++ n.fraction
    (settled? negative ds (whole.length + n.exponent)).getD (shortened negative ds n.exponent)

/-- A decimal numeral of ordinary length reads as the number nearest to its value. -/
theorem round_of_length_le (negative : Bool) (n : Numeral) (h : n.whole.length ≤ room) :
    n.round negative = n.value.round negative :=
  if_pos (Nat.le_trans (List.dropWhile_sublist _).length_le h)

/-- The number that a hexadecimal numeral reads as, the nearest to its value: a place after the point is
four binary ones. -/
def roundHexadecimal (negative : Bool) (n : Numeral) : Number :=
  let digits := Text.ofHexDigits (n.whole ++ n.fraction)
  let exponent := n.exponent - 4 * n.fraction.length
  ofRatio negative (digits * Nat.pow 2 exponent.toNat) (Nat.pow 2 (-exponent).toNat)

/-- The number that a numeral reads as in its radix. -/
def roundIn : Radix → Bool → Numeral → Number
  | .decimal => round
  | .hexadecimal => roundHexadecimal

end Numeral

/-- The radix of a numeral without a sign, and the numeral without the mark of its radix. -/
def radixPart : List Char → Radix × List Char
  | '0' :: c :: rest =>
    if c = 'x' ∨ c = 'X' then (.hexadecimal, rest) else (.decimal, '0' :: c :: rest)
  | cs => (.decimal, cs)

/-- A numeral without underscores. Infinity may have a sign, the word for no number has none. -/
def readPlain? (cs : List Char) : Option Number :=
  let (negative, body) := Text.splitSign cs
  let word := body.map Char.toLower
  if word = "inf".toList ∨ word = "infinity".toList then some (.infinite negative)
  else if cs.map Char.toLower = "nan".toList then some .nan
  else
    let (radix, digits) := radixPart body
    (Numeral.read? radix digits).map (Numeral.roundIn radix negative)

/-- Reads a numeral. -/
def ofNumeral? (cs : List Char) : Option Number :=
  if Text.groupedWell (Text.splitSign cs).2 then readPlain? (cs.filter (· != '_')) else none

end SheetFormula.Number
