import SheetFormula.Text.Digits
import SheetFormula.Word

/-!
Integers as text: plain decimal ones, and those that may name their base by a leading `0b`, `0o`, `0x` or
`0` and group their digits with underscores. Both must lie in the range of 64-bit words.
-/

set_option autoImplicit false

namespace SheetFormula.Text

/-- Why a text is no integer of the range. -/
inductive IntegerError where
  | malformed
  | outOfRange
deriving DecidableEq, Repr

/-- Reads digits from the left, passing over underscores if they are allowed. The first of a bad digit
and an overflow of 64 bits is reported. -/
def readDigits (base : Nat) (underscores : Bool) (n : Nat) : List Char → Except IntegerError Nat
  | [] => .ok n
  | c :: cs =>
    if c == '_' && underscores then readDigits base underscores n cs
    else match digitValue? c with
      | none => .error .malformed
      | some d =>
        if base ≤ d then .error .malformed
        else if 0x10000000000000000 ≤ n * base + d then .error .outOfRange
        else readDigits base underscores (n * base + d) cs

/-- The base that a number without sign names, with its digits. -/
def basePart (cs : List Char) : Nat × List Char :=
  match cs with
  | '0' :: c :: d :: rest =>
    match c.toLower with
    | 'b' => (2, d :: rest)
    | 'o' => (8, d :: rest)
    | 'x' => (16, d :: rest)
    | _ => (8, c :: d :: rest)
  | '0' :: rest => (8, rest)
  | cs => (10, cs)

/-- Puts the sign to a magnitude and checks the range. -/
def signed (negative : Bool) (magnitude : Nat) : Except IntegerError Int :=
  let n : Int := if negative then -magnitude else magnitude
  if Word.holds n then .ok n else .error .outOfRange

/-- Reads an integer that may name its base. -/
def readInteger (s : String) : Except IntegerError Int :=
  let (negative, body) := splitSign s.toList
  if body = [] then .error .malformed
  else
    let (base, digits) := basePart body
    match readDigits base true 0 digits with
    | .error e => .error e
    | .ok n => if groupedWell body then signed negative n else .error .malformed

/-- Reads a decimal integer. -/
def readDecimalInteger (s : String) : Except IntegerError Int :=
  let (negative, body) := splitSign s.toList
  if body = [] then .error .malformed
  else match readDigits 10 false 0 body with
    | .error e => .error e
    | .ok n => signed negative n

end SheetFormula.Text
