/-!
Sets of code points as ascending lists of closed intervals. Membership stops at the first interval
that begins above the point, so a character near the start of a table costs little.
-/

set_option autoImplicit false

namespace SheetFormula.Text

/-- Closed intervals of code points, disjoint and in ascending order. -/
abbrev Intervals := List (Nat × Nat)

/-- Membership of a code point. -/
def Intervals.contains : Intervals → Nat → Bool
  | [], _ => false
  | (low, high) :: rest, n =>
    if n < low then false else if n ≤ high then true else Intervals.contains rest n

end SheetFormula.Text
