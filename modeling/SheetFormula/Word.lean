/-!
Columns, counts and positions are words of 64 bits with a sign. Sums are taken over all integers and
wrapped where they are used.
-/

set_option autoImplicit false

namespace SheetFormula.Word

/-- The least word. -/
def least : Int := -0x8000000000000000

/-- The greatest word. -/
def greatest : Int := 0x7fffffffffffffff

/-- The integer is a word. -/
def holds (n : Int) : Bool :=
  least ≤ n && n ≤ greatest

/-- The word that an integer comes to: beyond one end of the range it goes on at the other. -/
def wrap (n : Int) : Int :=
  n.bmod 0x10000000000000000

theorem wrap_eq_self {n : Int} (low : least ≤ n) (high : n ≤ greatest) : wrap n = n := by
  unfold least at low
  unfold greatest at high
  exact Int.bmod_eq_of_le_mul_two (by omega) (by omega)

end SheetFormula.Word
