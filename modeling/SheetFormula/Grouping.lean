/-!
Lists cut into groups of equal size.
-/

set_option autoImplicit false

namespace SheetFormula

/-- Cuts a list into whole groups of `size + 1` and what is left. -/
def groups {α : Type} (size : Nat) (l : List α) : List (List α) × List α :=
  if h : size < l.length then
    have : (l.drop (size + 1)).length < l.length := by
      rw [List.length_drop]
      omega
    let (more, rest) := groups size (l.drop (size + 1))
    (l.take (size + 1) :: more, rest)
  else ([], l)
termination_by l.length
decreasing_by exact this

end SheetFormula
