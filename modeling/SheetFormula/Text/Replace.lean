/-!
Replacement of a pattern in a text, the first occurrence or all of them. Occurrences are taken from
left to right and do not overlap.
-/

set_option autoImplicit false

namespace SheetFormula.Text

/-- What follows the pattern where the text begins with it. -/
def after? : List Char → List Char → Option (List Char)
  | [], cs => some cs
  | _ :: _, [] => none
  | p :: ps, c :: cs => if p = c then after? ps cs else none

/-- Puts `fresh` for the first occurrence of the pattern. -/
def replaceFirst (pattern fresh : List Char) : List Char → List Char
  | [] => []
  | c :: cs =>
    match after? pattern (c :: cs) with
    | some rest => fresh ++ rest
    | none => c :: replaceFirst pattern fresh cs

/-- Puts `fresh` for each occurrence of the two characters `a b`. -/
def replacePair (a b fresh : Char) : List Char → List Char
  | [] => []
  | [c] => [c]
  | c :: d :: cs =>
    if c = a ∧ d = b then fresh :: replacePair a b fresh cs else c :: replacePair a b fresh (d :: cs)

/-- Puts `x y` for each occurrence of the character `a`. -/
def expandChar (a x y : Char) : List Char → List Char
  | [] => []
  | c :: cs => if c = a then x :: y :: expandChar a x y cs else c :: expandChar a x y cs

/-! ### What is replaced -/

variable {a b c x y : Char} {ps fresh cs before : List Char}

theorem after?_append (pattern rest : List Char) : after? pattern (pattern ++ rest) = some rest := by
  induction pattern with
  | nil => rw [List.nil_append, after?]
  | cons p ps ih => rw [List.cons_append, after?, if_pos rfl, ih]

theorem replaceFirst_cons (h : c ≠ a) :
    replaceFirst (a :: ps) fresh (c :: cs) = c :: replaceFirst (a :: ps) fresh cs := by
  rw [replaceFirst, after?, if_neg (Ne.symm h)]

/-- A pattern is found where its first character first stands. -/
theorem replaceFirst_append (h : a ∉ before) (after : List Char) :
    replaceFirst (a :: ps) fresh (before ++ (a :: ps ++ after)) = before ++ (fresh ++ after) := by
  induction before with
  | nil =>
    rw [List.nil_append, List.cons_append, replaceFirst, ← List.cons_append, after?_append]
    rfl
  | cons c before ih =>
    simp only [List.mem_cons, not_or] at h
    rw [List.cons_append, replaceFirst_cons (Ne.symm h.1), ih h.2, List.cons_append]

theorem replaceFirst_eq_self (h : a ∉ cs) : replaceFirst (a :: ps) fresh cs = cs := by
  induction cs with
  | nil => rfl
  | cons c cs ih =>
    simp only [List.mem_cons, not_or] at h
    rw [replaceFirst_cons (Ne.symm h.1), ih h.2]

theorem replacePair_cons {d : Char} (h : c = a → cs.head? ≠ some b) :
    replacePair a b d (c :: cs) = c :: replacePair a b d cs := by
  cases cs with
  | nil => rfl
  | cons e es =>
    rw [replacePair, if_neg]
    rintro ⟨hc, rfl⟩
    exact h hc rfl

theorem head?_expandChar (h : x ≠ a) (s : List Char) : (expandChar a x y s).head? ≠ some a := by
  cases s with
  | nil => simp [expandChar]
  | cons c s =>
    rw [expandChar]
    split
    · simpa using h
    · simpa using ‹_›

/-- Taking marks away again undoes putting one before each occurrence of a character, and the character
may be its own mark. -/
theorem replacePair_expandChar (a b : Char) (s : List Char) :
    replacePair a b b (expandChar b a b s) = s := by
  induction s with
  | nil => rfl
  | cons c s ih =>
    by_cases hc : c = b
    · rw [expandChar, if_pos hc, replacePair, if_pos ⟨rfl, rfl⟩, ih, hc]
    · rw [expandChar, if_neg hc, replacePair_cons, ih]
      rintro rfl
      exact head?_expandChar hc s

end SheetFormula.Text
