import SheetFormula.Proofs.Patterns

/-!
Which runs of tokens are ranges. Two ends with a colon between them and spaces around it make a range
where the ends are compatible: what may stand at the right depends on whether a reference, a column or a
row stands at the left (`Token.Compatible`). From left to right, each run that starts where the scan
stands becomes one reference, and every other token stays (`Token.Fused`). The result is the only list
in this relation to the tokens.
-/

set_option autoImplicit false

namespace SheetFormula.Token

/-- The token is a reference to one cell without a sheet. -/
def IsLocalCell (t : Token) : Prop :=
  t.kind = .reference ∧ t.text.toList ∈ Pattern.cell

/-- The two tokens are the ends of a range. -/
inductive Compatible (left right : Token) : Prop
  | reference (begins : left.kind = .reference)
    (ends : right.IsLocalCell ∨ right.kind = .symbol ∧ right.text.toList ∈ Pattern.column)
  | column (begins : left.kind = .symbol ∧ left.text.toList ∈ Pattern.sheet * Pattern.column)
    (ends : right.IsLocalCell ∨ right.kind = .symbol ∧ right.text.toList ∈ Pattern.column)
  | row (begins : left.kind = .number ∧ left.text.toList ∈ Pattern.row ∨
      left.kind = .symbol ∧ left.text.toList ∈ Pattern.sheet * Pattern.row)
    (ends : right.IsLocalCell ∨
      (right.kind = .number ∨ right.kind = .symbol) ∧ right.text.toList ∈ Pattern.row)

/-- After the left end, the tokens go on with the rest of a range, up to its right end. -/
structure Run (left : Token) (tokens : List Token) (right : Token) (rest : List Token) : Prop where
  compatible : Compatible left right
  split : ∃ before after, (∀ t ∈ before, t.kind = .space) ∧ (∀ t ∈ after, t.kind = .space) ∧
    tokens = before ++ ⟨.operator, ":"⟩ :: (after ++ right :: rest)

/-- The scan from left to right turns the tokens into the list: each run where it stands becomes a
reference, and a token that begins no run stays. -/
inductive Fused : List Token → List Token → Prop
  | nil : Fused [] []
  | run {left right : Token} {tokens rest out : List Token} (run : Run left tokens right rest)
    (more : Fused rest out) :
    Fused (left :: tokens) (⟨.reference, left.text ++ ":" ++ right.text⟩ :: out)
  | keep {t : Token} {tokens out : List Token} (alone : ∀ right rest, ¬ Run t tokens right rest)
    (more : Fused tokens out) : Fused (t :: tokens) (t :: out)

variable {left right : Token} {tokens rest out : List Token}

/-! ### The ends of a range -/

theorem not_isColumn_of_isRow {s : List Char} (h : Address.isRow s = true) :
    Address.isColumn s = false := by
  by_contra hcolumn
  simp only [Address.isRow, Address.isRowName, Bool.and_eq_true, decide_eq_true_eq] at h
  simp only [Address.isColumn, Address.isColumnName, Bool.not_eq_false, Bool.and_eq_true] at hcolumn
  obtain ⟨c, cs, hs⟩ := List.exists_cons_of_length_pos h.1.2
  rw [hs] at h hcolumn
  have hdigit := List.all_eq_true.mp h.1.1 c List.mem_cons_self
  have halpha := List.all_eq_true.mp hcolumn.1.1 c List.mem_cons_self
  rw [Address.not_isAlpha_of_isDigit hdigit] at halpha
  cases halpha

/-- No text is both a column and a row, on whatever sheet. -/
theorem not_column_of_row {s : List Char} (h : Address.onSheet Address.isRow s = true) :
    Address.onSheet Address.isColumn s = false := by
  by_contra hcolumn
  obtain ⟨p, hp, hrow⟩ := (Option.any_eq_true _ _).mp h
  rw [Address.onSheet, hp, Bool.not_eq_false, Option.any_some, not_isColumn_of_isRow hrow] at hcolumn
  cases hcolumn

theorem leftEdge?_eq_cell_iff : leftEdge? left = some .cell ↔ left.kind = .reference := by
  unfold leftEdge?
  cases hkind : left.kind with
  | number => simp
  | symbol =>
    simp only [reduceCtorEq, iff_false]
    split
    · simp
    · split <;> simp
  | _ => simp

theorem leftEdge?_eq_column_iff : leftEdge? left = some .column ↔
    left.kind = .symbol ∧ left.text.toList ∈ Pattern.sheet * Pattern.column := by
  rw [← Address.onSheet_isColumn_iff]
  unfold leftEdge?
  cases hkind : left.kind with
  | number => simp
  | symbol =>
    simp only [true_and]
    split
    · simp [*]
    · split <;> simp [*]
  | _ => simp

theorem leftEdge?_eq_row_iff : leftEdge? left = some .row ↔
    left.kind = .number ∧ left.text.toList ∈ Pattern.row ∨
      left.kind = .symbol ∧ left.text.toList ∈ Pattern.sheet * Pattern.row := by
  rw [← Address.onSheet_isRow_iff, ← Address.isRow_iff]
  unfold leftEdge?
  cases hkind : left.kind with
  | number => simp
  | symbol =>
    simp only [reduceCtorEq, false_and, true_and, false_or]
    split
    · rename_i hcolumn
      have hrow : Address.onSheet Address.isRow left.text.toList ≠ true := by
        intro hrow
        rw [not_column_of_row hrow] at hcolumn
        cases hcolumn
      simp [hrow]
    · split <;> simp [*]
  | _ => simp

theorem closes_iff {edge : Edge} (hedge : edge ≠ .row) : closes edge right = true ↔
    right.IsLocalCell ∨ right.kind = .symbol ∧ right.text.toList ∈ Pattern.column := by
  rw [IsLocalCell, ← Address.isCell_iff, ← Address.isColumn_iff]
  unfold closes
  cases edge with
  | row => exact absurd rfl hedge
  | _ => cases hkind : right.kind <;> simp

theorem closes_row_iff : closes .row right = true ↔
    right.IsLocalCell ∨
      (right.kind = .number ∨ right.kind = .symbol) ∧ right.text.toList ∈ Pattern.row := by
  rw [IsLocalCell, ← Address.isCell_iff, ← Address.isRow_iff]
  unfold closes
  cases hkind : right.kind <;> simp

theorem fit_iff_compatible : Fit left right ↔ Compatible left right := by
  constructor
  · rintro ⟨edge, hedge, hcloses⟩
    cases edge with
    | cell => exact .reference (leftEdge?_eq_cell_iff.mp hedge) ((closes_iff (by simp)).mp hcloses)
    | column => exact .column (leftEdge?_eq_column_iff.mp hedge) ((closes_iff (by simp)).mp hcloses)
    | row => exact .row (leftEdge?_eq_row_iff.mp hedge) (closes_row_iff.mp hcloses)
  · intro h
    cases h with
    | reference begins ends =>
      exact ⟨.cell, leftEdge?_eq_cell_iff.mpr begins, (closes_iff (by simp)).mpr ends⟩
    | column begins ends =>
      exact ⟨.column, leftEdge?_eq_column_iff.mpr begins, (closes_iff (by simp)).mpr ends⟩
    | row begins ends => exact ⟨.row, leftEdge?_eq_row_iff.mpr begins, closes_row_iff.mpr ends⟩

/-! ### Runs -/

/-- A range is found exactly where there is a run. -/
theorem rangeEnd?_eq_some_iff_run :
    rangeEnd? left tokens = some (right, rest) ↔ Run left tokens right rest := by
  have hspaces {spaces : List Token} :
      (∀ t ∈ spaces, t.isSpace = true) ↔ ∀ t ∈ spaces, t.kind = .space := by
    simp [isSpace]
  constructor
  · intro h
    obtain ⟨hfit, hcolon⟩ := rangeEnd?_eq_some h
    obtain ⟨-, before, after, hbefore, hafter, heq⟩ := afterColon?_eq_some_iff.mp hcolon
    exact ⟨fit_iff_compatible.mp hfit, before, after, hspaces.mp hbefore, hspaces.mp hafter, heq⟩
  · rintro ⟨hcompatible, before, after, hbefore, hafter, heq⟩
    have hfit := fit_iff_compatible.mpr hcompatible
    have hright : right.isSpace = false := by simpa [isSpace] using hfit.ne_space.2
    exact hfit.rangeEnd? (afterColon?_eq_some_iff.mpr
      ⟨hright, before, after, hspaces.mpr hbefore, hspaces.mpr hafter, heq⟩)

theorem fused_fuseRanges (tokens : List Token) : Fused tokens (fuseRanges tokens) := by
  fun_induction fuseRanges tokens with
  | case1 => exact .nil
  | case2 left tokens right rest hend _ ih => exact .run (rangeEnd?_eq_some_iff_run.mp hend) ih
  | case3 t tokens hend ih =>
    refine .keep ?_ ih
    intro right rest hrun
    rw [rangeEnd?_eq_some_iff_run.mpr hrun] at hend
    cases hend

theorem Fused.eq_fuseRanges (h : Fused tokens out) : fuseRanges tokens = out := by
  induction h with
  | nil => rw [fuseRanges]
  | run run more ih => rw [fuseRanges_range (rangeEnd?_eq_some_iff_run.mpr run), ih, range]
  | @keep t tokens out alone more ih =>
    have hend : rangeEnd? t tokens = none := by
      rw [Option.eq_none_iff_forall_not_mem]
      rintro ⟨right, rest⟩ hsome
      exact alone right rest (rangeEnd?_eq_some_iff_run.mp hsome)
    rw [fuseRanges_cons hend, ih]

/-- Nothing but spaces is lost. -/
theorem spell_unspaced_fuseRanges (tokens : List Token) :
    spell (unspaced (fuseRanges tokens)) = spell (unspaced tokens) := by
  apply String.toList_injective
  simp only [toList_spell]
  fun_induction fuseRanges tokens with
  | case1 => rfl
  | case2 left tokens right rest hend _ ih =>
    obtain ⟨hfit, hcolon⟩ := rangeEnd?_eq_some hend
    have htail : unspaced tokens = colon :: right :: unspaced rest := by
      have hkinds : ∀ t ∈ unspaced tokens, t.kind ≠ .space := by
        intro t ht
        simpa [isSpace] using (List.mem_filter.mp ht).2
      have hunspaced := afterColon?_unspaced tokens
      rw [hcolon] at hunspaced
      obtain ⟨u, hu, heq⟩ := (afterColon?_eq_some_iff_cons hkinds).mp hunspaced
      rw [heq, eq_colon hu]
    rw [unspaced_cons hfit.ne_space.1, htail, range, unspaced_cons (by simp)]
    simp [ih, colon]
  | case3 t tokens hend ih =>
    by_cases hspace : t.kind = .space
    · rw [unspaced_cons_of_space hspace, unspaced_cons_of_space hspace, ih]
    · rw [unspaced_cons hspace, unspaced_cons hspace, List.flatMap_cons, List.flatMap_cons, ih]

/-- What the fusion of ranges returns is what the scan for runs leads to, and nothing else; the text of
all tokens but the spaces stays. -/
theorem fuseRanges_eq_iff_fused (tokens out : List Token) :
    (fuseRanges tokens = out ↔ Fused tokens out) ∧
      spell (unspaced (fuseRanges tokens)) = spell (unspaced tokens) := by
  refine ⟨⟨?_, Fused.eq_fuseRanges⟩, spell_unspaced_fuseRanges tokens⟩
  rintro rfl
  exact fused_fuseRanges tokens

/-- A number with the mark of an absolute row is an end of a range too, though it is not made of digits
alone. -/
theorem fuseRanges_marked_number :
    fuseRanges [⟨.number, "$1"⟩, ⟨.operator, ":"⟩, ⟨.number, "2"⟩] = [⟨.reference, "$1:2"⟩] ∧
      ¬ ∀ c ∈ "$1".toList, c.isDigit = true := by
  refine ⟨by decide +kernel, ?_⟩
  intro hdigits
  cases hdigits '$' (by simp)

end SheetFormula.Token
