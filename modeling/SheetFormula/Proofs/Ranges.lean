import Mathlib.Data.List.TakeWhile
import SheetFormula.Proofs.Fusion
import SheetFormula.Proofs.Scan

/-!
Where ranges are put together. A range reaches over one colon and no further, spaces do not matter to
it, and between two lists of tokens without a colon at the seam there is none. A column or a row at an
end of a range does not spell a cell.
-/

set_option autoImplicit false

namespace SheetFormula

namespace Token

variable {t left right : Token} {tokens rest xs ys : List Token}

theorem afterColon?_eq_some_iff_cons (hspaces : ∀ t ∈ tokens, t.kind ≠ .space) :
    afterColon? tokens = some (right, rest) ↔
      ∃ colon, colon.isOperator ":" = true ∧ tokens = colon :: right :: rest := by
  have hnil {spaces more : List Token} (h : ∀ u ∈ spaces, u.isSpace = true)
      (hmem : ∀ u ∈ spaces ++ more, u.kind ≠ .space) : spaces = [] := by
    refine List.eq_nil_iff_forall_not_mem.mpr fun u hu => ?_
    exact hmem u (List.mem_append_left _ hu) (by simpa [isSpace] using h u hu)
  rw [afterColon?_eq_some_iff]
  constructor
  · rintro ⟨-, before, after, hbefore, hafter, rfl⟩
    obtain rfl := hnil hbefore hspaces
    obtain rfl := hnil hafter (List.forall_mem_cons.mp hspaces).2
    exact ⟨colon, rfl, rfl⟩
  · rintro ⟨u, hu, rfl⟩
    have hright := hspaces right (by simp)
    exact ⟨by simpa [isSpace] using hright, [], [], by simp, by simp, by rw [eq_colon hu]; rfl⟩

theorem rangeEnd?_eq_some_iff (hspaces : ∀ t ∈ tokens, t.kind ≠ .space) :
    rangeEnd? left tokens = some (right, rest) ↔
      Fit left right ∧ ∃ colon, colon.isOperator ":" = true ∧ tokens = colon :: right :: rest := by
  rw [← afterColon?_eq_some_iff_cons hspaces]
  constructor
  · exact rangeEnd?_eq_some
  · rintro ⟨hfit, hcolon⟩
    exact hfit.rangeEnd? hcolon

theorem rangeEnd?_of_append (hspaces : ∀ t ∈ xs ++ ys, t.kind ≠ .space)
    (h : rangeEnd? left (xs ++ ys) = none) : rangeEnd? left xs = none := by
  rw [Option.eq_none_iff_forall_not_mem]
  rintro ⟨right, rest⟩ hsome
  have hxs : ∀ t ∈ xs, t.kind ≠ .space := fun t ht => hspaces t (List.mem_append_left _ ht)
  obtain ⟨hfit, colon, hcolon, rfl⟩ := (rangeEnd?_eq_some_iff hxs).mp hsome
  rw [(rangeEnd?_eq_some_iff hspaces).mpr ⟨hfit, colon, hcolon, rfl⟩] at h
  cases h

theorem rangeEnd?_operator (h : t.kind = .operator) (tokens : List Token) :
    rangeEnd? t tokens = none := by
  rw [rangeEnd?, leftEdge?, h]

theorem fuseRanges_singleton (t : Token) : fuseRanges [t] = [t] := by
  have hend : rangeEnd? t [] = none := by
    unfold rangeEnd?
    split <;> rfl
  rw [fuseRanges_cons hend, fuseRanges]

/-- A fused list begins with the first token or with a range. -/
theorem fuseRanges_eq_cons (hspaces : ∀ u ∈ tokens, u.kind ≠ .space)
    (h : fuseRanges tokens = t :: rest) :
    (∃ more, tokens = t :: more ∧ rangeEnd? t more = none ∧ fuseRanges more = rest) ∨
      ∃ left colon right more, tokens = left :: colon :: right :: more ∧
        colon.isOperator ":" = true ∧ Fit left right ∧ t = range left right ∧
        fuseRanges more = rest := by
  cases tokens with
  | nil =>
    rw [fuseRanges] at h
    cases h
  | cons u more =>
    cases hend : rangeEnd? u more with
    | none =>
      rw [fuseRanges_cons hend] at h
      cases h
      exact .inl ⟨more, rfl, hend, rfl⟩
    | some found =>
      obtain ⟨right, after⟩ := found
      rw [fuseRanges_range hend] at h
      cases h
      obtain ⟨hfit, colon, hcolon, rfl⟩ :=
        (rangeEnd?_eq_some_iff (List.forall_mem_cons.mp hspaces).2).mp hend
      exact .inr ⟨u, colon, right, after, rfl, hcolon, hfit, rfl, rfl⟩

/-- Ranges are the same without the spaces. -/
theorem fuseRanges_unspaced (tokens : List Token) :
    fuseRanges (unspaced tokens) = unspaced (fuseRanges tokens) := by
  have hunspaced (t : Token) (tokens : List Token) : rangeEnd? t (unspaced tokens) =
      (rangeEnd? t tokens).map fun next => (next.1, unspaced next.2) := by
    unfold rangeEnd?
    split
    · rw [afterColon?_unspaced, Option.filter_map]
      rfl
    · rfl
  fun_induction fuseRanges tokens with
  | case1 => rw [unspaced, List.filter_nil, fuseRanges]
  | case2 t tokens right rest hend _ ih =>
    have hspace : t.kind ≠ .space := by
      obtain ⟨⟨edge, hedge, -⟩, -⟩ := rangeEnd?_eq_some hend
      intro hkind
      rw [leftEdge?, hkind] at hedge
      cases hedge
    have hend' := hunspaced t tokens
    rw [hend] at hend'
    rw [unspaced_cons hspace, fuseRanges_range hend', ih, unspaced_cons (by simp [range])]
  | case3 t tokens hend ih =>
    have hend' := hunspaced t tokens
    rw [hend] at hend'
    by_cases hspace : t.kind = .space
    · rw [unspaced_cons_of_space hspace, unspaced_cons_of_space hspace, ih]
    · rw [unspaced_cons hspace, fuseRanges_cons hend', ih, unspaced_cons hspace]

/-- No range reaches over a seam without a colon. -/
theorem fuseRanges_append (hspaces : ∀ t ∈ xs ++ ys, t.kind ≠ .space)
    (hlast : ∀ t ∈ xs.getLast?, t.isOperator ":" = false)
    (hfirst : ∀ t ∈ ys.head?, t.isOperator ":" = false) :
    fuseRanges (xs ++ ys) = fuseRanges xs ++ fuseRanges ys := by
  fun_induction fuseRanges xs with
  | case1 => rfl
  | case2 t tokens right rest hend _ ih =>
    rw [List.cons_append] at hspaces
    obtain ⟨-, hspaces⟩ := List.forall_mem_cons.mp hspaces
    have htokens : ∀ u ∈ tokens, u.kind ≠ .space := fun u hu =>
      hspaces u (List.mem_append_left _ hu)
    obtain ⟨hfit, colon, hcolon, rfl⟩ := (rangeEnd?_eq_some_iff htokens).mp hend
    have hend' : rangeEnd? t (colon :: right :: rest ++ ys) = some (right, rest ++ ys) :=
      (rangeEnd?_eq_some_iff hspaces).mpr ⟨hfit, colon, hcolon, rfl⟩
    rw [List.cons_append, fuseRanges_range hend', List.cons_append]
    refine congrArg _ (ih (fun u hu => hspaces u ?_) fun u hu => hlast u ?_)
    · exact List.mem_cons_of_mem _ (List.mem_cons_of_mem _ hu)
    · cases rest with
      | nil => cases hu
      | cons v vs => exact hu
  | case3 t tokens hend ih =>
    rw [List.cons_append] at hspaces
    obtain ⟨-, hspaces⟩ := List.forall_mem_cons.mp hspaces
    have hend' : rangeEnd? t (tokens ++ ys) = none := by
      rw [Option.eq_none_iff_forall_not_mem]
      rintro ⟨right, rest⟩ hsome
      obtain ⟨hfit, colon, hcolon, heq⟩ := (rangeEnd?_eq_some_iff hspaces).mp hsome
      -- the colon and the right end both lie in the first list
      rcases tokens with _ | ⟨u, _ | ⟨v, more⟩⟩
      · rw [hfirst colon (by rw [← List.nil_append ys, heq]; rfl)] at hcolon
        cases hcolon
      · obtain ⟨hu, -⟩ := List.cons.inj heq
        rw [← hu, hlast u rfl] at hcolon
        cases hcolon
      · obtain ⟨hu, heq⟩ := List.cons.inj heq
        obtain ⟨hv, -⟩ := List.cons.inj heq
        have htokens : ∀ w ∈ u :: v :: more, w.kind ≠ .space := fun w hw =>
          hspaces w (List.mem_append_left _ hw)
        rw [(rangeEnd?_eq_some_iff htokens).mpr ⟨hv ▸ hfit, u, hu ▸ hcolon, rfl⟩] at hend
        cases hend
    rw [List.cons_append, fuseRanges_cons hend', List.cons_append]
    refine congrArg _ (ih hspaces fun u hu => hlast u ?_)
    cases tokens with
    | nil => cases hu
    | cons v vs => exact hu

end Token

/-! ### Columns and rows -/

namespace Address

variable {s : List Char} {shape : List Char → Bool}

theorem not_isCell_of_isColumn (h : isColumn s = true) : isCell s = false := by
  simp only [isColumn, isColumnName, Bool.and_eq_true] at h
  have hdrop : (dropMark s).dropWhile Char.isAlpha = [] :=
    List.dropWhile_eq_nil_iff.mpr (List.all_eq_true.mp h.1.1)
  simp only [isCell, hdrop]
  exact Bool.and_false _

theorem not_isAlpha_of_isDigit {c : Char} (h : c.isDigit = true) : c.isAlpha = false := by
  by_contra halpha
  unfold Char.isAlpha Char.isUpper Char.isLower at halpha
  unfold Char.isDigit at h
  simp only [Bool.and_eq_true, decide_eq_true_eq] at h halpha
  grind

theorem not_isCell_of_isRow (h : isRow s = true) : isCell s = false := by
  simp only [isRow, isRowName, Bool.and_eq_true] at h
  have hall : ∀ c ∈ dropMark s, c.isDigit = true := List.all_eq_true.mp h.1.1
  have htake : (dropMark s).takeWhile Char.isAlpha = [] := by
    cases hs : dropMark s with
    | nil => rfl
    | cons c cs =>
      have hdigit := hall c (by rw [hs]; exact List.mem_cons_self)
      exact List.takeWhile_cons_of_neg (by simp [not_isAlpha_of_isDigit hdigit])
  simp only [isCell, htake]
  rfl

/-- A text that spells something else than a cell is no cell. -/
theorem not_isCell_of_onSheet (hshape : ∀ p, shape p = true → isCell p = false)
    (h : onSheet shape s = true) : ¬ Lexer.IsCell s := by
  intro hcell
  obtain ⟨p, hp, hpshape⟩ := (Option.any_eq_true _ _).mp h
  obtain ⟨q, hq, hqcell⟩ := (Option.any_eq_true _ _).mp hcell
  obtain rfl : p = q := Option.some.inj (hp.symm.trans hq)
  rw [hshape p hpshape] at hqcell
  cases hqcell

theorem localPart?_of_bare (hs : ∀ c ∈ s, c ≠ '!') : localPart? s = some s := by
  have htake : s.reverse.takeWhile (· != '!') = s.reverse :=
    List.takeWhile_eq_self_iff.mpr fun c hc => by simpa using hs c (List.mem_reverse.mp hc)
  simp [localPart?, htake]

theorem onSheet_of_bare (hs : ∀ c ∈ s, c ≠ '!') (h : shape s = true) : onSheet shape s = true := by
  rw [onSheet, localPart?_of_bare hs]
  exact h

theorem ne_of_dropMark {p : Char → Bool} {d : Char} (hd : d ≠ '$') (hp : p d = false)
    (hs : (dropMark s).all p = true) : ∀ c ∈ s, c ≠ d := by
  rintro c hc rfl
  have hmem : c ∈ dropMark s := by
    unfold dropMark
    split
    · exact (List.mem_cons.mp hc).resolve_left hd
    · exact hc
  rw [List.all_eq_true.mp hs c hmem] at hp
  cases hp

theorem bare_of_isColumn (h : isColumn s = true) : ∀ c ∈ s, c ≠ '!' := by
  simp only [isColumn, isColumnName, Bool.and_eq_true] at h
  exact ne_of_dropMark (by decide) rfl h.1.1

theorem bare_of_isRow (h : isRow s = true) : ∀ c ∈ s, c ≠ '!' := by
  simp only [isRow, isRowName, Bool.and_eq_true] at h
  exact ne_of_dropMark (by decide) rfl h.1.1

end Address

namespace Token

/-- A name at the left end of a range is no cell. -/
theorem not_isCell_of_leftEdge? {t : Token} {edge : Edge} (hkind : t.kind = .symbol)
    (h : leftEdge? t = some edge) : ¬ Lexer.IsCell t.text.toList := by
  simp only [leftEdge?, hkind] at h
  split at h
  · exact Address.not_isCell_of_onSheet (fun _ => Address.not_isCell_of_isColumn) ‹_›
  · split at h
    · exact Address.not_isCell_of_onSheet (fun _ => Address.not_isCell_of_isRow) ‹_›
    · cases h

/-- A name at the right end of a range is no cell. -/
theorem not_isCell_of_closes {t : Token} {edge : Edge} (hkind : t.kind = .symbol)
    (h : closes edge t = true) : ¬ Lexer.IsCell t.text.toList := by
  have hshape : Address.isColumn t.text.toList = true ∨ Address.isRow t.text.toList = true := by
    cases edge <;> simp only [closes, hkind] at h <;> simp [h]
  rcases hshape with hcolumn | hrow
  · exact Address.not_isCell_of_onSheet (fun _ => Address.not_isCell_of_isColumn)
      (Address.onSheet_of_bare (Address.bare_of_isColumn hcolumn) hcolumn)
  · exact Address.not_isCell_of_onSheet (fun _ => Address.not_isCell_of_isRow)
      (Address.onSheet_of_bare (Address.bare_of_isRow hrow) hrow)

end Token

end SheetFormula
