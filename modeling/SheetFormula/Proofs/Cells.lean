import SheetFormula.Proofs.Patterns
import SheetFormula.Proofs.Placement
import SheetFormula.Proofs.Sharing

/-!
Cells and ranges. A reference counts as a range where its text has a colon: in its node, in the key of its
formula and in its code. Every reference that was put together around a colon has one. A reference of one
token spells a cell, but the name of its sheet, in quotes, may have a colon, and then the cell is taken for
a range; no other cell is.
-/

set_option autoImplicit false

namespace SheetFormula

open Token (At Gap)

/-! ### Colons in addresses -/

namespace Address

variable {s : List Char}

/-- A cell on a sheet whose name stands in quotes and has a colon. -/
def OnColonSheet (s : List Char) : Prop :=
  ∃ name cell, s = '\'' :: (name ++ '!' :: cell) ∧ isSheetName ('\'' :: name) = true ∧ ':' ∈ name ∧
    isCell cell = true

theorem ne_of_isCell {d : Char} (hmark : d ≠ '$') (halpha : d.isAlpha = false)
    (hdigit : d.isDigit = false) (h : isCell s = true) : ∀ c ∈ s, c ≠ d := by
  obtain ⟨column, hcolumn, row, hrow, rfl⟩ := isCell_iff.mp h
  have hletters := isColumn_iff.mpr hcolumn
  have hdigits := isRow_iff.mpr hrow
  simp only [isColumn, isColumnName, isRow, isRowName, Bool.and_eq_true] at hletters hdigits
  exact List.forall_mem_append.mpr
    ⟨ne_of_dropMark hmark halpha hletters.1.1, ne_of_dropMark hmark hdigit hdigits.1.1⟩

/-- The text of a cell has a colon only in the quoted name of its sheet. -/
theorem colon_mem_iff (hname : Lexer.NameText s) (hcell : Lexer.IsCell s) :
    ':' ∈ s ↔ OnColonSheet s := by
  constructor
  · intro hcolon
    cases hname with
    | plain nonempty symbol number =>
      have hsymbol : Lexer.isSymbolChar ':' = false := by decide +kernel
      rw [symbol ':' hcolon] at hsymbol
      cases hsymbol
    | @quoted body tail closed symbol =>
      rw [Lexer.IsCell] at hcell
      rcases bare_or_eq_append ('\'' :: (body ++ tail)) with hbare | ⟨name, cell, hbare, hsplit⟩
      · rw [onSheet, localPart?_of_bare hbare] at hcell
        have hquoted : isCell ('\'' :: (body ++ tail)) = true := hcell
        exact absurd rfl (ne_of_isCell (by decide) rfl rfl hquoted '\'' List.mem_cons_self)
      · rw [hsplit, onSheet, localPart?_append hbare] at hcell
        split at hcell
        · rename_i hsheet
          cases name with
          | nil => cases hsheet
          | cons c name =>
            obtain ⟨rfl, hrest⟩ := List.cons.inj hsplit
            refine ⟨name, cell, hsplit, hsheet, ?_, hcell⟩
            rw [hsplit] at hcolon
            have hcolon : ':' ∈ name ∨ ':' ∈ cell := by simpa using hcolon
            exact hcolon.resolve_right fun h => ne_of_isCell (by decide) rfl rfl hcell ':' h rfl
        · cases hcell
  · rintro ⟨name, cell, rfl, -, hcolon, -⟩
    simp [hcolon]

end Address

/-! ### References in trees -/

namespace Token

theorem namesRange_iff_of_mem {formula : String} {t : Token} (h : t ∈ tokenize .canonical formula)
    (hkind : t.kind = .reference) :
    Expr.namesRange t.text = true ↔ Address.OnColonSheet t.text.toList := by
  obtain ⟨rest, hspelt⟩ := spelt_of_mem_tokenize h
  rw [hkind] at hspelt
  cases hspelt with
  | reference name cell uncalled =>
    rw [Expr.namesRange, List.contains_iff_mem]
    exact Address.colon_mem_iff name cell

theorem At.mem {tokens : List Token} {i : Int} {t : Token} (h : At tokens i t) : t ∈ tokens := by
  obtain ⟨k, -, ht⟩ := h
  exact List.mem_of_getElem? ht

end Token

namespace Terminal

/-- The tokens that are references by themselves. -/
theorem of_roleOf_eq_reference {locale : Locale} {t : Token} {k : Nat} {text : String}
    (h : roleOf locale t k = .operand (leaf text .reference k k)) :
    t.kind = .reference ∧ t.text = text ∨ t.kind = .invalidReference ∧ text = "#REF" := by
  unfold roleOf at h
  split at h
  · split at h <;> cases h
  · cases h
  · unfold nameLeaf at h
    split at h
    · cases h
    · split at h <;> cases h
  · rename_i hkind
    cases h
    exact .inl ⟨hkind, rfl⟩
  · rename_i hkind
    cases h
    exact .inr ⟨hkind, rfl⟩
  all_goals cases h

end Terminal

namespace Expr

variable {formula : String} {n : Expr}

/-- A reference that was put together around a colon: its token is a range of two tokens of the formula, or
there is a colon among the tokens that it covers. -/
def IsJoined (formula : String) (n : Expr) : Prop :=
  (∃ left ∈ Token.tokenize .canonical formula, ∃ right ∈ Token.tokenize .canonical formula,
      Token.Fit left right ∧
        At (Token.rangeTokenize .canonical formula) n.span.stop (Token.range left right)) ∨
    ∃ k, n.span.start < k ∧ k < n.span.stop ∧
      At (Token.rangeTokenize .canonical formula) k Token.colon

theorem namesRange_joined (left right : String) : namesRange (left ++ ":" ++ right) = true := by
  simp [namesRange]

/-- A reference of a tree is a range where it was put together around a colon or its sheet has one. -/
theorem isRange_iff_of_placed
    (h : n.Placed .canonical (Token.rangeTokenize .canonical formula)) (hkind : n.kind = .reference) :
    n.isRange = true ↔ n.IsJoined formula ∨ Address.OnColonSheet n.text.toList := by
  obtain ⟨l, rfl⟩ : ∃ l, n = .leaf l .reference := by
    cases n with
    | leaf l a =>
      cases a with
      | reference => exact ⟨l, rfl⟩
      | _ => cases hkind
    | _ => cases hkind
  obtain ⟨first, hleads, hstands⟩ := h.stands
  cases hstands with
  | @joined _ left right colon word before middle after last text =>
    have hrange : namesRange l.text = true := by rw [text, namesRange_joined]
    have hfirst := hleads.bounds word.bounds.1
    exact iff_of_true hrange (.inl (.inr ⟨colon, hfirst.2.trans_lt before.1, after.1, middle⟩))
  | @word _ _ t k index word role stop =>
    -- Between the start and the word there can only be marks and parentheses.
    have huncovered {m : Int} (hstart : l.span.start < m) (hstop : m < l.span.stop) :
        ¬ At (Token.rangeTokenize .canonical formula) m Token.colon := by
      intro hcolon
      rw [stop] at hstop
      unfold Leads at hleads
      split at hleads
      · have hmark := hleads.2.2 m _ hstart hstop hcolon
        simp [Token.colon] at hmark
      · have hsingle : l.span.start = first := hleads
        omega
    have hunique {left right : Token}
        (hat : At (Token.rangeTokenize .canonical formula) l.span.stop (Token.range left right)) :
        t = Token.range left right := by
      rw [stop] at hat
      exact word.unique hat
    rcases Terminal.of_roleOf_eq_reference role with ⟨hreference, htext⟩ | ⟨hinvalid, htext⟩
    · rw [isRange, text, label, ← htext]
      rcases Token.mem_fuseRanges word.mem with hmem | ⟨left, hleft, right, hright, hfit, rfl⟩
      · have hsheet := Token.namesRange_iff_of_mem hmem hreference
        refine ⟨fun hrange => .inr (hsheet.mp hrange), ?_⟩
        rintro ((⟨left, -, right, -, -, hat⟩ | ⟨m, hstart, hstop, hcolon⟩) | honSheet)
        · rw [hunique hat]
          exact namesRange_joined _ _
        · exact absurd hcolon (huncovered hstart hstop)
        · exact hsheet.mpr honSheet
      · have hat : At (Token.rangeTokenize .canonical formula) l.span.stop (Token.range left right) := by
          rwa [stop]
        exact iff_of_true (namesRange_joined _ _) (.inl (.inl ⟨left, hleft, right, hright, hfit, hat⟩))
    · rw [isRange, text, label, htext]
      refine iff_of_false (by decide) ?_
      rintro ((⟨left, -, right, -, -, hat⟩ | ⟨m, hstart, hstop, hcolon⟩) | ⟨name, cell, hquote, -⟩)
      · rw [hunique hat] at hinvalid
        cases hinvalid
      · exact huncovered hstart hstop hcolon
      · cases hquote

end Expr

/-! ### A reference as a formula -/

namespace Compiler

variable {c : Compiler} {formula : String}

/-- The formula is one reference, which its node, its key and its code take for a range or a cell, whatever
the store has seen. -/
structure Takes (c : Compiler) (formula : String) (range : Bool) : Prop where
  node : ∀ limit, limit ≠ some 0 → ∃ root, Expr.parse ⟨c.locale, limit⟩ formula = .ok root ∧
    root.kind = .reference ∧ root.text = formula ∧ root.isRange = range
  code : ∀ capacity history,
    let compiled := (c.compile (c.after (.ofCapacity capacity) history) formula).1
    compiled.normalForm = (if range then "|R|" else "|C|") ∧
      ∃ built, compiled.outcome = .ok built ∧ built.routine.result = .slot 1 ∧
        built.routine.code = [if range then .range 1 0 false else .cell 1 0 false]

theorem ofTokens_reference {limit : Option Nat} (hlimit : limit ≠ some 0) (locale : Locale)
    (text : String) :
    Expr.ofTokens ⟨locale, limit⟩ [⟨.reference, text⟩] = .ok (Terminal.leaf text .reference 0 0) := by
  have hdeep : Parser.tooDeep limit [] = false := by
    cases limit with
    | none => rfl
    | some most =>
      have hmost : most ≠ 0 := fun h => hlimit (congrArg some h)
      simp [Parser.tooDeep, hmost]
  have hterminals : Terminal.ofTokens locale [⟨.reference, text⟩] =
      [⟨.operand (Terminal.leaf text .reference 0 0), text, 0⟩] := rfl
  simp only [Expr.ofTokens, hterminals, Parser.dropEquals, Parser.run, Parser.step, Parser.startOperand,
    hdeep, Parser.finish, Parser.close, Bool.false_eq_true, if_false]

section

variable (hc : c.locale = .canonical)
  (htokens : Token.tokenize .canonical formula = [⟨.reference, formula⟩])

include hc htokens

theorem rangeTokenize_reference : Token.rangeTokenize c.locale formula = [⟨.reference, formula⟩] := by
  rw [hc, Token.rangeTokenize, htokens, Token.fuseRanges_singleton]

theorem literals_reference : c.literals formula = Literals.empty.addReference formula := by
  rw [literals, rangeTokenize_reference hc htokens, Literals.ofTokens_reference _ rfl rfl,
    Literals.ofTokens]

theorem fresh_reference : c.fresh formula = .ok ⟨c.key formula,
    [if Expr.namesRange formula then .range 1 0 false else .cell 1 0 false], .slot 1, 1⟩ := by
  have hread : (c.literals formula).unreadable = none := by
    rw [literals_reference hc htokens]
    rfl
  rw [fresh_of_readable hread, build_eq_bind, rangeTokenize_reference hc htokens,
    ofTokens_reference (by rintro ⟨⟩)]
  simp only [bind, Except.bind, Routine.ofExpr, Terminal.leaf, Generate.expr, Generate.leaf]
  cases Expr.namesRange formula <;> rfl

theorem takes_reference : c.Takes formula (Expr.namesRange formula) where
  node limit hlimit := by
    refine ⟨Terminal.leaf formula .reference 0 0, ?_, rfl, rfl, rfl⟩
    rw [Expr.parse, rangeTokenize_reference hc htokens]
    exact ofTokens_reference hlimit _ _
  code capacity history := by
    intro compiled
    have hfaithful := (faithful_ofCapacity c capacity).after history
    obtain ⟨built, hbuilt, hroutine⟩ := hfaithful.outcome_of_fresh hc (fresh_reference hc htokens)
    refine ⟨?_, built, hbuilt, by rw [hroutine], by rw [hroutine]⟩
    rw [Compiled.normalForm, hbuilt]
    have hliterals : compiled.literals = _ := literals_compile
    rw [hliterals, literals_reference hc htokens]
    cases h : Expr.namesRange formula <;> simp [Literals.addReference, Literals.addKey, Literals.empty, h]

end

/-- A reference of one token is taken for the cell that it spells, unless its sheet has a colon; then it is
taken for a range. In any formula, the ranges among the references are those that were put together around
a colon and those cells. -/
theorem takes_cell_unless_onColonSheet (c : Compiler) (hc : c.locale = .canonical) :
    (∀ formula, Token.tokenize .canonical formula = [⟨.reference, formula⟩] →
      (¬ Address.OnColonSheet formula.toList → c.Takes formula false) ∧
        (Address.OnColonSheet formula.toList → c.Takes formula true)) ∧
      ∀ limit formula root, Expr.parse ⟨.canonical, limit⟩ formula = .ok root →
        ∀ n ∈ root.nodes, n.kind = .reference →
          (n.isRange = true ↔ n.IsJoined formula ∨ Address.OnColonSheet n.text.toList) := by
  constructor
  · intro formula htokens
    have htakes := takes_reference hc htokens
    have hmem : (⟨.reference, formula⟩ : Token) ∈ Token.tokenize .canonical formula := by
      rw [htokens]
      exact List.mem_singleton_self _
    have hsheet : Expr.namesRange formula = true ↔ Address.OnColonSheet formula.toList :=
      Token.namesRange_iff_of_mem hmem rfl
    refine ⟨fun hplain => ?_, fun hcolon => ?_⟩
    · rwa [Bool.eq_false_iff.mpr fun h => hplain (hsheet.mp h)] at htakes
    · rwa [hsheet.mpr hcolon] at htakes
  · intro limit formula root hroot n hn hkind
    exact Expr.isRange_iff_of_placed (Expr.allPlaced_of_ofTokens hroot n hn) hkind

/-- Of a cell on a sheet with a quote in its name, and of the references in a sum. -/
theorem takes_cell_of_quote :
    Takes {} "'it''s'!$B$2" false ∧
      ∃ root, Expr.parse ⟨.canonical, some 256⟩ "=SUM(A1:B2, 'x'!A1 : 'y'!B2, 'a:b'!C3, #REF)" = .ok root ∧
        (root.nodes.filter (·.kind == .reference)).map Expr.isRange = [true, true, true, false] ∧
        ∀ n ∈ root.nodes, n.kind = .reference → (n.isRange = true ↔
          n.IsJoined "=SUM(A1:B2, 'x'!A1 : 'y'!B2, 'a:b'!C3, #REF)" ∨
            Address.OnColonSheet n.text.toList) := by
  obtain ⟨hsingle, hnodes⟩ := takes_cell_unless_onColonSheet {} rfl
  refine ⟨(hsingle _ (by decide +kernel)).1 ?_, ?_⟩
  · rintro ⟨name, cell, hname, -, hcolon, -⟩
    have hmem : ':' ∈ "'it''s'!$B$2".toList := by simp [hname, hcolon]
    exact absurd hmem (by decide)
  · have hranges : (Expr.parse ⟨.canonical, some 256⟩
        "=SUM(A1:B2, 'x'!A1 : 'y'!B2, 'a:b'!C3, #REF)").toOption.map (fun root =>
          (root.nodes.filter (·.kind == .reference)).map Expr.isRange) =
        some [true, true, true, false] := by decide +kernel
    obtain ⟨root, hroot, hmarks⟩ := exists_ok_of_map hranges
    exact ⟨root, hroot, hmarks, hnodes _ _ root hroot⟩

/-- The cell `A1` of the sheet `a:b` is taken for a range. -/
theorem cell_of_colon_sheet_taken_for_range :
    Token.tokenize .canonical "'a:b'!A1" = [⟨.reference, "'a:b'!A1"⟩] ∧
      (Expr.parse {} "'a:b'!A1").toOption.map Expr.isRange = some true ∧
      (compile {} (.ofCapacity 0) "'a:b'!A1").1.normalForm = "|R|" ∧
      (compile {} (.ofCapacity 0) "'a:b'!A1").1.built?.map (·.routine.code) =
        some [.range 1 0 false] := by
  decide +kernel

end Compiler

end SheetFormula
