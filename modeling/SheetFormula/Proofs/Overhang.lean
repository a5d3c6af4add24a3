import SheetFormula.Proofs.Nesting
import SheetFormula.Proofs.Resaving

/-!
Writing a formula that was read under a limit. The text of a tree has hardly more parentheses than the
formula, and so it is nested no more deeply but for two things: a sign with a mark is written in
parentheses, and so is a whole first operand that ends with a sign, where the formula may have closed the
sign alone. The overhang of a tree counts them along its paths.
-/

set_option autoImplicit false

namespace SheetFormula

namespace Expr

/-- The first operand stands in parentheses only for the sign that it ends with. -/
def closesSign (op : String) (left : Expr) : Bool :=
  leftNeedsParens op left && left.kind == .binary &&
    decide (Operator.priority op ≤ left.priority)

mutual

/-- How much deeper than a formula the text of its tree may be nested. -/
def overhang : Expr → Nat
  | .leaf _ _ => 0
  | .unary l suffix e => overhang e + (l.debug && !suffix).toNat
  | .binary l a b => max (overhang a + (closesSign l.text a).toNat) (overhang b)
  | .call _ as => overhangs as
  | .array _ rs => overhangRows rs

def overhangs : List Expr → Nat
  | [] => 0
  | e :: es => max (overhang e) (overhangs es)

def overhangRows : List (List Expr) → Nat
  | [] => 0
  | r :: rs => max (overhangs r) (overhangRows rs)

end

theorem overhangs_unplaced {es : List Expr} (h : ∀ e ∈ es, e.unplaced.overhang = e.overhang) :
    overhangs (es.map unplaced) = overhangs es := by
  induction es with
  | nil => rfl
  | cons e es ih =>
    obtain ⟨he, hes⟩ := List.forall_mem_cons.mp h
    rw [List.map_cons, overhangs, he, ih hes, overhangs]

/-- The overhang does not depend on places. -/
theorem overhang_unplaced (e : Expr) : e.unplaced.overhang = e.overhang := by
  induction e with
  | leaf l atom => rw [unplaced_leaf, overhang, overhang]
  | unary l suffix e ih =>
    rw [unplaced_unary, overhang, overhang, ih]
    rfl
  | binary l a b iha ihb =>
    have hsees := Resembles.unplaced a
    have hcloses : closesSign l.unplaced.text a.unplaced = closesSign l.text a := by
      rw [closesSign, closesSign, hsees.left, hsees.kind, hsees.priority]
      rfl
    rw [unplaced_binary, overhang, overhang, iha, ihb, hcloses]
  | call l as ih => rw [unplaced_call, overhang, overhang, overhangs_unplaced ih]
  | array l rs ih =>
    have hrows : overhangRows (rs.map (List.map unplaced)) = overhangRows rs := by
      induction rs with
      | nil => rfl
      | cons r rs ihrows =>
        obtain ⟨hr, hrs⟩ := List.forall_mem_cons.mp ih
        rw [List.map_cons, overhangRows, overhangs_unplaced hr, ihrows hrs, overhangRows]
    rw [unplaced_array, overhang, overhang, hrows]

theorem isOmitted_marked (e : Expr) (index : Int) : (e.marked index).isOmitted = e.isOmitted := by
  cases e with
  | leaf l atom => cases atom <;> rfl
  | _ => rfl

theorem overhang_marked (e : Expr) (index : Int) :
    (e.marked index).overhang = e.overhang + (e.isSigned && !e.debug).toNat := by
  cases e with
  | unary l suffix e =>
    cases hdebug : l.debug <;> cases suffix <;>
      simp [marked, withLabel, overhang, isSigned, debug, label, hdebug]
  | binary l a b =>
    rw [marked, withLabel, overhang, overhang]
    rfl
  | _ => rfl

open Phrase (groupIf mark)

/-- A mark is written before the node, an operation in parentheses. -/
theorem phrase_marked {e : Expr} (homitted : e.isOmitted = false) (index : Int) :
    phrase (e.marked index) =
      if e.debug then phrase e
      else .marked (groupIf (e.kind == .unary || e.kind == .binary) (phrase e)) := by
  have hmark (debug operation : Bool) (d : Phrase) : mark true operation d =
      if debug then mark debug operation d
      else .marked (groupIf operation (mark debug operation d)) := by
    cases debug <;> rfl
  cases e with
  | leaf l atom =>
    have hatom : atom ≠ .empty := by
      rintro rfl
      cases homitted
    have hkind : ((Expr.leaf l atom).kind == .unary || (Expr.leaf l atom).kind == .binary) = false := by
      cases atom <;> rfl
    rw [marked, withLabel, phrase_leaf hatom, phrase_leaf hatom, hkind]
    exact hmark l.debug false _
  | unary l suffix e =>
    rw [marked, withLabel, phrase, phrase]
    exact hmark l.debug true _
  | binary l a b =>
    rw [marked, withLabel, phrase, phrase]
    exact hmark l.debug true _
  | call l as =>
    rw [marked, withLabel, phrase, phrase]
    exact hmark l.debug false _
  | array l rs =>
    rw [marked, withLabel, phrase, phrase]
    exact hmark l.debug false _

end Expr

namespace Phrase

variable {op : String} {d r : Phrase}

theorem nesting_attach_le (op : String) (d r : Phrase) :
    (attach op d r).nesting ≤ max d.nesting (r.nesting + 1) := by
  induction r using chainInduction op with
  | alone r h => rw [attach_alone h, nesting]
  | chain op' b c h ih =>
    rw [attach_chain h, nesting, nesting]
    omega

/-! ### Parentheses that the formula has -/

def isGroup : Phrase → Bool
  | .group _ => true
  | _ => false

/-- A right operand is written in parentheses only if it has been read in parentheses. -/
theorem isGroup_of_right (habove : d.StaysAbove (Operator.priority op))
    (h : Expr.rightNeedsParens op d.tree = true) : d.isGroup = true := by
  cases d with
  | group d => rfl
  | marked d =>
    rw [tree, Expr.rightNeedsParens_eq, Expr.debug_marked] at h
    simp at h
  | operation op' a b =>
    have hlt : Operator.priority op < Operator.priority op' := habove.1
    simp only [tree, Expr.rightNeedsParens, Label.bare, Bool.and_eq_true, Bool.or_eq_true,
      decide_eq_true_eq, beq_iff_eq] at h
    omega
  | _ =>
    rw [tree] at h
    cases h

theorem isGroup_of_signed (habove : d.StaysAbove Operator.signPriority)
    (h : Expr.signedNeedsParens d.tree = true) : d.isGroup = true := by
  cases d with
  | group d => rfl
  | marked d =>
    rw [tree, Expr.signedNeedsParens_eq, Expr.debug_marked] at h
    simp at h
  | operation op' a b =>
    have hlt : Operator.signPriority < Operator.priority op' := habove.1
    simp only [tree, Expr.signedNeedsParens, Label.bare, Bool.and_eq_true, decide_eq_true_eq] at h
    omega
  | _ =>
    rw [tree] at h
    cases h

theorem isGroup_of_suffixed (hd : d.Proper) (hbefore : d.EndsBefore (Operator.priority "%"))
    (h : Expr.suffixedNeedsParens d.tree = true) : d.isGroup = true := by
  cases hd with
  | group inner => rfl
  | marked operand above =>
    rw [tree, Expr.suffixedNeedsParens, Expr.debug_marked] at h
    cases h
  | sign sign operand above => exact absurd hbefore.1 (by decide)
  | operation binds binary left right before above =>
    exact absurd hbefore.1 (Nat.not_le.mpr (Operator.priority_lt binary))
  | leaf text atom =>
    rw [tree] at h
    cases atom <;> cases h
  | _ =>
    rw [tree] at h
    cases h

/-- A first operand is written in parentheses only if it has been read in parentheses or ends with a
sign. -/
theorem isGroup_of_left (hbefore : d.EndsBefore (Operator.priority op))
    (h : Expr.leftNeedsParens op d.tree = true) (hsign : Expr.closesSign op d.tree = false) :
    d.isGroup = true := by
  cases d with
  | group d => rfl
  | marked d =>
    rw [tree, Expr.leftNeedsParens, Expr.debug_marked] at h
    cases h
  | sign op' d =>
    have hle : Operator.priority op ≤ Operator.signPriority := hbefore.1
    simp only [tree, Expr.leftNeedsParens, Expr.priority, Bool.and_eq_true, Bool.or_eq_true,
      decide_eq_true_eq, if_false, Bool.false_eq_true] at h
    omega
  | operation op' a b =>
    have hle : Operator.priority op ≤ Operator.priority op' := hbefore.1
    rw [Expr.closesSign, h] at hsign
    simp [tree, Expr.kind, Expr.priority, Label.bare, hle] at hsign
  | leaf text atom =>
    rw [tree] at h
    cases atom <;> cases h
  | _ =>
    rw [tree] at h
    cases h

/-- An operation other than a sign is marked in parentheses. -/
theorem isGroup_of_marked (hd : d.Proper) (habove : d.StaysAbove Operator.atomPriority)
    (hdebug : d.tree.debug = false)
    (h : (d.tree.kind == .unary || d.tree.kind == .binary) = true) (hsigned : d.tree.isSigned = false) :
    d.isGroup = true := by
  cases hd with
  | group inner => rfl
  | marked operand above =>
    rw [tree, Expr.debug_marked] at hdebug
    cases hdebug
  | sign sign operand above =>
    rw [tree] at hsigned
    cases hsigned
  | suffix suffix operand before =>
    exact absurd habove.1 (Nat.not_lt.mpr (Operator.priority_le_atomPriority _))
  | operation binds binary left right before above =>
    exact absurd habove.1 (Nat.not_lt.mpr (Operator.priority_le_atomPriority _))
  | leaf text atom =>
    rw [tree] at h
    cases atom <;> cases h
  | _ =>
    rw [tree] at h
    cases h

/-! ### The text and the formula -/

theorem nesting_groupIf_le (needed : Bool) (d : Phrase) :
    (groupIf needed d).nesting ≤ d.nesting + 1 := by
  cases needed
  · exact Nat.le_succ _
  · exact Nat.le_refl _

/-- The text of the phrase's tree exceeds the phrase by no more than the overhang; there is one level to
spare where the phrase has parentheses around it. -/
def Fits (d : Phrase) : Prop :=
  d.tree.phrase.nesting + d.isGroup.toNat ≤ d.nesting + d.tree.overhang

theorem Fits.nesting_le (h : d.Fits) : d.tree.phrase.nesting ≤ d.nesting + d.tree.overhang :=
  (Nat.le_add_right _ _).trans h

theorem fits_of_nesting_le (hgroup : d.isGroup = false)
    (h : d.tree.phrase.nesting ≤ d.nesting + d.tree.overhang) : d.Fits := by
  rw [Fits, hgroup]
  exact h

/-- Parentheses that were read pay for those that are written. -/
theorem Fits.groupIf (h : d.Fits) {needed : Bool} (hgroup : needed = true → d.isGroup = true) :
    (groupIf needed d.tree.phrase).nesting ≤ d.nesting + d.tree.overhang := by
  cases needed with
  | false => exact h.nesting_le
  | true =>
    unfold Fits at h
    rw [hgroup rfl] at h
    exact h

theorem Fits.group (h : d.Fits) : (Phrase.group d).Fits := by
  have hle := h.nesting_le
  unfold Fits
  rw [tree, nesting, isGroup, Bool.toNat_true]
  omega

theorem Fits.marked (h : d.Fits) (hd : d.Proper) (habove : d.StaysAbove Operator.atomPriority) :
    (Phrase.marked d).Fits := by
  have hle := h.nesting_le
  refine fits_of_nesting_le rfl ?_
  rw [tree, nesting, Expr.overhang_marked]
  cases homitted : d.tree.isOmitted with
  | true =>
    have hmarked : (d.tree.marked 0).isOmitted = true := by rw [Expr.isOmitted_marked, homitted]
    rw [Expr.phrase_of_isOmitted hmarked]
    exact Nat.zero_le _
  | false =>
    rw [Expr.phrase_marked homitted]
    cases hdebug : d.tree.debug with
    | true =>
      rw [if_pos rfl]
      omega
    | false =>
      rw [if_neg (by decide), nesting]
      cases hsigned : d.tree.isSigned with
      | true =>
        have hgroup := nesting_groupIf_le (d.tree.kind == .unary || d.tree.kind == .binary) d.tree.phrase
        simp only [Bool.not_false, Bool.and_self, Bool.toNat_true]
        omega
      | false =>
        have hgroup := h.groupIf fun hoperation =>
          isGroup_of_marked hd habove hdebug hoperation hsigned
        simp only [Bool.false_and, Bool.toNat_false]
        omega

theorem Fits.sign (h : d.Fits) (op : String) (habove : d.StaysAbove Operator.signPriority) :
    (Phrase.sign op d).Fits := by
  have hle := h.groupIf (isGroup_of_signed habove)
  have hphrase : Expr.phrase (.unary (.bare op) false d.tree) =
      .sign op (Phrase.groupIf (Expr.signedNeedsParens d.tree) d.tree.phrase) := by
    rw [Expr.phrase]
    rfl
  refine fits_of_nesting_le rfl ?_
  rw [tree, hphrase, nesting, nesting, Expr.overhang]
  simp only [Label.bare, Bool.false_and, Bool.toNat_false]
  omega

theorem Fits.suffix (h : d.Fits) (hd : d.Proper) (hsuffix : Operator.isSuffix op = true)
    (hbefore : d.EndsBefore (Operator.priority op)) : (Phrase.suffix op d).Fits := by
  obtain rfl : op = "%" := by simpa [Operator.isSuffix] using hsuffix
  have hle := h.groupIf (isGroup_of_suffixed hd hbefore)
  have hphrase : Expr.phrase (.unary (.bare "%") true d.tree) =
      .suffix "%" (Phrase.groupIf (Expr.suffixedNeedsParens d.tree) d.tree.phrase) := by
    rw [Expr.phrase]
    rfl
  refine fits_of_nesting_le rfl ?_
  rw [tree, hphrase, nesting, nesting, Expr.overhang]
  simp only [Label.bare, Bool.false_and, Bool.toNat_false]
  omega

theorem Fits.operation {a b : Phrase} (ha : a.Fits) (hb : b.Fits)
    (hbefore : a.EndsBefore (Operator.priority op)) (habove : b.StaysAbove (Operator.priority op)) :
    (Phrase.operation op a b).Fits := by
  have hleft : (Phrase.groupIf (Expr.leftNeedsParens op a.tree) a.tree.phrase).nesting ≤
      a.nesting + (a.tree.overhang + (Expr.closesSign op a.tree).toNat) := by
    cases hsign : Expr.closesSign op a.tree with
    | true =>
      have hgroup := nesting_groupIf_le (Expr.leftNeedsParens op a.tree) a.tree.phrase
      have hle := ha.nesting_le
      rw [Bool.toNat_true]
      omega
    | false => exact ha.groupIf fun hneeds => isGroup_of_left hbefore hneeds hsign
  have hright := hb.groupIf (isGroup_of_right habove)
  have hphrase : Expr.phrase (.binary (.bare op) a.tree b.tree) =
      attach op (Phrase.groupIf (Expr.leftNeedsParens op a.tree) a.tree.phrase)
        (Phrase.groupIf (Expr.rightNeedsParens op b.tree) b.tree.phrase) := by
    rw [Expr.phrase]
    rfl
  have hattach := nesting_attach_le op
    (Phrase.groupIf (Expr.leftNeedsParens op a.tree) a.tree.phrase)
    (Phrase.groupIf (Expr.rightNeedsParens op b.tree) b.tree.phrase)
  have hoverhang : Expr.overhang (.binary (.bare op) a.tree b.tree) =
      max (a.tree.overhang + (Expr.closesSign op a.tree).toNat) b.tree.overhang := by
    rw [Expr.overhang]
    rfl
  refine fits_of_nesting_le rfl ?_
  rw [tree, hphrase, hoverhang, nesting]
  omega

theorem nestings_phrases_le {ds : List Phrase}
    (h : ∀ d ∈ ds, d.tree.phrase.nesting ≤ d.nesting + d.tree.overhang) :
    nestings (Expr.phrases (trees ds)) ≤ nestings ds + Expr.overhangs (trees ds) := by
  induction ds with
  | nil => exact Nat.le_refl 0
  | cons d ds ih =>
    obtain ⟨hd, hds⟩ := List.forall_mem_cons.mp h
    have hrest := ih hds
    simp only [trees, Expr.phrases, nestings, Expr.overhangs]
    omega

theorem Fits.call (function : String) {as : List Phrase} (h : ∀ a ∈ as, a ≠ .omitted → a.Fits) :
    (Phrase.call function as).Fits := by
  have heach : ∀ a ∈ as, a.tree.phrase.nesting ≤ a.nesting + a.tree.overhang := by
    intro a ha
    by_cases homitted : a = .omitted
    · subst homitted
      rw [tree, Expr.phrase, nesting]
      exact Nat.zero_le _
    · exact (h a ha homitted).nesting_le
  have hle := nestings_phrases_le heach
  have hphrase : Expr.phrase (.call (.bare function) (trees as)) =
      .call function (Expr.phrases (trees as)) := by
    rw [Expr.phrase]
    rfl
  refine fits_of_nesting_le rfl ?_
  rw [tree, hphrase, nesting, nesting, Expr.overhang]
  omega

theorem Fits.array {rs : List (List Phrase)} (h : ∀ r ∈ rs, ∀ c ∈ r, c.Fits) :
    (Phrase.array rs).Fits := by
  have hle : nestingRows (Expr.phraseRows (treeRows rs)) ≤
      nestingRows rs + Expr.overhangRows (treeRows rs) := by
    induction rs with
    | nil => exact Nat.le_refl 0
    | cons r rs ih =>
      obtain ⟨hr, hrs⟩ := List.forall_mem_cons.mp h
      have hrow := nestings_phrases_le fun c hc => (hr c hc).nesting_le
      have hrest := ih hrs
      simp only [treeRows, Expr.phraseRows, nestingRows, Expr.overhangRows]
      omega
  have hphrase : Expr.phrase (.array (.bare "") (treeRows rs)) =
      .array (Expr.phraseRows (treeRows rs)) := by
    rw [Expr.phrase]
    rfl
  refine fits_of_nesting_le rfl ?_
  rw [tree, hphrase, nesting, nesting, Expr.overhang]
  omega

theorem fits_leaf (text : String) (atom : Atom) : (Phrase.leaf text atom).Fits := by
  refine fits_of_nesting_le rfl ?_
  rw [tree, nesting, Expr.overhang]
  by_cases hatom : atom = .empty
  · subst hatom
    rw [Expr.phrase, nesting]
    exact Nat.zero_le _
  · rw [Expr.phrase_leaf hatom]
    exact Nat.le_refl _

/-- The text of what is read from a phrase is nested no more than the overhang deeper. -/
theorem Proper.fits (h : d.Proper) : d.Fits := by
  induction h with
  | leaf text atom => exact fits_leaf text atom
  | group inner ih => exact ih.group
  | marked operand above ih => exact ih.marked operand above
  | sign sign operand above ih => exact ih.sign _ above
  | suffix suffix operand before ih => exact ih.suffix operand suffix before
  | operation binds binary left right before above ihleft ihright =>
    exact ihleft.operation ihright before above
  | call arguments single ih => exact .call _ ih
  | array some rows cells ih => exact .array ih

end Phrase

namespace Expr

/-- A limit under which a formula is read lets its text pass too if it is raised by the overhang. Whether
another limit does depends on the nesting of the text alone. -/
theorem parse_toFormula_within {most : Nat} {formula : String} {root : Expr}
    (h : parse ⟨.canonical, some most⟩ formula = .ok root)
    (hclosed : ∀ t ∈ Token.tokenize .canonical formula, t.kind = .string →
      Lexer.isClosedString t.text.toList = true) :
    (∃ again, parse ⟨.canonical, some (most + root.overhang)⟩ root.toFormula = .ok again) ∧
      ∀ limit, (∃ again, parse ⟨.canonical, some limit⟩ root.toFormula = .ok again) ↔
        (phrase root).nesting ≤ limit := by
  have hderives := derives_toFormula (isOperand_of_parse h hclosed)
  have hiff (limit : Nat) :
      (∃ again, parse ⟨.canonical, some limit⟩ root.toFormula = .ok again) ↔
        (phrase root).nesting ≤ limit :=
    (hderives.ofTokens_iff_within (some limit)).trans (Parser.within_some limit)
  refine ⟨(hiff _).mpr ?_, hiff⟩
  obtain ⟨d, hd, htree, hwithin⟩ := Phrase.exists_derives_within h
  have hfits := hd.grammatical.proper.fits.nesting_le
  rw [← htree, phrase_unplaced, overhang_unplaced] at hfits
  exact hfits.trans (Nat.add_le_add_right ((Parser.within_some most).mp hwithin) _)

/-- Of a call with a marked sign, signs that are closed and an argument left out. -/
theorem parse_toFormula_within_of_signs :
    let formula := "=SUM(?-a,1*(-b)*\"s\",,\x7b(2)\x7d)"
    (∀ t ∈ Token.tokenize .canonical formula, t.kind = .string →
      Lexer.isClosedString t.text.toList = true) ∧
      ∃ root, parse ⟨.canonical, some 5⟩ formula = .ok root ∧
        (∃ again, parse ⟨.canonical, some (5 + root.overhang)⟩ root.toFormula = .ok again) ∧
        ∀ limit, (∃ again, parse ⟨.canonical, some limit⟩ root.toFormula = .ok again) ↔
          (phrase root).nesting ≤ limit := by
  intro formula
  have hclosed : ∀ t ∈ Token.tokenize .canonical formula, t.kind = .string →
      Lexer.isClosedString t.text.toList = true := by decide +kernel
  have hread : (parse ⟨.canonical, some 5⟩ formula).isOk = true := by decide +kernel
  obtain ⟨root, hroot⟩ := exists_ok_of_isOk hread
  exact ⟨hclosed, root, hroot, parse_toFormula_within hroot hclosed⟩

/-- Under a limit the text of a formula may be refused: each factor closes its sign in the formula, and
the text closes the whole product before it instead, one pair of parentheses within the other. -/
theorem signed_factors_beyond_limit :
    (∀ t ∈ Token.tokenize .canonical "=1*(-1)*(-1)*(-1)", t.kind = .string →
      Lexer.isClosedString t.text.toList = true) ∧
      ∃ root, parse ⟨.canonical, some 4⟩ "=1*(-1)*(-1)*(-1)" = .ok root ∧
        root.toFormula = "((1*-1)*-1)*-1" ∧
        ¬ ∃ again, parse ⟨.canonical, some 4⟩ root.toFormula = .ok again := by
  refine ⟨by decide +kernel, ?_⟩
  have htext : (parse ⟨.canonical, some 4⟩ "=1*(-1)*(-1)*(-1)").toOption.any (fun root =>
      root.toFormula == "((1*-1)*-1)*-1" &&
        !(parse ⟨.canonical, some 4⟩ root.toFormula).isOk) = true := by decide +kernel
  obtain ⟨root, hroot, hchecked⟩ := exists_ok_of_any htext
  obtain ⟨hfirst, hrefused⟩ := Bool.and_eq_true_iff.mp hchecked
  refine ⟨root, hroot, eq_of_beq hfirst, ?_⟩
  rintro ⟨again, hagain⟩
  rw [hagain] at hrefused
  cases hrefused

end Expr

end SheetFormula
